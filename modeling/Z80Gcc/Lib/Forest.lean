import Mathlib.Data.Finset.Card
import Mathlib.Logic.Relation

/-! Sets of arcs of a directed multigraph without undirected cycles. -/

namespace Z80Gcc.Forest

variable {V A : Type*} {src dst : A → V}

def Joins (src dst : A → V) (a : A) (v w : V) : Prop :=
  src a = v ∧ dst a = w ∨ src a = w ∧ dst a = v

theorem Joins.symm {a : A} {v w : V} (hj : Joins src dst a v w) : Joins src dst a w v :=
  Or.symm hj

theorem joins_self (a : A) : Joins src dst a (src a) (dst a) := .inl ⟨rfl, rfl⟩

def Touches (src dst : A → V) (a : A) (v : V) : Prop := src a = v ∨ dst a = v

theorem Touches.joins {a : A} {v : V} (ht : Touches src dst a v) : ∃ w, Joins src dst a v w := by
  obtain rfl | rfl := ht
  · exact ⟨_, .inl ⟨rfl, rfl⟩⟩
  · exact ⟨_, .inr ⟨rfl, rfl⟩⟩

/-- A way along distinct arcs, the last one first. -/
inductive Trail (src dst : A → V) (T : A → Prop) : V → V → List A → Prop
  | nil (v : V) : Trail src dst T v v []
  | cons {u v w : V} {a : A} {p : List A} (hp : Trail src dst T u v p) (ha : T a) (hnew : a ∉ p)
      (hj : Joins src dst a v w) : Trail src dst T u w (a :: p)

/-- No way along distinct arcs leads back to where it began. -/
def Acyclic (src dst : A → V) (T : A → Prop) : Prop :=
  ∀ v p, Trail src dst T v v p → p = []

def Connected (src dst : A → V) (T : A → Prop) : V → V → Prop :=
  Relation.ReflTransGen fun v w => ∃ a, T a ∧ Joins src dst a v w

variable {T : A → Prop}

theorem Connected.symm {v w : V} (hc : Connected src dst T v w) : Connected src dst T w v := by
  induction hc with
  | refl => exact .refl
  | tail _ hstep ih =>
    obtain ⟨a, ha, hj⟩ := hstep
    exact .head ⟨a, ha, hj.symm⟩ ih

theorem Connected.mono {T' : A → Prop} (hsub : ∀ a, T a → T' a) {v w : V}
    (hc : Connected src dst T v w) : Connected src dst T' v w :=
  Relation.ReflTransGen.mono (fun _ _ ⟨a, ha, hj⟩ => ⟨a, hsub a ha, hj⟩) _ _ hc

theorem Connected.closed {S : V → Prop} (hS : ∀ a, T a → ∀ v w, Joins src dst a v w → S v → S w)
    {v w : V} (hc : Connected src dst T v w) (hv : S v) : S w := by
  induction hc with
  | refl => exact hv
  | tail _ hstep ih =>
    obtain ⟨a, ha, hj⟩ := hstep
    exact hS a ha _ _ hj ih

namespace Trail

variable {u v w : V} {p q : List A}

theorem mem (ht : Trail src dst T u w p) : ∀ a ∈ p, T a := by
  induction ht with
  | nil => intro a ha; cases ha
  | cons _ ha _ _ ih =>
    intro b hb
    rcases List.mem_cons.1 hb with rfl | hb
    · exact ha
    · exact ih b hb

theorem nodup (ht : Trail src dst T u w p) : p.Nodup := by
  induction ht with
  | nil => exact List.nodup_nil
  | cons _ _ hnew _ ih => exact List.nodup_cons.2 ⟨hnew, ih⟩

theorem mono {T' : A → Prop} (ht : Trail src dst T u w p) (hsub : ∀ a ∈ p, T' a) :
    Trail src dst T' u w p := by
  induction ht with
  | nil => exact .nil _
  | cons _ _ hnew hj ih =>
    exact .cons (ih fun a ha => hsub a (List.mem_cons_of_mem _ ha)) (hsub _ (List.mem_cons_self ..))
      hnew hj

theorem connected (ht : Trail src dst T u w p) : Connected src dst T u w := by
  induction ht with
  | nil => exact .refl
  | cons _ ha _ hj ih => exact .tail ih ⟨_, ha, hj⟩

theorem split (ht : Trail src dst T u w (q ++ p)) :
    ∃ v, Trail src dst T v w q ∧ Trail src dst T u v p := by
  induction q generalizing w with
  | nil => exact ⟨w, .nil w, ht⟩
  | cons a q ih =>
    cases ht with
    | cons hp ha hnew hj =>
      obtain ⟨v, hq, hp⟩ := ih hp
      exact ⟨v, .cons hq ha (fun hmem => hnew (List.mem_append_left _ hmem)) hj, hp⟩

theorem prepend (ht : Trail src dst T v w p) {a : A} (ha : T a) (hnew : a ∉ p)
    (hj : Joins src dst a u v) : Trail src dst T u w (p ++ [a]) := by
  induction ht with
  | nil => exact .cons (.nil _) ha (List.not_mem_nil) hj
  | cons _ hb hbnew hbj ih =>
    rw [List.mem_cons, not_or] at hnew
    refine .cons (ih hnew.2) hb (fun hmem => ?_) hbj
    rcases List.mem_append.1 hmem with hmem | hmem
    · exact hbnew hmem
    · exact hnew.1 (List.mem_singleton.1 hmem).symm

end Trail

theorem acyclic_of_empty (hT : ∀ a, ¬ T a) : Acyclic src dst T := by
  intro v p ht
  cases ht with
  | nil => rfl
  | cons _ ha _ _ => exact absurd ha (hT _)

theorem Acyclic.mono {T' : A → Prop} (hac : Acyclic src dst T') (hsub : ∀ a, T a → T' a) :
    Acyclic src dst T :=
  fun v p ht => hac v p (ht.mono fun a ha => hsub a (ht.mem a ha))

/-- An arc between parts that are not connected closes no cycle. -/
theorem Acyclic.insert (hac : Acyclic src dst T) {e : A}
    (hnew : ¬ Connected src dst T (src e) (dst e)) : Acyclic src dst fun a => T a ∨ a = e := by
  intro x p ht
  by_cases he : e ∈ p
  · obtain ⟨q, r, rfl⟩ := List.append_of_mem he
    have hnodup := ht.nodup
    obtain ⟨v, hq, hrest⟩ := ht.split
    cases hrest with
    | cons hr _ _ hj =>
      -- both ends of the arc are connected to the start without it
      have hold : ∀ {y z : V} {s : List A}, Trail src dst (fun a => T a ∨ a = e) y z s → e ∉ s →
          Connected src dst T y z := by
        intro y z s hs hne
        refine (hs.mono fun a ha => ?_).connected
        exact (hs.mem a ha).resolve_right fun heq => hne (heq ▸ ha)
      have heq : e ∉ q := fun hmem =>
        (List.disjoint_of_nodup_append hnodup) hmem (List.mem_cons_self ..)
      have her : e ∉ r := (List.nodup_cons.1 (List.nodup_append.1 hnodup).2.1).1
      have hends := (hold hq heq).trans (hold hr her)
      obtain ⟨rfl, rfl⟩ | ⟨rfl, rfl⟩ := hj
      · exact absurd (Connected.symm hends) hnew
      · exact absurd hends hnew
  · exact hac x p (ht.mono fun a ha => (ht.mem a ha).resolve_right fun heq => he (heq ▸ ha))

/-- A finite set of arcs without cycles has an end: a vertex with exactly one arc. -/
theorem Acyclic.exists_leaf [DecidableEq A] (hac : Acyclic src dst T) {S : Finset A}
    (hS : ∀ a, T a → a ∈ S) {a₀ : A} (ha₀ : T a₀) :
    ∃ a v, T a ∧ Touches src dst a v ∧ src a ≠ dst a ∧
      ∀ b, T b → Touches src dst b v → b = a := by
  by_contra hno
  -- a way that is not empty can be continued
  have hextend : ∀ u w a p, Trail src dst T u w (a :: p) → ∃ w' b, Trail src dst T u w' (b :: a :: p) := by
    intro u w a p ht
    have ht' := ht
    cases ht with
    | cons hp ha hnew hj =>
      have htouch : Touches src dst a w := by
        obtain ⟨-, rfl⟩ | ⟨rfl, -⟩ := hj
        · exact .inr rfl
        · exact .inl rfl
      have hends : src a ≠ dst a := by
        intro heq
        have hloop : Trail src dst T (src a) (src a) [a] :=
          .cons (.nil _) ha (List.not_mem_nil) (.inl ⟨rfl, heq.symm⟩)
        cases hac _ _ hloop
      obtain ⟨b, hb, htb, hne⟩ : ∃ b, T b ∧ Touches src dst b w ∧ b ≠ a := by
        by_contra hall
        refine hno ⟨a, w, ha, htouch, hends, fun b hb htb => ?_⟩
        by_contra hne
        exact hall ⟨b, hb, htb, hne⟩
      by_cases hmem : b ∈ a :: p
      · exfalso
        obtain ⟨q, r, hsplit⟩ := List.append_of_mem hmem
        have hqne : q ≠ [] := by
          rintro rfl
          exact hne (List.cons.inj hsplit).1.symm
        rw [hsplit] at ht'
        obtain ⟨x, hq, hrest⟩ := ht'.split
        cases hrest with
        | cons hr hb' hnew' hj' =>
          -- back at `w` after `q`, or after `q` and `b`
          obtain hw | hw : w = x ∨ Joins src dst b w x := by
            obtain ⟨rfl, rfl⟩ | ⟨rfl, rfl⟩ := hj'
            · obtain rfl | rfl := htb
              · exact .inr (.inl ⟨rfl, rfl⟩)
              · exact .inl rfl
            · obtain rfl | rfl := htb
              · exact .inl rfl
              · exact .inr (.inr ⟨rfl, rfl⟩)
          · rw [← hw] at hq
            exact hqne (hac _ _ hq)
          · have hnodup := ht'.nodup
            have hback : Trail src dst T w w (q ++ [b]) := hq.prepend hb
              (fun hmem => (List.disjoint_of_nodup_append hnodup) hmem (List.mem_cons_self ..)) hw
            have hnil := hac _ _ hback
            exact hqne (List.append_eq_nil_iff.1 hnil).1
      · obtain ⟨w', hw'⟩ := htb.joins
        exact ⟨w', b, .cons ht' hb hmem hw'⟩
  -- so there are ways longer than there are arcs
  have hlong : ∀ n, ∃ u w a p, Trail src dst T u w (a :: p) ∧ p.length = n := by
    intro n
    induction n with
    | zero =>
      exact ⟨src a₀, dst a₀, a₀, [], .cons (.nil _) ha₀ (List.not_mem_nil) (joins_self a₀), rfl⟩
    | succ n ih =>
      obtain ⟨u, w, a, p, ht, hlen⟩ := ih
      obtain ⟨w', b, ht'⟩ := hextend u w a p ht
      exact ⟨u, w', b, a :: p, ht', by rw [List.length_cons, hlen]⟩
  obtain ⟨u, w, a, p, ht, hlen⟩ := hlong S.card
  have hsub : (a :: p).toFinset ⊆ S := fun b hb => hS b (ht.mem b (List.mem_toFinset.1 hb))
  have hcard := Finset.card_le_card hsub
  rw [List.toFinset_card_of_nodup ht.nodup, List.length_cons, hlen] at hcard
  omega

end Z80Gcc.Forest
