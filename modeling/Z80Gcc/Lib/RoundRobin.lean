import Mathlib.Logic.Function.Basic
import Mathlib.Order.WellFounded
import Mathlib.Data.List.Basic

/-! Equations between the nodes of a graph, one for each node, solved by going over the nodes until nothing
changes. A node may be passed over while nothing that its equation reads has changed; the solution is the greatest
below the start all the same. -/

namespace Z80Gcc.RoundRobin

section Loop

variable {S : Type}

/-- `changed = 1; while (changed) changed = pass ();` -/
def whileChanged (pass : S → S × Bool) : Nat → S → Option S
  | 0, _ => none
  | fuel + 1, s => if (pass s).2 then whileChanged pass fuel (pass s).1 else some (pass s).1

/-- A loop ends if each pass that changes something goes down. -/
theorem whileChanged_ends (pass : S → S × Bool) {r : S → S → Prop} (hr : WellFounded r) (Inv : S → Prop)
    (hpass : ∀ s, Inv s → Inv (pass s).1 ∧ ((pass s).2 = true → r (pass s).1 s)) {s : S} (hs : Inv s) :
    ∃ N last, Inv last ∧ (pass last).2 = false ∧ ∀ fuel ≥ N, whileChanged pass fuel s = some (pass last).1 := by
  induction s using hr.induction with
  | h s ih =>
    obtain ⟨hinv, hdown⟩ := hpass s hs
    cases hchanged : (pass s).2 with
    | false =>
      refine ⟨1, s, hs, hchanged, fun fuel hfuel => ?_⟩
      obtain ⟨fuel, rfl⟩ := Nat.exists_eq_add_of_le' hfuel
      rw [whileChanged, hchanged, if_neg Bool.false_ne_true]
    | true =>
      obtain ⟨N, last, hlast, hdone, hloop⟩ := ih _ (hdown hchanged) hinv
      refine ⟨N + 1, last, hlast, hdone, fun fuel hfuel => ?_⟩
      obtain ⟨fuel, rfl⟩ := Nat.exists_eq_add_of_le' (Nat.le_trans (Nat.le_add_left 1 N) hfuel)
      rw [whileChanged, if_pos hchanged]
      exact hloop fuel (Nat.le_of_succ_le_succ hfuel)

end Loop

/-- One equation a node: `input` is what a node reads, given what it has read before, and `transfer` its value from
that. A node is visited if `test` says so of the nodes that have changed. -/
structure Sweep (B A : Type) where
  order : List B
  test : (B → Bool) → B → Bool
  input : (B → A) → B → A → A
  transfer : B → A → A

structure State (B A : Type) where
  value : B → A
  aux : B → A
  changed : B → Bool

namespace Sweep

variable {B A : Type} [DecidableEq B] [DecidableEq A]

def visit (p : Sweep B A) (old : B → Bool) (s : State B A) (b : B) : State B A :=
  if p.test (fun c => old c || s.changed c) b then
    let a := p.input s.value b (s.aux b)
    let v := p.transfer b a
    { value := Function.update s.value b v
      aux := Function.update s.aux b a
      changed := if v = s.value b then s.changed else Function.update s.changed b true }
  else
    s

def pass (p : Sweep B A) (s : State B A) : State B A × Bool :=
  let s' := p.order.foldl (p.visit s.changed) { s with changed := fun _ => false }
  (s', p.order.any s'.changed)

def solve (p : Sweep B A) (fuel : Nat) (value aux : B → A) : Option (State B A) :=
  whileChanged p.pass fuel ⟨value, aux, fun _ => true⟩

def image (p : Sweep B A) (aux₀ : B → A) (v : B → A) (b : B) : A := p.transfer b (p.input v b (aux₀ b))

/-- Values go down in an order without infinite descents, nodes depend on those that `dep` says, and a node is
visited if it always is or one that it depends on has changed. -/
structure Lawful (p : Sweep B A) (le : A → A → Prop) (always : B → Prop) (dep : B → B → Prop) : Prop where
  complete : ∀ b, b ∈ p.order
  refl : ∀ a, le a a
  trans : ∀ a b c, le a b → le b c → le a c
  antisymm : ∀ a b, le a b → le b a → a = b
  wf : WellFounded fun v v' : B → A => (∀ b, le (v b) (v' b)) ∧ v ≠ v'
  test_iff : ∀ cs b, p.test cs b = true ↔ always b ∨ ∃ c, dep b c ∧ cs c = true
  input_input : ∀ v v' b a, p.input v b (p.input v' b a) = p.input v b a
  input_congr : ∀ v v' b a, (∀ c, dep b c → v c = v' c) → p.input v b a = p.input v' b a
  mono : ∀ v v' b a, (∀ c, le (v c) (v' c)) → le (p.transfer b (p.input v b a)) (p.transfer b (p.input v' b a))

def Settled (p : Sweep B A) (aux₀ : B → A) (s : State B A) (b : B) : Prop :=
  s.value b = p.image aux₀ s.value b ∧ s.aux b = p.input s.value b (aux₀ b)

structure Descending (p : Sweep B A) (le : A → A → Prop) (v₀ aux₀ : B → A) (s : State B A) : Prop where
  aux : ∀ v b, p.input v b (s.aux b) = p.input v b (aux₀ b)
  image_le : ∀ b, le (p.image aux₀ s.value b) (s.value b)
  le_start : ∀ b, le (s.value b) (v₀ b)
  above : ∀ v, (∀ b, le (v b) (v₀ b)) → (∀ b, le (v b) (p.image aux₀ v b)) → ∀ b, le (v b) (s.value b)

/-- A node is settled, or has something to do: in this pass, or in the next. -/
def Ready (p : Sweep B A) (always : B → Prop) (dep : B → B → Prop) (aux₀ : B → A) (old : B → Bool)
    (done : List B) (s : State B A) (b : B) : Prop :=
  p.Settled aux₀ s b ∨ (∃ c, dep b c ∧ s.changed c = true) ∨
    b ∉ done ∧ (always b ∨ ∃ c, dep b c ∧ old c = true)

section Visit

variable {p : Sweep B A} {le : A → A → Prop} {always : B → Prop} {dep : B → B → Prop} {v₀ aux₀ : B → A}
  {old : B → Bool} {s : State B A} {b : B}

theorem visit_value (h : p.test (fun c => old c || s.changed c) b = true) : (p.visit old s b).value =
    Function.update s.value b (p.transfer b (p.input s.value b (s.aux b))) := by
  rw [visit, if_pos h]

theorem visit_aux (h : p.test (fun c => old c || s.changed c) b = true) : (p.visit old s b).aux =
    Function.update s.aux b (p.input s.value b (s.aux b)) := by
  rw [visit, if_pos h]

theorem visit_mark (h : p.test (fun c => old c || s.changed c) b = true) : (p.visit old s b).changed =
    if p.transfer b (p.input s.value b (s.aux b)) = s.value b then s.changed
      else Function.update s.changed b true := by
  rw [visit, if_pos h]

theorem visit_of_not_test (h : ¬p.test (fun c => old c || s.changed c) b = true) : p.visit old s b = s :=
  if_neg h

omit [DecidableEq B] [DecidableEq A] in
theorem Descending.transfer_eq (h : p.Descending le v₀ aux₀ s) (b : B) :
    p.transfer b (p.input s.value b (s.aux b)) = p.image aux₀ s.value b := by
  rw [h.aux, image]

theorem Lawful.visit_le (hp : p.Lawful le always dep) (h : p.Descending le v₀ aux₀ s) (old : B → Bool) (b c : B) :
    le ((p.visit old s b).value c) (s.value c) := by
  by_cases ht : p.test (fun c => old c || s.changed c) b = true
  · rw [visit_value ht, h.transfer_eq]
    by_cases hc : c = b
    · subst hc
      rw [Function.update_self]
      exact h.image_le c
    · rw [Function.update_of_ne hc]
      exact hp.refl _
  · rw [visit_of_not_test ht]
    exact hp.refl _

theorem Lawful.visit_descending (hp : p.Lawful le always dep) (h : p.Descending le v₀ aux₀ s) :
    p.Descending le v₀ aux₀ (p.visit old s b) := by
  have hle := fun c => hp.visit_le h old b c
  by_cases ht : p.test (fun c => old c || s.changed c) b = true
  · refine ⟨fun v c => ?_, fun c => ?_, fun c => hp.trans _ _ _ (hle c) (h.le_start c), fun v hv hpost c => ?_⟩
    · by_cases hc : c = b
      · subst hc
        rw [visit_aux ht, Function.update_self, hp.input_input, h.aux]
      · rw [visit_aux ht, Function.update_of_ne hc, h.aux]
    · refine hp.trans _ _ _ (hp.mono _ _ c _ hle) ?_
      rw [visit_value ht]
      by_cases hc : c = b
      · subst hc
        rw [Function.update_self, h.transfer_eq]
        exact hp.refl _
      · rw [Function.update_of_ne hc]
        exact h.image_le c
    · rw [visit_value ht]
      by_cases hc : c = b
      · subst hc
        rw [Function.update_self, h.transfer_eq]
        exact hp.trans _ _ _ (hpost c) (hp.mono _ _ c _ (h.above v hv hpost))
      · rw [Function.update_of_ne hc]
        exact h.above v hv hpost c
  · rw [visit_of_not_test ht]
    exact h

theorem visit_changed {c : B} (hc : (p.visit old s b).value c ≠ s.value c) : (p.visit old s b).changed c = true := by
  by_cases ht : p.test (fun c => old c || s.changed c) b = true
  · rw [visit_value ht] at hc
    by_cases hcb : c = b
    · subst hcb
      rw [Function.update_self] at hc
      rw [visit_mark ht, if_neg hc, Function.update_self]
    · rw [Function.update_of_ne hcb] at hc
      exact absurd rfl hc
  · rw [visit_of_not_test ht] at hc
    exact absurd rfl hc

theorem visit_changed_mono {c : B} (hc : s.changed c = true) : (p.visit old s b).changed c = true := by
  by_cases ht : p.test (fun c => old c || s.changed c) b = true
  · rw [visit_mark ht]
    split_ifs
    · exact hc
    · by_cases hcb : c = b
      · rw [hcb, Function.update_self]
      · rw [Function.update_of_ne hcb]
        exact hc
  · rw [visit_of_not_test ht]
    exact hc

theorem visit_value_of_ne {c : B} (hc : c ≠ b) : (p.visit old s b).value c = s.value c := by
  by_cases ht : p.test (fun c => old c || s.changed c) b = true
  · rw [visit_value ht, Function.update_of_ne hc]
  · rw [visit_of_not_test ht]

theorem visit_aux_of_ne {c : B} (hc : c ≠ b) : (p.visit old s b).aux c = s.aux c := by
  by_cases ht : p.test (fun c => old c || s.changed c) b = true
  · rw [visit_aux ht, Function.update_of_ne hc]
  · rw [visit_of_not_test ht]

/-- What a visit of `b` marks and did not find marked is `b`. -/
theorem eq_of_visit_changed {c : B} (hc : (p.visit old s b).changed c = true) (hs : s.changed c ≠ true) :
    c = b ∧ (p.visit old s b).value c ≠ s.value c := by
  by_cases ht : p.test (fun c => old c || s.changed c) b = true
  · rw [visit_mark ht] at hc
    rw [visit_value ht]
    split_ifs at hc with heq
    · exact absurd hc hs
    · by_cases hcb : c = b
      · subst hcb
        exact ⟨rfl, by rwa [Function.update_self]⟩
      · rw [Function.update_of_ne hcb] at hc
        exact absurd hc hs
  · rw [visit_of_not_test ht] at hc
    exact absurd hc hs

omit [DecidableEq B] [DecidableEq A] in
/-- A node stays settled unless something it depends on changes. -/
theorem Lawful.settled_of_eq (hp : p.Lawful le always dep) {s' : State B A} (h : p.Settled aux₀ s b)
    (hvalue : s'.value b = s.value b) (haux : s'.aux b = s.aux b) (hdep : ∀ c, dep b c → s'.value c = s.value c) :
    p.Settled aux₀ s' b := by
  obtain ⟨hv, ha⟩ := h
  have hinput := hp.input_congr s'.value s.value b (aux₀ b) hdep
  exact ⟨by rw [hvalue, hv, image, image, hinput], by rw [haux, ha, hinput]⟩

theorem Lawful.visit_ready (hp : p.Lawful le always dep) (h : p.Descending le v₀ aux₀ s) {done : List B} {c : B}
    (hready : p.Ready always dep aux₀ old done s c) :
    p.Ready always dep aux₀ old (done ++ [b]) (p.visit old s b) c := by
  by_cases hchanged : ∃ d, dep c d ∧ (p.visit old s b).changed d = true
  · exact .inr (.inl hchanged)
  · have hdep : ∀ d, dep c d → (p.visit old s b).value d = s.value d := by
      intro d hd
      by_contra hne
      exact hchanged ⟨d, hd, visit_changed hne⟩
    have hnot : ¬∃ d, dep c d ∧ s.changed d = true :=
      fun ⟨d, hd, hs⟩ => hchanged ⟨d, hd, visit_changed_mono hs⟩
    by_cases hcb : c = b
    · subst hcb
      by_cases ht : p.test (fun d => old d || s.changed d) c = true
      · refine .inl ?_
        have hinput := hp.input_congr (p.visit old s c).value s.value c (aux₀ c) hdep
        rw [Settled, image, hinput, visit_value ht, visit_aux ht, Function.update_self, Function.update_self, h.aux]
        exact ⟨rfl, rfl⟩
      · rw [visit_of_not_test ht]
        rcases hready with hs | hs | ⟨-, hs⟩
        · exact .inl hs
        · exact absurd hs hnot
        · refine absurd ((hp.test_iff _ c).2 ?_) ht
          exact hs.imp_right fun ⟨d, hd, hold⟩ => ⟨d, hd, by rw [hold, Bool.true_or]⟩
    · rcases hready with hs | hs | ⟨hdone, hs⟩
      · exact .inl (hp.settled_of_eq hs (visit_value_of_ne hcb) (visit_aux_of_ne hcb) hdep)
      · exact absurd hs hnot
      · refine .inr (.inr ⟨fun hmem => ?_, hs⟩)
        rcases List.mem_append.1 hmem with hmem | hmem
        · exact hdone hmem
        · exact hcb (List.mem_singleton.1 hmem)

/-- What holds between two visits of a pass: `start` are the values it began with. -/
structure Passing (p : Sweep B A) (le : A → A → Prop) (always : B → Prop) (dep : B → B → Prop) (v₀ aux₀ : B → A)
    (old : B → Bool) (start : B → A) (done : List B) (s : State B A) : Prop where
  descending : p.Descending le v₀ aux₀ s
  ready : ∀ c, (always c ∨ ∃ d, dep c d) → p.Ready always dep aux₀ old done s c
  le_start : ∀ c, le (s.value c) (start c)
  changed_ne : ∀ c, s.changed c = true → s.value c ≠ start c
  changed_mem : ∀ c, s.changed c = true → c ∈ done
  idle : ∀ c, ¬(always c ∨ ∃ d, dep c d) → s.value c = v₀ c

theorem Lawful.visit_passing (hp : p.Lawful le always dep) {start : B → A} {done : List B}
    (h : p.Passing le always dep v₀ aux₀ old start done s) (b : B) :
    p.Passing le always dep v₀ aux₀ old start (done ++ [b]) (p.visit old s b) := by
  have hle := fun c => hp.visit_le h.descending old b c
  refine ⟨hp.visit_descending h.descending, fun c hc => hp.visit_ready h.descending (h.ready c hc),
    fun c => hp.trans _ _ _ (hle c) (h.le_start c), fun c hc heq => ?_, fun c hc => ?_, fun c hidle => ?_⟩
  · have hback : s.value c = start c := hp.antisymm _ _ (h.le_start c) (heq ▸ hle c)
    by_cases hs : s.changed c = true
    · exact h.changed_ne c hs hback
    · exact (eq_of_visit_changed hc hs).2 (heq.trans hback.symm)
  · by_cases hs : s.changed c = true
    · exact List.mem_append_left _ (h.changed_mem c hs)
    · rw [(eq_of_visit_changed hc hs).1]
      exact List.mem_append_right _ (List.mem_singleton.2 rfl)
  · by_cases hcb : c = b
    · subst hcb
      rw [visit_of_not_test]
      · exact h.idle c hidle
      · intro ht
        exact hidle (((hp.test_iff _ c).1 ht).imp_right fun ⟨d, hd, _⟩ => ⟨d, hd⟩)
    · rw [visit_value_of_ne hcb]
      exact h.idle c hidle

theorem Lawful.foldl_passing (hp : p.Lawful le always dep) {start : B → A} (bs : List B) (done : List B)
    (h : p.Passing le always dep v₀ aux₀ old start done s) :
    p.Passing le always dep v₀ aux₀ old start (done ++ bs) (bs.foldl (p.visit old) s) := by
  induction bs generalizing s done with
  | nil => rwa [List.append_nil, List.foldl_nil]
  | cons b bs ih =>
    rw [List.append_cons, List.foldl_cons]
    exact ih _ (hp.visit_passing h b)

end Visit

section Solve

variable {p : Sweep B A} {le : A → A → Prop} {always : B → Prop} {dep : B → B → Prop} {v₀ aux₀ : B → A}
  {s : State B A}

structure Between (p : Sweep B A) (le : A → A → Prop) (always : B → Prop) (dep : B → B → Prop) (v₀ aux₀ : B → A)
    (s : State B A) : Prop where
  descending : p.Descending le v₀ aux₀ s
  ready : ∀ c, (always c ∨ ∃ d, dep c d) →
    p.Settled aux₀ s c ∨ always c ∨ ∃ d, dep c d ∧ s.changed d = true
  idle : ∀ c, ¬(always c ∨ ∃ d, dep c d) → s.value c = v₀ c

theorem Lawful.pass_passing (hp : p.Lawful le always dep) (h : p.Between le always dep v₀ aux₀ s) :
    p.Passing le always dep v₀ aux₀ s.changed s.value p.order (p.pass s).1 := by
  refine hp.foldl_passing p.order [] ⟨⟨h.descending.aux, h.descending.image_le, h.descending.le_start,
    h.descending.above⟩, fun c hc => ?_, fun c => hp.refl _, fun c hc => absurd hc Bool.false_ne_true,
    fun c hc => absurd hc Bool.false_ne_true, h.idle⟩
  exact (h.ready c hc).imp_right fun hwait => .inr ⟨List.not_mem_nil, hwait⟩

theorem pass_snd : (p.pass s).2 = true ↔ ∃ c ∈ p.order, (p.pass s).1.changed c = true :=
  List.any_eq_true

theorem Lawful.pass_between (hp : p.Lawful le always dep) (h : p.Between le always dep v₀ aux₀ s) :
    p.Between le always dep v₀ aux₀ (p.pass s).1 := by
  have hpass := hp.pass_passing h
  refine ⟨hpass.descending, fun c hc => ?_, hpass.idle⟩
  rcases hpass.ready c hc with hs | hs | ⟨hdone, -⟩
  · exact .inl hs
  · exact .inr (.inr hs)
  · exact absurd (hp.complete c) hdone

/-- What the loop ends with: every equation holds, and no other solution from below the start is greater. -/
structure Solution (p : Sweep B A) (le : A → A → Prop) (always : B → Prop) (dep : B → B → Prop) (v₀ aux₀ : B → A)
    (s : State B A) : Prop where
  value_eq : ∀ b, (always b ∨ ∃ c, dep b c) → s.value b = p.transfer b (s.aux b)
  aux_eq : ∀ b, (always b ∨ ∃ c, dep b c) → s.aux b = p.input s.value b (aux₀ b)
  idle : ∀ b, ¬(always b ∨ ∃ c, dep b c) → s.value b = v₀ b
  greatest : ∀ v, (∀ b, le (v b) (v₀ b)) → (∀ b, le (v b) (p.image aux₀ v b)) → ∀ b, le (v b) (s.value b)

theorem Lawful.solve_solution (hp : p.Lawful le always dep) (hstart : ∀ b, le (p.image aux₀ v₀ b) (v₀ b)) :
    ∃ N s, (∀ fuel ≥ N, p.solve fuel v₀ aux₀ = some s) ∧ p.Solution le always dep v₀ aux₀ s := by
  have hinit : p.Between le always dep v₀ aux₀ ⟨v₀, aux₀, fun _ => true⟩ :=
    ⟨⟨fun _ _ => rfl, hstart, fun _ => hp.refl _, fun v hv _ => hv⟩,
      fun c hc => .inr (hc.imp_right fun ⟨d, hd⟩ => ⟨d, hd, rfl⟩), fun _ _ => rfl⟩
  obtain ⟨N, last, hlast, hdone, hloop⟩ := whileChanged_ends p.pass
    (InvImage.wf State.value hp.wf) (p.Between le always dep v₀ aux₀) (fun s hs => by
      have hpass := hp.pass_passing hs
      refine ⟨hp.pass_between hs, fun hchanged => ⟨hpass.le_start, fun heq => ?_⟩⟩
      obtain ⟨c, -, hc⟩ := pass_snd.1 hchanged
      exact hpass.changed_ne c hc (congrFun heq c)) hinit
  have hbetween := hp.pass_between hlast
  have hpass := hp.pass_passing hlast
  have hnone : ∀ c, ¬(p.pass last).1.changed c = true := by
    intro c hc
    have := pass_snd.2 ⟨c, hp.complete c, hc⟩
    rw [hdone] at this
    exact Bool.false_ne_true this
  have hsettled : ∀ b, (always b ∨ ∃ c, dep b c) → p.Settled aux₀ (p.pass last).1 b := by
    intro b hb
    rcases hpass.ready b hb with hs | ⟨d, -, hd⟩ | ⟨hmem, -⟩
    · exact hs
    · exact absurd hd (hnone d)
    · exact absurd (hp.complete b) hmem
  refine ⟨N, (p.pass last).1, hloop, fun b hb => ?_, fun b hb => (hsettled b hb).2, hbetween.idle,
    hbetween.descending.above⟩
  rw [(hsettled b hb).1, image, (hsettled b hb).2]

end Solve

end Sweep

end Z80Gcc.RoundRobin
