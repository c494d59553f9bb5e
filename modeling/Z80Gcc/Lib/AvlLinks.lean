import Mathlib.Logic.Function.Basic
import Z80Gcc.Lib.LinkedTree

/-! Insertion into an AVL tree by changing the pointers and balances of its nodes in place. -/

namespace Z80Gcc.LinkedTree

/-- The pointers and balances of the nodes, and the pointer to the root. -/
@[ext] structure Links (A : Type*) where
  child : A → Side → Option A
  parent : A → Option A
  balance : A → Int
  root : Option A

namespace Links

variable {A : Type*} [DecidableEq A]

section Setters

variable (ls : Links A)

def setChild (a : A) (side : Side) (c : Option A) : Links A :=
  { ls with child := Function.update ls.child a (Function.update (ls.child a) side c) }

def setParent (a : A) (p : Option A) : Links A := { ls with parent := Function.update ls.parent a p }

def setBalance (a : A) (b : Int) : Links A := { ls with balance := Function.update ls.balance a b }

def adopt (c : Option A) (p : A) : Links A :=
  match c with
  | none => ls
  | some c => ls.setParent c (some p)

/-- In its parent `s`, or as the root, a node takes the place of `p`. -/
def replaceChild (s : Option A) (p r : A) : Links A :=
  match s with
  | none => { ls with root := some r }
  | some s => ls.setChild s (if ls.child s .left = some p then .left else .right) (some r)

variable (a b c : A) (side d : Side) (v : Option A) (n : Int)

@[simp] theorem child_setChild :
    (ls.setChild a side v).child b d = if b = a ∧ d = side then v else ls.child b d := by
  by_cases h : b = a
  · subst h
    by_cases hd : d = side <;> simp [setChild, hd]
  · simp [setChild, h]

@[simp] theorem parent_setChild : (ls.setChild a side v).parent = ls.parent := rfl

@[simp] theorem balance_setChild : (ls.setChild a side v).balance = ls.balance := rfl

@[simp] theorem child_setParent : (ls.setParent a v).child = ls.child := rfl

@[simp] theorem parent_setParent :
    (ls.setParent a v).parent b = if b = a then v else ls.parent b := Function.update_apply ..

@[simp] theorem balance_setParent : (ls.setParent a v).balance = ls.balance := rfl

@[simp] theorem child_setBalance : (ls.setBalance a n).child = ls.child := rfl

@[simp] theorem parent_setBalance : (ls.setBalance a n).parent = ls.parent := rfl

@[simp] theorem balance_setBalance :
    (ls.setBalance a n).balance b = if b = a then n else ls.balance b := Function.update_apply ..

@[simp] theorem child_adopt : (ls.adopt v a).child = ls.child := by
  cases v <;> rfl

@[simp] theorem parent_adopt :
    (ls.adopt v a).parent b = if v = some b then some a else ls.parent b := by
  cases v with
  | none => simp [adopt]
  | some c => simp [adopt, eq_comm]

@[simp] theorem balance_adopt : (ls.adopt v a).balance = ls.balance := by
  cases v <;> rfl

@[simp] theorem parent_replaceChild : (ls.replaceChild v b c).parent = ls.parent := by
  cases v <;> rfl

@[simp] theorem balance_replaceChild : (ls.replaceChild v b c).balance = ls.balance := by
  cases v <;> rfl

theorem child_replaceChild {s : Option A} (h : s ≠ some a) :
    (ls.replaceChild s b c).child a = ls.child a := by
  funext d
  cases s with
  | none => rfl
  | some s =>
    rw [replaceChild, child_setChild, if_neg fun hboth => h (congrArg some hboth.1.symm)]

end Setters

section Rebalance

/-- The rotations L and R: `r` is the child of `p` on the side that has grown. -/
def rotate (side : Side) (p r : A) (ls : Links A) : Links A :=
  let c := ls.child r side.other
  let s := ls.parent p
  let ls := (ls.setChild p side c).adopt c p
  let ls := ls.setChild r side.other (some p)
  let ls := (ls.setBalance p 0).setBalance r 0
  let ls := (ls.setParent p (some r)).setParent r s
  ls.replaceChild s p r

/-- The rotations LR and RL: `t` is the child of `r` on its other side. Its balance gives the balances
of `p` and `r`. -/
def rotateTwice (inner : Side → Int → Int × Int) (side : Side) (p r t : A) (ls : Links A) : Links A :=
  let c := ls.child t side
  let d := ls.child t side.other
  let s := ls.parent p
  let b := inner side (ls.balance t)
  let ls := (ls.setChild r side.other c).adopt c r
  let ls := ls.setChild t side (some r)
  let ls := (ls.setChild p side d).adopt d p
  let ls := ls.setChild t side.other (some p)
  let ls := ((ls.setBalance p b.1).setBalance r b.2).setBalance t 0
  let ls := ((ls.setParent p (some t)).setParent r (some t)).setParent t s
  ls.replaceChild s p t

/-- The loop that goes up from a subtree `r` that has grown. -/
def rebalance (inner : Side → Int → Int × Int) : Nat → A → Option A → Links A → Option (Links A)
  | _, _, none, ls => some ls
  | 0, _, some _, _ => none
  | fuel + 1, r, some p, ls =>
    let side : Side := if ls.child p .left = some r then .left else .right
    if ls.balance p = 0 then rebalance inner fuel p (ls.parent p) (ls.setBalance p side.sign)
    else if 0 < side.sign * ls.balance p then
      if 0 < side.sign * ls.balance r then some (ls.rotate side p r)
      else
        match ls.child r side.other with
        | none => none
        | some t => some (ls.rotateTwice inner side p r t)
    else some (ls.setBalance p 0)

end Rebalance

section Insertion

def attach (p : Option A) (side : Side) (r : A) (ls : Links A) : Links A :=
  let ls := match p with
    | none => { ls with root := some r }
    | some p => ls.setChild p side (some r)
  (((ls.setParent r p).setChild r .left none).setChild r .right none).setBalance r 0

/-- The end of a way down: an empty link, or a node that the search stops at. -/
inductive Place (A : Type*) where
  | free (p : Option A) (side : Side)
  | taken (a : A)

def search (dir : A → Option Side) (ls : Links A) : Nat → Option A → Side → Option A → Option (Place A)
  | _, p, side, none => some (.free p side)
  | 0, _, _, some _ => none
  | fuel + 1, _, _, some a =>
    match dir a with
    | some side => search dir ls fuel (some a) side (ls.child a side)
    | none => some (.taken a)

end Insertion

/-- The new balances of a double rotation, for a balance that is at most one. -/
def InnerBalance (inner : Side → Int → Int × Int) : Prop :=
  ∀ side b, -1 ≤ b → b ≤ 1 → inner side b =
    (if 0 < side.sign * b then -side.sign else 0, if side.sign * b < 0 then side.sign else 0)

section Rotations

variable {inner : Side → Int → Int × Int} {ls : Links A} {side : Side} {p r t : A}

/-- The links after a rotation, but for the one from above. -/
theorem rotate_links (ls : Links A) (side : Side) (p r : A) :
    ∃ ls₁ : Links A, rotate side p r ls = ls₁.replaceChild (ls.parent p) p r ∧
      ls₁.root = ls.root ∧
      (∀ b d, ls₁.child b d = if b = r ∧ d = side.other then some p
        else if b = p ∧ d = side then ls.child r side.other else ls.child b d) ∧
      (∀ b, ls₁.parent b = if b = r then ls.parent p else if b = p then some r
        else if ls.child r side.other = some b then some p else ls.parent b) ∧
      ∀ b, ls₁.balance b = if b = r then 0 else if b = p then 0 else ls.balance b := by
  refine ⟨_, rfl, ?_, fun b d => ?_, fun b => ?_, fun b => ?_⟩
  · cases h : ls.child r side.other <;> rfl
  · simp only [Links.child_setParent, Links.child_setBalance, Links.child_setChild, Links.child_adopt]
  · simp only [Links.parent_setParent, Links.parent_setBalance, Links.parent_setChild,
      Links.parent_adopt]
  · simp only [Links.balance_setParent, Links.balance_setBalance, Links.balance_setChild,
      Links.balance_adopt]

/-- The links after a double rotation, but for the one from above. -/
theorem rotateTwice_links (inner : Side → Int → Int × Int) (ls : Links A) (side : Side) (p r t : A) :
    ∃ ls₁ : Links A, rotateTwice inner side p r t ls = ls₁.replaceChild (ls.parent p) p t ∧
      ls₁.root = ls.root ∧
      (∀ b d, ls₁.child b d = if b = t ∧ d = side.other then some p
        else if b = p ∧ d = side then ls.child t side.other
        else if b = t ∧ d = side then some r
        else if b = r ∧ d = side.other then ls.child t side else ls.child b d) ∧
      (∀ b, ls₁.parent b = if b = t then ls.parent p else if b = r then some t
        else if b = p then some t else if ls.child t side.other = some b then some p
        else if ls.child t side = some b then some r else ls.parent b) ∧
      ∀ b, ls₁.balance b = if b = t then 0 else if b = r then (inner side (ls.balance t)).2
        else if b = p then (inner side (ls.balance t)).1 else ls.balance b := by
  refine ⟨_, rfl, ?_, fun b d => ?_, fun b => ?_, fun b => ?_⟩
  · cases h : ls.child t side <;> cases h' : ls.child t side.other <;> rfl
  · simp only [Links.child_setParent, Links.child_setBalance, Links.child_setChild, Links.child_adopt]
  · simp only [Links.parent_setParent, Links.parent_setBalance, Links.parent_setChild,
      Links.parent_adopt]
  · simp only [Links.balance_setParent, Links.balance_setBalance, Links.balance_setChild,
      Links.balance_adopt]

/-- Another subtree below the node at the end of a way down. -/
theorem setChild_path {f : Frame A} {path : List (Frame A)} {q ptr : Option A}
    (h : LinkedPath ls.child ls.parent ls.root (f :: path) q ptr)
    (hnodup : (pathElts (f :: path)).Nodup) (c : Option A) :
    LinkedPath (ls.setChild f.elt f.side c).child (ls.setChild f.elt f.side c).parent
      (ls.setChild f.elt f.side c).root (f :: path) q c := by
  obtain ⟨rfl, -, hsib, hpath⟩ := h
  obtain ⟨hnew, -⟩ := List.nodup_cons.1 ((pathElts_cons_perm f path).nodup_iff.1 hnodup)
  rw [List.mem_append, not_or] at hnew
  have hother : ∀ b, b ≠ f.elt → (ls.setChild f.elt f.side c).child b = ls.child b := by
    intro b hb
    funext d
    rw [Links.child_setChild, if_neg fun hboth => hb hboth.1]
  rw [LinkedPath, Links.parent_setChild]
  refine ⟨rfl, ?_, ?_, ?_⟩
  · rw [Links.child_setChild, if_pos ⟨rfl, rfl⟩]
  · rw [Links.child_setChild, if_neg fun hboth => f.side.other_ne hboth.2]
    exact hsib.congr (fun b hb => hother b fun heq => hnew.1 (heq ▸ hb)) fun _ _ => rfl
  · exact hpath.congr (fun b hb => hother b fun heq => hnew.2 (heq ▸ hb)) fun _ _ => rfl

theorem replaceChild_path {path : List (Frame A)} {s : Option A}
    (h : LinkedPath ls.child ls.parent ls.root path s (some p)) (hp : p ∉ pathElts path)
    (hnodup : (pathElts path).Nodup) :
    LinkedPath (ls.replaceChild s p r).child (ls.replaceChild s p r).parent
      (ls.replaceChild s p r).root path s (some r) := by
  cases path with
  | nil =>
    obtain ⟨rfl, -⟩ := h
    exact ⟨rfl, rfl⟩
  | cons f path =>
    have hside := h.side_eq hp
    have hset := setChild_path h hnodup (some r)
    obtain ⟨rfl, -⟩ := h
    rw [← hside] at hset
    exact hset

theorem Linked.replaceChild {u : LinkTree A} {q ptr s : Option A}
    (h : Linked ls.child ls.parent q u ptr) (hs : ∀ a ∈ u.toList, s ≠ some a) (b c : A) :
    Linked (ls.replaceChild s b c).child (ls.replaceChild s b c).parent q u ptr :=
  h.congr (fun a ha => ls.child_replaceChild a b c (hs a ha)) fun a _ => by
    rw [Links.parent_replaceChild]

theorem rotate_linked {path : List (Frame A)} {s : Option A} {x y z : LinkTree A}
    (hpath : LinkedPath ls.child ls.parent ls.root path s (some p))
    (ht : Linked ls.child ls.parent s (.mk side p (.mk side r x y) z) (some p))
    (hnodup : (plug path (.mk side p (.mk side r x y) z)).toList.Nodup) :
    Linked (rotate side p r ls).child (rotate side p r ls).parent none
      (plug path (.mk side r x (.mk side p y z))) (rotate side p r ls).root := by
  obtain ⟨ls₁, hrun, hroot, hchild, hparent, -⟩ := rotate_links ls side p r
  obtain ⟨-, hps, hr, hz⟩ := linked_mk.1 ht
  obtain ⟨hpr, hrp, hx, hy⟩ := linked_mk.1 hr
  obtain ⟨hsub, hpathNodup, hdisj⟩ := nodup_plug.1 hnodup
  obtain ⟨⟨hpnot, hpz⟩, hrsub, hznodup, hrz⟩ := LinkTree.nodup_mk.1 hsub
  obtain ⟨⟨hrx, hry⟩, hxnodup, hynodup, hxy⟩ := LinkTree.nodup_mk.1 hrsub
  rw [LinkTree.mem_mk, not_or, not_or] at hpnot
  obtain ⟨hpr', hpx, hpy⟩ := hpnot
  have hcy : ∀ b, ls.child r side.other = some b → b ∈ y.toList := by
    intro b hb
    rw [hb] at hy
    exact hy.mem_of_ptr
  -- the parts whose links stay as they are
  have hsame : ∀ b, b ≠ p → b ≠ r → ls₁.child b = ls.child b := by
    intro b hbp hbr
    funext d
    rw [hchild, if_neg fun h => hbr h.1, if_neg fun h => hbp h.1]
  have hsameParent : ∀ b, b ≠ p → b ≠ r → b ∉ y.toList → ls₁.parent b = ls.parent b := by
    intro b hbp hbr hby
    rw [hparent, if_neg hbr, if_neg hbp, if_neg fun h => hby (hcy b h)]
  have hmem : ∀ b ∈ pathElts path, b ≠ p ∧ b ≠ r ∧ b ∉ y.toList := by
    refine fun b hb => ⟨?_, ?_, fun hby => ?_⟩
    · rintro rfl
      exact hdisj (LinkTree.mem_mk.2 (.inl rfl)) hb
    · rintro rfl
      exact hdisj (LinkTree.mem_mk.2 (.inr (.inl (LinkTree.mem_mk.2 (.inl rfl))))) hb
    · exact hdisj (LinkTree.mem_mk.2 (.inr (.inl (LinkTree.mem_mk.2 (.inr (.inr hby)))))) hb
  have hpath₁ : LinkedPath ls₁.child ls₁.parent ls₁.root path s (some p) := by
    rw [hroot]
    exact hpath.congr (fun b hb => hsame b (hmem b hb).1 (hmem b hb).2.1)
      fun b hb => hsameParent b (hmem b hb).1 (hmem b hb).2.1 (hmem b hb).2.2
  have hx₁ : Linked ls₁.child ls₁.parent (some r) x (ls₁.child r side) := by
    rw [hchild, if_neg fun h => side.ne_other h.2, if_neg fun h => hpr' h.1.symm]
    refine hx.congr (fun b hb => hsame b ?_ ?_) fun b hb => hsameParent b ?_ ?_ (hxy hb)
    · rintro rfl; exact hpx hb
    · rintro rfl; exact hrx hb
    · rintro rfl; exact hpx hb
    · rintro rfl; exact hrx hb
  have hy₁ : Linked ls₁.child ls₁.parent (some p) y (ls₁.child p side) := by
    rw [hchild, if_neg fun h => hpr' h.1, if_pos ⟨rfl, rfl⟩]
    refine hy.reparent hynodup (fun b hb => hsame b ?_ ?_) (fun b hb hne => ?_) fun b hb => ?_
    · rintro rfl; exact hpy hb
    · rintro rfl; exact hry hb
    · rw [hparent, if_neg (by rintro rfl; exact hry hb), if_neg (by rintro rfl; exact hpy hb), if_neg hne]
    · have hby := hcy b hb
      rw [hparent, if_neg (by rintro rfl; exact hry hby), if_neg (by rintro rfl; exact hpy hby), if_pos hb]
  have hz₁ : Linked ls₁.child ls₁.parent (some p) z (ls₁.child p side.other) := by
    have hrz' : ∀ b ∈ z.toList, b ≠ r ∧ b ∉ y.toList := by
      refine fun b hb => ⟨?_, fun hby => hrz (LinkTree.mem_mk.2 (.inr (.inr hby))) hb⟩
      rintro rfl
      exact hrz (LinkTree.mem_mk.2 (.inl rfl)) hb
    rw [hchild, if_neg fun h => hpr' h.1, if_neg fun h => side.other_ne h.2]
    refine hz.congr (fun b hb => hsame b ?_ (hrz' b hb).1) fun b hb =>
      hsameParent b ?_ (hrz' b hb).1 (hrz' b hb).2
    · rintro rfl; exact hpz hb
    · rintro rfl; exact hpz hb
  have htree₁ : Linked ls₁.child ls₁.parent s (.mk side r x (.mk side p y z)) (some r) := by
    refine linked_mk.2 ⟨rfl, ?_, hx₁, linked_mk.2 ⟨?_, ?_, hy₁, hz₁⟩⟩
    · rw [hparent, if_pos rfl]
      exact hps
    · rw [hchild, if_pos ⟨rfl, rfl⟩]
    · rw [hparent, if_neg hpr', if_pos rfl]
  have hperm : ∀ b, b ∈ (LinkTree.mk side r x (.mk side p y z)).toList →
      b ∈ (LinkTree.mk side p (.mk side r x y) z).toList := by
    intro b hb
    rwa [LinkTree.toList_rotate] at hb
  rw [hrun, hps]
  refine linked_plug.2 ⟨s, some r, replaceChild_path hpath₁ ?_ hpathNodup, Linked.replaceChild htree₁ ?_ _ _⟩
  · exact fun hb => (hmem p hb).1 rfl
  · rintro b hb rfl
    exact hdisj (hperm b hb) hpath.mem_of_parent

theorem rotateTwice_linked {path : List (Frame A)} {s : Option A} {x u v z : LinkTree A}
    (hpath : LinkedPath ls.child ls.parent ls.root path s (some p))
    (ht : Linked ls.child ls.parent s (.mk side p (.mk side.other r (.mk side t u v) x) z) (some p))
    (hnodup : (plug path (.mk side p (.mk side.other r (.mk side t u v) x) z)).toList.Nodup) :
    Linked (rotateTwice inner side p r t ls).child (rotateTwice inner side p r t ls).parent none
      (plug path (.mk side t (.mk side r x u) (.mk side p v z))) (rotateTwice inner side p r t ls).root := by
  obtain ⟨ls₁, hrun, hroot, hchild, hparent, -⟩ := rotateTwice_links inner ls side p r t
  obtain ⟨-, hps, hr, hz⟩ := linked_mk.1 ht
  obtain ⟨hpr, hrp, htr, hx⟩ := linked_mk.1 hr
  obtain ⟨hrt, htp, hu, hv⟩ := linked_mk.1 htr
  rw [Side.other_other] at hx
  obtain ⟨hsub, hpathNodup, hdisj⟩ := nodup_plug.1 hnodup
  obtain ⟨⟨hpr', hpz⟩, hrsub, hznodup, hrz⟩ := LinkTree.nodup_mk.1 hsub
  obtain ⟨⟨hrt', hrx⟩, htsub, hxnodup, htx⟩ := LinkTree.nodup_mk.1 hrsub
  obtain ⟨⟨htu, htv⟩, hunodup, hvnodup, huv⟩ := LinkTree.nodup_mk.1 htsub
  simp only [LinkTree.mem_mk, not_or] at hpr' hrt'
  have hroots : ∀ b, (ls.child t side = some b → b ∈ u.toList) ∧
      (ls.child t side.other = some b → b ∈ v.toList) := by
    refine fun b => ⟨fun hb => ?_, fun hb => ?_⟩
    · rw [hb] at hu
      exact hu.mem_of_ptr
    · rw [hb] at hv
      exact hv.mem_of_ptr
  -- the parts whose links stay as they are
  have hsame : ∀ b, b ≠ p ∧ b ≠ r ∧ b ≠ t → ls₁.child b = ls.child b := by
    rintro b ⟨hbp, hbr, hbt⟩
    funext d
    rw [hchild, if_neg fun h => hbt h.1, if_neg fun h => hbp h.1, if_neg fun h => hbt h.1,
      if_neg fun h => hbr h.1]
  have hsameParent : ∀ b, b ≠ p ∧ b ≠ r ∧ b ≠ t → b ∉ u.toList ∧ b ∉ v.toList →
      ls₁.parent b = ls.parent b := by
    rintro b ⟨hbp, hbr, hbt⟩ ⟨hbu, hbv⟩
    rw [hparent, if_neg hbt, if_neg hbr, if_neg hbp, if_neg fun h => hbv ((hroots b).2 h),
      if_neg fun h => hbu ((hroots b).1 h)]
  have hmem : ∀ b ∈ pathElts path, (b ≠ p ∧ b ≠ r ∧ b ≠ t) ∧ b ∉ u.toList ∧ b ∉ v.toList := by
    intro b hb
    have hnot := fun h => hdisj h hb
    simp only [LinkTree.mem_mk, imp_false, not_or] at hnot
    grind
  have hinx : ∀ b ∈ x.toList, (b ≠ p ∧ b ≠ r ∧ b ≠ t) ∧ b ∉ u.toList ∧ b ∉ v.toList := by
    intro b hb
    have hnot := fun h => htx h hb
    simp only [LinkTree.mem_mk, imp_false, not_or] at hnot
    exact ⟨⟨fun h => hpr'.2.2 (h ▸ hb), fun h => hrx (h ▸ hb), hnot.1⟩, hnot.2⟩
  have hinz : ∀ b ∈ z.toList, (b ≠ p ∧ b ≠ r ∧ b ≠ t) ∧ b ∉ u.toList ∧ b ∉ v.toList := by
    intro b hb
    have hnot := fun h => hrz h hb
    simp only [LinkTree.mem_mk, imp_false, not_or] at hnot
    exact ⟨⟨fun h => hpz (h ▸ hb), hnot.1, hnot.2.1.1⟩, hnot.2.1.2⟩
  have hinu : ∀ b ∈ u.toList, b ≠ p ∧ b ≠ r ∧ b ≠ t := fun b hb =>
    ⟨fun h => hpr'.2.1.2.1 (h ▸ hb), fun h => hrt'.2.1 (h ▸ hb), fun h => htu (h ▸ hb)⟩
  have hinv : ∀ b ∈ v.toList, b ≠ p ∧ b ≠ r ∧ b ≠ t := fun b hb =>
    ⟨fun h => hpr'.2.1.2.2 (h ▸ hb), fun h => hrt'.2.2 (h ▸ hb), fun h => htv (h ▸ hb)⟩
  have hpath₁ : LinkedPath ls₁.child ls₁.parent ls₁.root path s (some p) := by
    rw [hroot]
    exact hpath.congr (fun b hb => hsame b (hmem b hb).1) fun b hb =>
      hsameParent b (hmem b hb).1 (hmem b hb).2
  have hx₁ : Linked ls₁.child ls₁.parent (some r) x (ls₁.child r side) := by
    rw [hchild, if_neg fun h => side.ne_other h.2, if_neg fun h => hpr'.1 h.1.symm,
      if_neg fun h => hrt'.1 h.1, if_neg fun h => side.ne_other h.2]
    exact hx.congr (fun b hb => hsame b (hinx b hb).1) fun b hb =>
      hsameParent b (hinx b hb).1 (hinx b hb).2
  have hz₁ : Linked ls₁.child ls₁.parent (some p) z (ls₁.child p side.other) := by
    rw [hchild, if_neg fun h => hpr'.2.1.1 h.1, if_neg fun h => side.other_ne h.2,
      if_neg fun h => side.other_ne h.2, if_neg fun h => hpr'.1 h.1]
    exact hz.congr (fun b hb => hsame b (hinz b hb).1) fun b hb =>
      hsameParent b (hinz b hb).1 (hinz b hb).2
  have hu₁ : Linked ls₁.child ls₁.parent (some r) u (ls₁.child r side.other) := by
    rw [hchild, if_neg fun h => hrt'.1 h.1, if_neg fun h => side.other_ne h.2,
      if_neg fun h => side.other_ne h.2, if_pos ⟨rfl, rfl⟩]
    refine hu.reparent hunodup (fun b hb => hsame b (hinu b hb)) (fun b hb hne => ?_) fun b hb => ?_
    · obtain ⟨hbp, hbr, hbt⟩ := hinu b hb
      rw [hparent, if_neg hbt, if_neg hbr, if_neg hbp,
        if_neg fun h => huv hb ((hroots b).2 h), if_neg hne]
    · obtain ⟨hbp, hbr, hbt⟩ := hinu b ((hroots b).1 hb)
      rw [hparent, if_neg hbt, if_neg hbr, if_neg hbp,
        if_neg fun h => huv ((hroots b).1 hb) ((hroots b).2 h), if_pos hb]
  have hv₁ : Linked ls₁.child ls₁.parent (some p) v (ls₁.child p side) := by
    rw [hchild, if_neg fun h => side.ne_other h.2, if_pos ⟨rfl, rfl⟩]
    refine hv.reparent hvnodup (fun b hb => hsame b (hinv b hb)) (fun b hb hne => ?_) fun b hb => ?_
    · obtain ⟨hbp, hbr, hbt⟩ := hinv b hb
      rw [hparent, if_neg hbt, if_neg hbr, if_neg hbp, if_neg hne,
        if_neg fun h => huv ((hroots b).1 h) hb]
    · obtain ⟨hbp, hbr, hbt⟩ := hinv b ((hroots b).2 hb)
      rw [hparent, if_neg hbt, if_neg hbr, if_neg hbp, if_pos hb]
  have htree₁ : Linked ls₁.child ls₁.parent s (.mk side t (.mk side r x u) (.mk side p v z)) (some t) := by
    refine linked_mk.2 ⟨rfl, ?_, linked_mk.2 ⟨?_, ?_, hx₁, hu₁⟩, linked_mk.2 ⟨?_, ?_, hv₁, hz₁⟩⟩
    · rw [hparent, if_pos rfl]
      exact hps
    · rw [hchild, if_neg fun h => side.ne_other h.2, if_neg fun h => hpr'.2.1.1 h.1.symm,
        if_pos ⟨rfl, rfl⟩]
    · rw [hparent, if_neg hrt'.1, if_pos rfl]
    · rw [hchild, if_pos ⟨rfl, rfl⟩]
    · rw [hparent, if_neg hpr'.2.1.1, if_neg hpr'.1, if_pos rfl]
  rw [hrun, hps]
  refine linked_plug.2 ⟨s, some t, replaceChild_path hpath₁ ?_ hpathNodup, Linked.replaceChild htree₁ ?_ _ _⟩
  · exact fun hb => (hmem p hb).1.1 rfl
  · rintro b hb rfl
    refine hdisj ?_ hpath.mem_of_parent
    simp only [LinkTree.mem_mk] at hb ⊢
    grind

end Rotations

section Rebalancing

variable {inner : Side → Int → Int × Int} {ls : Links A} {side : Side} {p r t : A}

theorem rotate_balance (ls : Links A) (side : Side) (p r b : A) :
    (rotate side p r ls).balance b = if b = r then 0 else if b = p then 0 else ls.balance b := by
  obtain ⟨ls₁, hrun, -, -, -, hbalance⟩ := rotate_links ls side p r
  rw [hrun, Links.balance_replaceChild]
  exact hbalance b

theorem rotateTwice_balance (inner : Side → Int → Int × Int) (ls : Links A) (side : Side) (p r t b : A) :
    (rotateTwice inner side p r t ls).balance b = if b = t then 0
      else if b = r then (inner side (ls.balance t)).2
      else if b = p then (inner side (ls.balance t)).1 else ls.balance b := by
  obtain ⟨ls₁, hrun, -, -, -, hbalance⟩ := rotateTwice_links inner ls side p r t
  rw [hrun, Links.balance_replaceChild]
  exact hbalance b

def AvlOf (elts : List A) (ls : Links A) : Prop :=
  ∃ t, Linked ls.child ls.parent none t ls.root ∧ AvlTree ls.balance t ∧ t.toList = elts

theorem rotate_balanced {path : List (Frame A)} {x y z : LinkTree A}
    (hnodup : (plug path (.mk side p (.mk side r x y) z)).toList.Nodup)
    (hr : ls.balance r = side.sign) (havl : AvlTree ls.balance (.mk side r x y)) (hz : AvlTree ls.balance z)
    (hheight : x.height = z.height + 1) (hrest : AvlPath ls.balance path (x.height + 1)) :
    AvlTree (rotate side p r ls).balance (plug path (.mk side r x (.mk side p y z))) := by
  obtain ⟨hbal, -, hx, hy⟩ := avlTree_mk.1 havl
  obtain ⟨hsub, -, hdisj⟩ := nodup_plug.1 hnodup
  obtain ⟨⟨hpr, hpz⟩, hrsub, -, hrz⟩ := LinkTree.nodup_mk.1 hsub
  obtain ⟨⟨hrx, hry⟩, -⟩ := LinkTree.nodup_mk.1 hrsub
  rw [LinkTree.mem_mk, not_or, not_or] at hpr
  have hxy : x.height = y.height + 1 := by
    rw [hr] at hbal
    have hone := side.sign_mul_sign
    have hmul : side.sign * side.sign * (x.height - y.height : Int) = side.sign * side.sign := by
      rw [Int.mul_assoc, ← hbal]
    rw [hone, Int.one_mul] at hmul
    omega
  have hbalance := rotate_balance ls side p r
  have hsame : ∀ b, b ≠ p → b ≠ r → (rotate side p r ls).balance b = ls.balance b := by
    intro b hbp hbr
    rw [hbalance, if_neg hbr, if_neg hbp]
  rw [avlTree_plug, avlTree_mk, avlTree_mk, hbalance r, if_pos rfl, hbalance p, if_neg hpr.1, if_pos rfl]
  simp only [LinkTree.height_mk]
  refine ⟨⟨?_, by decide, ?_, ?_, by decide, ?_, ?_⟩, ?_⟩
  · rw [show ((x.height : Int) - ((max y.height z.height + 1 : Nat) : Int)) = 0 by omega, Int.mul_zero]
  · exact hx.congr fun b hb => hsame b (fun h => hpr.2.1 (h ▸ hb)) fun h => hrx (h ▸ hb)
  · rw [show ((y.height : Int) - (z.height : Int)) = 0 by omega, Int.mul_zero]
  · exact hy.congr fun b hb => hsame b (fun h => hpr.2.2 (h ▸ hb)) fun h => hry (h ▸ hb)
  · refine hz.congr fun b hb => hsame b (fun h => hpz (h ▸ hb)) fun h => ?_
    exact hrz (LinkTree.mem_mk.2 (.inl h)) hb
  · rw [show max x.height (max y.height z.height + 1) + 1 = x.height + 1 by omega]
    refine hrest.congr fun b hb => hsame b ?_ ?_
    · rintro rfl
      exact hdisj (LinkTree.mem_mk.2 (.inl rfl)) hb
    · rintro rfl
      exact hdisj (LinkTree.mem_mk.2 (.inr (.inl (LinkTree.mem_mk.2 (.inl rfl))))) hb

/-- After a double rotation for growth of the inner grandchild. -/
theorem rotateTwice_balanced {path : List (Frame A)} {x u v z : LinkTree A} (hrule : InnerBalance inner)
    (hnodup : (plug path (.mk side p (.mk side.other r (.mk side t u v) x) z)).toList.Nodup)
    (havl : AvlTree ls.balance (.mk side.other r (.mk side t u v) x)) (hz : AvlTree ls.balance z)
    (hinner : max u.height v.height = z.height) (houter : x.height = z.height)
    (hrest : AvlPath ls.balance path (z.height + 2)) :
    AvlTree (rotateTwice inner side p r t ls).balance
      (plug path (.mk side t (.mk side r x u) (.mk side p v z))) := by
  obtain ⟨-, -, htavl, hx⟩ := avlTree_mk.1 havl
  obtain ⟨hbal, -, hu, hv⟩ := avlTree_mk.1 htavl
  obtain ⟨hsub, -, hdisj⟩ := nodup_plug.1 hnodup
  obtain ⟨⟨hpr, hpz⟩, hrsub, -, hrz⟩ := LinkTree.nodup_mk.1 hsub
  obtain ⟨⟨hrt, hrx⟩, htsub, -, htx⟩ := LinkTree.nodup_mk.1 hrsub
  obtain ⟨⟨htu, htv⟩, -⟩ := LinkTree.nodup_mk.1 htsub
  simp only [LinkTree.mem_mk, not_or] at hpr hrt
  have hdiff : side.sign * ls.balance t = u.height - v.height := by
    rw [hbal, ← Int.mul_assoc, side.sign_mul_sign, Int.one_mul]
  have hbalance := rotateTwice_balance inner ls side p r t
  obtain ⟨-, hone, -⟩ := avlTree_mk.1 htavl
  rw [hrule side _ hone.1 hone.2, hdiff] at hbalance
  dsimp only at hbalance
  have hsame : ∀ b, b ≠ p → b ≠ r → b ≠ t → (rotateTwice inner side p r t ls).balance b = ls.balance b := by
    intro b hbp hbr hbt
    rw [hbalance, if_neg hbt, if_neg hbr, if_neg hbp]
  have hsign : ∀ n : Int, -1 ≤ n ∧ n ≤ 1 → -1 ≤ side.sign * n ∧ side.sign * n ≤ 1 := by
    intro n hn
    cases side <;> simp only [Side.sign] <;> omega
  have hdiff' : -1 ≤ (u.height : Int) - v.height ∧ (u.height : Int) - v.height ≤ 1 := hdiff ▸ hsign _ hone
  have hrbal : (rotateTwice inner side p r t ls).balance r = side.sign * (x.height - u.height) := by
    rw [hbalance, if_neg hrt.1, if_pos rfl]
    split
    · rw [show ((x.height : Int) - u.height) = 1 by omega, Int.mul_one]
    · rw [show ((x.height : Int) - u.height) = 0 by omega, Int.mul_zero]
  have hpbal : (rotateTwice inner side p r t ls).balance p = side.sign * (v.height - z.height) := by
    rw [hbalance, if_neg hpr.2.1.1, if_neg hpr.1, if_pos rfl]
    split
    · rw [show ((v.height : Int) - z.height) = -1 by omega, Int.mul_neg_one]
    · rw [show ((v.height : Int) - z.height) = 0 by omega, Int.mul_zero]
  rw [avlTree_plug, avlTree_mk, avlTree_mk, avlTree_mk, hbalance t, if_pos rfl, hrbal, hpbal]
  simp only [LinkTree.height_mk]
  refine ⟨⟨?_, by decide, ⟨trivial, hsign _ (by omega), ?_, ?_⟩, trivial, hsign _ (by omega), ?_, ?_⟩, ?_⟩
  · rw [show (((max x.height u.height + 1 : Nat) : Int) - ((max v.height z.height + 1 : Nat) : Int)) = 0
      by omega, Int.mul_zero]
  · exact hx.congr fun b hb => hsame b (fun h => hpr.2.2 (h ▸ hb)) (fun h => hrx (h ▸ hb)) fun h =>
      htx (LinkTree.mem_mk.2 (.inl h)) hb
  · exact hu.congr fun b hb => hsame b (fun h => hpr.2.1.2.1 (h ▸ hb)) (fun h => hrt.2.1 (h ▸ hb))
      fun h => htu (h ▸ hb)
  · exact hv.congr fun b hb => hsame b (fun h => hpr.2.1.2.2 (h ▸ hb)) (fun h => hrt.2.2 (h ▸ hb))
      fun h => htv (h ▸ hb)
  · refine hz.congr fun b hb => ?_
    have hnot := fun h => hrz h hb
    simp only [LinkTree.mem_mk, imp_false, not_or] at hnot
    exact hsame b (fun h => hpz (h ▸ hb)) hnot.1 hnot.2.1.1
  · rw [show max (max x.height u.height + 1) (max v.height z.height + 1) + 1 = z.height + 2 by omega]
    refine hrest.congr fun b hb => ?_
    have hnot := fun h => hdisj h hb
    simp only [LinkTree.mem_mk, imp_false, not_or] at hnot
    exact hsame b hnot.1 hnot.2.1.1 hnot.2.1.2.1.1

/-- What the loop makes of a subtree that has grown, in its place, and of the balances. -/
inductive Regrown (inner : Side → Int → Int × Int) :
    (A → Int) → List (Frame A) → LinkTree A → LinkTree A → (A → Int) → Prop
  | root (bal : A → Int) (s : LinkTree A) : Regrown inner bal [] s s bal
  | grows {bal bal' : A → Int} {f : Frame A} {path : List (Frame A)} {s t : LinkTree A}
      (heven : bal f.elt = 0)
      (hrest : Regrown inner (Function.update bal f.elt f.side.sign) path
        (.mk f.side f.elt s f.sibling) t bal') : Regrown inner bal (f :: path) s t bal'
  | evens {bal : A → Int} {f : Frame A} {path : List (Frame A)} {s : LinkTree A}
      (hlight : f.side.sign * bal f.elt < 0) :
      Regrown inner bal (f :: path) s (plug path (.mk f.side f.elt s f.sibling))
        (Function.update bal f.elt 0)
  | rotates {bal bal' : A → Int} {f : Frame A} {path : List (Frame A)} {r : A} {x y : LinkTree A}
      (hheavy : 0 < f.side.sign * bal f.elt) (houter : 0 < f.side.sign * bal r)
      (hbal : ∀ b, bal' b = if b = r then 0 else if b = f.elt then 0 else bal b) :
      Regrown inner bal (f :: path) (.mk f.side r x y)
        (plug path (.mk f.side r x (.mk f.side f.elt y f.sibling))) bal'
  | rotatesTwice {bal bal' : A → Int} {f : Frame A} {path : List (Frame A)} {r t : A}
      {u v x : LinkTree A} (hheavy : 0 < f.side.sign * bal f.elt) (hinner : ¬ 0 < f.side.sign * bal r)
      (hbal : ∀ b, bal' b = if b = t then 0 else if b = r then (inner f.side (bal t)).2
        else if b = f.elt then (inner f.side (bal t)).1 else bal b) :
      Regrown inner bal (f :: path) (.mk f.side.other r (.mk f.side t u v) x)
        (plug path (.mk f.side t (.mk f.side r x u) (.mk f.side f.elt v f.sibling))) bal'

theorem Regrown.toList_eq {bal bal' : A → Int} {path : List (Frame A)} {s t : LinkTree A}
    (h : Regrown inner bal path s t bal') : t.toList = (plug path s).toList := by
  induction h with
  | root bal s => rfl
  | grows heven hrest ih => exact ih
  | evens hlight => rfl
  | rotates hheavy houter hbal => rw [toList_plug, LinkTree.toList_rotate, ← toList_plug, plug]
  | rotatesTwice hheavy hinner hbal =>
    rw [toList_plug, LinkTree.toList_rotate_twice, ← toList_plug, plug, LinkTree.mk_other]

/-- The state of the loop: the subtree `s` at `r`, whose height has grown by one. -/
structure Growing (ls : Links A) (path : List (Frame A)) (s : LinkTree A) (q : Option A) (r : A) :
    Prop where
  way : LinkedPath ls.child ls.parent ls.root path q (some r)
  sub : Linked ls.child ls.parent q s (some r)
  nodup : (plug path s).toList.Nodup
  avl : AvlTree ls.balance s
  rest : AvlPath ls.balance path (s.height - 1)
  grown : s.height = 1 ∨ ls.balance r ≠ 0

namespace Growing

variable {f : Frame A} {path : List (Frame A)} {s : LinkTree A}

theorem run (h : Growing ls (f :: path) s (some f.elt) r) (inner : Side → Int → Int × Int) (fuel : Nat) :
    rebalance inner (fuel + 1) r (some f.elt) ls =
      if ls.balance f.elt = 0 then
        rebalance inner fuel f.elt (ls.parent f.elt) (ls.setBalance f.elt f.side.sign)
      else if 0 < f.side.sign * ls.balance f.elt then
        if 0 < f.side.sign * ls.balance r then some (rotate f.side f.elt r ls)
        else match ls.child r f.side.other with
          | none => none
          | some t => some (rotateTwice inner f.side f.elt r t ls)
      else some (ls.setBalance f.elt 0) := by
  obtain ⟨-, -, hdisj⟩ := nodup_plug.1 h.nodup
  have hside := h.way.side_eq fun hin => hdisj h.sub.mem_of_ptr hin
  rw [rebalance]
  simp only [hside]

omit [DecidableEq A] in
theorem height_pos {q : Option A} (h : Growing ls path s q r) : 0 < s.height := by
  cases s with
  | nil => cases h.sub
  | node => exact Nat.succ_pos _

omit [DecidableEq A] in
theorem diff {q : Option A} (h : Growing ls (f :: path) s q r) :
    f.side.sign * ls.balance f.elt = ((s.height - 1 : Nat) : Int) - f.sibling.height := by
  obtain ⟨hbal, -⟩ := h.rest
  rw [hbal, ← Int.mul_assoc, f.side.sign_mul_sign, Int.one_mul]

omit [DecidableEq A] in
theorem abs_le_one {q : Option A} (h : Growing ls (f :: path) s q r) :
    -1 ≤ f.side.sign * ls.balance f.elt ∧ f.side.sign * ls.balance f.elt ≤ 1 := by
  obtain ⟨-, hone, -⟩ := h.rest
  cases f.side <;> simp only [Side.sign] <;> omega

omit [DecidableEq A] in
theorem parent {q : Option A} (h : Growing ls (f :: path) s q r) :
    LinkedPath ls.child ls.parent ls.root path (ls.parent f.elt) (some f.elt) ∧
      Linked ls.child ls.parent (ls.parent f.elt) (.mk f.side f.elt s f.sibling) (some f.elt) := by
  obtain ⟨rfl, hptr, hsib, hpath⟩ := h.way
  exact ⟨hpath, linked_mk.2 ⟨rfl, rfl, hptr ▸ h.sub, hsib⟩⟩

theorem setBalance {q : Option A} (h : Growing ls (f :: path) s q r) (n : Int) :
    AvlTree (ls.setBalance f.elt n).balance s ∧ AvlTree (ls.setBalance f.elt n).balance f.sibling ∧
      AvlPath (ls.setBalance f.elt n).balance path (max (s.height - 1) f.sibling.height + 1) := by
  obtain ⟨-, -, hsibAvl, hrest⟩ := h.rest
  have helt := nodup_plug.1 (show (plug path (.mk f.side f.elt s f.sibling)).toList.Nodup from h.nodup)
  obtain ⟨⟨hfs, hfsib⟩, -⟩ := LinkTree.nodup_mk.1 helt.1
  have hsame : ∀ b, b ≠ f.elt → (ls.setBalance f.elt n).balance b = ls.balance b := fun b hb =>
    (balance_setBalance ..).trans (if_neg hb)
  refine ⟨h.avl.congr fun b hb => hsame b fun heq => hfs (heq ▸ hb),
    hsibAvl.congr fun b hb => hsame b fun heq => hfsib (heq ▸ hb),
    hrest.congr fun b hb => hsame b ?_⟩
  rintro rfl
  exact helt.2.2 (LinkTree.mem_mk.2 (.inl rfl)) hb

/-- The subtrees of the node above were equally high, and the loop goes on. -/
theorem grows {q : Option A} (h : Growing ls (f :: path) s q r) (heven : ls.balance f.elt = 0) :
    Growing (ls.setBalance f.elt f.side.sign) path (.mk f.side f.elt s f.sibling) (ls.parent f.elt) f.elt := by
  obtain ⟨hpath, hsub⟩ := h.parent
  obtain ⟨hs, hsib, hrest⟩ := h.setBalance f.side.sign
  have hpos := h.height_pos
  have hdiff := h.diff
  rw [heven, Int.mul_zero] at hdiff
  have hset : (ls.setBalance f.elt f.side.sign).balance f.elt = f.side.sign :=
    (balance_setBalance ..).trans (if_pos rfl)
  refine ⟨?_, ?_, h.nodup, avlTree_mk.2 ⟨?_, ?_, hs, hsib⟩, ?_, ?_⟩
  · rw [child_setBalance, parent_setBalance]
    exact hpath
  · rw [child_setBalance, parent_setBalance]
    exact hsub
  · rw [hset, show ((s.height : Int) - f.sibling.height) = 1 by omega, Int.mul_one]
  · rw [hset]
    cases f.side <;> decide
  · rwa [LinkTree.height_mk, Nat.add_sub_cancel,
      show max s.height f.sibling.height = max (s.height - 1) f.sibling.height + 1 by omega]
  · rw [hset]
    cases f.side <;> exact .inr (by decide)

theorem evens {q : Option A} (h : Growing ls (f :: path) s q r) (hzero : ls.balance f.elt ≠ 0)
    (hlight : ¬ 0 < f.side.sign * ls.balance f.elt) :
    f.side.sign * ls.balance f.elt < 0 ∧
      Linked (ls.setBalance f.elt 0).child (ls.setBalance f.elt 0).parent none
        (plug path (.mk f.side f.elt s f.sibling)) (ls.setBalance f.elt 0).root ∧
      AvlTree (ls.setBalance f.elt 0).balance (plug path (.mk f.side f.elt s f.sibling)) := by
  obtain ⟨hpath, hsub⟩ := h.parent
  obtain ⟨hs, hsib, hrest⟩ := h.setBalance 0
  have hpos := h.height_pos
  have hdiff := h.diff
  have hone := h.abs_le_one
  have hneg : f.side.sign * ls.balance f.elt < 0 := by
    cases hfs : f.side <;> rw [hfs] at hlight <;> simp only [Side.sign] at hlight ⊢ <;> omega
  refine ⟨hneg, ?_, ?_⟩
  · rw [child_setBalance, parent_setBalance]
    exact linked_plug.2 ⟨_, _, hpath, hsub⟩
  · rw [avlTree_plug, avlTree_mk, LinkTree.height_mk, balance_setBalance, if_pos rfl]
    refine ⟨⟨?_, by decide, hs, hsib⟩, ?_⟩
    · rw [show ((s.height : Int) - f.sibling.height) = 0 by omega, Int.mul_zero]
    · rwa [show max s.height f.sibling.height + 1 = max (s.height - 1) f.sibling.height + 1 by omega]

/-- A subtree that was the higher one has grown on the outside. -/
theorem rotates {q : Option A} (h : Growing ls (f :: path) s q r)
    (hheavy : 0 < f.side.sign * ls.balance f.elt) (houter : 0 < f.side.sign * ls.balance r) :
    ∃ x y, s = .mk f.side r x y ∧
      Linked (rotate f.side f.elt r ls).child (rotate f.side f.elt r ls).parent none
        (plug path (.mk f.side r x (.mk f.side f.elt y f.sibling))) (rotate f.side f.elt r ls).root ∧
      AvlTree (rotate f.side f.elt r ls).balance
        (plug path (.mk f.side r x (.mk f.side f.elt y f.sibling))) := by
  have hpos := h.height_pos
  have hdiff := h.diff
  have hone := h.abs_le_one
  obtain ⟨hpath, hsub⟩ := h.parent
  obtain ⟨-, hs, hnodup, havl, ⟨-, -, hsibAvl, hrest⟩, -⟩ := h
  obtain rfl | ⟨a, x, y, rfl⟩ := LinkTree.exists_mk f.side s
  · cases hs
  obtain ⟨heq, -⟩ := linked_mk.1 hs
  obtain rfl := Option.some.inj heq
  obtain ⟨hrbal, hrone, -⟩ := avlTree_mk.1 havl
  have hrdiff : f.side.sign * ls.balance r = x.height - y.height := by
    rw [hrbal, ← Int.mul_assoc, f.side.sign_mul_sign, Int.one_mul]
  have hrsign : ls.balance r = f.side.sign := by
    cases hfs : f.side <;> rw [hfs] at houter <;> simp only [Side.sign] at houter ⊢ <;> omega
  rw [hrsign, f.side.sign_mul_sign] at hrdiff
  rw [LinkTree.height_mk] at hdiff hrest
  refine ⟨x, y, rfl, rotate_linked hpath hsub hnodup,
    rotate_balanced hnodup hrsign havl hsibAvl (by omega) ?_⟩
  rwa [show max (max x.height y.height + 1 - 1) f.sibling.height + 1 = x.height + 1 by omega] at hrest

theorem rotatesTwice {q : Option A} (h : Growing ls (f :: path) s q r) (hrule : InnerBalance inner)
    (hheavy : 0 < f.side.sign * ls.balance f.elt) (hin : ¬ 0 < f.side.sign * ls.balance r) :
    ∃ t u v x, s = .mk f.side.other r (.mk f.side t u v) x ∧ ls.child r f.side.other = some t ∧
      Linked (rotateTwice inner f.side f.elt r t ls).child (rotateTwice inner f.side f.elt r t ls).parent none
        (plug path (.mk f.side t (.mk f.side r x u) (.mk f.side f.elt v f.sibling)))
        (rotateTwice inner f.side f.elt r t ls).root ∧
      AvlTree (rotateTwice inner f.side f.elt r t ls).balance
        (plug path (.mk f.side t (.mk f.side r x u) (.mk f.side f.elt v f.sibling))) := by
  have hpos := h.height_pos
  have hdiff := h.diff
  have hone := h.abs_le_one
  obtain ⟨hpath, hsub⟩ := h.parent
  obtain ⟨-, hs, hnodup, havl, ⟨-, -, hsibAvl, hrest⟩, hgrown⟩ := h
  have hr0 := hgrown.resolve_left (by omega)
  obtain rfl | ⟨a, w, x, rfl⟩ := LinkTree.exists_mk f.side.other s
  · cases hs
  obtain ⟨heq, -, hw, -⟩ := linked_mk.1 hs
  obtain rfl := Option.some.inj heq
  obtain ⟨hrbal, hrone, hwAvl, -⟩ := avlTree_mk.1 havl
  have hrdiff : (w.height : Int) - x.height = 1 := by
    cases hfs : f.side <;> rw [hfs] at hin hrbal <;>
      simp only [Side.other, Side.sign] at hin hrbal <;> omega
  obtain rfl | ⟨t, u, v, rfl⟩ := LinkTree.exists_mk f.side w
  · rw [show (LinkTree.nil : LinkTree A).height = 0 from rfl] at hrdiff
    omega
  obtain ⟨hptr', -⟩ := linked_mk.1 hw
  rw [LinkTree.height_mk, LinkTree.height_mk] at hdiff hrest
  rw [LinkTree.height_mk] at hrdiff
  refine ⟨t, u, v, x, rfl, hptr', rotateTwice_linked hpath hsub hnodup,
    rotateTwice_balanced hrule hnodup havl hsibAvl (by omega) (by omega) ?_⟩
  rwa [show max (max (max u.height v.height + 1) x.height + 1 - 1) f.sibling.height + 1 =
    f.sibling.height + 2 by omega] at hrest

end Growing

/-- The loop above a subtree whose height has grown by one. -/
theorem rebalance_spec {path : List (Frame A)} {s : LinkTree A} {q : Option A} {fuel : Nat}
    (h : Growing ls path s q r) (hrule : InnerBalance inner) (hfuel : path.length ≤ fuel) :
    ∃ ls' t, rebalance inner fuel r q ls = some ls' ∧ Regrown inner ls.balance path s t ls'.balance ∧
      Linked ls'.child ls'.parent none t ls'.root ∧ AvlTree ls'.balance t := by
  induction path generalizing ls s r q fuel with
  | nil =>
    obtain ⟨⟨rfl, hroot⟩, hs, -, havl, -⟩ := h
    rw [hroot] at hs
    refine ⟨ls, s, ?_, .root _ s, hs, havl⟩
    cases fuel <;> rfl
  | cons f path ih =>
    obtain ⟨fuel, rfl⟩ := Nat.exists_eq_add_of_le' (Nat.le_trans (Nat.succ_le_succ (Nat.zero_le _)) hfuel)
    obtain rfl : q = some f.elt := h.way.1
    rw [h.run]
    split
    · next heven =>
      obtain ⟨ls', t, hrun, hgrown, hdone⟩ := ih (h.grows heven) (Nat.le_of_succ_le_succ hfuel)
      exact ⟨ls', t, hrun, .grows heven hgrown, hdone⟩
    · next hzero =>
      split
      · next hheavy =>
        split
        · next houter =>
          obtain ⟨x, y, rfl, hdone⟩ := h.rotates hheavy houter
          exact ⟨_, _, rfl, .rotates hheavy houter (rotate_balance ls f.side f.elt r), hdone⟩
        · next hin =>
          obtain ⟨t, u, v, x, rfl, hptr, hdone⟩ := h.rotatesTwice hrule hheavy hin
          rw [hptr]
          exact ⟨_, _, rfl, .rotatesTwice hheavy hin (rotateTwice_balance inner ls f.side f.elt r t), hdone⟩
      · next hlight =>
        obtain ⟨hneg, hdone⟩ := h.evens hzero hlight
        exact ⟨_, _, rfl, .evens hneg, hdone⟩

end Rebalancing


section Inserting

variable {inner : Side → Int → Int × Int} {dir : A → Option Side} {ls : Links A}

theorem attach_linked {path : List (Frame A)} {q : Option A} {side : Side} {r : A}
    (hpath : LinkedPath ls.child ls.parent ls.root path q none) (hside : ∀ f ∈ path.head?, side = f.side)
    (hnodup : (pathElts path).Nodup) (hr : r ∉ pathElts path) :
    LinkedPath (attach q side r ls).child (attach q side r ls).parent (attach q side r ls).root path q
        (some r) ∧
      Linked (attach q side r ls).child (attach q side r ls).parent q (.node .nil r .nil) (some r) := by
  obtain ⟨ls₁, hls₁, hlinked⟩ : ∃ ls₁ : Links A,
      attach q side r ls = (((ls₁.setParent r q).setChild r .left none).setChild r .right none).setBalance r 0 ∧
      LinkedPath ls₁.child ls₁.parent ls₁.root path q (some r) := by
    refine ⟨_, rfl, ?_⟩
    cases path with
    | nil =>
      obtain ⟨rfl, -⟩ := hpath
      exact ⟨rfl, rfl⟩
    | cons f path =>
      have hset := setChild_path hpath hnodup (some r)
      obtain rfl := hside f rfl
      obtain ⟨rfl, -⟩ := hpath
      exact hset
  rw [hls₁]
  refine ⟨hlinked.congr (fun a ha => ?_) fun a ha => ?_, rfl, ?_, ?_, ?_⟩
  · funext d
    have hne : a ≠ r := fun h => hr (h ▸ ha)
    simp [hne]
  · have hne : a ≠ r := fun h => hr (h ▸ ha)
    simp [hne]
  · simp
  · simp [Linked]
  · simp [Linked]

@[simp] theorem balance_attach (p : Option A) (side : Side) (r b : A) :
    (attach p side r ls).balance b = if b = r then 0 else ls.balance b := by
  cases p <;> simp [attach]

theorem rebalance_attach {path : List (Frame A)} {q : Option A} {side : Side} {r : A} {fuel : Nat}
    (hpath : LinkedPath ls.child ls.parent ls.root path q none) (hside : ∀ f ∈ path.head?, side = f.side)
    (hnodup : (pathElts path).Nodup) (hr : r ∉ pathElts path) (havl : AvlPath ls.balance path 0)
    (hrule : InnerBalance inner) (hfuel : path.length ≤ fuel) :
    ∃ ls' t, rebalance inner fuel r q (attach q side r ls) = some ls' ∧
      Regrown inner (attach q side r ls).balance path (.node .nil r .nil) t ls'.balance ∧
      Linked ls'.child ls'.parent none t ls'.root ∧ AvlTree ls'.balance t := by
  obtain ⟨hpath', hleaf⟩ := attach_linked hpath hside hnodup hr
  have hleafAvl : AvlTree (attach q side r ls).balance (.node .nil r .nil) := by
    rw [AvlTree, balance_attach, if_pos rfl]
    exact ⟨rfl, by decide, trivial, trivial⟩
  have hrest : AvlPath (attach q side r ls).balance path 0 :=
    havl.congr fun a ha => by
      have hne : a ≠ r := fun h => hr (h ▸ ha)
      rw [balance_attach, if_neg hne]
  exact rebalance_spec ⟨hpath', hleaf, nodup_plug.2 ⟨List.nodup_singleton r, hnodup, fun a ha hpa =>
    hr (List.mem_singleton.1 ha ▸ hpa)⟩, hleafAvl, hrest, .inl rfl⟩ hrule hfuel

omit [DecidableEq A] in
theorem search_spec {s : LinkTree A} (path : List (Frame A)) (side : Side) {q ptr : Option A} {fuel : Nat}
    (hpath : LinkedPath ls.child ls.parent ls.root path q ptr) (hs : Linked ls.child ls.parent q s ptr)
    (hside : ∀ f ∈ path.head?, side = f.side) (hdir : ∀ f ∈ path, dir f.elt = some f.side)
    (hfuel : s.height ≤ fuel) :
    (∃ path' l a r, search dir ls fuel q side ptr = some (.taken a) ∧
        plug path' (.node l a r) = plug path s ∧ dir a = none ∧ ∀ f ∈ path', dir f.elt = some f.side) ∨
      ∃ path' q' side', search dir ls fuel q side ptr = some (.free q' side') ∧
        plug path' .nil = plug path s ∧ LinkedPath ls.child ls.parent ls.root path' q' none ∧
        (∀ f ∈ path'.head?, side' = f.side) ∧ ∀ f ∈ path', dir f.elt = some f.side := by
  induction s generalizing path q ptr side fuel with
  | nil =>
    obtain rfl : ptr = none := hs
    refine .inr ⟨path, q, side, ?_, rfl, hpath, hside, hdir⟩
    cases fuel <;> rfl
  | node l a r ihl ihr =>
    obtain ⟨rfl, rfl, hl, hr⟩ := hs
    rw [LinkTree.height] at hfuel
    obtain ⟨fuel, rfl⟩ : ∃ n, fuel = n + 1 := ⟨fuel - 1, by omega⟩
    rw [search]
    cases hd : dir a with
    | none => exact .inl ⟨path, l, a, r, rfl, rfl, hd, hdir⟩
    | some d =>
      cases d with
      | left =>
        refine ihl (⟨.left, a, r⟩ :: path) .left ⟨rfl, rfl, hr, hpath⟩ hl ?_ ?_ (by omega)
        · rintro f ⟨⟩
          rfl
        · exact List.forall_mem_cons.2 ⟨hd, hdir⟩
      | right =>
        refine ihr (⟨.right, a, l⟩ :: path) .right ⟨rfl, rfl, hl, hpath⟩ hr ?_ ?_ (by omega)
        · rintro f ⟨⟩
          rfl
        · exact List.forall_mem_cons.2 ⟨hd, hdir⟩

/-- The nodes in order are on the left of what is looked for, then it, then on the right. -/
def Directed (dir : A → Option Side) (elts : List A) : Prop :=
  elts.Pairwise fun a b =>
    (dir a = some .left → dir b = some .left) ∧ (dir b = some .right → dir a = some .right)

omit [DecidableEq A] in
/-- A way down in an ordered tree passes all nodes on their side. -/
theorem directed_path {path : List (Frame A)} (hdir : ∀ f ∈ path, dir f.elt = some f.side)
    (horder : Directed dir (pathElts path)) :
    (∀ a ∈ before path, dir a = some .right) ∧ ∀ a ∈ after path, dir a = some .left := by
  induction path with
  | nil => exact ⟨fun a ha => (List.not_mem_nil ha).elim, fun a ha => (List.not_mem_nil ha).elim⟩
  | cons f path ih =>
    obtain ⟨side, a, sibling⟩ := f
    obtain ⟨ha, htail⟩ := List.forall_mem_cons.1 hdir
    cases side with
    | left =>
      simp only [pathElts, before, after] at horder ⊢
      obtain ⟨hb, hafter⟩ := ih htail (horder.sublist
        ((List.sublist_append_right _ _).trans (List.sublist_cons_self ..) |>.append_left _))
      have hbehind := (List.pairwise_cons.1 (List.pairwise_append.1 horder).2.1).1
      refine ⟨hb, fun b hmem => ?_⟩
      obtain rfl | hmem := List.mem_cons.1 hmem
      · exact ha
      · exact (hbehind b hmem).1 ha
    | right =>
      simp only [pathElts, before, after] at horder ⊢
      obtain ⟨hb, hafter⟩ := ih htail (horder.sublist ((List.sublist_append_left _ _).append_right _))
      have hhead := (List.pairwise_append.1 (List.pairwise_append.1 horder).1).2.1
      refine ⟨fun b hmem => ?_, hafter⟩
      obtain hmem | hmem := List.mem_append.1 hmem
      · exact hb b hmem
      obtain hmem | hmem := List.mem_append.1 hmem
      · exact ((List.pairwise_append.1 hhead).2.2 b hmem a (List.mem_singleton.2 rfl)).2 ha
      · rw [List.mem_singleton.1 hmem]
        exact ha

/-- An insertion stops at a node, or puts the new node in its place. -/
theorem search_insert {elts : List A} {r : A} {fuel : Nat} (side : Side) (h : AvlOf elts ls)
    (hnodup : elts.Nodup) (horder : Directed dir elts) (hr : r ∉ elts) (hrule : InnerBalance inner)
    (hfuel : elts.length ≤ fuel) :
    (∃ a ∈ elts, dir a = none ∧ search dir ls fuel none side ls.root = some (.taken a)) ∨
      ∃ p side' l₁ l₂ ls', search dir ls fuel none side ls.root = some (.free p side') ∧
        elts = l₁ ++ l₂ ∧ (∀ a ∈ l₁, dir a = some .right) ∧ (∀ a ∈ l₂, dir a = some .left) ∧
        (∀ a, p = some a → a ∈ elts) ∧
        rebalance inner fuel r p (attach p side' r ls) = some ls' ∧ AvlOf (l₁ ++ r :: l₂) ls' := by
  obtain ⟨t, hlinked, havl, rfl⟩ := h
  have hheight : t.height ≤ fuel := Nat.le_trans (LinkTree.height_le_length t) hfuel
  obtain ⟨path, l, a, r', hsearch, hplug, hstop, -⟩ | ⟨path, p, side', hsearch, hplug, hpath, hside, hdir⟩ :=
    search_spec [] side ⟨rfl, rfl⟩ hlinked (fun f hf => by cases hf)
      (fun f hf => (List.not_mem_nil hf).elim) hheight
  · refine .inl ⟨a, ?_, hstop, hsearch⟩
    rw [show t = plug path (.node l a r') from hplug.symm, (toList_plug_perm ..).mem_iff]
    exact List.mem_append_left _ (List.mem_append_right _ (List.mem_cons_self ..))
  obtain rfl : plug path .nil = t := hplug
  have helts : (plug path .nil).toList = pathElts path := toList_plug path .nil
  rw [helts] at hnodup horder hr hfuel ⊢
  obtain ⟨hbefore, hafter⟩ := directed_path hdir horder
  obtain ⟨ls', t', hrun, hgrown, hlinked', havl'⟩ := rebalance_attach hpath hside hnodup hr
    (avlTree_plug.1 havl).2 hrule (Nat.le_trans (length_path_le path) hfuel)
  have hplace : t'.toList = before path ++ r :: after path := by
    rw [hgrown.toList_eq, toList_plug]
    rfl
  refine .inr ⟨p, side', _, _, ls', hsearch, rfl, hbefore, hafter, fun a ha => ?_, hrun,
    t', hlinked', havl', hplace⟩
  subst ha
  exact hpath.mem_of_parent

end Inserting

end Links

end Z80Gcc.LinkedTree
