import Mathlib
import Z80Gcc.Lib.LinkedTree
import Mathlib.Order.Basic

/-! Binary trees whose nodes point to their children alone: the places that hold a pointer, what is written to
one of them, the rotations that bring a node up, and search in an ordered tree. -/

namespace Z80Gcc.LinkedTree

section Places

variable {A : Type*}

/-- A place that holds a pointer: the root's, or one in a node. -/
inductive ChildPlace (A : Type*) where
  | root
  | child (a : A) (side : Side)

structure ChildLinks (A : Type*) where
  root : Option A
  child : A → Side → Option A

def ChildLinks.get (s : ChildLinks A) : ChildPlace A → Option A
  | .root => s.root
  | .child a side => s.child a side

def placeOf : List (Frame A) → ChildPlace A
  | [] => .root
  | f :: _ => .child f.elt f.side

@[simp] theorem placeOf_cons (f : Frame A) (path : List (Frame A)) :
    placeOf (f :: path) = .child f.elt f.side := rfl

def Holds (s : ChildLinks A) : LinkTree A → Option A → Prop
  | .nil, ptr => ptr = none
  | .node l a r, ptr => ptr = some a ∧ Holds s l (s.child a .left) ∧ Holds s r (s.child a .right)

def HoldsPath (s : ChildLinks A) : List (Frame A) → Option A → Prop
  | [], ptr => ptr = s.root
  | f :: path, ptr => ptr = s.child f.elt f.side ∧ Holds s f.sibling (s.child f.elt f.side.other) ∧
      HoldsPath s path (some f.elt)

variable {s s' : ChildLinks A} {t : LinkTree A} {path : List (Frame A)} {ptr : Option A}

theorem holds_mk {side : Side} {a : A} {near far : LinkTree A} :
    Holds s (.mk side a near far) ptr ↔
      ptr = some a ∧ Holds s near (s.child a side) ∧ Holds s far (s.child a side.other) := by
  cases side with
  | left => rfl
  | right => exact and_congr_right fun _ => and_comm

theorem holds_plug : Holds s (plug path t) s.root ↔ ∃ ptr, HoldsPath s path ptr ∧ Holds s t ptr := by
  induction path generalizing t with
  | nil =>
    constructor
    · intro h
      exact ⟨s.root, rfl, h⟩
    · rintro ⟨ptr, rfl, h⟩
      exact h
  | cons f path ih =>
    rw [plug, ih]
    constructor
    · rintro ⟨ptr, hpath, h⟩
      obtain ⟨rfl, hnear, hfar⟩ := holds_mk.1 h
      exact ⟨_, ⟨rfl, hfar, hpath⟩, hnear⟩
    · rintro ⟨ptr, ⟨rfl, hfar, hpath⟩, h⟩
      exact ⟨_, hpath, holds_mk.2 ⟨rfl, h, hfar⟩⟩

theorem HoldsPath.get_eq (h : HoldsPath s path ptr) : s.get (placeOf path) = ptr := by
  cases path with
  | nil => exact h.symm
  | cons f path => exact h.1.symm

theorem Holds.mem_of_ptr {a : A} (h : Holds s t (some a)) : a ∈ t.toList := by
  cases t with
  | nil => cases h
  | node l b r =>
    obtain ⟨heq, -⟩ := h
    cases heq
    exact List.mem_append_right _ List.mem_cons_self

theorem Holds.congr (h : Holds s t ptr) (hc : ∀ a ∈ t.toList, s'.child a = s.child a) : Holds s' t ptr := by
  induction t generalizing ptr with
  | nil => exact h
  | node l a r ihl ihr =>
    obtain ⟨hptr, hl, hr⟩ := h
    simp only [LinkTree.toList, List.mem_append, List.mem_cons] at hc
    rw [Holds, hc a (.inr (.inl rfl))]
    exact ⟨hptr, ihl hl fun b hb => hc b (.inl hb), ihr hr fun b hb => hc b (.inr (.inr hb))⟩

theorem HoldsPath.congr (h : HoldsPath s path ptr) (hroot : s'.root = s.root)
    (hc : ∀ a ∈ pathElts path, s'.child a = s.child a) : HoldsPath s' path ptr := by
  induction path generalizing ptr with
  | nil => exact h.trans hroot.symm
  | cons f path ih =>
    obtain ⟨hptr, hsib, hpath⟩ := h
    rw [HoldsPath, hc _ (mem_pathElts_cons.2 (.inl rfl))]
    exact ⟨hptr, hsib.congr fun b hb => hc b (mem_pathElts_cons.2 (.inr (.inl hb))),
      ih hpath fun b hb => hc b (mem_pathElts_cons.2 (.inr (.inr hb)))⟩

/-- What a node of a tree points to is not above all of it. -/
theorem Holds.mem_of_child {l r : LinkTree A} {a b n : A} {side : Side} (h : Holds s (.node l a r) ptr)
    (hb : b ∈ (LinkTree.node l a r).toList) (hchild : s.child b side = some n) :
    n ∈ l.toList ∨ n ∈ r.toList := by
  generalize hu : LinkTree.node l a r = u at h hb
  induction u generalizing l a r ptr with
  | nil => cases hu
  | node l' a' r' ihl ihr =>
    cases hu
    obtain ⟨-, hl, hr⟩ := h
    have sub : ∀ {t : LinkTree A} {ptr : Option A}, Holds s t ptr → b ∈ t.toList →
        (∀ {l r : LinkTree A} {a : A} {ptr : Option A}, .node l a r = t → Holds s t ptr → b ∈ t.toList →
          n ∈ l.toList ∨ n ∈ r.toList) → n ∈ t.toList := by
      intro t ptr ht hbt ih
      cases t with
      | nil => cases hbt
      | node l a r =>
        rw [LinkTree.toList, List.mem_append, List.mem_cons]
        exact (ih rfl ht hbt).imp_right .inr
    rw [LinkTree.toList, List.mem_append, List.mem_cons] at hb
    rcases hb with hb | rfl | hb
    · exact .inl (sub hl hb ihl)
    · cases side with
      | left => exact .inl (Holds.mem_of_ptr (hchild ▸ hl))
      | right => exact .inr (Holds.mem_of_ptr (hchild ▸ hr))
    · exact .inr (sub hr hb ihr)

theorem Holds.child_ne_root {l r : LinkTree A} {b n : A} (h : Holds s (.node l n r) ptr)
    (hnodup : (LinkTree.node l n r).toList.Nodup) (hb : b ∈ (LinkTree.node l n r).toList) (side : Side) :
    s.child b side ≠ some n := by
  intro hchild
  rw [LinkTree.toList, List.nodup_middle, List.nodup_cons, List.mem_append] at hnodup
  exact hnodup.1 (h.mem_of_child hb hchild)

end Places

section Put

variable {A : Type*} [DecidableEq A]

def ChildLinks.put (s : ChildLinks A) : ChildPlace A → Option A → ChildLinks A
  | .root, ptr => { s with root := ptr }
  | .child a side, ptr =>
    { s with child := fun b side' => if b = a ∧ side' = side then ptr else s.child b side' }

def ChildPlace.owner : ChildPlace A → Option A
  | .root => none
  | .child a _ => some a

variable {s : ChildLinks A} {t : LinkTree A} {path : List (Frame A)} {ptr : Option A}

theorem put_child_of_ne {pl : ChildPlace A} {b : A} (h : pl.owner ≠ some b) : (s.put pl ptr).child b = s.child b := by
  cases pl with
  | root => rfl
  | child a side =>
    funext side'
    exact if_neg fun heq => h (congrArg some heq.1.symm)

@[simp] theorem put_child_same (a : A) (side : Side) : (s.put (.child a side) ptr).child a side = ptr :=
  if_pos ⟨rfl, rfl⟩

@[simp] theorem put_child_other (a : A) (side : Side) :
    (s.put (.child a side) ptr).child a side.other = s.child a side.other :=
  if_neg fun heq => side.other_ne heq.2

@[simp] theorem put_child_other' (a : A) (side : Side) :
    (s.put (.child a side.other) ptr).child a side = s.child a side :=
  if_neg fun heq => side.ne_other heq.2

@[simp] theorem put_child_root (a : A) (side : Side) : (s.put (.child a side) ptr).root = s.root := rfl

omit [DecidableEq A] in
theorem owner_placeOf_mem {b : A} (h : (placeOf path).owner = some b) : b ∈ pathElts path := by
  cases path with
  | nil => cases h
  | cons f path =>
    cases h
    exact mem_pathElts_cons.2 (.inl rfl)

/-- Writing the place of a subtree changes no other pointer on the way. -/
theorem HoldsPath.put (h : HoldsPath s path ptr) (hnodup : (pathElts path).Nodup) (ptr' : Option A) :
    HoldsPath (s.put (placeOf path) ptr') path ptr' := by
  cases path with
  | nil => rfl
  | cons f path =>
    obtain ⟨-, hsib, hpath⟩ := h
    rw [(pathElts_cons_perm f path).nodup_iff, List.nodup_cons, List.mem_append, not_or] at hnodup
    have hne : ∀ b, b ≠ f.elt → (s.put (.child f.elt f.side) ptr').child b = s.child b :=
      fun b hb => put_child_of_ne fun heq => hb (Option.some.inj heq).symm
    rw [placeOf, HoldsPath, put_child_same, put_child_other]
    refine ⟨rfl, hsib.congr fun b hb => hne b ?_, hpath.congr rfl fun b hb => hne b ?_⟩
    · rintro rfl
      exact hnodup.1.1 hb
    · rintro rfl
      exact hnodup.1.2 hb

theorem holds_plug_put {t' : LinkTree A} (h : HoldsPath s path ptr) (hnodup : (pathElts path).Nodup)
    (hdisj : List.Disjoint t'.toList (pathElts path)) {ptr' : Option A} (h' : Holds s t' ptr') :
    Holds (s.put (placeOf path) ptr') (plug path t') (s.put (placeOf path) ptr').root := by
  refine holds_plug.2 ⟨_, h.put hnodup ptr', h'.congr fun b hb => put_child_of_ne fun heq => ?_⟩
  exact hdisj hb (owner_placeOf_mem heq)

end Put

section Rotations

variable {A : Type*} [DecidableEq A] {s : ChildLinks A} {path : List (Frame A)} {side : Side} {n p g : A}
  {near far sf : LinkTree A}

theorem put_put_same (pl : ChildPlace A) (x y : Option A) : (s.put pl x).put pl y = s.put pl y := by
  cases pl with
  | root => rfl
  | child a side =>
    simp only [ChildLinks.put, ChildLinks.mk.injEq, true_and]
    funext b side'
    split_ifs <;> rfl

theorem put_put_comm {pl pl' : ChildPlace A} (hne : pl ≠ pl') (x y : Option A) :
    (s.put pl x).put pl' y = (s.put pl' y).put pl x := by
  cases pl with
  | root =>
    cases pl' with
    | root => exact absurd rfl hne
    | child b side' => rfl
  | child a side =>
    cases pl' with
    | root => rfl
    | child b side' =>
      simp only [ChildLinks.put, ChildLinks.mk.injEq, true_and]
      funext c side''
      split_ifs with h h'
      · obtain ⟨rfl, rfl⟩ := h
        obtain ⟨rfl, rfl⟩ := h'
        exact absurd rfl hne
      · rfl
      · rfl
      · rfl

/-- The writes that lift `n` over its parent `p`, whose place is `pl`. -/
def ChildLinks.rotate (s : ChildLinks A) (side : Side) (n p : A) (pl : ChildPlace A) : ChildLinks A :=
  ((s.put (.child p side) (s.child n side.other)).put (.child n side.other) (some p)).put pl (some n)

theorem put_child (a : A) (side : Side) (ptr : Option A) (b : A) (side' : Side) :
    (s.put (.child a side) ptr).child b side' = if b = a ∧ side' = side then ptr else s.child b side' := rfl

theorem holds_rotate (h : Holds s (plug path (.mk side p (.mk side n near far) sf)) s.root)
    (hnodup : (plug path (.mk side p (.mk side n near far) sf)).toList.Nodup) :
    Holds (s.rotate side n p (placeOf path)) (plug path (.mk side n near (.mk side p far sf)))
      (s.rotate side n p (placeOf path)).root := by
  obtain ⟨ptr, hpath, hp⟩ := holds_plug.1 h
  obtain ⟨rfl, hn, hsf⟩ := holds_mk.1 hp
  obtain ⟨-, hnear, hfar⟩ := holds_mk.1 hn
  rw [nodup_plug] at hnodup
  obtain ⟨hlocal, hpathnodup, hdisj⟩ := hnodup
  obtain ⟨⟨hpn, hpsf⟩, hnn, -, hnsf⟩ := LinkTree.nodup_mk.1 hlocal
  obtain ⟨⟨hnnear, hnfar⟩, -⟩ := LinkTree.nodup_mk.1 hnn
  rw [LinkTree.mem_mk, not_or, not_or] at hpn
  obtain ⟨hpn, hpnear, hpfar⟩ := hpn
  have hnnsf : n ∉ sf.toList := List.disjoint_left.1 hnsf (LinkTree.mem_mk.2 (.inl rfl))
  rw [ChildLinks.rotate]
  generalize hs₁ : (s.put (.child p side) (s.child n side.other)).put (.child n side.other) (some p) = s₁
  have hframe : ∀ b, b ≠ p → b ≠ n → s₁.child b = s.child b := by
    intro b hbp hbn
    funext side'
    simp [← hs₁, put_child, hbp, hbn]
  have hcongr : ∀ {t : LinkTree A} {ptr : Option A}, Holds s t ptr → p ∉ t.toList → n ∉ t.toList →
      Holds s₁ t ptr := fun ht hp hn =>
    ht.congr fun b hb => hframe b (fun heq => hp (heq ▸ hb)) fun heq => hn (heq ▸ hb)
  have hnside : s₁.child n side = s.child n side := by simp [← hs₁, put_child, Ne.symm hpn]
  have hnother : s₁.child n side.other = some p := by simp [← hs₁]
  have hpside : s₁.child p side = s.child n side.other := by simp [← hs₁, put_child, hpn]
  have hpother : s₁.child p side.other = s.child p side.other := by simp [← hs₁, put_child, hpn]
  have hroot : s₁.root = s.root := by rw [← hs₁, put_child_root, put_child_root]
  refine holds_plug_put (hpath.congr hroot fun b hb => hframe b ?_ ?_) hpathnodup ?_ ?_
  · rintro rfl
    exact hdisj (LinkTree.mem_mk.2 (.inl rfl)) hb
  · rintro rfl
    exact hdisj (LinkTree.mem_mk.2 (.inr (.inl (LinkTree.mem_mk.2 (.inl rfl))))) hb
  · rw [LinkTree.toList_rotate]
    exact hdisj
  · refine holds_mk.2 ⟨rfl, ?_, holds_mk.2 ⟨hnother, ?_, ?_⟩⟩
    · exact hnside ▸ hcongr hnear hpnear hnnear
    · exact hpside ▸ hcongr hfar hpfar hnfar
    · exact hpother ▸ hcongr hsf hpsf hnnsf

omit [DecidableEq A] in
theorem toList_plug_rotate (path : List (Frame A)) (side : Side) (n p : A) (near far sf : LinkTree A) :
    (plug path (.mk side n near (.mk side p far sf))).toList =
      (plug path (.mk side p (.mk side n near far) sf)).toList := by
  rw [toList_plug, toList_plug, LinkTree.toList_rotate]

omit [DecidableEq A] in
theorem toList_plug_rotate_same (path : List (Frame A)) (side : Side) (n p g : A)
    (near far sf sg : LinkTree A) :
    (plug path (.mk side n near (.mk side p far (.mk side g sf sg)))).toList =
      (plug path (.mk side g (.mk side p (.mk side n near far) sf) sg)).toList := by
  rw [toList_plug_rotate, toList_plug_rotate]

omit [DecidableEq A] in
theorem toList_plug_rotate_twice (path : List (Frame A)) (side : Side) (n p g : A)
    (near far sf sg : LinkTree A) :
    (plug path (.mk side.other n (.mk side p far sf) (.mk side.other g near sg))).toList =
      (plug path (.mk side.other g (.mk side p (.mk side n near far) sf) sg)).toList := by
  rw [toList_plug_rotate, LinkTree.mk_other side n]
  exact toList_plug_rotate (⟨side.other, g, sg⟩ :: path) side n p near far sf

/-- Two rotations of one side, with the writes to the place of `g` made once. -/
theorem rotate_same {pl : ChildPlace A} (hpl : pl.owner ≠ some n) (hpl' : pl.owner ≠ some p) :
    (s.rotate side p g pl).rotate side n p pl =
      ((((s.put (.child g side) (s.child p side.other)).put (.child p side.other) (some g)).put
        (.child p side) (((s.put (.child g side) (s.child p side.other)).put (.child p side.other)
          (some g)).child n side.other)).put (.child n side.other) (some p)).put pl (some n) := by
  have hne : ∀ {a : A} (side : Side), pl.owner ≠ some a → pl ≠ .child a side := by
    rintro a side h rfl
    exact h rfl
  rw [ChildLinks.rotate, ChildLinks.rotate, put_put_comm (hne side hpl'), put_put_comm (hne side.other hpl), put_put_same,
    put_child_of_ne hpl]

theorem rotate_twice {pl : ChildPlace A} (hn : n ≠ g) :
    (s.rotate side n p (.child g side.other)).rotate side.other n g pl =
      ((((s.put (.child p side) (s.child n side.other)).put (.child n side.other) (some p)).put
        (.child g side.other) (((s.put (.child p side) (s.child n side.other)).put (.child n side.other)
          (some p)).child n side)).put (.child n side) (some g)).put pl (some n) := by
  have hne : (ChildPlace.child g side.other).owner ≠ some n := fun heq => hn (Option.some.inj heq).symm
  rw [ChildLinks.rotate, ChildLinks.rotate, put_put_same, put_child_of_ne hne, Side.other_other]

end Rotations

section Search

variable {A L : Type*}

/-- The last node on the way to what `cmp` looks for, or the node above. -/
def descend (cmp : A → Int) : LinkTree A → A → A
  | .nil, above => above
  | .node l a r, _ => if cmp a = 0 then a else if cmp a < 0 then descend cmp l a else descend cmp r a

/-- A descent in an ordered tree ends next to the place of the key. -/
theorem descend_split [LinearOrder L] {key : A → L} {x : L} {cmp : A → Int} {t : LinkTree A} (hne : t ≠ .nil)
    (hcmp : ∀ a ∈ t.toList, (cmp a = 0 ↔ x = key a) ∧ (cmp a < 0 ↔ x < key a))
    (hsorted : t.toList.Pairwise (key · < key ·)) (above : A) :
    ∃ low high, t.toList = low ++ descend cmp t above :: high ∧ (∀ a ∈ low, key a < x) ∧
      ∀ a ∈ high, x < key a := by
  induction t generalizing above with
  | nil => exact absurd rfl hne
  | node l a r ihl ihr =>
    simp only [LinkTree.toList, List.mem_append, List.mem_cons] at hcmp
    rw [LinkTree.toList, List.pairwise_append, List.pairwise_cons] at hsorted
    obtain ⟨hl, ⟨hra, hr⟩, hlar⟩ := hsorted
    obtain ⟨heq, hlt⟩ := hcmp a (.inr (.inl rfl))
    have hla : ∀ b ∈ l.toList, key b < key a := fun b hb => hlar b hb a List.mem_cons_self
    rw [LinkTree.toList, descend]
    split_ifs with h0 hneg
    · have hx : x = key a := heq.1 h0
      exact ⟨l.toList, r.toList, rfl, fun b hb => hx ▸ hla b hb, fun b hb => hx ▸ hra b hb⟩
    · have hx : x < key a := hlt.1 hneg
      cases l with
      | nil => exact ⟨[], r.toList, rfl, fun b hb => absurd hb List.not_mem_nil, fun b hb => hx.trans (hra b hb)⟩
      | node l' b r' =>
        obtain ⟨low, high, hsplit, hlow, hhigh⟩ :=
          ihl (fun h => by cases h) (fun b hb => hcmp b (.inl hb)) hl a
        refine ⟨low, high ++ a :: r.toList, by rw [hsplit]; simp, hlow, fun b hb => ?_⟩
        rcases List.mem_append.1 hb with hb | hb
        · exact hhigh b hb
        · rcases List.mem_cons.1 hb with rfl | hb
          · exact hx
          · exact hx.trans (hra b hb)
    · have hx : key a < x := lt_of_le_of_ne (not_lt.1 fun h => hneg (hlt.2 h)) fun h => h0 (heq.2 h.symm)
      cases r with
      | nil =>
        exact ⟨l.toList, [], rfl, fun b hb => (hla b hb).trans hx, fun b hb => absurd hb List.not_mem_nil⟩
      | node l' b r' =>
        obtain ⟨low, high, hsplit, hlow, hhigh⟩ :=
          ihr (fun h => by cases h) (fun b hb => hcmp b (.inr (.inr hb))) hr a
        refine ⟨l.toList ++ a :: low, high, by rw [hsplit]; simp, fun b hb => ?_, hhigh⟩
        rcases List.mem_append.1 hb with hb | hb
        · exact (hla b hb).trans hx
        · rcases List.mem_cons.1 hb with rfl | hb
          · exact hx
          · exact hlow b hb

end Search

end Z80Gcc.LinkedTree
