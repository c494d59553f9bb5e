import Mathlib.Data.List.Nodup
import Mathlib.Data.Int.Order.Basic

/-! Binary trees whose nodes point to their children and to their parent, the way from a node up to the
root, and balance in the sense of AVL trees. -/

namespace Z80Gcc.LinkedTree

inductive Side where
  | left
  | right
  deriving DecidableEq

namespace Side

def other : Side → Side
  | left => right
  | right => left

def sign : Side → Int
  | left => -1
  | right => 1

@[simp] theorem other_other (side : Side) : side.other.other = side := by cases side <;> rfl

@[simp] theorem other_ne (side : Side) : side.other ≠ side := by cases side <;> decide

@[simp] theorem ne_other (side : Side) : side ≠ side.other := by cases side <;> decide

theorem sign_mul_sign (side : Side) : side.sign * side.sign = 1 := by cases side <;> rfl

end Side

inductive LinkTree (A : Type*) where
  | nil
  | node (l : LinkTree A) (a : A) (r : LinkTree A)

namespace LinkTree

variable {A : Type*}

def mk : Side → A → LinkTree A → LinkTree A → LinkTree A
  | .left, a, near, far => node near a far
  | .right, a, near, far => node far a near

def toList : LinkTree A → List A
  | nil => []
  | node l a r => l.toList ++ a :: r.toList

def height : LinkTree A → Nat
  | nil => 0
  | node l _ r => max l.height r.height + 1

theorem exists_mk (side : Side) (t : LinkTree A) : t = nil ∨ ∃ a near far, t = mk side a near far := by
  cases t with
  | nil => exact .inl rfl
  | node l a r =>
    cases side with
    | left => exact .inr ⟨a, l, r, rfl⟩
    | right => exact .inr ⟨a, r, l, rfl⟩

theorem mk_other (side : Side) (a : A) (near far : LinkTree A) :
    mk side.other a near far = mk side a far near := by
  cases side <;> rfl

@[simp] theorem height_mk (side : Side) (a : A) (near far : LinkTree A) :
    (mk side a near far).height = max near.height far.height + 1 := by
  cases side with
  | left => rfl
  | right => rw [mk, height, Nat.max_comm]

theorem toList_mk_perm (side : Side) (a : A) (near far : LinkTree A) :
    (mk side a near far).toList.Perm (a :: (near.toList ++ far.toList)) := by
  cases side with
  | left => exact List.perm_middle
  | right => exact List.perm_middle.trans ((List.perm_append_comm).cons a)

theorem mem_mk {side : Side} {a b : A} {near far : LinkTree A} :
    b ∈ (mk side a near far).toList ↔ b = a ∨ b ∈ near.toList ∨ b ∈ far.toList := by
  rw [(toList_mk_perm side a near far).mem_iff, List.mem_cons, List.mem_append]

theorem nodup_mk {side : Side} {a : A} {near far : LinkTree A} :
    (mk side a near far).toList.Nodup ↔
      (a ∉ near.toList ∧ a ∉ far.toList) ∧ near.toList.Nodup ∧ far.toList.Nodup ∧
        List.Disjoint near.toList far.toList := by
  rw [(toList_mk_perm side a near far).nodup_iff, List.nodup_cons, List.nodup_append', List.mem_append,
    not_or]

theorem height_le_length (t : LinkTree A) : t.height ≤ t.toList.length := by
  induction t with
  | nil => exact Nat.zero_le _
  | node l a r ihl ihr =>
    rw [LinkTree.height, LinkTree.toList, List.length_append, List.length_cons]
    omega

theorem toList_rotate (side : Side) (p r : A) (x y z : LinkTree A) :
    (mk side r x (mk side p y z)).toList = (mk side p (mk side r x y) z).toList := by
  cases side <;> simp [mk, toList]

theorem toList_rotate_twice (side : Side) (p r t : A) (x u v z : LinkTree A) :
    (mk side t (mk side r x u) (mk side p v z)).toList =
      (mk side p (mk side r x (mk side t u v)) z).toList := by
  cases side <;> simp [mk, toList]

end LinkTree

/-- A node on the way up: the side of the subtree, the node, and its other subtree. -/
structure Frame (A : Type*) where
  side : Side
  elt : A
  sibling : LinkTree A

def plug {A : Type*} : List (Frame A) → LinkTree A → LinkTree A
  | [], t => t
  | f :: path, t => plug path (.mk f.side f.elt t f.sibling)

section Order

variable {A : Type*}

def before : List (Frame A) → List A
  | [] => []
  | ⟨.left, _, _⟩ :: path => before path
  | ⟨.right, a, sibling⟩ :: path => before path ++ (sibling.toList ++ [a])

def after : List (Frame A) → List A
  | [] => []
  | ⟨.left, a, sibling⟩ :: path => a :: (sibling.toList ++ after path)
  | ⟨.right, _, _⟩ :: path => after path

theorem toList_plug (path : List (Frame A)) (t : LinkTree A) :
    (plug path t).toList = before path ++ (t.toList ++ after path) := by
  induction path generalizing t with
  | nil => simp [plug, before, after]
  | cons f path ih =>
    obtain ⟨side, a, sibling⟩ := f
    rw [plug, ih]
    cases side <;> simp [LinkTree.mk, LinkTree.toList, before, after]

end Order

section Links

variable {A : Type*}

def Linked (child : A → Side → Option A) (parent : A → Option A) :
    Option A → LinkTree A → Option A → Prop
  | _, .nil, ptr => ptr = none
  | p, .node l a r, ptr => ptr = some a ∧ parent a = p ∧
      Linked child parent (some a) l (child a .left) ∧ Linked child parent (some a) r (child a .right)

def LinkedPath (child : A → Side → Option A) (parent : A → Option A) (root : Option A) :
    List (Frame A) → Option A → Option A → Prop
  | [], p, ptr => p = none ∧ ptr = root
  | f :: path, p, ptr => p = some f.elt ∧ ptr = child f.elt f.side ∧
      Linked child parent (some f.elt) f.sibling (child f.elt f.side.other) ∧
      LinkedPath child parent root path (parent f.elt) (some f.elt)

variable {child child' : A → Side → Option A} {parent parent' : A → Option A} {root p p' ptr : Option A}

theorem linked_mk {side : Side} {a : A} {near far : LinkTree A} :
    Linked child parent p (.mk side a near far) ptr ↔ ptr = some a ∧ parent a = p ∧
      Linked child parent (some a) near (child a side) ∧
        Linked child parent (some a) far (child a side.other) := by
  cases side with
  | left => rfl
  | right =>
    rw [LinkTree.mk, Linked, Side.other]
    constructor
    · rintro ⟨hptr, hparent, hl, hr⟩
      exact ⟨hptr, hparent, hr, hl⟩
    · rintro ⟨hptr, hparent, hl, hr⟩
      exact ⟨hptr, hparent, hr, hl⟩

theorem linked_plug {path : List (Frame A)} {t : LinkTree A} :
    Linked child parent none (plug path t) root ↔
      ∃ p ptr, LinkedPath child parent root path p ptr ∧ Linked child parent p t ptr := by
  induction path generalizing t with
  | nil =>
    constructor
    · intro h
      exact ⟨none, root, ⟨rfl, rfl⟩, h⟩
    · rintro ⟨p, ptr, ⟨rfl, rfl⟩, h⟩
      exact h
  | cons f path ih =>
    rw [plug, ih]
    constructor
    · rintro ⟨p, ptr, hpath, h⟩
      obtain ⟨rfl, rfl, hnear, hfar⟩ := linked_mk.1 h
      exact ⟨_, _, ⟨rfl, rfl, hfar, hpath⟩, hnear⟩
    · rintro ⟨p, ptr, ⟨rfl, rfl, hfar, hpath⟩, h⟩
      exact ⟨_, _, hpath, linked_mk.2 ⟨rfl, rfl, h, hfar⟩⟩

theorem Linked.mem_of_ptr {t : LinkTree A} {a : A} (h : Linked child parent p t (some a)) : a ∈ t.toList := by
  cases t with
  | nil => cases h
  | node l b r =>
    obtain ⟨heq, -⟩ := h
    cases heq
    simp [LinkTree.toList]

theorem Linked.congr {t : LinkTree A} (h : Linked child parent p t ptr)
    (hc : ∀ a ∈ t.toList, child' a = child a) (hp : ∀ a ∈ t.toList, parent' a = parent a) :
    Linked child' parent' p t ptr := by
  induction t generalizing p ptr with
  | nil => exact h
  | node l a r ihl ihr =>
    obtain ⟨hptr, hparent, hl, hr⟩ := h
    simp only [LinkTree.toList, List.mem_append, List.mem_cons] at hc hp
    rw [Linked, hc a (.inr (.inl rfl)), hp a (.inr (.inl rfl))]
    exact ⟨hptr, hparent, ihl hl (fun b hb => hc b (.inl hb)) fun b hb => hp b (.inl hb),
      ihr hr (fun b hb => hc b (.inr (.inr hb))) fun b hb => hp b (.inr (.inr hb))⟩

theorem Linked.reparent {t : LinkTree A} (h : Linked child parent p t ptr) (hnodup : t.toList.Nodup)
    (hc : ∀ a ∈ t.toList, child' a = child a)
    (hp : ∀ a ∈ t.toList, ptr ≠ some a → parent' a = parent a)
    (hroot : ∀ a, ptr = some a → parent' a = p') : Linked child' parent' p' t ptr := by
  cases t with
  | nil => exact h
  | node l a r =>
    obtain ⟨rfl, hparent, hl, hr⟩ := h
    simp only [LinkTree.toList, List.mem_append, List.mem_cons] at hc hp hnodup
    have hne : ∀ b, b ∈ l.toList ∨ b ∈ r.toList → b ≠ a := by
      rintro b hb rfl
      rw [List.nodup_middle, List.nodup_cons, List.mem_append] at hnodup
      exact hnodup.1 hb
    rw [Linked, hc a (.inr (.inl rfl))]
    refine ⟨rfl, hroot a rfl, hl.congr (fun b hb => hc b (.inl hb)) fun b hb => ?_,
      hr.congr (fun b hb => hc b (.inr (.inr hb))) fun b hb => ?_⟩
    · exact hp b (.inl hb) fun heq => hne b (.inl hb) (Option.some.inj heq).symm
    · exact hp b (.inr (.inr hb)) fun heq => hne b (.inr hb) (Option.some.inj heq).symm

def pathElts (path : List (Frame A)) : List A := before path ++ after path

theorem mem_pathElts_cons {f : Frame A} {path : List (Frame A)} {a : A} :
    a ∈ pathElts (f :: path) ↔ a = f.elt ∨ a ∈ f.sibling.toList ∨ a ∈ pathElts path := by
  obtain ⟨side, b, sibling⟩ := f
  cases side <;> simp only [pathElts, before, after, List.mem_append, List.mem_cons, List.not_mem_nil,
    or_false] <;> tauto

theorem pathElts_cons_perm (f : Frame A) (path : List (Frame A)) :
    (pathElts (f :: path)).Perm (f.elt :: (f.sibling.toList ++ pathElts path)) := by
  obtain ⟨side, a, sibling⟩ := f
  cases side with
  | left =>
    simp only [pathElts, before, after]
    refine List.perm_middle.trans (.cons a ?_)
    rw [← List.append_assoc, ← List.append_assoc]
    exact List.perm_append_comm.append_right _
  | right =>
    simp only [pathElts, before, after, List.append_assoc, List.singleton_append]
    rw [← List.append_assoc]
    refine List.perm_middle.trans (.cons a ?_)
    rw [← List.append_assoc]
    exact List.perm_append_comm.append_right _

theorem length_path_le (path : List (Frame A)) : path.length ≤ (pathElts path).length := by
  induction path with
  | nil => exact Nat.zero_le _
  | cons f path ih =>
    rw [(pathElts_cons_perm f path).length_eq, List.length_cons, List.length_cons, List.length_append]
    omega

theorem toList_plug_perm (path : List (Frame A)) (t : LinkTree A) :
    (plug path t).toList.Perm (t.toList ++ pathElts path) := by
  rw [toList_plug, pathElts, ← List.append_assoc, ← List.append_assoc]
  exact List.perm_append_comm.append_right _

theorem nodup_plug {path : List (Frame A)} {t : LinkTree A} :
    (plug path t).toList.Nodup ↔
      t.toList.Nodup ∧ (pathElts path).Nodup ∧ List.Disjoint t.toList (pathElts path) := by
  rw [(toList_plug_perm path t).nodup_iff, List.nodup_append']

theorem exists_plug {t : LinkTree A} {a : A} (ha : a ∈ t.toList) (path : List (Frame A)) :
    ∃ path' l r, plug path' (.node l a r) = plug path t := by
  induction t generalizing path with
  | nil => cases ha
  | node l b r ihl ihr =>
    rw [LinkTree.toList, List.mem_append, List.mem_cons] at ha
    rcases ha with ha | rfl | ha
    · exact ihl ha (⟨.left, b, r⟩ :: path)
    · exact ⟨path, l, r, rfl⟩
    · exact ihr ha (⟨.right, b, l⟩ :: path)

theorem LinkedPath.mem_of_parent {path : List (Frame A)} {a : A}
    (h : LinkedPath child parent root path (some a) ptr) : a ∈ pathElts path := by
  cases path with
  | nil => cases h.1
  | cons f path =>
    obtain ⟨heq, -⟩ := h
    cases heq
    exact mem_pathElts_cons.2 (.inl rfl)

theorem LinkedPath.side_eq [DecidableEq A] {f : Frame A} {path : List (Frame A)} {a : A}
    (h : LinkedPath child parent root (f :: path) p (some a))
    (ha : a ∉ pathElts (f :: path)) :
    (if child f.elt .left = some a then Side.left else Side.right) = f.side := by
  obtain ⟨side, b, sibling⟩ := f
  obtain ⟨-, hptr, hsib, -⟩ := h
  cases side with
  | left => exact if_pos hptr.symm
  | right =>
    refine if_neg fun hleft => ha ?_
    rw [Side.other, hleft] at hsib
    exact mem_pathElts_cons.2 (.inr (.inl hsib.mem_of_ptr))

theorem LinkedPath.congr {path : List (Frame A)} (h : LinkedPath child parent root path p ptr)
    (hc : ∀ a ∈ pathElts path, child' a = child a) (hp : ∀ a ∈ pathElts path, parent' a = parent a) :
    LinkedPath child' parent' root path p ptr := by
  induction path generalizing p ptr with
  | nil => exact h
  | cons f path ih =>
    obtain ⟨hparent, hptr, hsib, hpath⟩ := h
    have helt : f.elt ∈ pathElts (f :: path) := mem_pathElts_cons.2 (.inl rfl)
    rw [LinkedPath, hc _ helt, hp _ helt]
    refine ⟨hparent, hptr, hsib.congr (fun b hb => hc b ?_) fun b hb => hp b ?_,
      ih hpath (fun b hb => hc b ?_) fun b hb => hp b ?_⟩
    · exact mem_pathElts_cons.2 (.inr (.inl hb))
    · exact mem_pathElts_cons.2 (.inr (.inl hb))
    · exact mem_pathElts_cons.2 (.inr (.inr hb))
    · exact mem_pathElts_cons.2 (.inr (.inr hb))

end Links

section Balance

variable {A : Type*} (bal : A → Int)

/-- The balances are the differences of heights, and none is more than one. -/
def AvlTree : LinkTree A → Prop
  | .nil => True
  | .node l a r => bal a = r.height - l.height ∧ (-1 ≤ bal a ∧ bal a ≤ 1) ∧ AvlTree l ∧ AvlTree r

def AvlPath : List (Frame A) → Nat → Prop
  | [], _ => True
  | f :: path, k => bal f.elt = f.side.sign * (k - f.sibling.height) ∧
      (-1 ≤ bal f.elt ∧ bal f.elt ≤ 1) ∧ AvlTree bal f.sibling ∧
      AvlPath path (max k f.sibling.height + 1)

variable {bal} {bal' : A → Int}

theorem avlTree_mk {side : Side} {a : A} {near far : LinkTree A} :
    AvlTree bal (.mk side a near far) ↔ bal a = side.sign * (near.height - far.height) ∧
      (-1 ≤ bal a ∧ bal a ≤ 1) ∧ AvlTree bal near ∧ AvlTree bal far := by
  cases side with
  | left =>
    rw [LinkTree.mk, AvlTree, Side.sign, Int.neg_one_mul, Int.neg_sub]
  | right =>
    rw [LinkTree.mk, AvlTree, Side.sign, Int.one_mul, and_comm (a := AvlTree bal far)]

theorem avlTree_plug {path : List (Frame A)} {t : LinkTree A} :
    AvlTree bal (plug path t) ↔ AvlTree bal t ∧ AvlPath bal path t.height := by
  induction path generalizing t with
  | nil => exact (and_iff_left trivial).symm
  | cons f path ih =>
    rw [plug, ih, avlTree_mk, AvlPath, LinkTree.height_mk]
    constructor
    · rintro ⟨⟨hbal, hone, hnear, hfar⟩, hpath⟩
      exact ⟨hnear, hbal, hone, hfar, hpath⟩
    · rintro ⟨hnear, hbal, hone, hfar, hpath⟩
      exact ⟨⟨hbal, hone, hnear, hfar⟩, hpath⟩

theorem AvlTree.congr {t : LinkTree A} (h : AvlTree bal t) (hb : ∀ a ∈ t.toList, bal' a = bal a) : AvlTree bal' t := by
  induction t with
  | nil => trivial
  | node l a r ihl ihr =>
    obtain ⟨hbal, hone, hl, hr⟩ := h
    simp only [LinkTree.toList, List.mem_append, List.mem_cons] at hb
    rw [AvlTree, hb a (.inr (.inl rfl))]
    exact ⟨hbal, hone, ihl hl fun b h => hb b (.inl h), ihr hr fun b h => hb b (.inr (.inr h))⟩

theorem AvlPath.congr {path : List (Frame A)} {k : Nat} (h : AvlPath bal path k)
    (hb : ∀ a ∈ pathElts path, bal' a = bal a) : AvlPath bal' path k := by
  induction path generalizing k with
  | nil => trivial
  | cons f path ih =>
    obtain ⟨hbal, hone, hsib, hpath⟩ := h
    rw [AvlPath, hb _ (mem_pathElts_cons.2 (.inl rfl))]
    exact ⟨hbal, hone, hsib.congr fun b h => hb b (mem_pathElts_cons.2 (.inr (.inl h))),
      ih hpath fun b h => hb b (mem_pathElts_cons.2 (.inr (.inr h)))⟩

end Balance

end Z80Gcc.LinkedTree
