import Z80Gcc.Spec.SplayTree
import Mathlib.Data.List.Nodup
import Mathlib.Data.List.Range

/-! Over a run of insertions and lookups a splay tree is a map from the ranks of the keys, whatever the shape the
rotations leave it in; it visits its entries in order, and frees each node once. -/

namespace Z80Gcc.Splay

open LinkedTree

variable {K V : Type}

namespace SplayTree

def payload (sp : SplayTree K V) : List (K × V) := sp.nodes.map fun nd => (nd.key, nd.value)

structure Same (sp sp' : SplayTree K V) : Prop where
  comp : sp'.comp = sp.comp
  deleteValue : sp'.deleteValue = sp.deleteValue
  payload : sp'.payload = sp.payload
  deletedValues : sp'.deletedValues = sp.deletedValues

theorem Same.refl (sp : SplayTree K V) : Same sp sp := ⟨rfl, rfl, rfl, rfl⟩

theorem Same.trans {sp sp' sp'' : SplayTree K V} (h : Same sp sp') (h' : Same sp' sp'') : Same sp sp'' :=
  ⟨h'.comp.trans h.comp, h'.deleteValue.trans h.deleteValue, h'.payload.trans h.payload,
    h'.deletedValues.trans h.deletedValues⟩

theorem Same.length {sp sp' : SplayTree K V} (h : Same sp sp') : sp'.nodes.length = sp.nodes.length := by
  have := congrArg List.length h.payload
  rwa [SplayTree.payload, SplayTree.payload, List.length_map, List.length_map] at this

end SplayTree

open SplayTree

@[simp] theorem child_setChild (nd : Node K V) (side side' : Side) (ptr : Option Nat) :
    (nd.setChild side ptr).child side' = if side' = side then ptr else nd.child side' := by
  cases side <;> cases side' <;> rfl

@[simp] theorem key_setChild (nd : Node K V) (side : Side) (ptr : Option Nat) :
    (nd.setChild side ptr).key = nd.key := by
  cases side <;> rfl

@[simp] theorem value_setChild (nd : Node K V) (side : Side) (ptr : Option Nat) :
    (nd.setChild side ptr).value = nd.value := by
  cases side <;> rfl

theorem same_put (sp : SplayTree K V) (pl : ChildPlace Nat) (ptr : Option Nat) : Same sp (sp.put pl ptr) := by
  cases pl with
  | root => exact ⟨rfl, rfl, rfl, rfl⟩
  | child n side =>
    refine ⟨rfl, rfl, List.ext_getElem? fun i => ?_, rfl⟩
    rw [payload, payload, SplayTree.put, List.getElem?_map, List.getElem?_map, List.getElem?_modify]
    cases sp.nodes[i]? with
    | none => rfl
    | some nd => by_cases h : n = i <;> simp [h]

theorem get_links (sp : SplayTree K V) (pl : ChildPlace Nat) : sp.links.get pl = sp.get pl := by
  cases pl <;> rfl

theorem links_put {sp : SplayTree K V} {pl : ChildPlace Nat} (hpl : ∀ n, pl.owner = some n → n < sp.nodes.length)
    (ptr : Option Nat) : (sp.put pl ptr).links = sp.links.put pl ptr := by
  cases pl with
  | root => rfl
  | child n side =>
    have hlt : n < sp.nodes.length := hpl n rfl
    rw [SplayTree.links, SplayTree.links, ChildLinks.put, SplayTree.put, ChildLinks.mk.injEq]
    refine ⟨rfl, ?_⟩
    funext b side'
    simp only [SplayTree.child, List.getElem?_modify]
    by_cases hb : n = b
    · subst hb
      by_cases hside : side' = side <;> simp [hlt, hside]
    · have hb' : b ≠ n := Ne.symm hb
      cases sp.nodes[b]? <;> simp [hb, hb']

/-- The tree stands at the root and has every node once. -/
structure Shape (sp : SplayTree K V) (t : LinkTree Nat) : Prop where
  holds : Holds sp.links t sp.root
  perm : t.toList.Perm (List.range sp.nodes.length)

theorem Shape.nodup {sp : SplayTree K V} {t : LinkTree Nat} (h : Shape sp t) : t.toList.Nodup :=
  h.perm.nodup_iff.2 List.nodup_range

theorem Shape.lt_length {sp : SplayTree K V} {t : LinkTree Nat} (h : Shape sp t) {n : Nat} (hn : n ∈ t.toList) :
    n < sp.nodes.length :=
  List.mem_range.1 (h.perm.mem_iff.1 hn)

@[simp] theorem length_put (sp : SplayTree K V) (pl : ChildPlace Nat) (ptr : Option Nat) :
    (sp.put pl ptr).nodes.length = sp.nodes.length :=
  (same_put sp pl ptr).length

section Rotations

variable {sp : SplayTree K V} {side : Side} {n p g : Nat} {near far sf sg : LinkTree Nat}
  {path : List (Frame Nat)}

theorem Shape.lt_of_owner {t : LinkTree Nat} (h : Shape sp (plug path t)) {a : Nat}
    (ha : (placeOf path).owner = some a) : a < sp.nodes.length :=
  h.lt_length ((toList_plug_perm path t).mem_iff.2 (List.mem_append_right _ (owner_placeOf_mem ha)))

theorem Shape.lt_of_mem {t : LinkTree Nat} (h : Shape sp (plug path t)) {a : Nat} (ha : a ∈ t.toList) :
    a < sp.nodes.length :=
  h.lt_length ((toList_plug_perm path t).mem_iff.2 (List.mem_append_left _ ha))

theorem owner_child_lt {a b : Nat} (ha : a < sp.nodes.length) (h : (ChildPlace.child a side).owner = some b) :
    b < sp.nodes.length :=
  Option.some.inj h ▸ ha

theorem shape_rotate (h : Shape sp (plug path (.mk side p (.mk side n near far) sf))) :
    Shape (rotate side sp n p (.child p side) (placeOf path))
      (plug path (.mk side n near (.mk side p far sf))) := by
  have hp : p < sp.nodes.length := h.lt_of_mem (LinkTree.mem_mk.2 (.inl rfl))
  have hn : n < sp.nodes.length :=
    h.lt_of_mem (LinkTree.mem_mk.2 (.inr (.inl (LinkTree.mem_mk.2 (.inl rfl)))))
  have hlinks : (rotate side sp n p (.child p side) (placeOf path)).links =
      sp.links.rotate side n p (placeOf path) := by
    rw [rotate, ChildLinks.rotate, links_put fun a ha => ?_, links_put fun a ha => ?_,
      links_put fun a => owner_child_lt hp]
    · rfl
    · rw [length_put]
      exact owner_child_lt hn ha
    · rw [length_put, length_put]
      exact h.lt_of_owner ha
  refine ⟨?_, ?_⟩
  · have hroot := holds_rotate h.holds h.nodup
    rw [← hlinks] at hroot
    exact hroot
  · rw [toList_plug_rotate, rotate, length_put, length_put, length_put]
    exact h.perm

/-- A double rotation of one side is a rotation of the parent and one of the node. -/
theorem shape_rotateSame
    (h : Shape sp (plug path (.mk side g (.mk side p (.mk side n near far) sf) sg))) :
    Shape (rotateSame side sp n p g (placeOf path))
      (plug path (.mk side n near (.mk side p far (.mk side g sf sg)))) := by
  have hg : g < sp.nodes.length := h.lt_of_mem (LinkTree.mem_mk.2 (.inl rfl))
  have hmem : ∀ {a}, a ∈ (LinkTree.mk side p (.mk side n near far) sf).toList → a < sp.nodes.length :=
    fun ha => h.lt_of_mem (LinkTree.mem_mk.2 (.inr (.inl ha)))
  have hp : p < sp.nodes.length := hmem (LinkTree.mem_mk.2 (.inl rfl))
  have hnmem : n ∈ (LinkTree.mk side p (.mk side n near far) sf).toList :=
    LinkTree.mem_mk.2 (.inr (.inl (LinkTree.mem_mk.2 (.inl rfl))))
  have hn : n < sp.nodes.length := hmem hnmem
  have hout : ∀ {a}, a ∈ (LinkTree.mk side p (.mk side n near far) sf).toList → (placeOf path).owner ≠ some a :=
    fun ha howner => (nodup_plug.1 h.nodup).2.2 (LinkTree.mem_mk.2 (.inr (.inl ha))) (owner_placeOf_mem howner)
  have hlinks : (rotateSame side sp n p g (placeOf path)).links =
      (sp.links.rotate side p g (placeOf path)).rotate side n p (placeOf path) := by
    rw [rotate_same (hout hnmem) (hout (LinkTree.mem_mk.2 (.inl rfl))), rotateSame]
    have h1 : (sp.put (.child g side) (sp.child p side.other)).links =
        sp.links.put (.child g side) (sp.links.child p side.other) :=
      links_put (fun a => owner_child_lt hg) _
    have h2 : ((sp.put (.child g side) (sp.child p side.other)).put (.child p side.other) (some g)).links =
        (sp.links.put (.child g side) (sp.links.child p side.other)).put (.child p side.other) (some g) := by
      rw [links_put fun a ha => ?_, h1]
      rw [length_put]
      exact owner_child_lt hp ha
    rw [← h2, links_put fun a ha => ?_, links_put fun a ha => ?_, links_put fun a ha => ?_]
    · rfl
    · rw [length_put, length_put]
      exact owner_child_lt hp ha
    · rw [length_put, length_put, length_put]
      exact owner_child_lt hn ha
    · rw [length_put, length_put, length_put, length_put]
      exact h.lt_of_owner ha
  have hfirst := holds_rotate h.holds h.nodup
  have hnodup : (plug path (.mk side p (.mk side n near far) (.mk side g sf sg))).toList.Nodup := by
    rw [toList_plug_rotate]
    exact h.nodup
  refine ⟨?_, ?_⟩
  · have hroot := holds_rotate hfirst hnodup
    rw [← hlinks] at hroot
    exact hroot
  · rw [toList_plug_rotate_same, rotateSame]
    simp only [length_put]
    exact h.perm

/-- One of different sides is a rotation of the node over its parent, and then over its grandparent. -/
theorem shape_rotateTwice
    (h : Shape sp (plug path (.mk side.other g (.mk side p (.mk side n near far) sf) sg))) :
    Shape (rotateTwice side sp n p g (placeOf path))
      (plug path (.mk side.other n (.mk side p far sf) (.mk side.other g near sg))) := by
  have hg : g < sp.nodes.length := h.lt_of_mem (LinkTree.mem_mk.2 (.inl rfl))
  have hmem : ∀ {a}, a ∈ (LinkTree.mk side p (.mk side n near far) sf).toList → a < sp.nodes.length :=
    fun ha => h.lt_of_mem (LinkTree.mem_mk.2 (.inr (.inl ha)))
  have hp : p < sp.nodes.length := hmem (LinkTree.mem_mk.2 (.inl rfl))
  have hnmem : n ∈ (LinkTree.mk side p (.mk side n near far) sf).toList :=
    LinkTree.mem_mk.2 (.inr (.inl (LinkTree.mem_mk.2 (.inl rfl))))
  have hn : n < sp.nodes.length := hmem hnmem
  have hng : n ≠ g := by
    rintro rfl
    exact (LinkTree.nodup_mk.1 (nodup_plug.1 h.nodup).1).1.1 hnmem
  have hlinks : (rotateTwice side sp n p g (placeOf path)).links =
      (sp.links.rotate side n p (.child g side.other)).rotate side.other n g (placeOf path) := by
    rw [rotate_twice hng, rotateTwice]
    have h1 : (sp.put (.child p side) (sp.child n side.other)).links =
        sp.links.put (.child p side) (sp.links.child n side.other) :=
      links_put (fun a => owner_child_lt hp) _
    have h2 : ((sp.put (.child p side) (sp.child n side.other)).put (.child n side.other) (some p)).links =
        (sp.links.put (.child p side) (sp.links.child n side.other)).put (.child n side.other) (some p) := by
      rw [links_put fun a ha => ?_, h1]
      rw [length_put]
      exact owner_child_lt hn ha
    rw [← h2, links_put fun a ha => ?_, links_put fun a ha => ?_, links_put fun a ha => ?_]
    · rfl
    · rw [length_put, length_put]
      exact owner_child_lt hg ha
    · rw [length_put, length_put, length_put]
      exact owner_child_lt hn ha
    · rw [length_put, length_put, length_put, length_put]
      exact h.lt_of_owner ha
  have hfirst := @holds_rotate _ _ _ (⟨side.other, g, sg⟩ :: path) _ _ _ _ _ _ h.holds h.nodup
  have hnodup : (plug path (.mk side.other g (.mk side n near (.mk side p far sf)) sg)).toList.Nodup := by
    have hrotate := toList_plug_rotate (⟨side.other, g, sg⟩ :: path) side n p near far sf
    rw [plug, plug] at hrotate
    rw [hrotate]
    exact h.nodup
  rw [plug, ← LinkTree.mk_other side n] at hfirst
  rw [← LinkTree.mk_other side n] at hnodup
  refine ⟨?_, ?_⟩
  · have hroot : Holds ((sp.links.rotate side n p (.child g side.other)).rotate side.other n g (placeOf path)) _
        ((sp.links.rotate side n p (.child g side.other)).rotate side.other n g (placeOf path)).root :=
      holds_rotate hfirst hnodup
    rw [← hlinks] at hroot
    exact hroot
  · rw [toList_plug_rotate_twice, rotateTwice]
    simp only [length_put]
    exact h.perm

end Rotations

section Splay

variable {sp : SplayTree K V} {path : List (Frame Nat)} {t : LinkTree Nat} {n : Nat}

def above : List (Frame Nat) → Option (ChildPlace Nat)
  | [] => none
  | _ :: path => some (placeOf path)

@[simp] theorem above_cons (f : Frame Nat) (path : List (Frame Nat)) : above (f :: path) = some (placeOf path) := rfl

/-- A node has come up to the end of a path, and only pointers have changed. -/
def Lifted (sp : SplayTree K V) (path : List (Frame Nat)) (t : LinkTree Nat) (path' : List (Frame Nat)) (n : Nat)
    (sp' : SplayTree K V) : Prop :=
  ∃ l r, Shape sp' (plug path' (.node l n r)) ∧ (plug path' (.node l n r)).toList = (plug path t).toList ∧
    Same sp sp'

theorem Shape.get_eq {l r : LinkTree Nat} (h : Shape sp (plug path (.node l n r))) :
    sp.get (placeOf path) = some n := by
  obtain ⟨ptr, hpath, rfl, -⟩ := holds_plug.1 h.holds
  rw [← get_links, hpath.get_eq]

theorem Shape.get_nil (h : Shape sp (plug path .nil)) : sp.get (placeOf path) = none := by
  obtain ⟨ptr, hpath, rfl⟩ := holds_plug.1 h.holds
  rw [← get_links, hpath.get_eq]

theorem Shape.get_above {f : Frame Nat} (h : Shape sp (plug (f :: path) t)) :
    sp.get (placeOf path) = some f.elt := by
  obtain ⟨side, p, sibling⟩ := f
  cases side with
  | left => exact Shape.get_eq (l := t) (r := sibling) h
  | right => exact Shape.get_eq (l := sibling) (r := t) h

theorem Shape.child_iff {f : Frame Nat} {l r : LinkTree Nat} (h : Shape sp (plug (f :: path) (.node l n r)))
    (side : Side) : sp.child f.elt side = some n ↔ side = f.side := by
  obtain ⟨ptr, ⟨rfl, hsib, -⟩, hptr, -⟩ := holds_plug.1 h.holds
  constructor
  · intro hchild
    by_contra hside
    have hother : f.side.other = side := by
      cases side <;> cases hf : f.side <;> simp_all [Side.other]
    have hptr' : sp.links.child f.elt side = some n := hchild
    rw [hother, hptr'] at hsib
    have hmem : n ∈ f.sibling.toList := hsib.mem_of_ptr
    have hnodup : (plug path (.mk f.side f.elt (.node l n r) f.sibling)).toList.Nodup := h.nodup
    have hdisj := (LinkTree.nodup_mk.1 (nodup_plug.1 hnodup).1).2.2.2
    exact hdisj (List.mem_append_right _ List.mem_cons_self) hmem
  · rintro rfl
    exact hptr

theorem exists_mk_node (side : Side) (l r : LinkTree Nat) (n : Nat) :
    ∃ near far, LinkTree.node l n r = .mk side n near far := by
  cases side with
  | left => exact ⟨l, r, rfl⟩
  | right => exact ⟨r, l, rfl⟩

theorem exists_node_mk (side : Side) (near far : LinkTree Nat) (n : Nat) :
    ∃ l r, LinkTree.mk side n near far = .node l n r := by
  cases side with
  | left => exact ⟨near, far, rfl⟩
  | right => exact ⟨far, near, rfl⟩

theorem same_rotate (side : Side) (n p : Nat) (node parent : ChildPlace Nat) :
    Same sp (rotate side sp n p node parent) :=
  ((same_put _ _ _).trans (same_put _ _ _)).trans (same_put _ _ _)

theorem same_rotateSame (side : Side) (n p g : Nat) (grandparent : ChildPlace Nat) :
    Same sp (rotateSame side sp n p g grandparent) :=
  ((((same_put _ _ _).trans (same_put _ _ _)).trans (same_put _ _ _)).trans (same_put _ _ _)).trans
    (same_put _ _ _)

theorem same_rotateTwice (side : Side) (n p g : Nat) (grandparent : ChildPlace Nat) :
    Same sp (rotateTwice side sp n p g grandparent) :=
  ((((same_put _ _ _).trans (same_put _ _ _)).trans (same_put _ _ _)).trans (same_put _ _ _)).trans
    (same_put _ _ _)

theorem splayUp_lifted {l r : LinkTree Nat} (h : Shape sp (plug path (.node l n r))) :
    ∃ sp', splayUp sp n (placeOf path) (above path) (above path.tail) = some (sp', n) ∧
      Lifted sp path (.node l n r) (path.drop 2) n sp' := by
  cases path with
  | nil => exact ⟨sp, rfl, l, r, h, rfl, Same.refl sp⟩
  | cons f path =>
    obtain ⟨side, p, sf⟩ := f
    have hside := h.child_iff
    have hp := h.get_above
    obtain ⟨near, far, heq⟩ := exists_mk_node side l r n
    rw [heq] at h ⊢
    cases path with
    | nil =>
      obtain ⟨l', r', heq'⟩ := exists_node_mk side near (.mk side p far sf) n
      refine ⟨rotate side sp n p (.child p side) .root, ?_, l', r', ?_, ?_, same_rotate side n p _ _⟩
      · have hif : (if sp.child p .left = some n then Side.left else Side.right) = side := by
          rw [if_congr (hside .left) rfl rfl]
          cases side <;> rfl
        rw [placeOf] at hp
        simp [above, placeOf, splayUp, hp, hif]
      · have hroot : Shape sp (plug [] (.mk side p (.mk side n near far) sf)) := h
        exact heq' ▸ shape_rotate hroot
      · rw [List.drop, ← heq', toList_plug_rotate]
        rfl
    | cons f path =>
      obtain ⟨side', g, sg⟩ := f
      obtain ⟨l₁, r₁, heq₁⟩ := exists_node_mk side (.mk side n near far) sf p
      have h' : Shape sp (plug (⟨side', g, sg⟩ :: path) (.node l₁ p r₁)) := heq₁ ▸ h
      have hside' := h'.child_iff
      have hg := h'.get_above
      rw [placeOf_cons] at hp
      by_cases hsame : side' = side
      · subst hsame
        obtain ⟨l', r', heq'⟩ := exists_node_mk side' near (.mk side' p far (.mk side' g sf sg)) n
        refine ⟨rotateSame side' sp n p g (placeOf path), ?_, l', r', ?_, ?_, same_rotateSame side' n p g _⟩
        · cases side' <;> simp [above, splayUp, hp, hg, hside, hside']
        · exact heq' ▸ shape_rotateSame h
        · rw [List.drop, List.drop, ← heq', toList_plug_rotate_same]
          rfl
      · have hother : side' = side.other := by
          cases side <;> cases side' <;> first | rfl | exact absurd rfl hsame
        subst hother
        obtain ⟨l', r', heq'⟩ := exists_node_mk side.other (.mk side p far sf) (.mk side.other g near sg) n
        refine ⟨rotateTwice side sp n p g (placeOf path), ?_, l', r', ?_, ?_, same_rotateTwice side n p g _⟩
        · cases side <;> simp only [Side.other] at hp hside' <;>
            simp [above, splayUp, hp, hg, hside, hside', Side.other]
        · exact heq' ▸ shape_rotateTwice h
        · rw [List.drop, List.drop, ← heq', toList_plug_rotate_twice]
          rfl

/-- Back in the frame of `path`: a node that comes to rest there goes on up, one that has gone past stays. -/
theorem return_lifted {path₁ : List (Frame Nat)} {sp₁ : SplayTree K V} (h : Shape sp (plug path t))
    (hlift : Lifted sp path t path₁ n sp₁) (hpath₁ : path₁ = path ∨ path₁ = path.drop 1) :
    ∃ sp' path', (if sp₁.get (placeOf path) = some n then splayUp sp₁ n (placeOf path) (above path) (above path.tail)
        else some (sp₁, n)) = some (sp', n) ∧
      Lifted sp path t path' n sp' ∧ (path' = path.drop 1 ∨ path' = path.drop 2) := by
  obtain ⟨l, r, hshape, horder, hsame⟩ := hlift
  rcases hpath₁ with rfl | rfl
  · obtain ⟨sp', hup, l', r', hshape', horder', hsame'⟩ := splayUp_lifted hshape
    exact ⟨sp', path₁.drop 2, by rw [if_pos hshape.get_eq, hup],
      ⟨l', r', hshape', horder'.trans horder, hsame.trans hsame'⟩, .inr rfl⟩
  · cases path with
    | nil =>
      have hstay : splayUp sp₁ n (placeOf []) (above []) (above [].tail) = some (sp₁, n) := rfl
      exact ⟨sp₁, [], by rw [hstay, ite_self], ⟨l, r, hshape, horder, hsame⟩, .inl rfl⟩
    | cons f path =>
      rw [List.drop_one, List.tail_cons] at hshape horder
      refine ⟨sp₁, path, if_neg ?_, ⟨l, r, hshape, horder, hsame⟩, .inl rfl⟩
      obtain ⟨ptr, -, hnode⟩ := holds_plug.1 hshape.holds
      obtain ⟨rfl, hsub⟩ := hnode
      have hmem : f.elt ∈ (LinkTree.node l n r).toList := by
        have hf : f.elt ∈ (plug path (.node l n r)).toList := by
          rw [horder, (toList_plug_perm (f :: path) t).mem_iff]
          exact List.mem_append_right _ (mem_pathElts_cons.2 (.inl rfl))
        rcases List.mem_append.1 ((toList_plug_perm path _).mem_iff.1 hf) with hf | hf
        · exact hf
        · have hnodup := (nodup_plug.1 h.nodup).2.1
          rw [(pathElts_cons_perm f path).nodup_iff, List.nodup_cons, List.mem_append, not_or] at hnodup
          exact absurd hf hnodup.1.2
      exact Holds.child_ne_root ⟨rfl, hsub⟩ (nodup_plug.1 hshape.nodup).1 hmem f.side

def keyCmp (sp : SplayTree K V) (key : K) (a : Nat) : Int :=
  sp.nodes[a]?.elim 0 fun nd => sp.comp key nd.key

theorem splay_helper_lifted (key : K) {fuel : Nat} (h : Shape sp (plug path t)) (hfuel : t.height < fuel)
    (hne : path ≠ [] ∨ t ≠ .nil) :
    ∃ sp' path', splayTreeSplayHelper key fuel sp (placeOf path) (above path) (above path.tail) =
        some (sp', descend (keyCmp sp key) t ((path.head?.map Frame.elt).getD 0)) ∧
      Lifted sp path t path' (descend (keyCmp sp key) t ((path.head?.map Frame.elt).getD 0)) sp' ∧
        (path' = path.drop 1 ∨ path' = path.drop 2) := by
  induction t generalizing path fuel with
  | nil =>
    obtain ⟨fuel, rfl⟩ : ∃ k, fuel = k + 1 := Nat.exists_eq_succ_of_ne_zero (Nat.ne_of_gt hfuel)
    cases path with
    | nil => exact absurd rfl (hne.resolve_right fun h => h rfl)
    | cons f path =>
      obtain ⟨l, r, heq⟩ := exists_node_mk f.side .nil f.sibling f.elt
      refine ⟨sp, path, ?_, ⟨l, r, heq ▸ h, heq ▸ rfl, Same.refl sp⟩, .inl rfl⟩
      rw [splayTreeSplayHelper, h.get_nil]
      simp [above, h.get_above, descend]
  | node l a r ihl ihr =>
    obtain ⟨fuel, rfl⟩ : ∃ k, fuel = k + 1 := Nat.exists_eq_succ_of_ne_zero (Nat.ne_of_gt (Nat.zero_lt_of_lt hfuel))
    have hlt : a < sp.nodes.length := h.lt_of_mem (List.mem_append_right _ List.mem_cons_self)
    have hnd : sp.nodes[a]? = some sp.nodes[a] := List.getElem?_eq_getElem hlt
    have hcmp : keyCmp sp key a = sp.comp key sp.nodes[a].key := by rw [keyCmp, hnd, Option.elim_some]
    rw [LinkTree.height] at hfuel
    rw [splayTreeSplayHelper, h.get_eq, descend]
    simp only [hnd, Option.bind_eq_bind, Option.bind_some, ← hcmp]
    by_cases h0 : keyCmp sp key a = 0
    · obtain ⟨sp', hup, hlift⟩ := splayUp_lifted h
      rw [if_pos h0, if_pos h0, hup]
      exact ⟨sp', path.drop 2, rfl, hlift, .inr rfl⟩
    · rw [if_neg h0, if_neg h0]
      by_cases hneg : keyCmp sp key a < 0
      · rw [if_pos hneg, if_pos hneg]
        obtain ⟨sp₁, path₁, hrun, hlift, hpath₁⟩ := @ihl (⟨.left, a, r⟩ :: path) fuel h (by omega) (.inl (by simp))
        rw [placeOf_cons] at hrun
        obtain ⟨sp', path', hback, hlift', hpath'⟩ := return_lifted h hlift hpath₁
        refine ⟨sp', path', ?_, hlift', hpath'⟩
        rw [above_cons, List.tail_cons] at hrun
        rw [hrun]
        exact hback
      · rw [if_neg hneg, if_neg hneg]
        obtain ⟨sp₁, path₁, hrun, hlift, hpath₁⟩ := @ihr (⟨.right, a, l⟩ :: path) fuel h (by omega) (.inl (by simp))
        rw [placeOf_cons] at hrun
        obtain ⟨sp', path', hback, hlift', hpath'⟩ := return_lifted h hlift hpath₁
        refine ⟨sp', path', ?_, hlift', hpath'⟩
        rw [above_cons, List.tail_cons] at hrun
        rw [hrun]
        exact hback

/-- `splay_tree_splay` brings the last node of the search to the root, and keeps the order. -/
theorem splayTreeSplay_spec (h : Shape sp t) (hne : t ≠ .nil) (key : K) :
    ∃ sp' l r, splayTreeSplay sp key = some sp' ∧
      Shape sp' (.node l (descend (keyCmp sp key) t 0) r) ∧
      (LinkTree.node l (descend (keyCmp sp key) t 0) r).toList = t.toList ∧ Same sp sp' := by
  have hroot : sp.root ≠ none := by
    obtain ⟨hholds, -⟩ := h
    cases t with
    | nil => exact absurd rfl hne
    | node l a r =>
      obtain ⟨hptr, -⟩ := hholds
      rw [hptr]
      exact Option.some_ne_none a
  have hfuel : t.height < sp.fuel := by
    have hlen := h.perm.length_eq
    rw [List.length_range] at hlen
    exact Nat.lt_succ_of_le (hlen ▸ t.height_le_length)
  obtain ⟨sp', path', hrun, ⟨l, r, hshape, horder, hsame⟩, hpath'⟩ :=
    @splay_helper_lifted _ _ sp [] t key sp.fuel h hfuel (.inr hne)
  have hnil : path' = [] := by rcases hpath' with rfl | rfl <;> rfl
  subst hnil
  refine ⟨sp', l, r, ?_, hshape, horder, hsame⟩
  rw [splayTreeSplay, if_neg hroot]
  change (splayTreeSplayHelper key sp.fuel sp .root none none).bind _ = _
  rw [show splayTreeSplayHelper key sp.fuel sp .root none none = _ from hrun]
  rfl

theorem splayTreeSplay_nil (h : Shape sp .nil) (key : K) : splayTreeSplay sp key = some sp :=
  if_pos h.holds

end Splay

end Z80Gcc.Splay
