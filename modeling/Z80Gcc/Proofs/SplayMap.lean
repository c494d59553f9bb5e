import Mathlib
import Z80Gcc.Proofs.SplayTree
import Mathlib.Data.List.Basic
import Mathlib.Data.Multiset.Basic

/-! A splay tree as a map: its entries in order, what an insertion and a lookup do to them, and runs. -/

namespace Z80Gcc.Splay

open LinkedTree SplayTree

variable {K V L : Type} [LinearOrder L]

/-- The comparison of the keys is that of their ranks. -/
def Ranks (comp : K → K → Int) (rank : K → L) : Prop :=
  ∀ a b, (comp a b = 0 ↔ rank a = rank b) ∧ (comp a b < 0 ↔ rank a < rank b)

/-- A tree, its nodes' keys and values in order. -/
structure Models (rank : K → L) (sp : SplayTree K V) (t : LinkTree Nat) (es : List (K × V)) : Prop where
  shape : Shape sp t
  entries : t.toList.map (fun n => sp.payload[n]?) = es.map some
  sorted : es.Pairwise fun a b => rank a.1 < rank b.1

section Split

variable {rank : K → L} {sp sp' : SplayTree K V} {t l r : LinkTree Nat} {es : List (K × V)} {n : Nat}

theorem payload_getElem? (n : Nat) : sp.payload[n]? = sp.nodes[n]?.map fun nd => (nd.key, nd.value) :=
  List.getElem?_map ..

theorem Models.ne_nil (h : Models rank sp t es) (hne : es ≠ []) : t ≠ .nil := by
  rintro rfl
  exact hne (List.map_eq_nil_iff.1 h.entries.symm)

theorem Models.nil_of (h : Models rank sp t []) : t = .nil := by
  have hlist := List.map_eq_nil_iff.1 h.entries
  cases t with
  | nil => rfl
  | node l a r => exact absurd hlist (List.append_ne_nil_of_right_ne_nil _ (List.cons_ne_nil _ _))

theorem split_entries {l r : LinkTree Nat} {n : Nat}
    (hes : (LinkTree.node l n r).toList.map (fun n => sp.payload[n]?) = es.map some) :
    ∃ nd low high, sp.nodes[n]? = some nd ∧ es = low ++ (nd.key, nd.value) :: high ∧
      l.toList.map (fun n => sp.payload[n]?) = low.map some ∧
      r.toList.map (fun n => sp.payload[n]?) = high.map some := by
  rw [LinkTree.toList, List.map_append, List.map_cons, eq_comm, List.map_eq_append_iff] at hes
  obtain ⟨low, rest, rfl, hlow, hrest⟩ := hes
  rw [List.map_eq_cons_iff] at hrest
  obtain ⟨e, high, rfl, he, hhigh⟩ := hrest
  rw [payload_getElem?, eq_comm, Option.map_eq_some_iff] at he
  obtain ⟨nd, hnd, rfl⟩ := he
  exact ⟨nd, low, high, hnd, rfl, hlow.symm, hhigh.symm⟩

theorem Models.split (h : Models rank sp (.node l n r) es) :
    ∃ low e high, es = low ++ e :: high ∧ sp.payload[n]? = some e ∧
      l.toList.map (fun n => sp.payload[n]?) = low.map some ∧
      r.toList.map (fun n => sp.payload[n]?) = high.map some := by
  obtain ⟨nd, low, high, hnd, rfl, hlow, hhigh⟩ := split_entries h.entries
  exact ⟨low, (nd.key, nd.value), high, rfl, by rw [payload_getElem?, hnd, Option.map_some], hlow, hhigh⟩

/-- The root that a key is splayed to stands next to the key. -/
theorem splay_models (hcomp : Ranks sp.comp rank) (h : Models rank sp t es) (hne : es ≠ []) (key : K) :
    ∃ sp' l n r low e high, splayTreeSplay sp key = some sp' ∧ Same sp sp' ∧ Models rank sp' (.node l n r) es ∧
      es = low ++ e :: high ∧ sp'.payload[n]? = some e ∧
      l.toList.map (fun n => sp'.payload[n]?) = low.map some ∧
      r.toList.map (fun n => sp'.payload[n]?) = high.map some ∧
      (∀ a ∈ low, rank a.1 < rank key) ∧ ∀ a ∈ high, rank key < rank a.1 := by
  obtain ⟨sp', l, r, hsplay, hshape, horder, hsame⟩ := splayTreeSplay_spec h.shape (h.ne_nil hne) key
  obtain ⟨e₀, es₀, rfl⟩ := List.exists_cons_of_ne_nil hne
  generalize hes : e₀ :: es₀ = es at h
  have hes' : t.toList.map (fun n => sp.payload[n]?.getD e₀) = es := by
    have := congrArg (List.map fun o => Option.getD o e₀) h.entries
    rw [List.map_map, List.map_map] at this
    exact this.trans (List.map_id es)
  have hsorted : t.toList.Pairwise fun a b =>
      rank (sp.payload[a]?.getD e₀).1 < rank (sp.payload[b]?.getD e₀).1 := by
    have := h.sorted
    rwa [← hes', List.pairwise_map] at this
  have hkey : ∀ a ∈ t.toList, (keyCmp sp key a = 0 ↔ rank key = rank (sp.payload[a]?.getD e₀).1) ∧
      (keyCmp sp key a < 0 ↔ rank key < rank (sp.payload[a]?.getD e₀).1) := by
    intro a ha
    rw [keyCmp, payload_getElem?, List.getElem?_eq_getElem (h.shape.lt_length ha)]
    exact hcomp key _
  obtain ⟨low', high', hsplit, hlow', hhigh'⟩ := descend_split (h.ne_nil (hes ▸ List.cons_ne_nil _ _)) hkey hsorted 0
  have hmodels : Models rank sp' (.node l (descend (keyCmp sp key) t 0) r) es := by
    refine ⟨hshape, ?_, h.sorted⟩
    rw [horder, hsame.payload]
    exact h.entries
  obtain ⟨low, e, high, hesplit, he, hlow, hhigh⟩ := hmodels.split
  have hnodup := hshape.nodup
  rw [LinkTree.toList, List.nodup_middle, List.nodup_cons, List.mem_append, not_or] at hnodup
  obtain ⟨rfl, -, rfl⟩ := (List.append_cons_inj_of_notMem hnodup.1.1 hnodup.1.2).1 (horder.trans hsplit)
  refine ⟨sp', l, _, r, low, e, high, hsplay, hsame, hmodels, hesplit, he, hlow, hhigh, fun a ha => ?_, fun a ha => ?_⟩
  · have hmem : some a ∈ low.map some := List.mem_map_of_mem ha
    rw [← hlow] at hmem
    obtain ⟨b, hb, hba⟩ := List.mem_map.1 hmem
    have := hlow' b hb
    rwa [← hsame.payload, hba] at this
  · have hmem : some a ∈ high.map some := List.mem_map_of_mem ha
    rw [← hhigh] at hmem
    obtain ⟨b, hb, hba⟩ := List.mem_map.1 hmem
    have := hhigh' b hb
    rwa [← hsame.payload, hba] at this

end Split

section Insert

variable {rank : K → L} {sp sp' : SplayTree K V} {l r : LinkTree Nat} {es low high : List (K × V)} {n : Nat}
  {key : K} {value : V} {e : K × V}

/-- A new root takes one subtree of the old root from it, and the old root as its other subtree. -/
theorem shape_new_root {side : Side} {near far : LinkTree Nat} (h : Shape sp (.mk side n near far))
    (hroot : sp'.root = some sp.nodes.length) (hlen : sp'.nodes.length = sp.nodes.length + 1)
    (hframe : ∀ b < sp.nodes.length, b ≠ n → sp'.child b = sp.child b)
    (hnew : sp'.child sp.nodes.length side = sp.child n side)
    (hnew' : sp'.child sp.nodes.length side.other = some n) (hold : sp'.child n side = none)
    (hold' : sp'.child n side.other = sp.child n side.other) :
    Shape sp' (.mk side sp.nodes.length near (.mk side n .nil far)) := by
  obtain ⟨-, hnear, hfar⟩ := holds_mk.1 h.holds
  obtain ⟨⟨hnnear, hnfar⟩, -⟩ := LinkTree.nodup_mk.1 h.nodup
  have hlt : ∀ b, b ∈ near.toList ∨ b ∈ far.toList → b < sp.nodes.length :=
    fun b hb => h.lt_length (LinkTree.mem_mk.2 (.inr hb))
  refine ⟨holds_mk.2 ⟨hroot, ?_, holds_mk.2 ⟨hnew', hold, ?_⟩⟩, ?_⟩
  · refine Holds.congr (s := sp.links) ?_ fun b hb => hframe b (hlt b (.inl hb)) fun heq => hnnear (heq ▸ hb)
    exact (congrArg (Holds sp.links near) hnew).mpr hnear
  · refine Holds.congr (s := sp.links) ?_ fun b hb => hframe b (hlt b (.inr hb)) fun heq => hnfar (heq ▸ hb)
    exact (congrArg (Holds sp.links far) hold').mpr hfar
  · have hperm := (LinkTree.toList_mk_perm side n near far).symm.trans h.perm
    rw [hlen, List.range_succ]
    refine ((LinkTree.toList_mk_perm _ _ _ _).trans (.cons _ ?_)).trans (List.perm_append_singleton _ _).symm
    refine ((LinkTree.toList_mk_perm side n .nil far).append_left _).trans ?_
    exact List.perm_middle.trans hperm

theorem child_put {n : Nat} (hn : n < sp.nodes.length) (side : Side) (ptr : Option Nat) (b : Nat) (side' : Side) :
    (sp.put (.child n side) ptr).child b side' = if b = n ∧ side' = side then ptr else sp.child b side' := by
  have h : (sp.put (.child n side) ptr).links = sp.links.put (.child n side) ptr :=
    links_put (fun _ => owner_child_lt hn) ptr
  exact congrFun (congrFun (congrArg ChildLinks.child h) b) side'

def addNode (sp : SplayTree K V) (nd : Node K V) : SplayTree K V := { sp with nodes := sp.nodes ++ [nd] }

theorem addNode_child_lt {nd : Node K V} {b : Nat} (hb : b < sp.nodes.length) (side : Side) :
    (addNode sp nd).child b side = sp.child b side := by
  simp only [SplayTree.child, addNode, List.getElem?_append_left hb]

theorem addNode_child_new (nd : Node K V) (side : Side) :
    (addNode sp nd).child sp.nodes.length side = nd.child side := by
  simp [SplayTree.child, addNode]

theorem addNode_payload (nd : Node K V) : (addNode sp nd).payload = sp.payload ++ [(nd.key, nd.value)] := by
  simp [payload, addNode]

/-- The new node at the root, and the old root cut on a side. -/
def cutRoot (sp : SplayTree K V) (side : Side) (n : Nat) (nd : Node K V) : SplayTree K V :=
  ((addNode sp nd).put (.child n side) none).put .root (some sp.nodes.length)

theorem insertRoot_lt {comparison : Int} (h : comparison < 0) : insertRoot sp key value (some (n, comparison)) =
    cutRoot sp .right n ⟨key, value, some n, sp.child n .right⟩ :=
  if_pos h

theorem insertRoot_not_lt {comparison : Int} (h : ¬comparison < 0) :
    insertRoot sp key value (some (n, comparison)) =
      cutRoot sp .left n ⟨key, value, sp.child n .left, some n⟩ :=
  if_neg h

theorem cutRoot_same (side : Side) (nd : Node K V) : Same (addNode sp nd) (cutRoot sp side n nd) :=
  (same_put _ _ _).trans (same_put _ _ _)

theorem shape_cutRoot (side : Side) (near far : LinkTree Nat) (h : Shape sp (.mk side n near far)) {nd : Node K V}
    (hside : nd.child side = sp.child n side) (hother : nd.child side.other = some n) :
    Shape (cutRoot sp side n nd) (.mk side sp.nodes.length near (.mk side n .nil far)) := by
  have hn : n < sp.nodes.length := h.lt_length (LinkTree.mem_mk.2 (.inl rfl))
  have hlen : (addNode sp nd).nodes.length = sp.nodes.length + 1 := List.length_append
  have hne : sp.nodes.length ≠ n := Nat.ne_of_gt hn
  have hchild : ∀ b side', (cutRoot sp side n nd).child b side' =
      if b = n ∧ side' = side then none else (addNode sp nd).child b side' :=
    child_put (hlen ▸ Nat.lt_succ_of_lt hn) side none
  refine shape_new_root h rfl ((cutRoot_same side nd).length.trans hlen) ?_ ?_ ?_ ?_ ?_
  · intro b hb hbn
    funext side'
    rw [hchild, if_neg fun h => hbn h.1, addNode_child_lt hb]
  · rw [hchild, if_neg fun h => hne h.1, addNode_child_new, hside]
  · rw [hchild, if_neg fun h => hne h.1, addNode_child_new, hother]
  · rw [hchild, if_pos ⟨rfl, rfl⟩]
  · rw [hchild, if_neg fun h => side.other_ne h.2, addNode_child_lt hn]

/-- What an insertion has done to the entries and to the values that are gone. -/
def Inserted (rank : K → L) (key : K) (value : V) (sp : SplayTree K V) (es : List (K × V)) (sp' : SplayTree K V)
    (es' : List (K × V)) : Prop :=
  (∃ low e high, es = low ++ e :: high ∧ rank e.1 = rank key ∧ es' = low ++ (e.1, value) :: high ∧
    sp'.deletedValues = if sp.deleteValue then sp.deletedValues ++ [e.2] else sp.deletedValues) ∨
  ∃ low high, es = low ++ high ∧ es' = low ++ (key, value) :: high ∧
    (∀ a ∈ low, rank a.1 < rank key) ∧ (∀ a ∈ high, rank key < rank a.1) ∧ sp'.deletedValues = sp.deletedValues

theorem sorted_append {x : K × V} (h : (low ++ high).Pairwise fun a b => rank a.1 < rank b.1)
    (hlow : ∀ a ∈ low, rank a.1 < rank x.1) (hhigh : ∀ a ∈ high, rank x.1 < rank a.1) :
    (low ++ x :: high).Pairwise fun a b => rank a.1 < rank b.1 := by
  rw [List.pairwise_append] at h ⊢
  obtain ⟨hl, hh, hlh⟩ := h
  refine ⟨hl, List.pairwise_cons.2 ⟨hhigh, hh⟩, fun a ha b hb => ?_⟩
  rcases List.mem_cons.1 hb with rfl | hb
  · exact hlow a ha
  · exact hlh a ha b hb

theorem map_payload_congr {xs : List Nat} {f g : Nat → Option (K × V)} {ys : List (K × V)}
    (h : xs.map f = ys.map some) (hfg : ∀ a ∈ xs, g a = f a) : xs.map g = ys.map some :=
  (List.map_congr_left hfg).trans h

/-- The entries after the cut, from those of the two subtrees. -/
theorem cutRoot_entries (side : Side) (nd : Node K V) (h : Shape sp (.node l n r)) (he : sp.payload[n]? = some e)
    (hlow : l.toList.map (fun n => sp.payload[n]?) = low.map some)
    (hhigh : r.toList.map (fun n => sp.payload[n]?) = high.map some) :
    (cutRoot sp side n nd).payload[sp.nodes.length]? = some (nd.key, nd.value) ∧
      l.toList.map (fun a => (cutRoot sp side n nd).payload[a]?) = low.map some ∧
      r.toList.map (fun a => (cutRoot sp side n nd).payload[a]?) = high.map some ∧
      (cutRoot sp side n nd).payload[n]? = some e := by
  have hpayload : (cutRoot sp side n nd).payload = sp.payload ++ [(nd.key, nd.value)] :=
    (cutRoot_same side nd).payload.trans (addNode_payload nd)
  have hlen : sp.payload.length = sp.nodes.length := List.length_map _
  have hold : ∀ a ∈ l.toList ++ n :: r.toList, (cutRoot sp side n nd).payload[a]? = sp.payload[a]? := by
    intro a ha
    rw [hpayload, List.getElem?_append_left (hlen ▸ h.lt_length ha)]
  refine ⟨?_, ?_, ?_, ?_⟩
  · rw [hpayload, ← hlen, List.getElem?_concat_length]
  · exact map_payload_congr hlow fun a ha => hold a (List.mem_append_left _ ha)
  · exact map_payload_congr hhigh fun a ha => hold a (List.mem_append_right _ (List.mem_cons_of_mem _ ha))
  · rw [hold n (List.mem_append_right _ List.mem_cons_self), he]

def setValue (sp : SplayTree K V) (n : Nat) (value : V) (deletedValues : List V) : SplayTree K V :=
  { sp with deletedValues := deletedValues, nodes := sp.nodes.modify n fun nd => { nd with value := value } }

theorem links_setValue (n : Nat) (value : V) (deleted : List V) : (setValue sp n value deleted).links = sp.links := by
  rw [SplayTree.links, SplayTree.links, ChildLinks.mk.injEq]
  refine ⟨rfl, ?_⟩
  funext b side
  simp only [SplayTree.child, setValue, List.getElem?_modify]
  by_cases hb : n = b
  · cases sp.nodes[b]? with
    | none => simp [hb]
    | some nd => cases side <;> simp [hb, Node.child]
  · cases sp.nodes[b]? <;> simp [hb]

theorem setValue_payload (n : Nat) (value : V) (deleted : List V) (b : Nat) :
    (setValue sp n value deleted).payload[b]? =
      if n = b then sp.payload[b]?.map fun e => (e.1, value) else sp.payload[b]? := by
  rw [payload_getElem?, payload_getElem?, setValue, List.getElem?_modify]
  cases sp.nodes[b]? <;> by_cases hb : n = b <;> simp [hb]

theorem models_setValue (h : Models rank sp (.node l n r) (low ++ e :: high)) (he : sp.payload[n]? = some e)
    (hlow : l.toList.map (fun a => sp.payload[a]?) = low.map some)
    (hhigh : r.toList.map (fun a => sp.payload[a]?) = high.map some) (value : V) (deleted : List V) :
    Models rank (setValue sp n value deleted) (.node l n r) (low ++ (e.1, value) :: high) := by
  have hnodup := h.shape.nodup
  rw [LinkTree.toList, List.nodup_middle, List.nodup_cons, List.mem_append, not_or] at hnodup
  have hlen : (setValue sp n value deleted).nodes.length = sp.nodes.length := List.length_modify ..
  refine ⟨⟨?_, hlen ▸ h.shape.perm⟩, ?_, ?_⟩
  · rw [links_setValue]
    exact h.shape.holds
  · have hframe : ∀ a, a ≠ n → (setValue sp n value deleted).payload[a]? = sp.payload[a]? :=
      fun a ha => (setValue_payload n value deleted a).trans (if_neg (Ne.symm ha))
    have hl := map_payload_congr hlow fun a ha => hframe a fun heq => hnodup.1.1 (heq ▸ ha)
    have hr := map_payload_congr hhigh fun a ha => hframe a fun heq => hnodup.1.2 (heq ▸ ha)
    rw [LinkTree.toList, List.map_append, List.map_cons, hl, hr, setValue_payload, if_pos rfl, he, List.map_append,
      List.map_cons]
    rfl
  · have hsorted := h.sorted
    rw [List.pairwise_append, List.pairwise_cons] at hsorted ⊢
    obtain ⟨hl, ⟨heh, hh⟩, hlh⟩ := hsorted
    refine ⟨hl, ⟨heh, hh⟩, fun a ha b hb => ?_⟩
    rcases List.mem_cons.1 hb with rfl | hb
    · exact hlh a ha e List.mem_cons_self
    · exact hlh a ha b (List.mem_cons_of_mem _ hb)

/-- An insertion keeps a tree a tree in order, and adds one entry or changes the value of one. -/
theorem insert_models {t : LinkTree Nat} (hcomp : Ranks sp.comp rank) (h : Models rank sp t es) (key : K)
    (value : V) :
    ∃ sp' t' es', splayTreeInsert sp key value = some sp' ∧ Models rank sp' t' es' ∧ sp'.comp = sp.comp ∧
      sp'.deleteValue = sp.deleteValue ∧ Inserted rank key value sp es sp' es' := by
  by_cases hes : es = []
  · subst hes
    obtain rfl := h.nil_of
    have hroot : sp.root = none := h.shape.holds
    have hlen : sp.nodes.length = 0 := by
      have := h.shape.perm.length_eq
      rwa [List.length_range, eq_comm] at this
    have hnodes : sp.nodes = [] := List.length_eq_zero_iff.1 hlen
    refine ⟨insertRoot sp key value none, .node .nil 0 .nil, [(key, value)], ?_, ⟨⟨?_, ?_⟩, ?_, ?_⟩, rfl, rfl,
      .inr ⟨[], [], rfl, rfl, by simp, by simp, rfl⟩⟩
    · rw [splayTreeInsert, splayTreeSplay_nil h.shape]
      simp [hroot]
    · simp [insertRoot, Holds, SplayTree.links, SplayTree.child, hnodes, Node.child]
    · simp [insertRoot, LinkTree.toList, hnodes]
    · simp [insertRoot, LinkTree.toList, payload, hnodes]
    · exact List.pairwise_singleton _ _
  · obtain ⟨sp₁, l, n, r, low, e, high, hsplay, hsame, hmodels, rfl, he, hlow, hhigh, hlt, hgt⟩ :=
      splay_models hcomp h hes key
    have hn : n < sp₁.nodes.length := hmodels.shape.lt_length (List.mem_append_right _ List.mem_cons_self)
    have hnd : sp₁.nodes[n]? = some sp₁.nodes[n] := List.getElem?_eq_getElem hn
    have hroot : sp₁.root = some n := hmodels.shape.holds.1
    have hkey : sp₁.nodes[n].key = e.1 ∧ sp₁.nodes[n].value = e.2 := by
      rw [payload_getElem?, hnd, Option.map_some, Option.some.injEq] at he
      rw [← he]
      exact ⟨rfl, rfl⟩
    have hrank := hcomp e.1 key
    have hins : splayTreeInsert sp key value =
        if sp.comp e.1 key = 0 then some (setValue sp₁ n value
          (if sp₁.deleteValue then sp₁.deletedValues ++ [e.2] else sp₁.deletedValues))
        else some (insertRoot sp₁ key value (some (n, sp.comp e.1 key))) := by
      rw [splayTreeInsert, hsplay]
      simp only [Option.bind_eq_bind, Option.bind_some, hroot, hnd, hkey.1, hkey.2, hsame.comp, setValue]
      rfl
    by_cases h0 : sp.comp e.1 key = 0
    · rw [if_pos h0] at hins
      exact ⟨_, _, _, hins, models_setValue hmodels he hlow hhigh value _, hsame.comp, hsame.deleteValue,
        .inl ⟨low, e, high, rfl, hrank.1.1 h0, rfl, by rw [setValue, hsame.deleteValue, hsame.deletedValues]⟩⟩
    · rw [if_neg h0] at hins
      by_cases hneg : sp.comp e.1 key < 0
      · have hlt' : rank e.1 < rank key := hrank.2.1 hneg
        rw [insertRoot_lt hneg] at hins
        have hcut := @cutRoot_same _ _ sp₁ n .right ⟨key, value, some n, sp₁.child n .right⟩
        obtain ⟨hnew, hl, hr, hold⟩ := cutRoot_entries .right
          ⟨key, value, some n, sp₁.child n .right⟩ hmodels.shape he hlow hhigh
        have hlow' : ∀ a ∈ low ++ [e], rank a.1 < rank key := by
          intro a ha
          rcases List.mem_append.1 ha with ha | ha
          · exact hlt a ha
          · rw [List.mem_singleton.1 ha]
            exact hlt'
        refine ⟨_, _, (low ++ [e]) ++ (key, value) :: high, hins,
          ⟨shape_cutRoot .right r l hmodels.shape rfl rfl, ?_, ?_⟩,
          hcut.comp.trans hsame.comp, hcut.deleteValue.trans hsame.deleteValue,
          .inr ⟨low ++ [e], high, by simp, rfl, hlow', hgt, hcut.deletedValues.trans hsame.deletedValues⟩⟩
        · simp [LinkTree.mk, LinkTree.toList, hl, hr, hold, hnew]
        · refine sorted_append ?_ hlow' hgt
          rw [List.append_assoc]
          exact hmodels.sorted
      · have hgt' : rank key < rank e.1 :=
          lt_of_le_of_ne (not_lt.1 fun h => hneg (hrank.2.2 h)) fun h => h0 (hrank.1.2 h.symm)
        rw [insertRoot_not_lt hneg] at hins
        have hcut := @cutRoot_same _ _ sp₁ n .left ⟨key, value, sp₁.child n .left, some n⟩
        obtain ⟨hnew, hl, hr, hold⟩ := cutRoot_entries .left
          ⟨key, value, sp₁.child n .left, some n⟩ hmodels.shape he hlow hhigh
        have hhigh' : ∀ a ∈ e :: high, rank key < rank a.1 := by
          intro a ha
          rcases List.mem_cons.1 ha with rfl | ha
          · exact hgt'
          · exact hgt a ha
        refine ⟨_, _, low ++ (key, value) :: e :: high, hins,
          ⟨shape_cutRoot .left l r hmodels.shape rfl rfl, ?_, ?_⟩,
          hcut.comp.trans hsame.comp, hcut.deleteValue.trans hsame.deleteValue,
          .inr ⟨low, e :: high, rfl, rfl, hlt, hhigh', hcut.deletedValues.trans hsame.deletedValues⟩⟩
        · simp [LinkTree.mk, LinkTree.toList, hl, hr, hold, hnew]
        · exact sorted_append hmodels.sorted hlt hhigh'

end Insert

section Map

variable {rank : K → L} {sp : SplayTree K V} {t : LinkTree Nat} {es : List (K × V)}
  {m : L → Option (K × V)}

/-- The entries are those of a map. -/
def Represents (rank : K → L) (m : L → Option (K × V)) (es : List (K × V)) : Prop :=
  ∀ x e, m x = some e ↔ e ∈ es ∧ rank e.1 = x

omit [LinearOrder L] in
theorem Represents.none_of (hm : Represents rank m es) {x : L} (h : ∀ e ∈ es, rank e.1 ≠ x) : m x = none := by
  cases hx : m x with
  | none => rfl
  | some e =>
    obtain ⟨he, hr⟩ := (hm x e).1 hx
    exact absurd hr (h e he)

/-- One entry of a rank is put between smaller and greater ones. -/
theorem Represents.update {low high : List (K × V)} {new : K × V} {x : L} (hm : Represents rank m es)
    (hnew : rank new.1 = x) (hlow : ∀ a ∈ low, rank a.1 < x) (hhigh : ∀ a ∈ high, x < rank a.1)
    (hes : ∀ e, rank e.1 ≠ x → (e ∈ es ↔ e ∈ low ∨ e ∈ high)) :
    Represents rank (Function.update m x (some new)) (low ++ new :: high) := by
  intro y e
  rw [List.mem_append, List.mem_cons]
  by_cases hy : y = x
  · subst hy
    rw [Function.update_self, Option.some.injEq]
    constructor
    · rintro rfl
      exact ⟨.inr (.inl rfl), hnew⟩
    · rintro ⟨he, hr⟩
      rcases he with he | rfl | he
      · exact absurd hr (hlow e he).ne
      · rfl
      · exact absurd hr (hhigh e he).ne'
  · rw [Function.update_of_ne hy, hm]
    constructor
    · rintro ⟨he, rfl⟩
      exact ⟨((hes e hy).1 he).imp_right .inr, rfl⟩
    · rintro ⟨he, rfl⟩
      have hne : e ≠ new := fun heq => hy (heq ▸ hnew)
      exact ⟨(hes e hy).2 (he.imp_right fun h => h.resolve_left hne), rfl⟩

theorem Inserted.represents {key : K} {value : V} {sp' : SplayTree K V} {es' : List (K × V)}
    (h : Inserted rank key value sp es sp' es') (hsorted : es.Pairwise fun a b => rank a.1 < rank b.1)
    (hm : Represents rank m es) : Represents rank (insertEntry rank m key value) es' := by
  rcases h with ⟨low, e, high, rfl, hr, rfl, -⟩ | ⟨low, high, rfl, rfl, hlow, hhigh, -⟩
  · have hfound : m (rank key) = some e :=
      (hm _ e).2 ⟨List.mem_append_right _ List.mem_cons_self, hr⟩
    rw [List.pairwise_append, List.pairwise_cons] at hsorted
    obtain ⟨-, ⟨hhigh, -⟩, hlow⟩ := hsorted
    rw [insertEntry, hfound, Option.elim_some]
    refine hm.update hr (fun a ha => hr ▸ hlow a ha e List.mem_cons_self) (fun a ha => hr ▸ hhigh a ha) ?_
    intro e' hne
    rw [List.mem_append, List.mem_cons]
    have hne' : e' ≠ e := fun heq => hne (heq ▸ hr)
    exact or_congr_right (or_iff_right hne')
  · have hnone : m (rank key) = none := by
      refine hm.none_of fun e he => ?_
      rcases List.mem_append.1 he with he | he
      · exact (hlow e he).ne
      · exact (hhigh e he).ne'
    rw [insertEntry, hnone, Option.elim_none]
    exact hm.update rfl hlow hhigh fun e _ => List.mem_append

/-- A lookup keeps the entries and finds that of the key's rank. -/
theorem lookup_models (hcomp : Ranks sp.comp rank) (h : Models rank sp t es) (hm : Represents rank m es) (key : K) :
    ∃ sp' t' nd, splayTreeLookup sp key = some (sp', nd) ∧ Models rank sp' t' es ∧ Same sp sp' ∧
      nd.map (fun nd => (nd.key, nd.value)) = m (rank key) := by
  by_cases hes : es = []
  · subst hes
    obtain rfl := h.nil_of
    have hroot : sp.root = none := h.shape.holds
    refine ⟨sp, .nil, none, ?_, h, Same.refl sp, ?_⟩
    · rw [splayTreeLookup, splayTreeSplay_nil h.shape]
      simp [hroot]
    · exact (hm.none_of fun e he => absurd he List.not_mem_nil).symm
  · obtain ⟨sp₁, l, n, r, low, e, high, hsplay, hsame, hmodels, rfl, he, -, -, hlt, hgt⟩ :=
      splay_models hcomp h hes key
    have hn : n < sp₁.nodes.length := hmodels.shape.lt_length (List.mem_append_right _ List.mem_cons_self)
    have hnd : sp₁.nodes[n]? = some sp₁.nodes[n] := List.getElem?_eq_getElem hn
    have hroot : sp₁.root = some n := hmodels.shape.holds.1
    have hentry : (sp₁.nodes[n].key, sp₁.nodes[n].value) = e := by
      rwa [payload_getElem?, hnd, Option.map_some, Option.some.injEq] at he
    refine ⟨sp₁, _, if sp.comp e.1 key = 0 then some sp₁.nodes[n] else none, ?_, hmodels, hsame, ?_⟩
    · rw [splayTreeLookup, hsplay]
      simp only [Option.bind_eq_bind, Option.bind_some, hroot, hnd, hsame.comp, ← hentry]
      rfl
    · split_ifs with h0
      · rw [Option.map_some, hentry, eq_comm, hm]
        exact ⟨List.mem_append_right _ List.mem_cons_self, (hcomp e.1 key).1.1 h0⟩
      · refine (hm.none_of fun a ha => ?_).symm
        rcases List.mem_append.1 ha with ha | ha
        · exact (hlt a ha).ne
        · rcases List.mem_cons.1 ha with rfl | ha
          · exact fun heq => h0 ((hcomp a.1 key).1.2 heq)
          · exact (hgt a ha).ne'

/-- No value is lost: those in the tree and those given back. -/
theorem Inserted.values_perm {key : K} {value : V} {sp' : SplayTree K V} {es' : List (K × V)}
    (h : Inserted rank key value sp es sp' es') (hdel : sp.deleteValue = true) :
    (es'.map Prod.snd ++ sp'.deletedValues).Perm (value :: (es.map Prod.snd ++ sp.deletedValues)) := by
  rcases h with ⟨low, e, high, rfl, -, rfl, hd⟩ | ⟨low, high, rfl, rfl, -, -, hd⟩
  · rw [hd, if_pos hdel, ← List.append_assoc, List.map_append, List.map_append, List.map_cons, List.map_cons]
    calc (low.map Prod.snd ++ value :: high.map Prod.snd ++ sp.deletedValues ++ [e.2]).Perm
          (e.2 :: (low.map Prod.snd ++ value :: high.map Prod.snd ++ sp.deletedValues)) :=
          List.perm_append_singleton _ _
      _ |>.Perm (e.2 :: value :: (low.map Prod.snd ++ high.map Prod.snd ++ sp.deletedValues)) :=
          .cons _ (List.perm_middle.append_right _)
      _ |>.Perm (value :: e.2 :: (low.map Prod.snd ++ high.map Prod.snd ++ sp.deletedValues)) := .swap _ _ _
      _ |>.Perm (value :: (low.map Prod.snd ++ e.2 :: high.map Prod.snd ++ sp.deletedValues)) :=
          .cons _ (List.perm_middle.append_right _).symm
  · rw [hd, List.map_append, List.map_append, List.map_cons]
    exact (List.perm_middle.append_right _)

/-- A run keeps the tree in order, answers as the map does, and loses no value. -/
theorem run_models (hcomp : Ranks sp.comp rank) (h : Models rank sp t es) (hm : Represents rank m es)
    (ops : List (Op K V)) :
    ∃ sp' t' es', run sp ops = some (sp', (runMap rank m ops).2) ∧ Models rank sp' t' es' ∧
      Represents rank (runMap rank m ops).1 es' ∧ sp'.deleteValue = sp.deleteValue ∧
      (sp.deleteValue = true → (es'.map Prod.snd ++ sp'.deletedValues).Perm
        (ops.filterMap Op.inserted ++ (es.map Prod.snd ++ sp.deletedValues))) := by
  induction ops generalizing sp t es m with
  | nil => exact ⟨sp, t, es, rfl, h, hm, rfl, fun _ => .refl _⟩
  | cons op ops ih =>
    cases op with
    | insert key value =>
      obtain ⟨sp₁, t₁, es₁, hins, hmodels, hcomp₁, hdel, hinserted⟩ := insert_models hcomp h key value
      obtain ⟨sp', t', es', hrun, hmodels', hm', hdel', hperm⟩ :=
        ih (hcomp₁ ▸ hcomp) hmodels (hinserted.represents h.sorted hm)
      refine ⟨sp', t', es', ?_, hmodels', hm', hdel'.trans hdel, fun hd => ?_⟩
      · rw [run, step, hins]
        simp only [Option.bind_eq_bind, Option.bind_some, Option.pure_def, hrun]
        rfl
      · refine (hperm (hdel.trans hd)).trans ?_
        refine ((hinserted.values_perm hd).append_left _).trans ?_
        exact List.perm_middle
    | lookup key =>
      obtain ⟨sp₁, t₁, nd, hlookup, hmodels, hsame, hnd⟩ := lookup_models hcomp h hm key
      obtain ⟨sp', t', es', hrun, hmodels', hm', hdel', hperm⟩ := ih (hsame.comp ▸ hcomp) hmodels hm
      refine ⟨sp', t', es', ?_, hmodels', hm', hdel'.trans hsame.deleteValue, fun hd => ?_⟩
      · rw [run, step, hlookup]
        simp only [Option.bind_eq_bind, Option.bind_some, Option.pure_def, hrun, hnd]
        rfl
      · refine (hperm (hsame.deleteValue.trans hd)).trans ?_
        rw [hsame.deletedValues]
        rfl

theorem models_new (comp : K → K → Int) (deleteValue : Bool) :
    Models rank (splayTreeNew comp deleteValue : SplayTree K V) .nil [] :=
  ⟨⟨rfl, .refl _⟩, rfl, .nil⟩

omit [LinearOrder L] in
theorem represents_empty : Represents rank (fun _ => none : L → Option (K × V)) [] :=
  fun _ _ => ⟨fun h => absurd h.symm (Option.some_ne_none _), fun h => absurd h.1 List.not_mem_nil⟩

end Map

section Traversal

variable {S : Type} {rank : K → L} {sp : SplayTree K V} {t : LinkTree Nat} {es : List (K × V)}

theorem visit_append (fn : K → V → S → Int × S) (xs ys : List (K × V)) (data : S) :
    visit fn (xs ++ ys) data =
      if (visit fn xs data).1 ≠ 0 then visit fn xs data else visit fn ys (visit fn xs data).2 := by
  induction xs generalizing data with
  | nil => rfl
  | cons x xs ih =>
    obtain ⟨key, value⟩ := x
    simp only [List.cons_append, visit]
    split_ifs with h h' <;> first | rfl | simp_all

theorem child_of_nodes {n : Nat} {nd : Node K V} (hnd : sp.nodes[n]? = some nd) (side : Side) :
    sp.links.child n side = nd.child side := by
  change (sp.nodes[n]?.bind fun nd => nd.child side) = nd.child side
  rw [hnd, Option.bind_some]

/-- The traversal calls the function for the entries in order. -/
theorem foreach_helper_visit {ptr : Option Nat} (fn : K → V → S → Int × S) {fuel : Nat} (hfuel : t.height < fuel)
    (h : Holds sp.links t ptr) (hes : t.toList.map (fun n => sp.payload[n]?) = es.map some) (data : S) :
    splayTreeForeachHelper fn sp fuel ptr data = some (visit fn es data) := by
  induction t generalizing ptr fuel es data with
  | nil =>
    obtain ⟨fuel, rfl⟩ : ∃ k, fuel = k + 1 := Nat.exists_eq_succ_of_ne_zero (Nat.ne_of_gt hfuel)
    obtain rfl : es = [] := List.map_eq_nil_iff.1 hes.symm
    obtain rfl : ptr = none := h
    rfl
  | node l n r ihl ihr =>
    obtain ⟨fuel, rfl⟩ : ∃ k, fuel = k + 1 := Nat.exists_eq_succ_of_ne_zero (Nat.ne_of_gt (Nat.zero_lt_of_lt hfuel))
    obtain ⟨rfl, hl, hr⟩ := h
    rw [LinkTree.height] at hfuel
    obtain ⟨nd, low, high, hnd, rfl, hlow, hhigh⟩ := split_entries hes
    have hleft : Holds sp.links l nd.left := (congrArg (Holds sp.links l) (child_of_nodes hnd .left)).mp hl
    have hright : Holds sp.links r nd.right := (congrArg (Holds sp.links r) (child_of_nodes hnd .right)).mp hr
    have hll : ∀ data, splayTreeForeachHelper fn sp fuel nd.left data = some (visit fn low data) :=
      ihl (show l.height < fuel by omega) hleft hlow
    have hrr : ∀ data, splayTreeForeachHelper fn sp fuel nd.right data = some (visit fn high data) :=
      ihr (show r.height < fuel by omega) hright hhigh
    rw [splayTreeForeachHelper, hnd, visit_append]
    simp only [Option.bind_eq_bind, Option.bind_some, hll, hrr, visit, Option.pure_def]
    split_ifs <;> rfl

theorem Models.height_lt {rank : K → L} (h : Models rank sp t es) : t.height < sp.fuel := by
  have hlen := h.shape.perm.length_eq
  rw [List.length_range] at hlen
  exact Nat.lt_succ_of_le (hlen ▸ t.height_le_length)

theorem delete_helper_frees {ptr : Option Nat} {fuel : Nat} (hfuel : t.height < fuel)
    (h : Holds sp.links t ptr) (hes : t.toList.map (fun n => sp.payload[n]?) = es.map some) :
    ∃ freed, splayTreeDeleteHelper sp fuel ptr = some freed ∧ freed.Perm (t.toList.zip es) := by
  induction t generalizing ptr fuel es with
  | nil =>
    obtain ⟨fuel, rfl⟩ : ∃ k, fuel = k + 1 := Nat.exists_eq_succ_of_ne_zero (Nat.ne_of_gt hfuel)
    obtain rfl : ptr = none := h
    exact ⟨[], rfl, .refl _⟩
  | node l n r ihl ihr =>
    obtain ⟨fuel, rfl⟩ : ∃ k, fuel = k + 1 := Nat.exists_eq_succ_of_ne_zero (Nat.ne_of_gt (Nat.zero_lt_of_lt hfuel))
    obtain ⟨rfl, hl, hr⟩ := h
    rw [LinkTree.height] at hfuel
    obtain ⟨nd, low, high, hnd, rfl, hlow, hhigh⟩ := split_entries hes
    have hleft : Holds sp.links l nd.left := (congrArg (Holds sp.links l) (child_of_nodes hnd .left)).mp hl
    have hright : Holds sp.links r nd.right := (congrArg (Holds sp.links r) (child_of_nodes hnd .right)).mp hr
    obtain ⟨fl, hfl, hpl⟩ := ihl (show l.height < fuel by omega) hleft hlow
    obtain ⟨fr, hfr, hpr⟩ := ihr (show r.height < fuel by omega) hright hhigh
    refine ⟨fl ++ fr ++ [(n, nd.key, nd.value)], ?_, ?_⟩
    · rw [splayTreeDeleteHelper, hnd]
      simp only [Option.bind_eq_bind, Option.bind_some, hfl, hfr]
      rfl
    · have hlen : l.toList.length = low.length := by
        have := congrArg List.length hlow
        rwa [List.length_map, List.length_map] at this
      rw [LinkTree.toList, List.zip_append hlen, List.zip_cons_cons]
      refine (List.perm_append_singleton _ _).trans (List.Perm.trans ?_ List.perm_middle.symm)
      exact .cons _ (hpl.append hpr)

end Traversal

section Compare

variable {w : Nat}

theorem ranks_compare_ints : Ranks splayTreeCompareInts (intKey (w := w)) := by
  intro a b
  rw [splayTreeCompareInts]
  split_ifs with h h'
  · exact ⟨⟨fun h0 => absurd h0 (by decide), fun heq => absurd heq h.ne⟩, fun _ => h, fun _ => by decide⟩
  · exact ⟨⟨fun h0 => absurd h0 (by decide), fun heq => absurd heq.symm (lt_iff_not_ge.1 h' ∘ (·.ge))⟩,
      fun h0 => absurd h0 (by decide), fun hlt => absurd hlt h⟩
  · exact ⟨⟨fun _ => le_antisymm (not_lt.1 h') (not_lt.1 h), fun _ => rfl⟩,
      fun h0 => absurd h0 (by decide), fun hlt => absurd hlt h⟩

end Compare

section IsMap

variable {rank : K → L} {sp : SplayTree K V} {m : L → Option (K × V)}

def IsMap (rank : K → L) (sp : SplayTree K V) (m : L → Option (K × V)) : Prop :=
  Ranks sp.comp rank ∧ ∃ t es, Models rank sp t es ∧ Represents rank m es

theorem isMap_new {comp : K → K → Int} (hcomp : Ranks comp rank) (deleteValue : Bool) :
    IsMap rank (splayTreeNew comp deleteValue : SplayTree K V) fun _ => none :=
  ⟨hcomp, .nil, [], models_new comp deleteValue, represents_empty⟩

theorem IsMap.insert (h : IsMap rank sp m) (key : K) (value : V) :
    ∃ sp', splayTreeInsert sp key value = some sp' ∧ IsMap rank sp' (insertEntry rank m key value) := by
  obtain ⟨hcomp, t, es, hmodels, hm⟩ := h
  obtain ⟨sp', t', es', hins, hmodels', hcomp', -, hinserted⟩ := insert_models hcomp hmodels key value
  exact ⟨sp', hins, hcomp' ▸ hcomp, t', es', hmodels', hinserted.represents hmodels.sorted hm⟩

theorem IsMap.lookup (h : IsMap rank sp m) (key : K) :
    ∃ sp' nd, splayTreeLookup sp key = some (sp', nd) ∧ IsMap rank sp' m ∧
      nd.map (fun nd => (nd.key, nd.value)) = m (rank key) := by
  obtain ⟨hcomp, t, es, hmodels, hm⟩ := h
  obtain ⟨sp', t', nd, hlookup, hmodels', hsame, hnd⟩ := lookup_models hcomp hmodels hm key
  exact ⟨sp', nd, hlookup, ⟨hsame.comp ▸ hcomp, t', es, hmodels', hm⟩, hnd⟩

theorem IsMap.foreach (h : IsMap rank sp m) : ∃ es, Represents rank m es ∧
    ∀ {S : Type} (fn : K → V → S → Int × S) (data : S), splayTreeForeach sp fn data = some (visit fn es data) := by
  obtain ⟨-, t, es, hmodels, hm⟩ := h
  exact ⟨es, hm, fun fn data => foreach_helper_visit fn hmodels.height_lt hmodels.shape.holds hmodels.entries data⟩

end IsMap

/-- Over any run of insertions and lookups, whatever order and keys, the splay tree answers as a map from ranks, and
then visits the entries of that map in the order of their ranks. -/
theorem splay_tree_is_map {comp : K → K → Int} {rank : K → L} (hcomp : Ranks comp rank) (deleteValue : Bool)
    (ops : List (Op K V)) :
    ∃ sp es, run (splayTreeNew comp deleteValue) ops = some (sp, (runMap rank (fun _ => none) ops).2) ∧
      es.Pairwise (fun a b => rank a.1 < rank b.1) ∧
      Represents rank (runMap rank (fun _ => none) ops).1 es ∧
      ∀ (S : Type) (fn : K → V → S → Int × S) (data : S),
        splayTreeForeach sp fn data = some (visit fn es data) := by
  obtain ⟨sp, t, es, hrun, hmodels, hm, -⟩ := run_models hcomp (models_new comp deleteValue) represents_empty ops
  exact ⟨sp, es, hrun, hmodels.sorted, hm,
    fun S fn data => foreach_helper_visit fn hmodels.height_lt hmodels.shape.holds hmodels.entries data⟩

theorem splay_tree_is_map_ints :
    ∃ sp es, run (splayTreeNew (splayTreeCompareInts (w := 64)) true)
        [.insert 5 50, .insert 3 30, .insert 5 51, .lookup 5, .lookup 4] = some (sp, [some (5, 51), none]) ∧
      es.Pairwise (fun a b => intKey a.1 < intKey b.1) ∧
      Represents intKey (runMap intKey (fun _ => none)
        [.insert 5 50, .insert 3 30, .insert 5 51, .lookup 5, .lookup 4]).1 es ∧
      ∀ (S : Type) (fn : BitVec 64 → Nat → S → Int × S) (data : S),
        splayTreeForeach sp fn data = some (visit fn es data) :=
  splay_tree_is_map ranks_compare_ints true [.insert 5 50, .insert 3 30, .insert 5 51, .lookup 5, .lookup 4]

/-- After any run the deletion frees each node once, and with a `delete_value` each value that was inserted is
given back once. -/
theorem splay_tree_delete_frees {comp : K → K → Int} {rank : K → L} (hcomp : Ranks comp rank) (deleteValue : Bool)
    (ops : List (Op K V)) :
    ∃ sp found freed, run (splayTreeNew comp deleteValue) ops = some (sp, found) ∧
      splayTreeDelete sp = some freed ∧ (freed.map Prod.fst).Perm (List.range sp.nodes.length) ∧
      (deleteValue = true →
        (sp.deletedValues ++ freed.map fun n => n.2.2).Perm (ops.filterMap Op.inserted)) := by
  obtain ⟨sp, t, es, hrun, hmodels, -, -, hperm⟩ :=
    run_models hcomp (models_new comp deleteValue) represents_empty ops
  obtain ⟨freed, hfreed, hzip⟩ := delete_helper_frees hmodels.height_lt hmodels.shape.holds hmodels.entries
  have hlen : t.toList.length = es.length := by
    have := congrArg List.length hmodels.entries
    rwa [List.length_map, List.length_map] at this
  refine ⟨sp, _, freed, hrun, hfreed, ?_, fun hdel => ?_⟩
  · have := hzip.map Prod.fst
    rw [List.map_fst_zip hlen.le] at this
    exact this.trans hmodels.shape.perm
  · have := (hzip.map Prod.snd).map Prod.snd
    rw [List.map_snd_zip hlen.ge, List.map_map] at this
    refine ((this.append_left _).trans List.perm_append_comm).trans ?_
    refine (hperm hdel).trans ?_
    exact .of_eq (List.append_nil _)

theorem splay_tree_delete_frees_ints :
    ∃ sp found freed, run (splayTreeNew (splayTreeCompareInts (w := 64)) true)
        [.insert 5 50, .insert 3 30, .insert 5 51] = some (sp, found) ∧
      splayTreeDelete sp = some freed ∧ (freed.map Prod.fst).Perm (List.range sp.nodes.length) ∧
      (true = true → (sp.deletedValues ++ freed.map fun n => n.2.2).Perm [50, 30, 51]) :=
  splay_tree_delete_frees ranks_compare_ints true [.insert 5 50, .insert 3 30, .insert 5 51]

end Z80Gcc.Splay
