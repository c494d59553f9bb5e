import Mathlib.Order.Interval.Set.Disjoint
import Mathlib.Order.Interval.Set.LinearOrder
import Z80Gcc.Lib.ObjectAddress
import Z80Gcc.Spec.TempSlots

/-! Temporary stack slots never overlap, whatever is allocated, freed, split and combined. -/

namespace Z80Gcc.TempSlots

open Regions

section Rounding

variable {a b v : Int}

/-- An alignment in bits: a power of two, and at least a byte. -/
def IsAlign (a : Int) : Prop := ∃ k : Nat, a = 8 * 2 ^ k

theorem IsAlign.tdiv (ha : IsAlign a) : ∃ k : Nat, a.tdiv 8 = 2 ^ k := by
  obtain ⟨k, rfl⟩ := ha
  exact ⟨k, Int.mul_tdiv_cancel_left _ (by decide)⟩

theorem IsAlign.tdiv_dvd (ha : IsAlign a) (hb : IsAlign b) (hle : a ≤ b) : a.tdiv 8 ∣ b.tdiv 8 := by
  obtain ⟨j, rfl⟩ := ha
  obtain ⟨k, rfl⟩ := hb
  rw [Int.mul_tdiv_cancel_left _ (by decide), Int.mul_tdiv_cancel_left _ (by decide)]
  have hpow : (2 : Int) ^ j ≤ 2 ^ k := by omega
  exact pow_dvd_pow 2 ((pow_le_pow_iff_right₀ (by decide)).1 hpow)

theorem not_eq_neg (x : Int) : ~~~x = -x - 1 := by
  cases x with
  | ofNat n =>
    change Int.negSucc n = -(n : Int) - 1
    omega
  | negSucc n =>
    change (n : Int) = _
    omega

theorem mask_eq (k : Nat) (v : Int) : Int.land v (~~~((2 : Int) ^ k - 1)) = 2 ^ k * (v / 2 ^ k) := by
  have hnot : ~~~((2 : Int) ^ k - 1) = -(2 ^ k) := by
    rw [not_eq_neg]
    ring
  rw [hnot]
  exact ObjectAddress.land_neg_two_pow v k

theorem floorRound_spec (hk : ∃ k : Nat, a = 2 ^ k) : floorRound v a ≤ v ∧ a ∣ floorRound v a := by
  obtain ⟨k, rfl⟩ := hk
  unfold floorRound
  rw [mask_eq]
  exact ⟨Int.mul_ediv_self_le (pow_ne_zero k (by decide)), dvd_mul_right _ _⟩

theorem ceilRound_spec (hk : ∃ k : Nat, a = 2 ^ k) : v ≤ ceilRound v a ∧ a ∣ ceilRound v a := by
  obtain ⟨k, rfl⟩ := hk
  unfold ceilRound
  rw [mask_eq]
  refine ⟨?_, dvd_mul_right _ _⟩
  have hpos : (0 : Int) < 2 ^ k := pow_pos (by decide) k
  have hrest := Int.emod_lt_of_pos (v + 2 ^ k - 1) hpos
  have hsplit := Int.mul_ediv_add_emod (v + 2 ^ k - 1) (2 ^ k)
  omega

end Rounding

variable {M : Type} {t : Target M}

section Slots

/-- What every slot keeps: all of it is usable, and it is where it says. -/
structure Slot.Sound (t : Target M) (p : Slot M) : Prop where
  nonneg : 0 ≤ p.size
  full : p.fullSize = p.size
  align : IsAlign p.align
  aligned : p.align.tdiv 8 ∣ p.baseOffset
  address : ∀ fp, p.slot.address t fp = fp + t.startingFrameOffset + p.baseOffset

structure Kept (t : Target M) (l l' : List (Slot M)) : Prop where
  sound : ∀ p ∈ l', p.Sound t
  rearranged : Rearranged (l.map Slot.bytes) (l'.map Slot.bytes)

variable {l l' m : List (Slot M)} {p q : Slot M}

theorem Kept.trans (hl : Kept t l l') (hm : Kept t l' m) : Kept t l m :=
  ⟨hm.sound, hl.rearranged.trans hm.rearranged⟩

theorem Kept.of_perm (hl : ∀ p ∈ l, p.Sound t) (hp : l.Perm l') : Kept t l l' :=
  ⟨fun p hmem => hl p (hp.mem_iff.2 hmem), Rearranged.of_perm (hp.map Slot.bytes)⟩

theorem Kept.cons (hp : p.Sound t) (hl : Kept t l l') : Kept t (p :: l) (p :: l') :=
  ⟨List.forall_mem_cons.2 ⟨hp, hl.sound⟩, hl.rearranged.cons _⟩

def Slot.layout (p : Slot M) : Mem M × Int × Int × Int × Int :=
  (p.slot, p.size, p.align, p.baseOffset, p.fullSize)

theorem Slot.Sound.of_layout (hp : p.Sound t) (heq : q.layout = p.layout) : q.Sound t := by
  obtain ⟨hslot, hsize, halign, hbase, hfull⟩ : q.slot = p.slot ∧ q.size = p.size ∧ q.align = p.align ∧
      q.baseOffset = p.baseOffset ∧ q.fullSize = p.fullSize := by
    simpa only [Slot.layout, Prod.mk.injEq] using heq
  exact ⟨hsize ▸ hp.nonneg, by rw [hfull, hsize, hp.full], halign ▸ hp.align, by rw [halign, hbase]; exact hp.aligned,
    by rw [hslot, hbase]; exact hp.address⟩

theorem Slot.bytes_of_layout (heq : q.layout = p.layout) : q.bytes = p.bytes := by
  simp only [Slot.layout, Prod.mk.injEq] at heq
  unfold Slot.bytes
  rw [heq.2.2.2.1, heq.2.2.2.2]

theorem Kept.of_layout (hl : ∀ p ∈ l, p.Sound t) (heq : l'.map Slot.layout = l.map Slot.layout) : Kept t l l' := by
  induction l generalizing l' with
  | nil =>
    rw [List.map_nil, List.map_eq_nil_iff] at heq
    subst heq
    exact ⟨hl, Rearranged.refl _⟩
  | cons p l ih =>
    obtain ⟨q, l', rfl, hq, heq⟩ := List.map_eq_cons_iff.1 heq
    rw [List.forall_mem_cons] at hl
    have htail := ih hl.2 heq
    refine ⟨List.forall_mem_cons.2 ⟨hl.1.of_layout hq, htail.sound⟩, ?_⟩
    rw [List.map_cons, List.map_cons, Slot.bytes_of_layout hq]
    exact htail.rearranged.cons _

theorem Slot.absorb_bytes (hp : p.Sound t) (hq : q.Sound t) (hadj : p.baseOffset + p.fullSize = q.baseOffset) :
    (p.absorb q).bytes = p.bytes ∪ q.bytes := by
  have hfull := hp.full ▸ hp.nonneg
  have hfull' := hq.full ▸ hq.nonneg
  unfold Slot.bytes Slot.absorb
  dsimp only
  rw [hadj, Set.Ico_union_Ico_eq_Ico (by omega) (by omega), ← hadj, Int.add_assoc]

theorem Slot.Sound.absorb (hp : p.Sound t) (hq : q.Sound t) : (p.absorb q).Sound t :=
  ⟨Int.add_nonneg hp.nonneg hq.nonneg, congrArg₂ (· + ·) hp.full hq.full, hp.align, hp.aligned, hp.address⟩

theorem Kept.absorb (hp : p.Sound t) (hq : q.Sound t) (hl : ∀ p ∈ l, p.Sound t)
    (hadj : p.baseOffset + p.fullSize = q.baseOffset) : Kept t (p :: q :: l) (p.absorb q :: l) where
  sound := List.forall_mem_cons.2 ⟨hp.absorb hq, hl⟩
  rearranged := by
    rw [List.map_cons, List.map_cons, List.map_cons, Slot.absorb_bytes hp hq hadj]
    exact Rearranged.join _ _ _

end Slots

variable [DecidableEq M] {h : Host} {flags : Flags}

section Allocation

theorem Target.alignment_isAlign (t : Target M) (mode : M) : IsAlign (t.alignment mode) := by
  unfold Target.alignment
  split_ifs with hblk
  · obtain ⟨k, hk⟩ := t.biggest
    exact ⟨k, by rw [hk]; push_cast; rfl⟩
  · obtain ⟨k, hk⟩ := t.regular mode hblk
    exact ⟨k, by rw [hk]; push_cast; rfl⟩

/-- `assign_stack_local` allocates below the frame, and the frame then starts there. -/
theorem assignStackLocal_spec {mode : M} {size align frameOffset : Int} {x : Local M}
    (halign : align = 0 ∨ align = -1 ∨ IsAlign align)
    (hx : assignStackLocal h t flags mode size align frameOffset = some x) :
    size ≤ x.size ∧ x.frameOffset + x.size ≤ frameOffset ∧ x.mem.mode = mode ∧
      (∀ fp, x.mem.address t fp = fp + t.startingFrameOffset + x.frameOffset) ∧
      (IsAlign align → align.tdiv 8 ∣ x.frameOffset) := by
  have hpow : ∃ k : Nat, (if align = 0 then (t.alignment mode).tdiv 8
      else if align = -1 then (t.biggestAlignment : Int).tdiv 8 else align.tdiv 8) = 2 ^ k := by
    split_ifs with hzero hminus
    · exact (t.alignment_isAlign mode).tdiv
    · obtain ⟨k, hk⟩ := t.biggest
      exact IsAlign.tdiv ⟨k, by rw [hk]; push_cast; rfl⟩
    · exact ((halign.resolve_left hzero).resolve_left hminus).tdiv
  have hsame : IsAlign align → (if align = 0 then (t.alignment mode).tdiv 8
      else if align = -1 then (t.biggestAlignment : Int).tdiv 8 else align.tdiv 8) = align.tdiv 8 := by
    intro hpos
    obtain ⟨k, rfl⟩ := hpos
    have hk : (0 : Int) < 2 ^ k := pow_pos (by decide) k
    rw [if_neg (by omega), if_neg (by omega)]
  unfold assignStackLocal at hx
  dsimp only at hx
  generalize (if align = 0 then (t.alignment mode).tdiv 8
    else if align = -1 then (t.biggestAlignment : Int).tdiv 8 else align.tdiv 8) = alignment at hpow hsame hx
  have hround : size ≤ if align = -1 then ceilRound size alignment else size := by
    split_ifs
    · exact (ceilRound_spec hpow).1
    · exact le_refl size
  generalize (if align = -1 then ceilRound size alignment else size) = rounded at hround hx
  obtain ⟨-, hx⟩ := Option.ite_none_right_eq_some.1 hx
  obtain ⟨hdown, hdvd⟩ := floorRound_spec (v := frameOffset - rounded) hpow
  generalize floorRound (frameOffset - rounded) alignment = offset at hdown hdvd hx
  cases hx
  refine ⟨hround, ?_, ?_, ?_, ?_⟩
  · dsimp only
    omega
  · dsimp only
    split_ifs <;> rfl
  · intro fp
    dsimp only
    split_ifs
    · change fp + (offset + t.startingFrameOffset) = fp + t.startingFrameOffset + offset
      ring
    · rfl
  · intro hpos
    rw [← hsame hpos]
    exact hdvd

end Allocation

section Combining

variable {p : Slot M}

theorem combineWith_kept {rest : List (Slot M)} (hp : p.Sound t) (hrest : ∀ q ∈ rest, q.Sound t) :
    Kept t (p :: rest) ((combineWith t p rest).1.toList ++ (combineWith t p rest).2) := by
  induction rest generalizing p with
  | nil => exact Kept.of_perm (List.forall_mem_cons.2 ⟨hp, hrest⟩) (List.Perm.refl _)
  | cons q rest ih =>
    obtain ⟨hq, htail⟩ := List.forall_mem_cons.1 hrest
    have hswap : Kept t (p :: q :: rest) (q :: p :: rest) :=
      Kept.of_perm (List.forall_mem_cons.2 ⟨hp, hrest⟩) (List.Perm.swap _ _ _)
    unfold combineWith
    split_ifs with hafter hbefore
    · have hadj := of_decide_eq_true (Bool.and_eq_true_iff.1 hafter).2
      exact (Kept.absorb hp hq htail hadj).trans (ih (hp.absorb hq) htail)
    · have hadj := of_decide_eq_true (Bool.and_eq_true_iff.1 hbefore).2
      exact hswap.trans (Kept.absorb hq hp htail hadj)
    · have hkept := (ih hp htail).cons hq
      exact (hswap.trans hkept).trans (Kept.of_perm hkept.sound List.perm_middle.symm)

theorem combineSlots_kept {l : List (Slot M)} (hl : ∀ p ∈ l, p.Sound t) : Kept t l (combineSlots t l) := by
  induction l using combineSlots.induct (t := t) with
  | case1 => exact ⟨fun _ hp => absurd hp (by simp [combineSlots]), by rw [combineSlots]; exact Rearranged.refl _⟩
  | case2 p rest hcond r hlen ih =>
    obtain ⟨hp, hrest⟩ := List.forall_mem_cons.1 hl
    have hwith := combineWith_kept hp hrest
    have htail := ih fun q hq => hwith.sound q (List.mem_append_right _ hq)
    rw [combineSlots, if_pos hcond]
    refine hwith.trans ?_
    dsimp only
    cases hfirst : (combineWith t p rest).1 with
    | none => exact htail
    | some p' => exact htail.cons (hwith.sound p' (by rw [hfirst]; exact List.mem_cons_self))
  | case3 p rest hcond ih =>
    obtain ⟨hp, hrest⟩ := List.forall_mem_cons.1 hl
    rw [combineSlots, if_neg hcond]
    exact (ih hrest).cons hp

theorem combineTempSlots_kept {l : List (Slot M)} (hl : ∀ p ∈ l, p.Sound t) :
    Kept t l (combineTempSlots t flags l) := by
  unfold combineTempSlots
  split_ifs
  · exact Kept.of_perm hl (List.Perm.refl l)
  · exact Kept.of_perm hl (List.Perm.refl l)
  · exact combineSlots_kept hl

end Combining

section Searching

variable {r : Request M} {p : Slot M}

/-- The slot at place `i` can be used for a request. -/
structure Usable (t : Target M) (r : Request M) (l : List (Slot M)) (i : Nat) (p : Slot M) : Prop where
  place : l[i]? = some p
  free : p.inUse = false
  mode : p.slot.mode = r.mode
  size : r.size ≤ p.size
  align : t.alignment r.mode ≤ p.align

theorem usable_of_suits {l : List (Slot M)} {i : Nat} (hplace : l[i]? = some p)
    (hsuits : p.suits t flags r = true) : Usable t r l i p := by
  simp only [Slot.suits, Bool.and_eq_true, decide_eq_true_eq, Bool.not_eq_true'] at hsuits
  obtain ⟨⟨⟨⟨halign, hsize⟩, hmode⟩, hfree⟩, -⟩ := hsuits
  exact ⟨hplace, hfree, hmode, hsize, halign⟩

theorem search_cons (r : Request M) (i : Nat) (best : Option (Nat × Slot M)) (p : Slot M) (rest : List (Slot M)) :
    search t flags r i best (p :: rest) =
      if p.suits t flags r && p.better best then
        if p.align = t.alignment r.mode ∧ p.size = r.size then .exact i p
        else search t flags r (i + 1) (some (i, p)) rest
      else search t flags r (i + 1) best rest := by
  cases best <;> rfl

theorem search_spec (flags : Flags) {l rest : List (Slot M)} {k : Nat} {best : Option (Nat × Slot M)}
    (hrest : l.drop k = rest) (hbest : ∀ b ∈ best, Usable t r l b.1 b.2) :
    match search t flags r k best rest with
    | .exact i p | .best i p => Usable t r l i p
    | .new => True := by
  induction rest generalizing k best with
  | nil =>
    cases best with
    | none => trivial
    | some b => exact hbest b rfl
  | cons p rest ih =>
    have hplace : l[k]? = some p := by
      rw [← List.head?_drop, hrest, List.head?_cons]
    have htail : l.drop (k + 1) = rest := by
      rw [← List.tail_drop, hrest, List.tail_cons]
    rw [search_cons]
    split_ifs with hsuits hexact
    · exact usable_of_suits hplace (Bool.and_eq_true_iff.1 hsuits).1
    · refine ih htail fun b hb => ?_
      cases hb
      exact usable_of_suits hplace (Bool.and_eq_true_iff.1 hsuits).1
    · exact ih htail hbest

end Searching

section Taking

variable {s s' : State M} {r : Request M} {i : Nat} {p q : Slot M} {stale : Stale}

omit [DecidableEq M] in
/-- A slot is replaced by one at the same place in the frame. -/
theorem map_set_layout {l : List (Slot M)} (hplace : l[i]? = some p) (hq : q.layout = p.layout) :
    (l.set i q).map Slot.layout = l.map Slot.layout := by
  rw [List.map_set, hq]
  apply List.ext_getElem?
  intro j
  rw [List.getElem?_set, List.getElem?_map]
  split_ifs with hj hlt
  · rw [← hj, hplace, Option.map_some]
  · rw [List.length_map, not_lt] at hlt
    rw [← hj, List.getElem?_eq_none hlt, Option.map_none]
  · rfl

omit [DecidableEq M] in
theorem set_perm {l : List (Slot M)} (hplace : l[i]? = some p) (q : Slot M) :
    l.Perm (p :: l.eraseIdx i) ∧ (l.set i q).Perm (q :: l.eraseIdx i) := by
  obtain ⟨hlt, rfl⟩ := List.getElem?_eq_some_iff.1 hplace
  exact ⟨(List.getElem_cons_eraseIdx_perm hlt).symm, List.set_perm_cons_eraseIdx hlt q⟩

omit [DecidableEq M] in
theorem Kept.split {l : List (Slot M)} {rounded : Int} (hl : ∀ p ∈ l, p.Sound t) (hplace : l[i]? = some p)
    (hpos : 0 ≤ rounded) (hle : rounded ≤ p.size) (hdvd : p.align.tdiv 8 ∣ rounded)
    (hq : q.layout = (p.shrunk rounded).layout) : Kept t l (p.leftover t stale rounded :: l.set i q) := by
  have hp := hl p (List.mem_of_getElem? hplace)
  have hshrunk : (p.shrunk rounded).Sound t := ⟨hpos, rfl, hp.align, hp.aligned, hp.address⟩
  have hleft : (p.leftover t stale rounded).Sound t := by
    refine ⟨Int.sub_nonneg_of_le hle, congrArg (· - rounded) hp.full, hp.align, dvd_add hp.aligned hdvd, fun fp => ?_⟩
    have haddress := hp.address fp
    unfold Mem.address at haddress ⊢
    unfold Slot.leftover
    dsimp only
    cases hbase : p.slot.base <;> rw [hbase] at haddress <;> dsimp only at haddress ⊢ <;> omega
  have hfull := hp.full
  have hbytes : p.bytes = q.bytes ∪ (p.leftover t stale rounded).bytes := by
    rw [Slot.bytes_of_layout hq]
    unfold Slot.bytes Slot.shrunk Slot.leftover
    dsimp only
    rw [Set.Ico_union_Ico_eq_Ico (by omega) (by omega)]
    congr 1
    omega
  have happart : Disjoint q.bytes (p.leftover t stale rounded).bytes := by
    rw [Slot.bytes_of_layout hq]
    exact Set.Ico_disjoint_Ico_same
  obtain ⟨hfrom, hto⟩ := set_perm hplace q
  have hrest : ∀ x ∈ l.eraseIdx i, x.Sound t := fun x hx => hl x (List.mem_of_mem_eraseIdx hx)
  have hqsound := hshrunk.of_layout hq
  have hcut : Kept t (p :: l.eraseIdx i) (p.leftover t stale rounded :: q :: l.eraseIdx i) := by
    refine ⟨List.forall_mem_cons.2 ⟨hleft, List.forall_mem_cons.2 ⟨hqsound, hrest⟩⟩, ?_⟩
    rw [List.map_cons, hbytes]
    exact (Rearranged.split happart _).trans (Rearranged.of_perm (List.Perm.swap _ _ _))
  exact ((Kept.of_perm hl hfrom).trans hcut).trans
    ((Kept.of_perm (List.forall_mem_cons.2 ⟨hqsound, hrest⟩) hto.symm).cons hleft)

end Taking

section Invariant

variable {s s' : State M} {locals : List Region} {r : Request M} {i : Nat} {p q : Slot M} {stale : Stale}

structure Inv (t : Target M) (s : State M) (locals : List Region) : Prop where
  separate : Separate (s.regions locals)
  inside : ∀ r ∈ s.regions locals, r ⊆ Set.Ico s.frameOffset 0
  sound : ∀ p ∈ s.tempSlots, p.Sound t
  frame : s.frameOffset ≤ 0

omit [DecidableEq M]

theorem Inv.keep (hinv : Inv t s locals) (hkept : Kept t s.tempSlots s'.tempSlots)
    (hframe : s'.frameOffset = s.frameOffset) : Inv t s' locals := by
  refine ⟨hkept.rearranged.separate _ hinv.separate, ?_, hkept.sound, hframe ▸ hinv.frame⟩
  have hinside := hinv.inside
  unfold State.regions at hinside ⊢
  rw [List.forall_mem_append] at hinside ⊢
  rw [hframe]
  refine ⟨?_, hinside.2⟩
  rw [← covered_subset, ← hkept.rearranged.covered, covered_subset]
  exact hinside.1

theorem Inv.grow (hinv : Inv t s locals) {frame : Int} {a : Set Int} (hframe : frame ≤ s.frameOffset)
    (ha : a ⊆ Set.Ico frame s.frameOffset) :
    Separate (a :: s.regions locals) ∧ ∀ r ∈ a :: s.regions locals, r ⊆ Set.Ico frame 0 := by
  refine ⟨hinv.separate.cons_outside hinv.inside (Set.Ico_disjoint_Ico_same.mono_left ha),
    List.forall_mem_cons.2 ⟨ha.trans (Set.Ico_subset_Ico_right hinv.frame), fun r hr => ?_⟩⟩
  exact (hinv.inside r hr).trans (Set.Ico_subset_Ico_left hframe)

theorem Inv.slots_separate (hinv : Inv t s locals) : Separate (s.tempSlots.map Slot.bytes) :=
  (List.pairwise_append.1 hinv.separate).1

end Invariant

section Assigning

variable {s s' : State M} {locals : List Region} {r : Request M} {i : Nat} {p q : Slot M} {stale : Stale}

/-- A part of a slot that was available is right for the request. -/
theorem slotRight_of_usable (hinv : Inv t s locals) (hu : Usable t r s.tempSlots i p) (hmem : q ∈ s'.tempSlots)
    (hrest : ∀ x ∈ s.tempSlots.eraseIdx i, x ∈ s'.tempSlots) (hslot : q.slot = p.slot)
    (hbase : q.baseOffset = p.baseOffset) (hfull : q.fullSize ≤ p.fullSize) (hsize : r.size ≤ q.size) :
    SlotRight t r s s' q := by
  have hp := hinv.sound p (List.mem_of_getElem? hu.place)
  have hsub : q.bytes ⊆ p.bytes := by
    unfold Slot.bytes
    rw [hbase]
    exact Set.Ico_subset_Ico_right (by omega)
  obtain ⟨hperm, -⟩ := set_perm hu.place p
  refine ⟨hmem, ⟨p.bytes, hsub, .inr ⟨p, List.mem_of_getElem? hu.place, hu.free, rfl⟩⟩, ?_, by rw [hslot, hu.mode],
    hsize, ?_⟩
  · intro x hx huse
    obtain rfl | hx := List.mem_cons.1 (hperm.mem_iff.1 hx)
    · rw [hu.free] at huse
      exact absurd huse Bool.false_ne_true
    · have hsep := (separate_perm (hperm.map Slot.bytes)).1 hinv.slots_separate
      rw [List.map_cons, separate_cons] at hsep
      exact ⟨hrest x hx, ((hsep.1 _ (List.mem_map_of_mem hx)).mono_left hsub).symm⟩
  · rw [hbase]
    exact ((t.alignment_isAlign r.mode).tdiv_dvd hp.align hu.align).trans hp.aligned

/-- What `assign_stack_temp_for_type` is expected to do. -/
structure Assigned (t : Target M) (r : Request M) (locals : List Region) (s s' : State M) (p : Slot M) : Prop where
  inv : Inv t s' locals
  right : SlotRight t r s s' p
  covered : covered (s'.tempSlots.map Slot.bytes) =
    covered (s.tempSlots.map Slot.bytes) ∪ Set.Ico s'.frameOffset s.frameOffset

theorem Assigned.of_kept (hinv : Inv t s locals) (hkept : Kept t s.tempSlots s'.tempSlots)
    (hframe : s'.frameOffset = s.frameOffset) (hright : SlotRight t r s s' p) : Assigned t r locals s s' p where
  inv := hinv.keep hkept hframe
  right := hright
  covered := by rw [hframe, Set.Ico_self, Set.union_empty, hkept.rearranged.covered]

theorem useSlot_assigned (hinv : Inv t s locals) (hu : Usable t r s.tempSlots i p) :
    Assigned t r locals s (s.useSlot r i p).2 (s.useSlot r i p).1 := by
  obtain ⟨-, hset⟩ := set_perm hu.place (s.claim r.keep p)
  refine Assigned.of_kept hinv (Kept.of_layout hinv.sound (map_set_layout hu.place rfl)) rfl ?_
  exact slotRight_of_usable hinv hu (hset.mem_iff.2 List.mem_cons_self)
    (fun x hx => hset.mem_iff.2 (List.mem_cons_of_mem _ hx)) rfl rfl (le_refl _) hu.size

theorem useBest_assigned (hinv : Inv t s locals) (hsize : 0 ≤ r.size) (hu : Usable t r s.tempSlots i p)
    (hs : s.useBest h t flags r stale i p = some (q, s')) : Assigned t r locals s s' q := by
  have hp := hinv.sound p (List.mem_of_getElem? hu.place)
  obtain ⟨k, hk⟩ := hp.align.tdiv
  obtain ⟨hround, hdvd⟩ := ceilRound_spec (v := r.size) ⟨k, hk⟩
  have hpos : (0 : Int) < p.align.tdiv 8 := hk ▸ pow_pos (by decide) k
  unfold State.useBest at hs
  dsimp only at hs
  split_ifs at hs with hsplit hover hleft
  · cases hs
    obtain ⟨-, hset⟩ := set_perm hu.place (s.claim r.keep (p.shrunk (ceilRound r.size (p.align.tdiv 8))))
    have hfull := hp.full
    refine Assigned.of_kept hinv (Kept.split hinv.sound hu.place (by omega) (by omega) hdvd rfl) rfl ?_
    refine slotRight_of_usable hinv hu (List.mem_cons_of_mem _ (hset.mem_iff.2 List.mem_cons_self))
      (fun x hx => List.mem_cons_of_mem _ (hset.mem_iff.2 (List.mem_cons_of_mem _ hx))) rfl rfl ?_ hround
    change ceilRound r.size (p.align.tdiv 8) ≤ p.fullSize
    omega
  · cases hs
    exact useSlot_assigned hinv hu
  · cases hs
    exact useSlot_assigned hinv hu

theorem useNew_assigned (hinv : Inv t s locals) (hsize : 0 ≤ r.size)
    (hs : s.useNew h t flags r = some (q, s')) : Assigned t r locals s s' q := by
  have halign := t.alignment_isAlign r.mode
  have hround : r.size ≤ if r.mode = t.blk then ceilRound r.size ((t.alignment r.mode).tdiv 8) else r.size := by
    split_ifs
    · exact (ceilRound_spec halign.tdiv).1
    · exact le_refl _
  unfold State.useNew at hs
  dsimp only at hs
  generalize (if r.mode = t.blk then ceilRound r.size ((t.alignment r.mode).tdiv 8) else r.size) = size at hround hs
  split_ifs at hs with habort hover
  obtain ⟨x, hx, hs⟩ := Option.map_eq_some_iff.1 hs
  obtain ⟨hle, hbelow, hmode, haddress, haligned⟩ := assignStackLocal_spec (.inr (.inr halign)) hx
  cases hs
  generalize hq : s.claim r.keep _ = q
  have hbytes : q.bytes = Set.Ico x.frameOffset s.frameOffset := by
    rw [← hq]
    unfold Slot.bytes
    exact congrArg (Set.Ico x.frameOffset) (add_sub_cancel x.frameOffset s.frameOffset)
  have hsound : q.Sound t := by
    rw [← hq]
    exact ⟨Int.sub_nonneg_of_le (by omega), rfl, halign, haligned halign, haddress⟩
  have hsize' : r.size ≤ q.size := by
    rw [← hq]
    exact (by omega : r.size ≤ s.frameOffset - x.frameOffset)
  have hbase : q.baseOffset = x.frameOffset := by
    rw [← hq]
    rfl
  have hmode' : q.slot.mode = r.mode := by
    rw [← hq]
    exact hmode
  have hframe : x.frameOffset ≤ s.frameOffset := by omega
  obtain ⟨hsep, hinside⟩ := hinv.grow hframe hbytes.subset
  refine ⟨⟨hsep, hinside, List.forall_mem_cons.2 ⟨hsound, hinv.sound⟩, hframe.trans hinv.frame⟩, ?_, ?_⟩
  · refine ⟨List.mem_cons_self, ⟨q.bytes, subset_rfl, .inl hbytes⟩, fun y hy _ => ⟨List.mem_cons_of_mem _ hy, ?_⟩,
      hmode', hsize', ?_⟩
    · rw [hbytes]
      have hy' := hinv.inside y.bytes (List.mem_append_left _ (List.mem_map_of_mem hy))
      exact (Set.Ico_disjoint_Ico_same.mono_right hy').symm
    · rw [hbase]
      exact haligned halign
  · dsimp only
    rw [List.map_cons, covered_cons, hbytes, Set.union_comm]

/-- `assign_stack_temp_for_type` returns a slot that was not in use. -/
theorem assignStackTemp_assigned (hinv : Inv t s locals) (hsize : -1 ≤ r.size)
    (hs : s.assignStackTemp h t flags r stale = some (q, s')) : Assigned t r locals s s' q := by
  unfold State.assignStackTemp at hs
  split_ifs at hs with hminus
  have hnone : ∀ b ∈ (none : Option (Nat × Slot M)), Usable t r s.tempSlots b.1 b.2 := fun b hb => absurd hb (by simp)
  have hsearch := search_spec flags (List.drop_zero (l := s.tempSlots)) hnone
  split at hs
  · next i p heq =>
    rw [heq] at hsearch
    cases hs
    exact useSlot_assigned hinv hsearch
  · next i p heq =>
    rw [heq] at hsearch
    exact useBest_assigned hinv (by omega) hsearch hs
  · exact useNew_assigned hinv (by omega) hs

end Assigning

section Runs

variable {s s' : State M} {locals : List Region} {p : Slot M} {l : List (Slot M)}

omit [DecidableEq M] in
/-- What is written to fields that do not say where a slot is. -/
theorem map_layout {f : Slot M → Slot M} (hf : ∀ p, (f p).layout = p.layout) (l : List (Slot M)) :
    (l.map f).map Slot.layout = l.map Slot.layout := by
  rw [List.map_map]
  exact List.map_congr_left fun p _ => hf p

theorem release_kept (hinv : Inv t s locals) (cond : Slot M → Bool) :
    Kept t s.tempSlots (combineTempSlots t flags (s.release cond).tempSlots) := by
  have hmap : Kept t s.tempSlots (s.release cond).tempSlots := by
    refine Kept.of_layout hinv.sound (map_layout (fun p => ?_) _)
    split_ifs <;> rfl
  exact hmap.trans (combineTempSlots_kept hmap.sound)

omit [DecidableEq M] in
theorem raiseTaken_kept (hinv : Inv t s locals) : Kept t s.tempSlots s.raiseTaken.tempSlots := by
  refine Kept.of_layout hinv.sound (map_layout (fun p => ?_) _)
  split_ifs <;> rfl

omit [DecidableEq M] in
theorem preserveAt_kept (hinv : Inv t s locals) (i : Nat) :
    Kept t s.tempSlots (s.preserveAt i).tempSlots ∧ (s.preserveAt i).frameOffset = s.frameOffset := by
  unfold State.preserveAt
  cases s.tempSlots[i]? with
  | none => exact ⟨Kept.of_layout hinv.sound rfl, rfl⟩
  | some p =>
    dsimp only
    split_ifs
    · refine ⟨Kept.of_layout hinv.sound ?_, rfl⟩
      apply List.ext_getElem?
      intro j
      rw [List.getElem?_map, List.getElem?_mapIdx, List.getElem?_map, Option.map_map]
      congr 1
      funext q
      unfold Function.comp
      dsimp only
      split_ifs <;> rfl
    · exact ⟨Kept.of_layout hinv.sound rfl, rfl⟩

omit [DecidableEq M] in
theorem preserveTempSlots_kept (hinv : Inv t s locals) (x : Operand M) :
    Kept t s.tempSlots (s.preserveTempSlots x).tempSlots ∧ (s.preserveTempSlots x).frameOffset = s.frameOffset := by
  cases x with
  | null => exact ⟨raiseTaken_kept hinv, rfl⟩
  | other => exact ⟨raiseTaken_kept hinv, rfl⟩
  | reg pointer x =>
    unfold State.preserveTempSlots
    dsimp only
    cases (if pointer then findTempSlot x s.tempSlots else none) with
    | none => exact ⟨raiseTaken_kept hinv, rfl⟩
    | some i => exact preserveAt_kept hinv i
  | mem x =>
    unfold State.preserveTempSlots
    dsimp only
    cases findTempSlot x s.tempSlots with
    | none =>
      refine ⟨Kept.of_layout hinv.sound (map_layout (fun p => ?_) _), rfl⟩
      split_ifs <;> rfl
    | some i => exact preserveAt_kept hinv i

omit [DecidableEq M] in
theorem modify_kept (hinv : Inv t s locals) {f : Slot M → Slot M} (hf : ∀ p, (f p).layout = p.layout) (i : Nat) :
    Kept t s.tempSlots (s.tempSlots.modify i f) := by
  refine Kept.of_layout hinv.sound ?_
  apply List.ext_getElem?
  intro j
  rw [List.getElem?_map, List.getElem?_modify, List.getElem?_map]
  cases s.tempSlots[j]? with
  | none => rfl
  | some q =>
    change some (if i = j then f q else q).layout = some q.layout
    split_ifs
    · rw [hf q]
    · rfl

omit [DecidableEq M] in
theorem preserveRtlExprResult_kept (hinv : Inv t s locals) (x : Reference M) :
    Kept t s.tempSlots (s.preserveRtlExprResult x).tempSlots ∧
      (s.preserveRtlExprResult x).frameOffset = s.frameOffset := by
  unfold State.preserveRtlExprResult
  cases findTempSlot x s.tempSlots with
  | none => exact ⟨Kept.of_layout hinv.sound rfl, rfl⟩
  | some i => exact ⟨modify_kept hinv (fun _ => by rfl) i, rfl⟩

omit [DecidableEq M] in
theorem markTempAddrTaken_kept (hinv : Inv t s locals) (x : Reference M) :
    Kept t s.tempSlots (s.markTempAddrTaken x).tempSlots ∧ (s.markTempAddrTaken x).frameOffset = s.frameOffset := by
  unfold State.markTempAddrTaken
  cases findTempSlot x s.tempSlots with
  | none => exact ⟨Kept.of_layout hinv.sound rfl, rfl⟩
  | some i => exact ⟨modify_kept hinv (fun _ => by rfl) i, rfl⟩

theorem step_spec {a : Action M} {out : Outcome M} (hinv : Inv t s locals) (ha : a.Valid)
    (hs : step h t flags s a = some (s', out)) :
    Inv t s' (out.regions ++ locals) ∧ NoByteLost a s s' ∧
      ∀ r stale p, a = .temp r stale → out = .slot p → SlotRight t r s s' p := by
  have hnothing : (∀ r stale, a ≠ .temp r stale) → out = .nothing → Kept t s.tempSlots s'.tempSlots →
      s'.frameOffset = s.frameOffset → Inv t s' (out.regions ++ locals) ∧ NoByteLost a s s' ∧
      ∀ r stale p, a = .temp r stale → out = .slot p → SlotRight t r s s' p := by
    intro htemp hout hkept hframe
    subst hout
    refine ⟨hinv.keep hkept hframe, ?_, fun r stale _ heq => absurd heq (htemp r stale)⟩
    unfold NoByteLost
    rw [← hkept.rearranged.covered]
    cases a <;> first | exact (Set.union_empty _).symm | exact absurd rfl (htemp _ _)
  cases a with
  | temp r stale =>
    obtain ⟨⟨p, s₁⟩, hassign, heq⟩ := Option.map_eq_some_iff.1 hs
    cases heq
    have hright := assignStackTemp_assigned hinv ha hassign
    refine ⟨hright.inv, hright.covered, fun r' stale' p' hr hp => ?_⟩
    cases hr
    cases hp
    exact hright.right
  | stackLocal mode size align =>
    obtain ⟨hsize, halign⟩ := ha
    obtain ⟨x, hx, heq⟩ := Option.map_eq_some_iff.1 hs
    cases heq
    obtain ⟨hle, hbelow, -, -, -⟩ := assignStackLocal_spec halign hx
    have hsub : (⟨x.frameOffset, x.size⟩ : Region).bytes ⊆ Set.Ico x.frameOffset s.frameOffset :=
      Set.Ico_subset_Ico_right hbelow
    obtain ⟨hsep, hinside⟩ := hinv.grow (by omega) hsub
    have hperm : ((⟨x.frameOffset, x.size⟩ : Region).bytes :: s.regions locals).Perm
        (s.tempSlots.map Slot.bytes ++ (⟨x.frameOffset, x.size⟩ :: locals).map Region.bytes) :=
      List.perm_middle.symm
    refine ⟨⟨(separate_perm hperm).1 hsep, fun r hr => hinside r (hperm.mem_iff.2 hr), hinv.sound,
      (by omega : x.frameOffset ≤ s.frameOffset).trans hinv.frame⟩, (Set.union_empty _).symm, ?_⟩
    intro r stale p hr
    cases hr
  | free =>
    cases hs
    exact hnothing (by simp) rfl (release_kept hinv _) rfl
  | freeFor e =>
    cases hs
    exact hnothing (by simp) rfl (release_kept hinv _) rfl
  | preserve x =>
    cases hs
    obtain ⟨hkept, hframe⟩ := preserveTempSlots_kept hinv x
    exact hnothing (by simp) rfl hkept hframe
  | preserveResult x =>
    cases hs
    obtain ⟨hkept, hframe⟩ := preserveRtlExprResult_kept hinv x
    exact hnothing (by simp) rfl hkept hframe
  | addrTaken x =>
    cases hs
    obtain ⟨hkept, hframe⟩ := markTempAddrTaken_kept hinv x
    exact hnothing (by simp) rfl hkept hframe
  | markAll =>
    cases hs
    exact hnothing (by simp) rfl (Kept.of_layout hinv.sound (map_layout (fun _ => by rfl) _)) rfl
  | pop =>
    cases hs
    exact hnothing (by simp) rfl (release_kept hinv _) rfl
  | combine =>
    cases hs
    exact hnothing (by simp) rfl (combineTempSlots_kept hinv.sound) rfl
  | push | pushForBlock | pushForTarget | setTargetLevel _ | sequence _ =>
    cases hs
    exact hnothing (by simp) rfl (Kept.of_layout hinv.sound rfl) rfl

theorem Reached.inv (hs : Reached h t flags s locals) : Inv t s locals := by
  induction hs with
  | start =>
    refine ⟨List.Pairwise.nil, ?_, ?_, le_refl _⟩
    · intro r hr
      exact absurd hr List.not_mem_nil
    · intro p hp
      exact absurd hp List.not_mem_nil
  | step _ ha hstep ih => exact (step_spec ih ha hstep).1

/-- At any time the frame is laid out without overlap, and whatever is called next loses no byte and returns a slot that
is right. -/
theorem tempSlots_right (hs : Reached h t flags s locals) :
    LaidOut t s locals ∧ ∀ a s' out, a.Valid → step h t flags s a = some (s', out) →
      NoByteLost a s s' ∧ ∀ r stale p, a = .temp r stale → out = .slot p → SlotRight t r s s' p := by
  have hinv := hs.inv
  refine ⟨⟨hinv.separate, hinv.inside, fun p hp => (hinv.sound p hp).address, fun p hp => ?_⟩, ?_⟩
  · exact ⟨(hinv.sound p hp).nonneg, (hinv.sound p hp).full.ge⟩
  · intro a s' out ha hstep
    exact (step_spec hinv ha hstep).2

theorem Reached.next (hs : Reached h t flags s locals) {a : Action M} (ha : a.Valid)
    (hsome : (TempSlots.step h t flags s a).isSome = true) :
    Reached h t flags ((TempSlots.step h t flags s a).get hsome).1
      (((TempSlots.step h t flags s a).get hsome).2.regions ++ locals) :=
  hs.step ha (Option.some_get hsome).symm

/-- A block, a local of two bytes below it, and an integer in a part of the block once it is free. -/
theorem tempSlots_right_z80 :
    ∃ s locals, Reached host32 z80 ⟨false, true, 2, false⟩ s locals ∧ locals.length = 1 ∧ s.tempSlots.length = 2 ∧
      s.frameOffset = -12 ∧ LaidOut z80 s locals := by
  have hblock : Reached host32 z80 ⟨false, true, 2, false⟩ _ _ :=
    Reached.start.next (a := .temp ⟨.blk, 10, 0, 0⟩ ⟨0, 0, 0⟩) (by decide : (-1 : Int) ≤ 10) (by decide +kernel)
  have hlocal := hblock.next (a := .stackLocal .hi 2 0) ⟨by decide, .inl rfl⟩ (by decide +kernel)
  have hfree := hlocal.next (a := .free) trivial (by decide +kernel)
  have hpart := hfree.next (a := .temp ⟨.blk, 4, 1, 0⟩ ⟨0, 0, 0⟩) (by decide : (-1 : Int) ≤ 4) (by decide +kernel)
  exact ⟨_, _, hpart, by decide +kernel, by decide +kernel, by decide +kernel, (tempSlots_right hpart).1⟩

end Runs

end Z80Gcc.TempSlots
