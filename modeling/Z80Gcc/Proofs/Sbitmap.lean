import Z80Gcc.Spec.Sbitmap

/-! What the functions on bitmaps do to each bit, and the order of bitmaps by their bits. -/

namespace Z80Gcc.SimpleBitmap

variable {w nBits : Nat} [NeZero w] {a b c s t : Sbitmap w nBits} {bitno : Nat}

/-- The bits that a bitmap has, those of its last word after `n_bits` too. -/
def InSize (w nBits bitno : Nat) : Prop := bitno / w < sbitmapSetSize w nBits

theorem and_one_ne_zero (x : BitVec w) : (x &&& 1#w != 0#w) = x.getLsbD 0 := by
  have hw : 0 < w := Nat.pos_of_neZero w
  rw [Bool.eq_iff_iff, bne_iff_ne, ne_eq]
  constructor
  · intro hne
    by_contra h0
    refine hne (BitVec.eq_of_getLsbD_eq fun i _ => ?_)
    rw [BitVec.getLsbD_and, BitVec.getLsbD_one, BitVec.getLsbD_zero, Bool.and_eq_false_iff]
    by_cases hi : i = 0
    · subst hi
      exact .inl (Bool.eq_false_iff.2 h0)
    · exact .inr (by simp [hi])
  · intro h0 heq
    have := congrArg (fun y => BitVec.getLsbD y 0) heq
    simp only [BitVec.getLsbD_and, BitVec.getLsbD_one, BitVec.getLsbD_zero, h0] at this
    simp [hw] at this

theorem testBit_eq (s : Sbitmap w nBits) (bitno : Nat) :
    testBit s bitno = (elms s (bitno / w)).getLsbD (bitno % w) := by
  rw [testBit, and_one_ne_zero, BitVec.getLsbD_ushiftRight, Nat.add_zero]

theorem testBit_inSize (h : InSize w nBits bitno) (s : Sbitmap w nBits) :
    testBit s bitno = (s ⟨bitno / w, h⟩).getLsbD (bitno % w) := by
  have hword : elms s (bitno / w) = s ⟨bitno / w, h⟩ := dif_pos h
  rw [testBit_eq, hword]

theorem testBit_outside (h : ¬InSize w nBits bitno) (s : Sbitmap w nBits) : testBit s bitno = false := by
  have hword : elms s (bitno / w) = 0 := dif_neg h
  rw [testBit_eq, hword]
  exact BitVec.getLsbD_zero

theorem inSize_of_test {s : Sbitmap w nBits} (h : testBit s bitno = true) : InSize w nBits bitno := by
  by_contra hout
  rw [testBit_outside hout] at h
  exact Bool.false_ne_true h

theorem inSize_of_lt (h : bitno < nBits) : InSize w nBits bitno := by
  have hw : 0 < w := Nat.pos_of_neZero w
  rw [InSize, sbitmapSetSize, Nat.div_lt_iff_lt_mul hw]
  have hmod := Nat.div_add_mod (nBits + w - 1) w
  have hlt := Nat.mod_lt (nBits + w - 1) hw
  rw [Nat.mul_comm] at hmod
  omega

theorem sbitmap_ext (h : ∀ bitno, testBit s bitno = testBit t bitno) : s = t := by
  have hw : 0 < w := Nat.pos_of_neZero w
  funext k
  refine BitVec.eq_of_getLsbD_eq fun i hi => ?_
  have hdiv : (w * k.val + i) / w = k.val := by
    rw [Nat.mul_add_div hw, Nat.div_eq_of_lt hi, Nat.add_zero]
  have hmod : (w * k.val + i) % w = i := by rw [Nat.mul_add_mod, Nat.mod_eq_of_lt hi]
  have hin : InSize w nBits (w * k.val + i) := by
    rw [InSize, hdiv]
    exact k.isLt
  have hbit := h (w * k.val + i)
  rw [testBit_inSize hin, testBit_inSize hin, hmod] at hbit
  have hk : (⟨(w * k.val + i) / w, hin⟩ : Fin _) = k := Fin.ext hdiv
  rwa [hk] at hbit

section Bits

theorem testBit_ones (h : InSize w nBits bitno) : testBit (sbitmapOnes : Sbitmap w nBits) bitno = true := by
  rw [testBit_inSize h, sbitmapOnes, BitVec.getLsbD_allOnes, decide_eq_true_iff]
  exact Nat.mod_lt _ (Nat.pos_of_neZero w)

@[simp] theorem testBit_zero : testBit (sbitmapZero : Sbitmap w nBits) bitno = false := by
  by_cases h : InSize w nBits bitno
  · rw [testBit_inSize h]
    exact BitVec.getLsbD_zero
  · exact testBit_outside h _

theorem testBit_not (h : InSize w nBits bitno) (s : Sbitmap w nBits) :
    testBit (sbitmapNot s) bitno = !testBit s bitno := by
  rw [testBit_inSize h, testBit_inSize h, sbitmapNot, BitVec.getLsbD_not,
    decide_eq_true (Nat.mod_lt _ (Nat.pos_of_neZero w)), Bool.true_and]

@[simp] theorem testBit_and : testBit (sbitmapAAndB a b) bitno = (testBit a bitno && testBit b bitno) := by
  by_cases h : InSize w nBits bitno
  · simp only [testBit_inSize h, sbitmapAAndB, BitVec.getLsbD_and]
  · simp only [testBit_outside h, Bool.and_false]

@[simp] theorem testBit_or : testBit (sbitmapAOrB a b) bitno = (testBit a bitno || testBit b bitno) := by
  by_cases h : InSize w nBits bitno
  · simp only [testBit_inSize h, sbitmapAOrB, BitVec.getLsbD_or]
  · simp only [testBit_outside h, Bool.or_false]

@[simp] theorem testBit_difference :
    testBit (sbitmapDifference a b) bitno = (testBit a bitno && !testBit b bitno) := by
  by_cases h : InSize w nBits bitno
  · simp only [testBit_inSize h, sbitmapDifference, BitVec.getLsbD_and, BitVec.getLsbD_not,
      decide_eq_true (Nat.mod_lt bitno (Nat.pos_of_neZero w)), Bool.true_and]
  · simp only [testBit_outside h, Bool.false_and]

@[simp] theorem testBit_union_of_diff : testBit (sbitmapUnionOfDiff a b c) bitno =
    (testBit a bitno || (testBit b bitno && !testBit c bitno)) := by
  by_cases h : InSize w nBits bitno
  · simp only [testBit_inSize h, sbitmapUnionOfDiff, BitVec.getLsbD_or, BitVec.getLsbD_and, BitVec.getLsbD_not,
      decide_eq_true (Nat.mod_lt bitno (Nat.pos_of_neZero w)), Bool.true_and]
  · simp only [testBit_outside h, Bool.false_and, Bool.or_false]

@[simp] theorem testBit_or_and : testBit (sbitmapAOrBAndC a b c) bitno =
    (testBit a bitno || (testBit b bitno && testBit c bitno)) := by
  by_cases h : InSize w nBits bitno
  · simp only [testBit_inSize h, sbitmapAOrBAndC, BitVec.getLsbD_or, BitVec.getLsbD_and]
  · simp only [testBit_outside h, Bool.and_false, Bool.or_false]

@[simp] theorem testBit_and_or : testBit (sbitmapAAndBOrC a b c) bitno =
    (testBit a bitno && (testBit b bitno || testBit c bitno)) := by
  by_cases h : InSize w nBits bitno
  · simp only [testBit_inSize h, sbitmapAAndBOrC, BitVec.getLsbD_or, BitVec.getLsbD_and]
  · simp only [testBit_outside h, Bool.false_and]

theorem getLsbD_one_shiftLeft {set : Nat} (hdiv : bitno / w = set / w) :
    (1#w <<< (set % w)).getLsbD (bitno % w) = decide (bitno = set) := by
  have hw : 0 < w := Nat.pos_of_neZero w
  have hlt := Nat.mod_lt bitno hw
  have hset := Nat.div_add_mod set w
  have hbit := Nat.div_add_mod bitno w
  rw [hdiv] at hbit
  rw [BitVec.getLsbD_shiftLeft, BitVec.getLsbD_one, Bool.eq_iff_iff]
  simp only [hlt, hw, decide_true, Bool.true_and, Bool.and_eq_true, Bool.not_eq_true', decide_eq_false_iff_not,
    decide_eq_true_eq]
  constructor
  · rintro ⟨hge, hzero⟩
    omega
  · rintro rfl
    exact ⟨Nat.lt_irrefl _, Nat.sub_self _⟩

theorem testBit_setBit (h : InSize w nBits bitno) (s : Sbitmap w nBits) (set : Nat) :
    testBit (setBit s set) bitno = (decide (bitno = set) || testBit s bitno) := by
  rw [testBit_inSize h, testBit_inSize h, setBit]
  by_cases hdiv : bitno / w = set / w
  · rw [if_pos hdiv, BitVec.getLsbD_or, getLsbD_one_shiftLeft hdiv, Bool.or_comm]
  · have hne : bitno ≠ set := fun heq => hdiv (heq ▸ rfl)
    rw [if_neg hdiv, decide_eq_false hne, Bool.false_or]

theorem testBit_resetBit (s : Sbitmap w nBits) (reset : Nat) :
    testBit (resetBit s reset) bitno = (!decide (bitno = reset) && testBit s bitno) := by
  by_cases h : InSize w nBits bitno
  · rw [testBit_inSize h, testBit_inSize h, resetBit]
    by_cases hdiv : bitno / w = reset / w
    · rw [if_pos hdiv, BitVec.getLsbD_and, BitVec.getLsbD_not, getLsbD_one_shiftLeft hdiv, Bool.and_comm,
        decide_eq_true (Nat.mod_lt bitno (Nat.pos_of_neZero w)), Bool.true_and]
    · have hne : bitno ≠ reset := fun heq => hdiv (heq ▸ rfl)
      rw [if_neg hdiv, decide_eq_false hne, Bool.not_false, Bool.true_and]
  · rw [testBit_outside h, testBit_outside h, Bool.and_false]

end Bits

section Order

def Subset (s t : Sbitmap w nBits) : Prop := ∀ bitno, testBit s bitno = true → testBit t bitno = true

theorem subset_antisymm (h : Subset s t) (h' : Subset t s) : s = t :=
  sbitmap_ext fun bitno => Bool.eq_iff_iff.2 ⟨h bitno, h' bitno⟩

omit [NeZero w] in
theorem subset_refl (s : Sbitmap w nBits) : Subset s s := fun _ h => h

omit [NeZero w] in
theorem subset_trans (h : Subset a b) (h' : Subset b c) : Subset a c := fun bitno ha => h' bitno (h bitno ha)

theorem subset_and_left : Subset (sbitmapAAndB a b) a := by
  intro bitno h
  rw [testBit_and, Bool.and_eq_true] at h
  exact h.1

theorem subset_of_and_eq (h : sbitmapAAndB a b = a) : Subset a b := by
  intro bitno ha
  rw [← h, testBit_and, Bool.and_eq_true] at ha
  exact ha.2

variable {n : Nat}

omit [NeZero w] in
theorem finite_vector : Finite (Fin n → Sbitmap w nBits) := by
  have : Finite (BitVec w) := Finite.of_injective BitVec.toFin fun x y h => BitVec.eq_of_toFin_eq h
  infer_instance

theorem wf_subset :
    WellFounded fun v v' : Fin n → Sbitmap w nBits => (∀ bb, Subset (v bb) (v' bb)) ∧ v ≠ v' := by
  have := @finite_vector w nBits n
  have htrans : IsTrans _ fun v v' : Fin n → Sbitmap w nBits => (∀ bb, Subset (v bb) (v' bb)) ∧ v ≠ v' := by
    refine ⟨fun v v' v'' h h' => ⟨fun bb => subset_trans (h.1 bb) (h'.1 bb), fun heq => h.2 ?_⟩⟩
    subst heq
    exact funext fun bb => subset_antisymm (h.1 bb) (h'.1 bb)
  have hirrefl : Std.Irrefl fun v v' : Fin n → Sbitmap w nBits => (∀ bb, Subset (v bb) (v' bb)) ∧ v ≠ v' :=
    ⟨fun v h => h.2 rfl⟩
  exact Finite.wellFounded_of_trans_of_irrefl _

theorem wf_superset :
    WellFounded fun v v' : Fin n → Sbitmap w nBits => (∀ bb, Subset (v' bb) (v bb)) ∧ v ≠ v' := by
  have := @finite_vector w nBits n
  have htrans : IsTrans _ fun v v' : Fin n → Sbitmap w nBits => (∀ bb, Subset (v' bb) (v bb)) ∧ v ≠ v' := by
    refine ⟨fun v v' v'' h h' => ⟨fun bb => subset_trans (h'.1 bb) (h.1 bb), fun heq => h.2 ?_⟩⟩
    subst heq
    exact funext fun bb => subset_antisymm (h'.1 bb) (h.1 bb)
  have hirrefl : Std.Irrefl fun v v' : Fin n → Sbitmap w nBits => (∀ bb, Subset (v' bb) (v bb)) ∧ v ≠ v' :=
    ⟨fun v h => h.2 rfl⟩
  exact Finite.wellFounded_of_trans_of_irrefl _

end Order

section Lists

variable {n : Nat} {dst : Sbitmap w nBits} {src : Fin n → Sbitmap w nBits} {ps : List (BlockRef n)}

theorem mem_filterMap_isBlock (ps : List (BlockRef n)) {p : Fin n} : p ∈ ps.filterMap BlockRef.isBlock? ↔ BlockRef.block p ∈ ps := by
  rw [List.mem_filterMap]
  constructor
  · rintro ⟨r, hr, hblock⟩
    cases r with
    | block bb =>
      cases hblock
      exact hr
    | entryBlock => cases hblock
    | exitBlock => cases hblock
  · intro hp
    exact ⟨_, hp, rfl⟩

def HasBlock (ps : List (BlockRef n)) : Prop := ∃ p, BlockRef.block p ∈ ps

variable {op : Sbitmap w nBits → Sbitmap w nBits → Sbitmap w nBits} {unit : Sbitmap w nBits}

omit [NeZero w] in
theorem ofPredsucc_ofPredsucc (src' : Fin n → Sbitmap w nBits) :
    ofPredsucc op unit (ofPredsucc op unit dst src' ps) src ps = ofPredsucc op unit dst src ps := by
  rw [ofPredsucc, ofPredsucc, ofPredsucc]
  cases ps.isEmpty with
  | true => rfl
  | false => cases ps.filterMap BlockRef.isBlock? <;> rfl

omit [NeZero w] in
theorem ofPredsucc_congr {src' : Fin n → Sbitmap w nBits} (h : ∀ p, BlockRef.block p ∈ ps → src p = src' p) :
    ofPredsucc op unit dst src ps = ofPredsucc op unit dst src' ps := by
  simp only [← mem_filterMap_isBlock ps] at h
  rw [ofPredsucc, ofPredsucc]
  cases ps.isEmpty with
  | true => rfl
  | false =>
    cases hblocks : ps.filterMap BlockRef.isBlock? with
    | nil => rfl
    | cons q rest =>
      rw [hblocks] at h
      simp only [h q List.mem_cons_self]
      exact List.foldl_ext _ _ _ fun r p hp => by rw [h p (List.mem_cons_of_mem _ hp)]

omit [NeZero w] in
theorem ofPredsucc_mono {le : Sbitmap w nBits → Sbitmap w nBits → Prop} (hrefl : ∀ a, le a a)
    (hop : ∀ a a' b b', le a a' → le b b' → le (op a b) (op a' b')) {src' : Fin n → Sbitmap w nBits}
    (h : ∀ p, le (src p) (src' p)) : le (ofPredsucc op unit dst src ps) (ofPredsucc op unit dst src' ps) := by
  have hfold : ∀ (rest : List (Fin n)) (r r' : Sbitmap w nBits), le r r' →
      le (rest.foldl (fun r p => op r (src p)) r) (rest.foldl (fun r p => op r (src' p)) r') := by
    intro rest
    induction rest with
    | nil => exact fun _ _ hr => hr
    | cons p rest ih => exact fun r r' hr => ih _ _ (hop _ _ _ _ hr (h p))
  rw [ofPredsucc, ofPredsucc]
  cases ps.isEmpty with
  | true => exact hrefl _
  | false =>
    cases ps.filterMap BlockRef.isBlock? with
    | nil => exact hrefl _
    | cons q rest => exact hfold rest _ _ (h q)

omit [NeZero w] in
/-- What was stored before matters only if there are predecessors or successors, and none of them is a block. -/
theorem ofPredsucc_dst (dst' : Sbitmap w nBits) (hps : ps = [] ∨ HasBlock ps) :
    ofPredsucc op unit dst src ps = ofPredsucc op unit dst' src ps := by
  rcases hps with rfl | ⟨q, hq⟩
  · rfl
  · rw [← mem_filterMap_isBlock] at hq
    rw [ofPredsucc, ofPredsucc]
    cases hblocks : ps.filterMap BlockRef.isBlock? with
    | nil =>
      rw [hblocks] at hq
      cases hq
    | cons p rest => rfl

theorem testBit_intersect (hps : HasBlock ps) :
    testBit (sbitmapIntersectOfPredsucc dst src ps) bitno = true ↔
      ∀ p, BlockRef.block p ∈ ps → testBit (src p) bitno = true := by
  obtain ⟨q, hq⟩ := hps
  have hne : ps.isEmpty = false := by
    cases ps with
    | nil => cases hq
    | cons _ _ => rfl
  simp only [← mem_filterMap_isBlock ps] at hq ⊢
  rw [sbitmapIntersectOfPredsucc, ofPredsucc, hne, if_neg Bool.false_ne_true]
  cases hblocks : ps.filterMap BlockRef.isBlock? with
  | nil =>
    rw [hblocks] at hq
    cases hq
  | cons p rest =>
    have hfold : ∀ (rest : List (Fin n)) (r : Sbitmap w nBits),
        testBit (rest.foldl (fun r p => sbitmapAAndB r (src p)) r) bitno = true ↔
          testBit r bitno = true ∧ ∀ p ∈ rest, testBit (src p) bitno = true := by
      intro rest
      induction rest with
      | nil => exact fun r => by simp
      | cons p rest ih =>
        intro r
        rw [List.foldl_cons, ih, testBit_and, Bool.and_eq_true, List.forall_mem_cons, and_assoc]
    rw [hfold, List.forall_mem_cons]

theorem testBit_union (hps : HasBlock ps) :
    testBit (sbitmapUnionOfPredsucc dst src ps) bitno = true ↔
      ∃ p, BlockRef.block p ∈ ps ∧ testBit (src p) bitno = true := by
  obtain ⟨q, hq⟩ := hps
  have hne : ps.isEmpty = false := by
    cases ps with
    | nil => cases hq
    | cons _ _ => rfl
  simp only [← mem_filterMap_isBlock ps] at hq ⊢
  rw [sbitmapUnionOfPredsucc, ofPredsucc, hne, if_neg Bool.false_ne_true]
  cases hblocks : ps.filterMap BlockRef.isBlock? with
  | nil =>
    rw [hblocks] at hq
    cases hq
  | cons p rest =>
    have hfold : ∀ (rest : List (Fin n)) (r : Sbitmap w nBits),
        testBit (rest.foldl (fun r p => sbitmapAOrB r (src p)) r) bitno = true ↔
          testBit r bitno = true ∨ ∃ p ∈ rest, testBit (src p) bitno = true := by
      intro rest
      induction rest with
      | nil => exact fun r => by simp
      | cons p rest ih =>
        intro r
        rw [List.foldl_cons, ih, testBit_or, Bool.or_eq_true, List.exists_mem_cons_iff, or_assoc]
    rw [hfold, List.exists_mem_cons_iff]

end Lists

end Z80Gcc.SimpleBitmap
