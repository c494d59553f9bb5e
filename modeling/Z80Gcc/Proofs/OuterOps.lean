import Mathlib.Tactic.ByContra
import Z80Gcc.Spec.OuterOps

/-! `merge_outer_ops` keeps the value of the two operations in the mode, except where an inclusive or is merged
into an exclusive or: there the complement that goes to `*pconst0` is overwritten at the end. -/

namespace Z80Gcc

variable {h : Host} {width : Nat}

theorem toNat_modeMask (hw : width ≤ h.bits) : (h.modeMask width).toNat = 2 ^ width - 1 := by
  have hwide := h.wide
  unfold Host.modeMask
  obtain heq | hlt := Nat.eq_or_lt_of_le hw
  · rw [if_pos (by omega), heq, BitVec.toNat_allOnes]
  · have hpow := Nat.pow_lt_pow_right (a := 2) (by decide) hlt
    have hone : (1 : BitVec h.bits).toNat = 1 := BitVec.toNat_one (by omega)
    have hshift : ((1 : BitVec h.bits) <<< width).toNat = 2 ^ width := by
      rw [BitVec.toNat_shiftLeft, hone, Nat.shiftLeft_eq, Nat.one_mul, Nat.mod_eq_of_lt hpow]
    have hpos := Nat.two_pow_pos width
    rw [if_neg (by omega), BitVec.toNat_sub_of_le (by rw [BitVec.le_def, hshift, hone]; omega), hshift, hone]

theorem setWidth_modeMask (hw : width ≤ h.bits) : (h.modeMask width).setWidth width = BitVec.allOnes width := by
  have hpos := Nat.two_pow_pos width
  apply BitVec.eq_of_toNat_eq
  rw [BitVec.toNat_setWidth, toNat_modeMask hw, BitVec.toNat_allOnes,
    Nat.mod_eq_of_lt (by omega)]

theorem setWidth_and_modeMask (hw : width ≤ h.bits) (c : BitVec h.bits) :
    (c &&& h.modeMask width).setWidth width = c.setWidth width := by
  rw [BitVec.setWidth_and, setWidth_modeMask hw, BitVec.and_allOnes]

theorem and_modeMask_inj (hw : width ≤ h.bits) {c d : BitVec h.bits} :
    c &&& h.modeMask width = d &&& h.modeMask width ↔ c.setWidth width = d.setWidth width := by
  constructor
  · intro heq
    rw [← setWidth_and_modeMask hw c, heq, setWidth_and_modeMask hw d]
  · intro heq
    have htrunc := congrArg BitVec.toNat heq
    rw [BitVec.toNat_setWidth, BitVec.toNat_setWidth] at htrunc
    apply BitVec.eq_of_toNat_eq
    rw [BitVec.toNat_and, BitVec.toNat_and, toNat_modeMask hw, Nat.and_two_pow_sub_one_eq_mod,
      Nat.and_two_pow_sub_one_eq_mod, htrunc]

namespace OuterCode

theorem setWidth_apply (hw : width ≤ h.bits) (op : OuterCode) (c a : BitVec h.bits) :
    (op.apply c a).setWidth width = op.apply (c.setWidth width) (a.setWidth width) := by
  cases op with
  | nil => rfl
  | set => rfl
  | neg => exact BitVec.setWidth_neg_of_le hw
  | plus => exact BitVec.setWidth_add _ _ hw
  | ior => exact BitVec.setWidth_or
  | xor => exact BitVec.setWidth_xor
  | and => exact BitVec.setWidth_and

/-- The cases without an effect, and the ones without an operand. -/
theorem apply_checkNoOp (hw : width ≤ h.bits) (op : OuterCode) (c : BitVec h.bits) (a : BitVec width) :
    (OuterOp.checkNoOp (h.modeMask width) op (c &&& h.modeMask width)).apply (c.setWidth width) a =
      op.apply (c.setWidth width) a := by
  have hzero : c &&& h.modeMask width = 0 → c.setWidth width = 0 := by
    intro heq
    rw [← setWidth_and_modeMask hw c, heq]
    exact BitVec.setWidth_zero _ _
  have hones : c &&& h.modeMask width = h.modeMask width → c.setWidth width = BitVec.allOnes width := by
    intro heq
    rw [← setWidth_and_modeMask hw c, heq, setWidth_modeMask hw]
  unfold OuterOp.checkNoOp
  split_ifs with hnop hset hall
  · obtain ⟨hc, rfl | rfl | rfl⟩ := hnop
    · rw [hzero hc]
      exact BitVec.or_zero.symm
    · rw [hzero hc]
      exact BitVec.xor_zero.symm
    · rw [hzero hc]
      exact (BitVec.add_zero a).symm
  · obtain ⟨hc, rfl⟩ := hset
    rw [hzero hc]
    exact BitVec.and_zero.symm
  · obtain ⟨hc, rfl⟩ := hall
    rw [hones hc]
    exact BitVec.and_allOnes.symm
  · rfl

end OuterCode

section Identities

variable {n : Nat} (a k : BitVec n)

theorem or_of_and_same : a &&& k ||| k = k := by
  ext i hi
  simp only [BitVec.getElem_or, BitVec.getElem_and]
  cases a[i] <;> simp

theorem or_of_xor_same : (a ^^^ k) ||| k = a ||| k := by
  ext i hi
  simp only [BitVec.getElem_or, BitVec.getElem_xor]
  cases k[i] <;> simp

theorem xor_of_and_same : a &&& k ^^^ k = ~~~a &&& k := by
  ext i hi
  simp only [BitVec.getElem_xor, BitVec.getElem_and, BitVec.getElem_not]
  cases k[i] <;> simp

variable {k} {d : BitVec n}

theorem and_of_or_covered (hd : d &&& k = k) : (a ||| d) &&& k = k := by
  rw [BitVec.and_or_distrib_right, hd, or_of_and_same]

theorem and_of_xor_covered (hd : d &&& k = k) : (a ^^^ d) &&& k = ~~~a &&& k := by
  ext i hi
  have hbit := congrArg (fun x : BitVec n => x[i]) hd
  simp only [BitVec.getElem_and] at hbit
  simp only [BitVec.getElem_xor, BitVec.getElem_and, BitVec.getElem_not]
  cases hk : k[i] with
  | false => simp
  | true =>
    rw [hk, Bool.and_true] at hbit
    rw [hbit, Bool.xor_true]

end Identities

namespace OuterOp

theorem setWidth_signExtendWord (bitsPerWord : Nat) (hw : width ≤ h.bits) (c : BitVec h.bits) :
    (signExtendWord bitsPerWord width c).setWidth width = c.setWidth width := by
  have hhigh : (BitVec.allOnes h.bits <<< width).setWidth width = 0 := by
    apply BitVec.eq_of_toNat_eq
    rw [BitVec.toNat_setWidth, BitVec.toNat_shiftLeft, Nat.shiftLeft_eq,
      Nat.mod_mod_of_dvd _ (Nat.pow_dvd_pow 2 hw), Nat.mul_mod_left]
    rfl
  unfold signExtendWord
  split_ifs
  · rw [BitVec.setWidth_or, hhigh]
    exact BitVec.or_zero
  · rfl

variable {s : OuterOp h} {op1 : OuterCode} {const1 : BitVec h.bits} {bitsPerWord : Nat}

theorem setWidth_value_store (hw : width ≤ h.bits) (op0 : OuterCode) (c a : BitVec h.bits) :
    ((s.store bitsPerWord width op0 c).value a).setWidth width =
      op0.apply (c.setWidth width) (a.setWidth width) := by
  unfold value store
  dsimp only
  rw [OuterCode.setWidth_apply hw, setWidth_signExtendWord _ hw, setWidth_and_modeMask hw,
    OuterCode.apply_checkNoOp hw]

theorem mergeRight_of_store {op0 : OuterCode} {const0 : BitVec h.bits} (op : OuterCode) (c : BitVec h.bits)
    (set : Bool) (hw : width ≤ h.bits)
    (hmerge : ∀ comp, merge ⟨op0, const0, comp⟩ op1 const1 bitsPerWord width =
      (true, store ⟨op0, const0, comp || set⟩ bitsPerWord width op c))
    (hvalue : ∀ a : BitVec width, op.apply (c.setWidth width) (if set then ~~~a else a) =
      op0.apply (const0.setWidth width) (op1.apply (const1.setWidth width) a)) (comp : Bool) :
    MergeRight ⟨op0, const0, comp⟩ op1 const1 bitsPerWord width := by
  have hsets : setsComp ⟨op0, const0, comp⟩ op1 const1 bitsPerWord width = set := by
    unfold setsComp
    dsimp only
    rw [hmerge]
    exact Bool.false_or set
  refine ⟨fun _ a => ?_, ?_, fun hret => ?_⟩
  · have hnot : (if set then ~~~a else a).setWidth width =
        if set then ~~~(a.setWidth width) else a.setWidth width := by
      split_ifs
      · exact BitVec.setWidth_not hw
      · rfl
    rw [hsets, hmerge, setWidth_value_store hw, hnot, hvalue, value, OuterCode.setWidth_apply hw,
      OuterCode.setWidth_apply hw]
  · rw [hsets, hmerge]
    rfl
  · rw [hmerge] at hret
    exact absurd hret (by simp)

theorem mergeRight_of_nothing {op0 : OuterCode} {const0 : BitVec h.bits} (r : Bool)
    (hmerge : ∀ comp, merge ⟨op0, const0, comp⟩ op1 const1 bitsPerWord width = (r, ⟨op0, const0, comp⟩))
    (hvalue : r = true → ∀ a, op0.apply const0 a = op0.apply const0 (op1.apply const1 a)) (comp : Bool) :
    MergeRight ⟨op0, const0, comp⟩ op1 const1 bitsPerWord width := by
  have hsets : setsComp ⟨op0, const0, comp⟩ op1 const1 bitsPerWord width = false := by
    unfold setsComp
    dsimp only
    rw [hmerge]
  refine ⟨fun hret a => ?_, ?_, fun _ => ?_⟩
  · rw [hmerge] at hret
    rw [hsets, hmerge, if_neg (by decide)]
    exact congrArg (BitVec.setWidth width) (hvalue hret a)
  · rw [hsets, hmerge, Bool.or_false]
  · rw [hmerge]

theorem setWidth_clearUnimportant (hw : width ≤ h.bits) (op0 : OuterCode) (const0 const1 : BitVec h.bits) :
    (clearUnimportant op0 (const0 &&& h.modeMask width) (const1 &&& h.modeMask width)).setWidth width =
      if op0 = .and then const1.setWidth width &&& const0.setWidth width else const1.setWidth width := by
  unfold clearUnimportant
  split_ifs
  · rw [BitVec.setWidth_and, setWidth_and_modeMask hw, setWidth_and_modeMask hw]
  · rw [setWidth_and_modeMask hw]

theorem apply_mergeSame (op : OuterCode) (hnil : op ≠ .nil) (hset : op ≠ .set) (hw : width ≤ h.bits)
    (const0 const1 : BitVec h.bits) (a : BitVec width) :
    let c1 := clearUnimportant op (const0 &&& h.modeMask width) (const1 &&& h.modeMask width)
    (mergeSame op (const0 &&& h.modeMask width) c1).1.apply
        ((mergeSame op (const0 &&& h.modeMask width) c1).2.setWidth width) a =
      op.apply (const0.setWidth width) (op.apply (const1.setWidth width) a) := by
  have hc1 := setWidth_clearUnimportant hw op const0 const1
  have hc0 := setWidth_and_modeMask hw const0
  intro c1
  change c1.setWidth width = _ at hc1
  cases op with
  | nil => exact absurd rfl hnil
  | set => exact absurd rfl hset
  | neg => exact BitVec.neg_neg.symm
  | plus =>
    simp only [mergeSame, OuterCode.apply, BitVec.setWidth_add _ _ hw, hc0, hc1]
    rw [if_neg (by decide), BitVec.add_assoc, BitVec.add_comm (const0.setWidth width)]
  | ior =>
    simp only [mergeSame, OuterCode.apply, BitVec.setWidth_or, hc0, hc1]
    rw [if_neg (by decide), BitVec.or_assoc, BitVec.or_comm (const0.setWidth width)]
  | xor =>
    simp only [mergeSame, OuterCode.apply, BitVec.setWidth_xor, hc0, hc1]
    rw [if_neg (by decide), BitVec.xor_assoc, BitVec.xor_comm (const0.setWidth width)]
  | and =>
    simp only [mergeSame, OuterCode.apply, BitVec.setWidth_and, hc0, hc1]
    rw [if_pos trivial, BitVec.and_assoc, BitVec.and_comm (const0.setWidth width), BitVec.and_assoc,
      BitVec.and_self]

theorem store_congr {t : OuterOp h} (hcomp : s.comp = t.comp) (op0 : OuterCode) (c : BitVec h.bits) :
    s.store bitsPerWord width op0 c = t.store bitsPerWord width op0 c := by
  unfold store
  rw [hcomp]

/-- The table of the mixed cases, without the one in which the constant is lost. -/
theorem mergeMixed_table {op0 : OuterCode} (hop0 : op0 = .ior ∨ op0 = .xor ∨ op0 = .and)
    (hop1 : op1 = .ior ∨ op1 = .xor ∨ op1 = .and) (hne : op0 ≠ op1) (hlost : ¬(op0 = .xor ∧ op1 = .ior)) :
    ∃ (op : OuterCode) (set : Bool),
      (∀ (const0 c : BitVec h.bits) (comp : Bool), (mergeMixed ⟨op0, const0, comp⟩ op1 c).1 = op ∧
        (mergeMixed ⟨op0, const0, comp⟩ op1 c).2.comp = (comp || set)) ∧
      ∀ {n : Nat} (c0 c1 a : BitVec n), c0 = (if op0 = .and then c1 &&& c0 else c1) →
        op.apply c0 (if set then ~~~a else a) = op0.apply c0 (op1.apply c1 a) := by
  obtain rfl | rfl | rfl := hop0 <;> obtain rfl | rfl | rfl := hop1
  · exact absurd rfl hne
  · refine ⟨.ior, false, fun _ _ comp => ⟨rfl, (Bool.or_false comp).symm⟩, fun c0 c1 a hc => ?_⟩
    obtain rfl : c0 = c1 := hc
    exact (or_of_xor_same a _).symm
  · refine ⟨.set, false, fun _ _ comp => ⟨rfl, (Bool.or_false comp).symm⟩, fun c0 c1 a hc => ?_⟩
    obtain rfl : c0 = c1 := hc
    exact (or_of_and_same a _).symm
  · exact absurd ⟨rfl, rfl⟩ hlost
  · exact absurd rfl hne
  · refine ⟨.and, true, fun _ _ comp => ⟨rfl, (Bool.or_true comp).symm⟩, fun c0 c1 a hc => ?_⟩
    obtain rfl : c0 = c1 := hc
    exact (xor_of_and_same a _).symm
  · refine ⟨.set, false, fun _ _ comp => ⟨rfl, (Bool.or_false comp).symm⟩, fun c0 c1 a hc => ?_⟩
    exact (and_of_or_covered a hc.symm).symm
  · refine ⟨.and, true, fun _ _ comp => ⟨rfl, (Bool.or_true comp).symm⟩, fun c0 c1 a hc => ?_⟩
    exact (and_of_xor_covered a hc.symm).symm
  · exact absurd rfl hne

theorem mergeRight_mixed {op0 : OuterCode} {const0 : BitVec h.bits} (hw : width ≤ h.bits)
    (hop0 : op0 = .ior ∨ op0 = .xor ∨ op0 = .and) (hop1 : op1 = .ior ∨ op1 = .xor ∨ op1 = .and)
    (hne : op0 ≠ op1) (hlost : ¬(op0 = .xor ∧ op1 = .ior))
    (hconst : const0 &&& h.modeMask width =
      clearUnimportant op0 (const0 &&& h.modeMask width) (const1 &&& h.modeMask width))
    (hmerge : ∀ comp, merge ⟨op0, const0, comp⟩ op1 const1 bitsPerWord width =
      (true, (mergeMixed ⟨op0, const0, comp⟩ op1 (const0 &&& h.modeMask width)).2.store bitsPerWord width
        (mergeMixed ⟨op0, const0, comp⟩ op1 (const0 &&& h.modeMask width)).1 (const0 &&& h.modeMask width)))
    (comp : Bool) : MergeRight ⟨op0, const0, comp⟩ op1 const1 bitsPerWord width := by
  obtain ⟨op, set, htable, hvalue⟩ := mergeMixed_table (h := h) hop0 hop1 hne hlost
  have hc := congrArg (BitVec.setWidth width) hconst
  rw [setWidth_clearUnimportant hw, setWidth_and_modeMask hw] at hc
  have hstore : ∀ comp, merge ⟨op0, const0, comp⟩ op1 const1 bitsPerWord width =
      (true, store ⟨op0, const0, comp || set⟩ bitsPerWord width op (const0 &&& h.modeMask width)) := by
    intro comp
    obtain ⟨hop, hcomp⟩ := htable const0 (const0 &&& h.modeMask width) comp
    rw [hmerge, hop, store_congr (t := ⟨op0, const0, comp || set⟩) hcomp]
  refine mergeRight_of_store op _ set hw hstore (fun a => ?_) comp
  rw [setWidth_and_modeMask hw]
  exact hvalue _ _ a hc

/-- The complement of the constant is lost when an inclusive or is merged into an exclusive one. -/
theorem not_mergeRight_lost {const0 : BitVec h.bits} {comp : Bool} (hpos : 0 < width) (hw : width ≤ h.bits)
    (hconst : const0.setWidth width = const1.setWidth width) :
    ¬MergeRight ⟨.xor, const0, comp⟩ .ior const1 bitsPerWord width := by
  have hmask := (and_modeMask_inj hw).2 hconst
  have hmerge : ∀ comp, merge ⟨.xor, const0, comp⟩ .ior const1 bitsPerWord width =
      (true, store ⟨.xor, const0, comp⟩ bitsPerWord width .and (const0 &&& h.modeMask width)) := by
    intro comp
    have hsame : ¬(const0 &&& h.modeMask width ≠
        clearUnimportant .xor (const0 &&& h.modeMask width) (const1 &&& h.modeMask width)) := by
      rw [clearUnimportant, if_neg (by decide)]
      exact not_not_intro hmask
    unfold merge
    dsimp only
    rw [if_neg (by decide), if_neg (by decide), if_neg (by decide), if_neg (by decide), if_neg hsame]
    rfl
  have hsets : setsComp ⟨.xor, const0, comp⟩ .ior const1 bitsPerWord width = false := by
    unfold setsComp
    dsimp only
    rw [hmerge]
    rfl
  intro hright
  have hvalue := hright.value (by rw [hmerge]) (BitVec.allOnes h.bits)
  rw [hsets, hmerge, if_neg (by decide), setWidth_value_store hw, value, OuterCode.setWidth_apply hw,
    OuterCode.setWidth_apply hw, setWidth_and_modeMask hw, ← hconst] at hvalue
  have hall : (BitVec.allOnes h.bits).setWidth width = BitVec.allOnes width := by
    ext i hi
    rw [BitVec.getElem_setWidth, BitVec.getLsbD_allOnes, BitVec.getElem_allOnes]
    exact decide_eq_true (by omega)
  -- all bits of `a` are set: the lowest one of the result is that of the constant, not its complement
  have hbit := congrArg (fun x : BitVec width => x[0]) hvalue
  dsimp only [OuterCode.apply] at hbit
  rw [hall, BitVec.getElem_and, BitVec.getElem_xor, BitVec.getElem_or, BitVec.getElem_allOnes, Bool.true_and,
    Bool.true_or, Bool.true_xor] at hbit
  exact (Bool.eq_not_self _).1 hbit

/-- `merge_outer_ops` is right except in one case. -/
theorem mergeRight_iff (hpos : 0 < width) (hw : width ≤ h.bits) (hop1 : op1 ≠ .set) :
    MergeRight s op1 const1 bitsPerWord width ↔
      ¬(s.op = .xor ∧ op1 = .ior ∧ s.const.setWidth width = const1.setWidth width) := by
  obtain ⟨op0, const0, comp⟩ := s
  dsimp only
  constructor
  · rintro hright ⟨rfl, rfl, hconst⟩
    exact not_mergeRight_lost hpos hw hconst hright
  intro hlost
  by_cases hnil : op1 = .nil ∨ op0 = .set
  · refine mergeRight_of_nothing true (fun comp => ?_) (fun _ a => ?_) comp
    · unfold merge
      dsimp only
      rw [if_pos hnil]
    · obtain rfl | rfl := hnil
      · rfl
      · rfl
  by_cases hfirst : op0 = .nil
  · subst hfirst
    refine mergeRight_of_store op1 (const1 &&& h.modeMask width) false hw (fun comp => ?_) (fun a => ?_) comp
    · unfold merge
      dsimp only
      rw [if_neg hnil, if_pos rfl, Bool.or_false]
      rfl
    · rw [setWidth_and_modeMask hw]
      rfl
  by_cases hsame : op0 = op1
  · subst hsame
    have hmerge : ∀ comp, merge ⟨op0, const0, comp⟩ op0 const1 bitsPerWord width = (true,
        let m := mergeSame op0 (const0 &&& h.modeMask width)
          (clearUnimportant op0 (const0 &&& h.modeMask width) (const1 &&& h.modeMask width))
        store ⟨op0, const0, comp || false⟩ bitsPerWord width m.1 m.2) := by
      intro comp
      unfold merge
      dsimp only
      rw [if_neg hnil, if_neg hfirst, if_pos rfl, Bool.or_false]
    exact mergeRight_of_store _ _ false hw hmerge (apply_mergeSame op0 hfirst hop1 hw const0 const1) comp
  by_cases hplus : op0 = .plus ∨ op1 = .plus ∨ op0 = .neg ∨ op1 = .neg
  · refine mergeRight_of_nothing false (fun comp => ?_) (fun hret => absurd hret (by decide)) comp
    unfold merge
    dsimp only
    rw [if_neg hnil, if_neg hfirst, if_neg hsame, if_pos hplus]
  by_cases hconst : const0 &&& h.modeMask width =
      clearUnimportant op0 (const0 &&& h.modeMask width) (const1 &&& h.modeMask width)
  · have hop0 : op0 = .ior ∨ op0 = .xor ∨ op0 = .and := by
      cases op0 <;> simp_all
    have hop1 : op1 = .ior ∨ op1 = .xor ∨ op1 = .and := by
      cases op1 <;> simp_all
    refine mergeRight_mixed hw hop0 hop1 hsame ?_ hconst (fun comp => ?_) comp
    · rintro ⟨rfl, rfl⟩
      exact hlost ⟨rfl, rfl, (and_modeMask_inj hw).1 hconst⟩
    · unfold merge
      dsimp only
      rw [if_neg hnil, if_neg hfirst, if_neg hsame, if_neg hplus, if_neg (not_not_intro hconst)]
  · refine mergeRight_of_nothing false (fun comp => ?_) (fun hret => absurd hret (by decide)) comp
    unfold merge
    dsimp only
    rw [if_neg hnil, if_neg hfirst, if_neg hsame, if_neg hplus, if_pos hconst]

/-- `(a & 255) & 15`, and two negations. -/
theorem mergeRight_iff_host32 :
    MergeRight (⟨.and, 15, false⟩ : OuterOp host32) .and 255 16 16 ∧
      MergeRight (⟨.neg, 0, false⟩ : OuterOp host32) .neg 0 16 8 :=
  ⟨(mergeRight_iff (by decide) (by decide) (by decide)).2 (by decide),
    (mergeRight_iff (by decide) (by decide) (by decide)).2 (by decide)⟩

/-- `(a | 5) ^ 5` becomes `a & 5`. -/
theorem merge_xor_ior :
    (⟨.xor, 5, false⟩ : OuterOp host32).merge .ior 5 16 16 = (true, ⟨.and, 5, false⟩) ∧
      ¬MergeRight (⟨.xor, 5, false⟩ : OuterOp host32) .ior 5 16 16 :=
  ⟨by decide, not_mergeRight_lost (by decide) (by decide) rfl⟩

end OuterOp

end Z80Gcc
