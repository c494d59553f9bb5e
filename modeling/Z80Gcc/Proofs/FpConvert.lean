import Z80Gcc.Proofs.FpPack

/-! The comparisons and the conversions of fp-bit.c: all are right but `float_to_si` where it saturates, since `MAX_SI_INT` is made of
an `unsigned`. -/

namespace Z80Gcc.FpBit

open BinaryFloat StickyBit

section Compare

variable {f : Format} {a b : f.Raw}

def Orders (c u v : Int) : Prop := (c < 0 ↔ u < v) ∧ (c = 0 ↔ u = v)

theorem Orders.less {u v : Int} (h : u < v) : Orders (-1) u v := ⟨by simpa using h, by simpa using h.ne⟩
theorem Orders.greater {u v : Int} (h : v < u) : Orders 1 u v := ⟨by simpa using h.le, by simpa using h.ne'⟩
theorem Orders.equal {u v : Int} (h : u = v) : Orders 0 u v := ⟨by simpa using h.ge, by simpa using h⟩

theorem fpcmpParts_number {i j m n : Nat} (ha : Unpacked a i m) (hb : Unpacked b j n) :
    Orders (fpcmpParts (unpackD f a) (unpackD f b)) (value a) (value b) := by
  have hpos := ha.magnitude_pos
  have hpos' := hb.magnitude_pos
  have hlt := ha.lt_iff hb
  have hgt := hb.lt_iff ha
  rw [ha.unpack, hb.unpack, fpcmpParts]
  simp only [FpNumber.isnan, FpNumber.isinf, FpNumber.iszero, reduceCtorEq, decide_false, Bool.or_self, Bool.and_self, Bool.false_eq_true,
    if_false]
  -- of numbers with one sign the exponents and the fractions decide, for negative ones the other way
  obtain hna | hna := Bool.eq_false_or_eq_true (neg a) <;> obtain hnb | hnb := Bool.eq_false_or_eq_true (neg b)
  · rw [value_neg hna, value_neg hnb, hna, hnb]
    simp only [ne_eq, not_true_eq_false, if_false, if_true]
    split_ifs
    · exact .less (by omega)
    · exact .greater (by omega)
    · exact .less (by omega)
    · exact .greater (by omega)
    · exact .equal (by omega)
  · rw [value_neg hna, value_pos hnb, hna, hnb]
    exact .less (by omega)
  · rw [value_pos hna, value_neg hnb, hna, hnb]
    exact .greater (by omega)
  · rw [value_pos hna, value_pos hnb, hna, hnb]
    simp only [ne_eq, not_true_eq_false, if_false, Bool.false_eq_true]
    split_ifs
    · exact .greater (by omega)
    · exact .less (by omega)
    · exact .greater (by omega)
    · exact .less (by omega)
    · exact .equal (by omega)

/-- The sign of the greater magnitude decides, as for an infinity and for a zero. -/
theorem orders_left (h : magnitude b < magnitude a) : Orders (if neg a then -1 else 1) (value a) (value b) := by
  have hle : -(magnitude b : Int) ≤ value b ∧ value b ≤ magnitude b := by
    rw [value]
    split <;> omega
  obtain hna | hna := Bool.eq_false_or_eq_true (neg a)
  · rw [if_pos hna, value_neg hna]
    exact .less (by omega)
  · rw [if_neg (by simp [hna]), value_pos hna]
    exact .greater (by omega)

theorem orders_right (h : magnitude a < magnitude b) : Orders (if neg b then 1 else -1) (value a) (value b) := by
  have hle : -(magnitude a : Int) ≤ value a ∧ value a ≤ magnitude a := by
    rw [value]
    split <;> omega
  obtain hnb | hnb := Bool.eq_false_or_eq_true (neg b)
  · rw [if_pos hnb, value_neg hnb]
    exact .greater (by omega)
  · rw [if_neg (by simp [hnb]), value_pos hnb]
    exact .less (by omega)

theorem orders_inf (ha : IsInf a) (hb : IsInf b) : Orders ((neg b).toNat - (neg a).toNat) (value a) (value b) := by
  have hpos := magnitude_pos (inf_ne_zero ha)
  have heq := magnitude_inf ha hb
  obtain hna | hna := Bool.eq_false_or_eq_true (neg a) <;> obtain hnb | hnb := Bool.eq_false_or_eq_true (neg b)
  · rw [value_neg hna, value_neg hnb, hna, hnb]
    exact .equal (by omega)
  · rw [value_neg hna, value_pos hnb, hna, hnb]
    exact .less (by omega)
  · rw [value_pos hna, value_neg hnb, hna, hnb]
    exact .greater (by omega)
  · rw [value_pos hna, value_pos hnb, hna, hnb]
    exact .equal (by omega)

/-- Two numbers that are no NaN compare as their values do. -/
theorem fpcmpParts_orders (ha : ¬ IsNan a) (hb : ¬ IsNan b) : Orders (fpcmpParts (unpackD f a) (unpackD f b)) (value a) (value b) := by
  obtain hza | hia | ⟨hfa, i, m, hna⟩ := number_cases ha <;> obtain hzb | hib | ⟨hfb, j, n, hnb⟩ := number_cases hb
  · rw [unpackD_zero hza, unpackD_zero hzb, value, value, magnitude_zero hza, magnitude_zero hzb]
    exact .equal (by simp)
  · rw [unpackD_zero hza, unpackD_inf hib]
    exact orders_right (by rw [magnitude_zero hza]; exact magnitude_pos (inf_ne_zero hib))
  · rw [unpackD_zero hza, hnb.unpack]
    exact orders_right (by rw [magnitude_zero hza]; exact hnb.magnitude_pos)
  · rw [unpackD_inf hia, unpackD_zero hzb]
    exact orders_left (by rw [magnitude_zero hzb]; exact magnitude_pos (inf_ne_zero hia))
  · rw [unpackD_inf hia, unpackD_inf hib]
    exact orders_inf hia hib
  · rw [unpackD_inf hia, hnb.unpack]
    exact orders_left (magnitude_lt_inf hfb hia)
  · rw [hna.unpack, unpackD_zero hzb]
    exact orders_left (by rw [magnitude_zero hzb]; exact hna.magnitude_pos)
  · rw [hna.unpack, unpackD_inf hib]
    exact orders_right (magnitude_lt_inf hfa hib)
  · exact fpcmpParts_number hna hnb

theorem unpackD_isnan (a : f.Raw) : (unpackD f a).isnan = true ↔ IsNan a := by
  constructor
  · intro h
    by_contra hnan
    obtain hzero | hinf | ⟨-, i, m, hnum⟩ := number_cases hnan
    · simp [unpackD_zero hzero, FpNumber.isnan] at h
    · simp [unpackD_inf hinf, FpNumber.isnan] at h
    · simp [hnum.unpack, FpNumber.isnan] at h
  · exact unpackD_nan

/-- A comparison of the family; a NaN makes it what `unordered` says. -/
theorem compareF2_spec (unordered : Int) (a b : f.Raw) :
    (IsNan a ∨ IsNan b) ∧ compareF2 f unordered a b = unordered ∨
      (¬ IsNan a ∧ ¬ IsNan b) ∧ Orders (compareF2 f unordered a b) (value a) (value b) := by
  rw [compareF2]
  by_cases hnan : IsNan a ∨ IsNan b
  · left
    rw [if_pos (by rw [Bool.or_eq_true, unpackD_isnan, unpackD_isnan]; exact hnan)]
    exact ⟨hnan, rfl⟩
  · right
    rw [if_neg (by rw [Bool.or_eq_true, unpackD_isnan, unpackD_isnan]; exact hnan)]
    rw [not_or] at hnan
    exact ⟨hnan, fpcmpParts_orders hnan.1 hnan.2⟩

theorem compareF2_iff (unordered : Int) (test : Int → Prop) (rel : Int → Int → Prop) (a b : f.Raw)
    (htest : ∀ {c u v : Int}, Orders c u v → (test c ↔ rel u v)) (hunordered : ¬ test unordered) :
    test (compareF2 f unordered a b) ↔ (¬ IsNan a ∧ ¬ IsNan b) ∧ rel (value a) (value b) := by
  obtain ⟨hnan, hc⟩ | ⟨hnan, horders⟩ := compareF2_spec unordered a b
  · rw [hc]
    exact ⟨fun h => absurd h hunordered, fun h => (hnan.elim h.1.1 h.1.2).elim⟩
  · rw [htest horders]
    exact ⟨fun h => ⟨hnan, h⟩, fun h => h.2⟩

theorem compares (a b : f.Raw) : Compares f a b where
  eq := compareF2_iff 1 (· = 0) (· = ·) a b (fun h => h.2) (by decide)
  ne := not_congr (compareF2_iff 1 (· = 0) (· = ·) a b (fun h => h.2) (by decide))
  gt := compareF2_iff (-1) (· > 0) (· > ·) a b (fun h => by obtain ⟨hlt, heq⟩ := h; omega) (by decide)
  ge := compareF2_iff (-1) (· ≥ 0) (· ≥ ·) a b (fun h => by obtain ⟨hlt, heq⟩ := h; omega) (by decide)
  lt := compareF2_iff 1 (· < 0) (· < ·) a b (fun h => h.1) (by decide)
  le := compareF2_iff 1 (· ≤ 0) (· ≤ ·) a b (fun h => by obtain ⟨hlt, heq⟩ := h; omega) (by decide)

end Compare

section Convert

variable {f : Format}

theorem minIntConst_isRounded : IsRounded true (2 ^ 31 * 2 ^ f.quantum) 1 (minIntConst f) := by
  have hbias := f.expBias_eq
  have hlong := f.long_exp
  have hroom := f.room
  have hfits := f.int_fits
  have hmax := f.expMax_succ
  obtain ⟨e, he⟩ : ∃ e, 31 + f.quantum = f.fracBits + e := Nat.exists_eq_add_of_le (by rw [Format.quantum]; omega)
  have hexp : 31 + f.expBias = e + 1 := by
    rw [Format.quantum] at he
    omega
  have hn : 2 ^ 31 * 2 ^ f.quantum = 2 ^ f.fracBits * (1 * 2 ^ e) := by rw [← Nat.pow_add, he, Nat.pow_add, Nat.one_mul]
  have hpos : 0 < 1 * 2 ^ e := Nat.mul_pos Nat.one_pos (Nat.two_pow_pos e)
  have hinf : e * 2 ^ f.fracBits + 2 ^ f.fracBits ≤ f.infBits := by
    rw [← Nat.succ_mul, Format.infBits]
    exact Nat.mul_le_mul_right _ (by omega)
  rw [isRounded_iff Nat.one_pos, hn, roundMagnitude_eq Nat.one_pos (.inr le_rfl) ?_ (nearest_exact _ hpos), Nat.min_eq_left hinf,
    minIntConst, hexp, assemble_eq true (by omega), Nat.zero_mod, Nat.add_zero, Nat.succ_mul]
  exact Nat.mul_lt_mul_of_pos_right (Nat.pow_lt_pow_succ (by decide)) hpos

/-- A magnitude that is not the least integer's is shifted to its place, and rounded when it is packed. -/
theorem packD_integer (sign : Bool) {m : Nat} (hpos : 0 < m) (hm : m < 2 ^ 31) :
    IsRounded sign (m * 2 ^ f.quantum) 1 (packD f ⟨.number, sign, (normalize f m (f.fracBits + f.nGards)).2,
      (normalize f m (f.fracBits + f.nGards)).1⟩) := by
  have hfits : 2 ^ 31 ≤ 2 * 2 ^ (f.fracBits + f.nGards) := by
    rw [← Nat.pow_succ']
    exact Nat.pow_le_pow_right (by decide) (Nat.succ_le_succ f.int_fits)
  obtain ⟨n, hn, hlow, hhigh⟩ := normalize_spec f hpos (by omega) (f.fracBits + f.nGards)
  obtain ⟨k, hk⟩ := Nat.exists_eq_add_of_le (shift_le hpos hhigh)
  have hstands : Stands 0 (m * 2 ^ n) (m * 2 ^ f.quantum * 2 ^ (f.fracBits + f.nGards)) (2 ^ (k + f.quantum)) := by
    left
    rw [hk]
    ring
  have hround := packD_stands sign hlow hhigh (by have := f.gards_ge; omega) hstands
  rw [hn]
  rwa [show ((k + f.quantum : Nat) : Int) - f.quantum = (f.fracBits : Int) + f.nGards - n by omega] at hround

theorem siToFloat_isRounded (n : BitVec 32) : IsRounded (decide (n.toInt < 0)) (n.toInt.natAbs * 2 ^ f.quantum) 1 (siToFloat f n) := by
  have hslt : n.slt 0 = decide (n.toInt < 0) := rfl
  have hlt := n.isLt
  have hint := BitVec.toInt_eq_toNat_cond n
  rw [siToFloat, hslt]
  by_cases hzero : n = 0
  · rw [if_pos hzero, packD_zero, hzero]
    simpa using zero_isRounded (f := f) Nat.one_pos false
  have hne : n.toNat ≠ 0 := fun h => hzero (BitVec.eq_of_toNat_eq (by simpa using h))
  rw [if_neg hzero]
  by_cases hsign : n.toInt < 0
  · rw [decide_eq_true hsign]
    by_cases hmin : n = 0x80000000
    · rw [if_pos ⟨rfl, hmin⟩, hmin]
      exact minIntConst_isRounded
    have hmin' : n.toNat ≠ 2 ^ 31 := fun h => hmin (BitVec.eq_of_toNat_eq (by simpa using h))
    have hneg : (-n).toNat = n.toInt.natAbs := by
      rw [BitVec.toNat_neg]
      split at hint <;> omega
    rw [if_neg (fun h => hmin h.2), if_pos rfl, hneg]
    exact packD_integer true (by omega) (by split at hint <;> omega)
  · have hpos : n.toNat = n.toInt.natAbs := by
      split at hint <;> omega
    rw [decide_eq_false hsign, if_neg (by simp), if_neg (by simp), hpos]
    exact packD_integer false (by omega) (by split at hint <;> omega)

/-- A number whose exponent is not negative is shifted down to its integer part. -/
theorem Unpacked.truncate {x : f.Raw} {scale fraction : Nat} (h : Unpacked x scale fraction) :
    (scale < f.quantum → magnitude x / 2 ^ f.quantum = 0) ∧
      ∀ k, scale = f.quantum + k → 2 ^ k ≤ magnitude x / 2 ^ f.quantum ∧ magnitude x / 2 ^ f.quantum < 2 ^ (k + 1) ∧
        (k ≤ f.fracBits + f.nGards → fraction / 2 ^ (f.fracBits + f.nGards - k) = magnitude x / 2 ^ f.quantum) := by
  have hp : 0 < 2 ^ (f.fracBits + f.nGards) := Nat.two_pow_pos _
  have hq : 0 < 2 ^ f.quantum := Nat.two_pow_pos _
  have hhigh : magnitude x < 2 ^ (scale + 1) := by
    refine Nat.lt_of_mul_lt_mul_right (a := 2 ^ (f.fracBits + f.nGards)) ?_
    calc magnitude x * 2 ^ (f.fracBits + f.nGards) = fraction * 2 ^ scale := h.value
      _ < 2 * 2 ^ (f.fracBits + f.nGards) * 2 ^ scale := Nat.mul_lt_mul_of_pos_right h.high (Nat.two_pow_pos _)
      _ = 2 ^ (scale + 1) * 2 ^ (f.fracBits + f.nGards) := by ring
  have hlow : 2 ^ scale ≤ magnitude x := by
    refine Nat.le_of_mul_le_mul_right (c := 2 ^ (f.fracBits + f.nGards)) ?_ hp
    rw [h.value, Nat.mul_comm]
    exact Nat.mul_le_mul_right _ h.low
  constructor
  · intro hlt
    exact Nat.div_eq_of_lt (hhigh.trans_le (Nat.pow_le_pow_right (by decide) hlt))
  · intro k hk
    rw [hk] at hlow hhigh
    refine ⟨?_, ?_, fun hle => ?_⟩
    · rwa [Nat.le_div_iff_mul_le hq, Nat.mul_comm, ← Nat.pow_add]
    · rw [Nat.div_lt_iff_lt_mul hq, ← Nat.pow_add]
      exact hhigh.trans_le (Nat.pow_le_pow_right (by decide) (by omega))
    · obtain ⟨j, hj⟩ := Nat.exists_eq_add_of_le hle
      have hvalue : magnitude x * 2 ^ j = fraction * 2 ^ f.quantum := by
        refine Nat.eq_of_mul_eq_mul_right (Nat.two_pow_pos k) ?_
        calc magnitude x * 2 ^ j * 2 ^ k = magnitude x * 2 ^ (f.fracBits + f.nGards) := by rw [hj]; ring
          _ = fraction * 2 ^ scale := h.value
          _ = fraction * 2 ^ f.quantum * 2 ^ k := by rw [hk]; ring
      rw [hj, Nat.add_sub_cancel_left, ← Nat.mul_div_mul_right fraction (2 ^ j) hq, ← hvalue, Nat.mul_comm (2 ^ j),
        Nat.mul_div_mul_right _ _ (Nat.two_pow_pos j)]

theorem truncated_eq (a : f.Raw) : truncated a =
    if neg a then (if magnitude a / 2 ^ f.quantum ≤ 2 ^ 31 then -((magnitude a / 2 ^ f.quantum : Nat) : Int) else -2 ^ 31)
    else if magnitude a / 2 ^ f.quantum < 2 ^ 31 then ((magnitude a / 2 ^ f.quantum : Nat) : Int) else 2 ^ 31 - 1 := by
  have hcast : ((2 : Int) ^ f.quantum) = ((2 ^ f.quantum : Nat) : Int) := by push_cast; rfl
  rw [truncated]
  obtain hna | hna := Bool.eq_false_or_eq_true (neg a)
  · rw [value_neg hna, hcast, Int.neg_tdiv, ← Int.ofNat_tdiv, if_pos hna, if_pos hna]
    generalize magnitude a / 2 ^ f.quantum = m
    split_ifs <;> omega
  · rw [value_pos hna, hcast, ← Int.ofNat_tdiv, hna]
    simp only [Bool.false_eq_true, if_false]
    generalize magnitude a / 2 ^ f.quantum = m
    split_ifs <;> omega

theorem magnitude_div_lt (a : f.Raw) : magnitude a / 2 ^ f.quantum < 2 ^ 31 ↔ magnitude a < 2 ^ (31 + f.quantum) := by
  rw [Nat.div_lt_iff_lt_mul (Nat.two_pow_pos _), Nat.pow_add]

/-- Where `float_to_si` gives one of the limits, it gives those of an `int`. -/
theorem saturated_ne (a : f.Raw) (hlarge : 2 ^ 31 ≤ magnitude a / 2 ^ f.quantum) :
    (if neg a then -maxSiInt - 1 else maxSiInt).toInt ≠ truncated a := by
  rw [truncated_eq]
  obtain hna | hna := Bool.eq_false_or_eq_true (neg a)
  · rw [if_pos hna, if_pos hna, show (-maxSiInt - 1).toInt = -32768 by decide]
    split_ifs <;> omega
  · rw [hna, if_neg Bool.false_ne_true, if_neg Bool.false_ne_true, if_neg (by omega), show maxSiInt.toInt = 32767 by decide]
    omega

theorem floatToSi_truncated_iff {a : f.Raw} (hnan : ¬ IsNan a) : (floatToSi f a).toInt = truncated a ↔ magnitude a < 2 ^ (31 + f.quantum) := by
  have hlong := f.long_exp
  have hroom := f.room
  have hfits := f.int_fits
  have hbias := f.expBias_eq
  rw [← magnitude_div_lt]
  obtain hzero | hinf | ⟨-, scale, fraction, h⟩ := number_cases hnan
  · have hm := magnitude_zero hzero
    rw [floatToSi, unpackD_zero hzero, truncated_eq, hm, Nat.zero_div]
    simp [FpNumber.iszero]
  · have hlarge : 2 ^ 31 ≤ magnitude a / 2 ^ f.quantum := by
      rw [Nat.le_div_iff_mul_le (Nat.two_pow_pos _), magnitude, hinf, Format.infBits, BinaryFloat.magnitude,
        Nat.mul_div_cancel _ (Nat.two_pow_pos _), Nat.mul_mod_left, if_neg (by omega), Nat.add_zero, ← Nat.pow_add, ← Nat.pow_add]
      exact Nat.pow_le_pow_right (by decide) (by rw [Format.quantum]; omega)
    have hne := saturated_ne a hlarge
    rw [floatToSi, unpackD_inf hinf]
    simp only [FpNumber.iszero, FpNumber.isnan, FpNumber.isinf, reduceCtorEq, decide_false, decide_true, Bool.or_self, Bool.false_eq_true,
      if_false, if_true]
    exact ⟨fun heq => absurd heq hne, fun hlt => absurd hlt (by omega)⟩
  · obtain ⟨hsmall, hint⟩ := h.truncate
    rw [floatToSi, h.unpack]
    simp only [FpNumber.iszero, FpNumber.isnan, FpNumber.isinf, reduceCtorEq, decide_false, Bool.or_self, Bool.false_eq_true, if_false]
    by_cases hneg : (scale : Int) - f.quantum < 0
    · have hm := hsmall (by omega)
      rw [if_pos hneg, truncated_eq, hm]
      simp
    obtain ⟨k, hk⟩ := Nat.exists_eq_add_of_le (show f.quantum ≤ scale by omega)
    obtain ⟨hlow, hhigh, hshift⟩ := hint k hk
    rw [if_neg hneg]
    by_cases hbig : (scale : Int) - f.quantum > 30
    · have hlarge : 2 ^ 31 ≤ magnitude a / 2 ^ f.quantum := (Nat.pow_le_pow_right (by decide) (by omega)).trans hlow
      have hne := saturated_ne a hlarge
      rw [if_pos hbig]
      exact ⟨fun heq => absurd heq hne, fun hlt => absurd hlt (by omega)⟩
    · have hlt : magnitude a / 2 ^ f.quantum < 2 ^ 31 := hhigh.trans_le (Nat.pow_le_pow_right (by decide) (by omega))
      rw [if_neg hbig, iff_true_right hlt, truncated_eq, Nat.shiftRight_eq_div_pow,
        show ((f.fracBits : Int) + f.nGards - (scale - f.quantum)).toNat = f.fracBits + f.nGards - k by omega, hshift (by omega)]
      have hnat : (BitVec.ofNat 32 (magnitude a / 2 ^ f.quantum)).toNat = magnitude a / 2 ^ f.quantum := by
        rw [BitVec.toNat_ofNat]
        omega
      obtain hna | hna := Bool.eq_false_or_eq_true (neg a)
      · rw [if_pos hna, if_pos hna, if_pos hlt.le, BitVec.toInt_eq_toNat_cond, BitVec.toNat_neg, hnat]
        split <;> omega
      · rw [hna, if_neg Bool.false_ne_true, if_neg Bool.false_ne_true, if_pos hlt, BitVec.toInt_eq_toNat_cond, hnat]
        split <;> omega

end Convert

/-- The comparisons, the conversions and the packing of float and double are right, but for a number out of the range of `SItype`. -/
theorem conversions_right_iff (f : Format) (a b : f.Raw) (n : BitVec 32) :
    ConversionsRight f a b n ↔ IsNan a ∨ magnitude a < 2 ^ (31 + f.quantum) := by
  constructor
  · intro h
    by_cases hnan : IsNan a
    · exact .inl hnan
    · exact .inr ((floatToSi_truncated_iff hnan).mp (h.floatToSi hnan))
  · intro h
    exact {
      compare := compares a b
      siToFloat := siToFloat_isRounded n
      floatToSi := fun hnan => (floatToSi_truncated_iff hnan).mpr (h.resolve_left hnan)
      pack := packD_unpackD }

/-- 2147483648.0 becomes 32767. -/
theorem float_to_si_saturates : floatToSi float 0x4F000000 = 32767 ∧
    ¬ ∀ (a b : float.Raw) (n : BitVec 32), ConversionsRight float a b n := by
  refine ⟨by decide, fun h => ?_⟩
  have hint := (h 0x4F000000 0 0).floatToSi (by decide)
  exact absurd hint (by decide)

end Z80Gcc.FpBit
