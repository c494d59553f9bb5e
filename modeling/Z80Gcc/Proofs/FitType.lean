import Z80Gcc.Spec.ConstBinop
import Z80Gcc.Proofs.DivRound

/-! What `force_fit_type` leaves of two words, and the value that a constant has. -/

namespace Z80Gcc

open Z80Gcc.WrapInt

variable {h : Host}

namespace DoubleInt

variable (x : DoubleInt h)

theorem getLsbD_bv (i : Nat) :
    x.bv.getLsbD i = if i < h.bits then x.low.getLsbD i else x.high.getLsbD (i - h.bits) := by
  rw [bv, BitVec.getLsbD_append]

end DoubleInt

open DoubleInt

section Fit

variable {prec : Nat}

theorem getLsbD_ones {w : Nat} (k i : Nat) :
    ((-1 : BitVec w) <<< k).getLsbD i = (decide (i < w) && decide (k ≤ i)) := by
  by_cases hi : i < w
  · by_cases hk : i < k
    · simp [hi, hk, Nat.not_le.2 hk]
    · simp [BitVec.neg_one_eq_allOnes, hi, hk, Nat.not_lt.1 hk]
  · simp [hi]

theorem getLsbD_clearBeyond (hfit : prec ≤ 2 * h.bits) (x : DoubleInt h) (i : Nat) :
    (clearBeyond prec x).bv.getLsbD i = (decide (i < prec) && x.bv.getLsbD i) := by
  have hzero : (0 : BitVec h.bits).getLsbD (i - h.bits) = false := BitVec.getLsbD_zero
  unfold clearBeyond
  split
  · next heq =>
    by_cases hi : i < prec
    · simp [hi]
    · simp [hi, BitVec.getLsbD_of_ge x.bv i (by omega)]
  · split
    · rw [getLsbD_bv, getLsbD_bv, BitVec.getLsbD_and, BitVec.getLsbD_not, getLsbD_ones]
      by_cases hlow : i < h.bits
      · simp [hlow, show i < prec by omega]
      · by_cases hi : i < prec
        · simp [hlow, hi, show i - h.bits < h.bits by omega,
            show ¬prec - h.bits ≤ i - h.bits by omega]
        · simp [hlow, hi, show prec - h.bits ≤ i - h.bits by omega]
    · rw [getLsbD_bv, getLsbD_bv, hzero]
      by_cases hlow : i < h.bits
      · rw [if_pos hlow, if_pos hlow]
        split
        · rw [BitVec.getLsbD_and, BitVec.getLsbD_not, getLsbD_ones]
          by_cases hi : i < prec
          · simp [hlow, hi]
          · simp [hi, Nat.not_lt.1 hi]
        · simp [show i < prec by omega]
      · simp [hlow, show ¬i < prec by omega]

theorem and_one_shiftLeft_ne_zero {w k : Nat} (y : BitVec w) (hk : k < w) :
    (y &&& (1 : BitVec w) <<< k != 0) = y.getLsbD k := by
  have hpow : (1 : BitVec w) <<< k = BitVec.twoPow w k := (BitVec.twoPow_eq w k).symm
  rw [hpow, BitVec.and_twoPow]
  cases y.getLsbD k with
  | false => simp
  | true =>
    rw [if_pos rfl, bne_iff_ne, ne_eq, ← BitVec.toNat_inj, BitVec.toNat_twoPow_of_lt hk]
    exact (Nat.two_pow_pos k).ne'

/-- The test for the sign sees the bit below the precision. -/
theorem signBitSet_eq (hpos : 0 < prec) (hfit : prec < 2 * h.bits) (x : DoubleInt h) :
    signBitSet prec x = x.bv.getLsbD (prec - 1) := by
  have hne : (prec != 2 * h.bits) = true := bne_iff_ne.2 hfit.ne
  rw [signBitSet, hne, Bool.true_and, getLsbD_bv]
  split
  · next hgt =>
    rw [and_one_shiftLeft_ne_zero _ (by omega), if_neg (by omega)]
    congr 1
    omega
  · rw [and_one_shiftLeft_ne_zero _ (by omega), if_pos (by omega)]

theorem getLsbD_setBeyond (hfit : prec < 2 * h.bits) (x : DoubleInt h) (i : Nat) :
    (setBeyond prec x).bv.getLsbD i =
      (decide (i < 2 * h.bits) && (decide (prec ≤ i) || x.bv.getLsbD i)) := by
  unfold setBeyond
  split
  · rw [getLsbD_bv, getLsbD_bv, BitVec.getLsbD_or, getLsbD_ones]
    by_cases hlow : i < h.bits
    · simp [hlow, show i < 2 * h.bits by omega, show ¬prec ≤ i by omega]
    · by_cases hi : i < 2 * h.bits
      · simp [hlow, hi, show i - h.bits < h.bits by omega, show i - h.bits + h.bits = i by omega,
          Bool.or_comm, - BitVec.getLsbD_eq_getElem]
      · simp [hlow, hi, show ¬i - h.bits < h.bits by omega,
          BitVec.getLsbD_of_ge x.high (i - h.bits) (by omega)]
  · have hones : (-1 : BitVec h.bits).getLsbD (i - h.bits) = decide (i - h.bits < h.bits) := by
      simp [BitVec.neg_one_eq_allOnes]
    rw [getLsbD_bv, getLsbD_bv, hones]
    by_cases hlow : i < h.bits
    · rw [if_pos hlow, if_pos hlow]
      split
      · rw [BitVec.getLsbD_or, getLsbD_ones]
        simp [hlow, show i < 2 * h.bits by omega, Bool.or_comm]
      · simp [show i < 2 * h.bits by omega, show ¬prec ≤ i by omega]
    · by_cases hi : i < 2 * h.bits
      · simp [hlow, hi, show i - h.bits < h.bits by omega, show prec ≤ i by omega]
      · simp [hlow, hi, show ¬i - h.bits < h.bits by omega]

end Fit

section Represent

variable (t : IntType h) (x : BitVec t.precision)

theorem bv_split (y : BitVec (h.bits + h.bits)) :
    (⟨y.setWidth h.bits, (y >>> h.bits).setWidth h.bits⟩ : DoubleInt h).bv = y := by
  apply BitVec.eq_of_getLsbD_eq
  intro i hi
  rw [getLsbD_bv]
  split
  · next hlow => simp [hlow]
  · next hlow => simp [show i - h.bits < h.bits by omega, show h.bits + (i - h.bits) = i by omega]

theorem getLsbD_represent (i : Nat) :
    (t.represent x).bv.getLsbD i = if i < t.precision then x.getLsbD i else
      decide (i < 2 * h.bits) && (!t.unsigned && x.msb) := by
  have hfit := t.fits
  rw [IntType.represent, bv_split]
  cases t.unsigned with
  | true =>
    rw [if_pos rfl, BitVec.getLsbD_setWidth]
    split
    · next hi => simp [show i < h.bits + h.bits by omega]
    · next hi => simp [BitVec.getLsbD_of_ge x i (Nat.not_lt.1 hi)]
  | false =>
    rw [if_neg (by decide), BitVec.getLsbD_signExtend, Nat.two_mul]
    split
    · next hi => simp [show i < h.bits + h.bits by omega]
    · simp

theorem setWidth_represent : (t.represent x).bv.setWidth t.precision = x := by
  apply BitVec.eq_of_getLsbD_eq
  intro i hi
  rw [BitVec.getLsbD_setWidth, getLsbD_represent, if_pos hi]
  simp [hi]

/-- `force_fit_type` leaves the number modulo the precision, extended. -/
theorem forceFitType_words (y : DoubleInt h) (overflow : Bool) :
    (forceFitType t y overflow).1 = t.represent (y.bv.setWidth t.precision) := by
  have hpos := t.pos
  have hfit := t.fits
  rw [← bv_inj]
  apply BitVec.eq_of_getLsbD_eq
  intro i hi
  have hmsb : (y.bv.setWidth t.precision).msb = y.bv.getLsbD (t.precision - 1) := by
    rw [BitVec.msb_setWidth]
    simp [show 0 < t.precision by omega]
  have hclear := getLsbD_clearBeyond hfit y
  rw [getLsbD_represent, hmsb, BitVec.getLsbD_setWidth, forceFitType]
  cases t.unsigned with
  | true =>
    rw [if_pos rfl, hclear]
    by_cases hlt : i < t.precision <;> simp [hlt]
  | false =>
    rw [if_neg (by decide)]
    dsimp only
    by_cases hfull : t.precision = 2 * h.bits
    · have hset : signBitSet t.precision (clearBeyond t.precision y) = false := by
        simp [signBitSet, hfull]
      rw [hset, if_neg (by decide), hclear, if_pos (by omega)]
    · have hsign := signBitSet_eq hpos (by omega) (clearBeyond t.precision y)
      rw [hclear, decide_eq_true (by omega), Bool.true_and] at hsign
      rw [hsign]
      by_cases hlt : i < t.precision
      · split
        · rw [getLsbD_setBeyond (by omega), hclear]
          simp [hlt, show i < 2 * h.bits by omega]
        · exact hclear i
      · split
        · next hbit =>
          rw [getLsbD_setBeyond (by omega)]
          simp [hbit, Nat.not_lt.1 hlt]
        · next hbit =>
          rw [hclear, Bool.eq_false_iff.2 hbit]
          simp [hlt]

end Represent

section Value

variable (t : IntType h)

theorem value_represent (x : BitVec t.precision) :
    (t.represent x).value t.unsigned = if t.unsigned then (x.toNat : Int) else x.toInt := by
  have hle : t.precision ≤ h.bits + h.bits := by
    have := t.fits
    omega
  have hlt : x.toNat < 2 ^ (h.bits + h.bits) :=
    x.isLt.trans_le (Nat.pow_le_pow_right (by decide) hle)
  rw [value, IntType.represent, bv_split]
  cases t.unsigned with
  | true => simp [Nat.mod_eq_of_lt hlt]
  | false => simpa using BitVec.toInt_signExtend_of_le hle

theorem setWidth_ofInt {m n : Nat} (hle : m ≤ n) (v : Int) :
    (BitVec.ofInt n v).setWidth m = BitVec.ofInt m v := by
  have hn : (0 : Int) < (2 ^ n : Nat) := by exact_mod_cast Nat.two_pow_pos n
  have hm : (0 : Int) < (2 ^ m : Nat) := by exact_mod_cast Nat.two_pow_pos m
  have hdvd : ((2 ^ m : Nat) : Int) ∣ (2 ^ n : Nat) := by exact_mod_cast Nat.pow_dvd_pow 2 hle
  apply BitVec.eq_of_toNat_eq
  rw [BitVec.toNat_setWidth, BitVec.toNat_ofInt, BitVec.toNat_ofInt, ← Int.natCast_inj,
    Int.natCast_emod, Int.toNat_of_nonneg (Int.emod_nonneg _ hn.ne'),
    Int.toNat_of_nonneg (Int.emod_nonneg _ hm.ne'), Int.emod_emod_of_dvd _ hdvd]

/-- The value of the words of a number that is reduced to the type. -/
theorem value_represent_ofInt (v : Int) :
    (t.represent (BitVec.ofInt _ v)).value t.unsigned = wrap t.unsigned t.precision v := by
  rw [value_represent]
  cases t.unsigned with
  | true =>
    have hpos : (0 : Int) < 2 ^ t.precision := by positivity
    rw [if_pos rfl, BitVec.toNat_ofInt, wrap_true, Int.natCast_pow, Int.toNat_of_nonneg]
    · rfl
    · exact Int.emod_nonneg _ hpos.ne'
  | false => rw [if_neg (by decide), BitVec.toInt_ofInt, wrap_false]

theorem value_forceFit {y : DoubleInt h} {v : Int} (hy : y.bv = BitVec.ofInt _ v) (overflow : Bool) :
    (forceFitType t y overflow).1.value t.unsigned = wrap t.unsigned t.precision v := by
  have hle : t.precision ≤ h.bits + h.bits := by
    have := t.fits
    omega
  rw [forceFitType_words, hy, setWidth_ofInt hle]
  exact value_represent_ofInt t v

theorem IntCst.Valid.wrap_value {c : IntCst h} (hc : c.Valid) :
    wrap c.type.unsigned c.type.precision c.value = c.value := by
  have hfit := value_forceFit c.type (ofInt_value c.type.unsigned c.words).symm false
  rw [hc] at hfit
  exact hfit.symm

theorem forceFitType_fixed (y : DoubleInt h) (o o' : Bool) :
    (forceFitType t (forceFitType t y o).1 o').1 = (forceFitType t y o).1 := by
  rw [forceFitType_words, forceFitType_words, setWidth_represent]

theorem words_eq_iff (uns : Bool) (x y : DoubleInt h) : x = y ↔ x.value uns = y.value uns := by
  refine ⟨fun heq => heq ▸ rfl, fun hv => ?_⟩
  rw [← bv_inj, ← ofInt_value uns x, ← ofInt_value uns y, hv]

theorem value_false_words (x : DoubleInt h) :
    x.value false = x.high.toInt * 2 ^ h.bits + x.low.toNat := by
  have hpos := h.bits_pos
  rw [value, if_neg (by decide), bv, BitVec.toInt_append, if_neg (by simp; omega), Int.mul_comm]

theorem less_eq (uns : Bool) (x y : DoubleInt h) :
    less uns x y = decide (x.value uns < y.value uns) := by
  cases uns with
  | true =>
    rw [less, if_pos rfl, words_lt_iff, value_true, value_true]
    simp
  | false =>
    have hx := x.low.isLt
    have hy := y.low.isLt
    have hpow : (2 : Int) ^ h.bits = (2 ^ h.bits : Nat) := by push_cast; rfl
    rw [Bool.eq_iff_iff, decide_eq_true_iff, value_false_words, value_false_words, less, hpow]
    simp only [Bool.false_eq_true, if_false, Bool.or_eq_true, Bool.and_eq_true, beq_iff_eq,
      BitVec.slt_iff_toInt_lt, BitVec.ult, decide_eq_true_eq, ← BitVec.toInt_inj]
    rcases lt_trichotomy x.high.toInt y.high.toInt with hlt | heq | hgt
    · have := Int.mul_le_mul_of_nonneg_right (Int.add_one_le_of_lt hlt)
        (Int.natCast_nonneg (2 ^ h.bits))
      rw [Int.add_mul] at this
      omega
    · rw [heq]
      omega
    · have := Int.mul_le_mul_of_nonneg_right (Int.add_one_le_of_lt hgt)
        (Int.natCast_nonneg (2 ^ h.bits))
      rw [Int.add_mul] at this
      omega

end Value

end Z80Gcc
