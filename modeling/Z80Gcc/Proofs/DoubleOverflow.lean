import Z80Gcc.Spec.ConstBinop
import Z80Gcc.Proofs.DivRound

/-! The overflow that `add_double`, `neg_double`, `mul_double` and the subtraction of
`int_const_binop` report. -/

namespace Z80Gcc

open Z80Gcc.WrapInt

theorem Host.represents_iff (h : Host) (v : Int) :
    h.Represents v ↔ -2 ^ (h.bits + h.bits) ≤ v * 2 ∧ v * 2 < 2 ^ (h.bits + h.bits) := by
  have hpos := h.bits_pos
  have hpow : (2 : Int) ^ (h.bits + h.bits) = 2 * 2 ^ (h.bits + h.bits - 1) := by
    rw [← pow_succ']
    congr 1
    omega
  rw [Host.Represents, hpow]
  omega

namespace DoubleInt

variable {h : Host}

section Signs

theorem overflowSumSign_eq {w : Nat} (a b sum : BitVec w) :
    overflowSumSign a b sum = (a.msb == b.msb && a.msb != sum.msb) := by
  rw [overflowSumSign, BitVec.msb_and, BitVec.msb_xor]
  rcases Nat.eq_zero_or_pos w with rfl | hw
  · simp [BitVec.eq_nil a, BitVec.eq_nil b, BitVec.eq_nil sum]
  · rw [BitVec.msb_not]
    cases ha : a.msb <;> cases hb : b.msb <;> simp [hw, ha, hb]

theorem msb_high_iff (x : DoubleInt h) : x.high.msb = true ↔ x.value false < 0 := by
  rw [← decide_eq_true_iff (p := x.value false < 0), ← isNeg_eq]
  rfl

theorem value_bounds (x : DoubleInt h) :
    -2 ^ (h.bits + h.bits) ≤ x.value false * 2 ∧ x.value false * 2 < 2 ^ (h.bits + h.bits) := by
  rw [← bmod_eq_self_iff]
  exact wrap_value false x

theorem overflowSumSign_iff {x y z : DoubleInt h} :
    overflowSumSign x.high y.high z.high = true ↔
      (x.value false < 0 ↔ y.value false < 0) ∧ ¬(x.value false < 0 ↔ z.value false < 0) := by
  rw [overflowSumSign_eq, ← msb_high_iff, ← msb_high_iff, ← msb_high_iff, Bool.and_eq_true,
    beq_iff_eq, bne_iff_ne, ne_eq]
  grind

/-- A sum that is kept in two words has lost its value just when its sign is wrong. -/
theorem overflow_of_sum {x y z : DoubleInt h}
    (hz : z.value false = wrap false (h.bits + h.bits) (x.value false + y.value false)) :
    overflowSumSign x.high y.high z.high = true ↔
      ¬h.Represents (x.value false + y.value false) := by
  have hx := value_bounds x
  have hy := value_bounds y
  rw [overflowSumSign_iff, hz, wrap_false, h.represents_iff]
  rcases bmod_cases (n := h.bits + h.bits) (v := x.value false + y.value false) (by omega)
    (by omega) with ⟨hv, hin⟩ | ⟨hv, hin⟩ | ⟨hv, hin⟩ <;> rw [hv] <;> omega

end Signs

section AddNeg

theorem bv_ofInt_add (x y : DoubleInt h) :
    x.bv + y.bv = BitVec.ofInt _ (x.value false + y.value false) := by
  rw [BitVec.ofInt_add, ofInt_value, ofInt_value]

theorem addDouble_computes (x y : DoubleInt h) :
    Computes (x.addDouble y) (x.value false + y.value false) := by
  have hbv : (x.addDouble y).1.bv = BitVec.ofInt _ (x.value false + y.value false) := by
    rw [bv_addDouble, bv_ofInt_add]
  have hflag : (x.addDouble y).2 = overflowSumSign x.high y.high (x.addDouble y).1.high := rfl
  refine ⟨hbv, ?_⟩
  rw [hflag]
  exact overflow_of_sum (value_of_bv false hbv)

theorem negDouble_computes (x : DoubleInt h) : Computes x.negDouble (-x.value false) := by
  have hx := value_bounds x
  refine ⟨by rw [bv_negDouble, BitVec.ofInt_neg, ofInt_value], ?_⟩
  rw [h.represents_iff]
  cases hneg : x.high.msb with
  | true =>
    rw [negDouble_overflow hneg, bv_eq_intMin_iff]
    omega
  | false =>
    have hpos : ¬x.value false < 0 := by
      rw [← msb_high_iff, hneg]
      decide
    have hflag : x.negDouble.2 = false := by
      rw [negDouble]
      split <;> simp [hneg]
    rw [hflag]
    have : (0 : Int) < 2 ^ (h.bits + h.bits) := by positivity
    simp only [Bool.false_eq_true, false_iff, not_not]
    omega

/-- The subtraction of `int_const_binop` subtracts: the difference and the subtrahend add up. -/
theorem minusExpr_computes (arg1 arg2 : IntCst h) :
    Computes ((intConstSwitch .minusExpr arg1 arg2).words,
        (intConstSwitch .minusExpr arg1 arg2).overflow)
      (arg1.words.value false - arg2.words.value false) := by
  generalize hx : arg1.words = x
  generalize hy : arg2.words = y
  have hbv : (x.addDouble y.negDouble.1).1.bv =
      BitVec.ofInt _ (x.value false - y.value false) := by
    rw [bv_addDouble, bv_negDouble, Int.sub_eq_add_neg, BitVec.ofInt_add, BitVec.ofInt_neg,
      ofInt_value, ofInt_value]
  simp only [intConstSwitch, hx, hy]
  refine ⟨hbv, ?_⟩
  have hd := value_of_bv false hbv
  generalize (x.addDouble y.negDouble.1).1 = d at hd
  have hxb := value_bounds x
  have hyb := value_bounds y
  rw [overflowSumSign_iff, hd, wrap_false, h.represents_iff]
  rcases bmod_cases (n := h.bits + h.bits) (v := x.value false - y.value false) (by omega)
    (by omega) with ⟨hv, hin⟩ | ⟨hv, hin⟩ | ⟨hv, hin⟩ <;> rw [hv] <;> omega

end AddNeg

section Multiply

/-- The upper half of the product of two numbers without signs. -/
theorem bv_upperProduct (x y : DoubleInt h) :
    (ofDigits ((h.mulRows x.digits y.digits (List.replicate 8 0)).drop 4) : DoubleInt h).bv =
      BitVec.ofInt _ (x.toNat * y.toNat / 2 ^ (h.bits + h.bits)) := by
  obtain ⟨hlen, hlt, hval⟩ := mulRows_digits x y
  have hnat : (ofDigits ((h.mulRows x.digits y.digits (List.replicate 8 0)).drop 4) :
      DoubleInt h).toNat = x.toNat * y.toNat / 2 ^ (h.bits + h.bits) := by
    rw [toNat_ofDigits (by rw [List.length_drop, hlen]) fun d hd => hlt d (List.mem_of_mem_drop hd),
      ← Nat.ofDigits_div_pow_eq_ofDigits_drop 4 h.base_pos _ hlt, hval, base_pow_four]
  rw [bv_eq_ofInt_toNat, hnat]
  push_cast
  rfl

theorem value_false_eq (x : DoubleInt h) :
    x.value false = x.toNat - x.high.msb.toInt * 2 ^ (h.bits + h.bits) := by
  have hx := toNat_lt_two_pow x
  have hneg := msb_high_iff x
  have hcast : (2 : Int) ^ (h.bits + h.bits) = (2 ^ (h.bits + h.bits) : Nat) := by push_cast; rfl
  rw [value_false] at hneg ⊢
  rw [hcast]
  cases hm : x.high.msb with
  | false =>
    simp only [hm, Bool.false_eq_true, false_iff] at hneg
    simp only [Bool.toInt_false, Int.zero_mul]
    split at hneg <;> split <;> omega
  | true =>
    simp only [hm, true_iff] at hneg
    simp only [Bool.toInt_true, Int.one_mul]
    split at hneg <;> split <;> omega

/-- The upper half of a product with signs, from the one without. -/
theorem ediv_of_signs {X Y a b N : Int} (hN : N ≠ 0) :
    (X - a * N) * (Y - b * N) / N = X * Y / N - a * Y - b * X + a * b * N := by
  rw [show (X - a * N) * (Y - b * N) = X * Y + (a * b * N - a * Y - b * X) * N by ring,
    Int.add_mul_ediv_right _ _ hN]
  ring

/-- What the code adds to the upper half for a negative factor. -/
theorem bv_correctUpper (neg : Bool) (x top : DoubleInt h) :
    (if neg then (addDouble x.negDouble.1 top).1 else top).bv =
      top.bv - BitVec.ofInt _ (neg.toInt * x.toNat) := by
  cases neg with
  | false => simp
  | true =>
    rw [if_pos rfl, bv_addDouble, bv_negDouble, Bool.toInt_true, Int.one_mul, ← bv_eq_ofInt_toNat,
      BitVec.add_comm, BitVec.sub_eq_add_neg]

/-- The test of the upper words: they all are the sign of the lower ones. -/
theorem upper_test_iff (neg : Bool) (top : DoubleInt h) :
    ((if neg then ~~~(top.low &&& top.high) else top.low ||| top.high) != 0) = true ↔
      top.value false ≠ -neg.toInt := by
  rw [bne_iff_ne]
  cases neg with
  | false =>
    have hor : top.low ||| top.high = 0 ↔ top.low = 0 ∧ top.high = 0 := BitVec.or_eq_zero_iff
    rw [if_neg (by decide), Bool.toInt_false, Int.neg_zero, ne_eq, ne_eq, ← bv_eq_zero_iff_value,
      bv_eq_zero_iff, hor, and_comm]
  | true =>
    have hnot : ∀ z : BitVec h.bits, ~~~z = 0 ↔ z = -1 := by
      intro z
      rw [BitVec.not_eq_comm]
      simp [BitVec.neg_one_eq_allOnes]
    rw [if_pos rfl, Bool.toInt_true, ne_eq, ne_eq, ← bv_eq_neg_one_iff_value, bv_eq_neg_one_iff,
      hnot]

/-- A product is right in two words just when its upper half is the sign of its lower half. -/
theorem product_overflow_iff {v top : DoubleInt h} {p : Int}
    (hp : (p * 4).natAbs ≤ 2 ^ (h.bits + h.bits) * 2 ^ (h.bits + h.bits))
    (hv : v.bv = BitVec.ofInt _ p) (htop : top.bv = BitVec.ofInt _ (p / 2 ^ (h.bits + h.bits))) :
    ((if v.high.msb then ~~~(top.low &&& top.high) else top.low ||| top.high) != 0) = true ↔
      ¬h.Represents p := by
  have hbits := h.wide
  have hbig : (2 : Int) ^ 3 ≤ 2 ^ (h.bits + h.bits) := two_pow_le (by omega)
  have hcast : ((2 ^ (h.bits + h.bits) : Nat) : Int) = 2 ^ (h.bits + h.bits) := by push_cast; rfl
  have hdiv := Int.mul_ediv_add_emod p (2 ^ (h.bits + h.bits))
  have hmod := Int.emod_nonneg p (b := 2 ^ (h.bits + h.bits)) (by positivity)
  have hlt := Int.emod_lt_of_pos p (b := 2 ^ (h.bits + h.bits)) (by positivity)
  -- the lower half has the value of the remainder
  have hval : v.value false = wrap false (h.bits + h.bits) (p % 2 ^ (h.bits + h.bits)) := by
    rw [value_of_bv false hv]
    exact wrap_eq_of_dvd ⟨p / 2 ^ (h.bits + h.bits), by omega⟩
  -- the upper half has the value of the quotient, which is small
  have hquo : (p / 2 ^ (h.bits + h.bits)) * 4 ≤ 2 ^ (h.bits + h.bits) ∧
      -2 ^ (h.bits + h.bits) ≤ (p / 2 ^ (h.bits + h.bits)) * 4 + 4 := by
    rw [← Int.ofNat_le] at hp
    push_cast at hp
    rw [abs_le] at hp
    constructor <;> nlinarith
  have hupper : top.value false = p / 2 ^ (h.bits + h.bits) := by
    rw [value_of_bv false htop, wrap_false, bmod_eq_self_iff]
    omega
  have hneg := msb_high_iff v
  rw [upper_test_iff, not_iff_not, h.represents_iff, hupper]
  rw [hval, wrap_false] at hneg
  have hle : ∀ a b : Int, a ≤ b → 2 ^ (h.bits + h.bits) * a ≤ 2 ^ (h.bits + h.bits) * b :=
    fun a b hab => Int.mul_le_mul_of_nonneg_left hab (by positivity)
  have hcases := bmod_cases (n := h.bits + h.bits) (v := p % 2 ^ (h.bits + h.bits)) (by omega) hlt
  generalize p / 2 ^ (h.bits + h.bits) = q at *
  generalize p % 2 ^ (h.bits + h.bits) = r at *
  generalize (2 : Int) ^ (h.bits + h.bits) = N at *
  have hup := hle 1 q
  have hdown := hle q (-1)
  have hfar := hle q (-2)
  have hnear := hle 0 q
  cases hm : v.high.msb with
  | false =>
    simp only [hm, Bool.false_eq_true, false_iff] at hneg
    rw [Bool.toInt_false]
    constructor
    · rintro rfl
      omega
    · omega
  | true =>
    simp only [hm, true_iff] at hneg
    rw [Bool.toInt_true]
    constructor
    · rintro rfl
      omega
    · omega

theorem mulDouble_computes (x y : DoubleInt h) :
    Computes (x.mulDouble y) (x.value false * y.value false) := by
  have hbv : (x.mulDouble y).1.bv = BitVec.ofInt _ (x.value false * y.value false) := by
    rw [bv_mulDouble, BitVec.ofInt_mul, ofInt_value, ofInt_value]
  refine ⟨hbv, ?_⟩
  have hx := value_bounds x
  have hy := value_bounds y
  have hsmall : (x.value false * y.value false * 4).natAbs ≤
      2 ^ (h.bits + h.bits) * 2 ^ (h.bits + h.bits) := by
    rw [show x.value false * y.value false * 4 = x.value false * 2 * (y.value false * 2) by ring,
      Int.natAbs_mul]
    have hcast : (2 : Int) ^ (h.bits + h.bits) = (2 ^ (h.bits + h.bits) : Nat) := by push_cast; rfl
    rw [hcast] at hx hy
    exact Nat.mul_le_mul (by omega) (by omega)
  refine product_overflow_iff hsmall hbv ?_
  have hN : (2 : Int) ^ (h.bits + h.bits) ≠ 0 := by positivity
  have hzero : ∀ a, BitVec.ofInt (h.bits + h.bits) (a * 2 ^ (h.bits + h.bits)) = 0 := by
    intro a
    rw [← BitVec.toNat_inj, BitVec.toNat_ofInt]
    simp
  rw [bv_correctUpper, bv_correctUpper, bv_upperProduct, value_false_eq x, value_false_eq y,
    ediv_of_signs hN, BitVec.ofInt_add, hzero, Int.sub_eq_add_neg, Int.sub_eq_add_neg,
    BitVec.ofInt_add, BitVec.ofInt_add, BitVec.ofInt_neg, BitVec.ofInt_neg, BitVec.sub_eq_add_neg,
    BitVec.sub_eq_add_neg]
  exact (BitVec.add_zero _).symm

end Multiply

end DoubleInt

open DoubleInt

/-- The arithmetic on two words stores the result modulo the size, and reports just the results
that two words have no room for. -/
theorem two_word_arithmetic (h : Host) :
    (∀ x y : DoubleInt h, Computes (x.addDouble y) (x.value false + y.value false)) ∧
      (∀ x : DoubleInt h, Computes x.negDouble (-x.value false)) ∧
      (∀ x y : DoubleInt h, Computes (x.mulDouble y) (x.value false * y.value false)) ∧
      ∀ arg1 arg2 : IntCst h,
        Computes ((intConstSwitch .minusExpr arg1 arg2).words,
            (intConstSwitch .minusExpr arg1 arg2).overflow)
          (arg1.words.value false - arg2.words.value false) :=
  ⟨addDouble_computes, negDouble_computes, mulDouble_computes, minusExpr_computes⟩

end Z80Gcc
