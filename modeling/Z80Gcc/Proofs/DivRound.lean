import Z80Gcc.Lib.WrapInt
import Z80Gcc.Proofs.RoundedQuotient

/-! `div_and_round_double`, from its words to the numbers that they stand for. -/

namespace Z80Gcc

open Z80Gcc.WrapInt

namespace DoubleInt

variable {h : Host}

section Values

theorem value_true (x : DoubleInt h) : x.value true = x.toNat := by
  rw [value, if_pos rfl, bv_toNat]

theorem value_false (x : DoubleInt h) :
    x.value false = if 2 * x.toNat < 2 ^ (h.bits + h.bits) then (x.toNat : Int)
      else x.toNat - (2 ^ (h.bits + h.bits) : Nat) := by
  rw [value, if_neg (by decide), BitVec.toInt_eq_toNat_cond, bv_toNat]

theorem toNat_lt_two_pow (x : DoubleInt h) : x.toNat < 2 ^ (h.bits + h.bits) := by
  rw [← bv_toNat]
  exact x.bv.isLt

theorem ofInt_value (uns : Bool) (x : DoubleInt h) : BitVec.ofInt _ (x.value uns) = x.bv := by
  cases uns with
  | false => exact BitVec.ofInt_toInt
  | true => rw [value_true, BitVec.ofInt_natCast, ← bv_toNat, BitVec.ofNat_toNat, BitVec.setWidth_eq]

/-- Two words read as the number that a type of their width keeps. -/
theorem value_of_bv {x : DoubleInt h} {v : Int} (uns : Bool) (hx : x.bv = BitVec.ofInt _ v) :
    x.value uns = wrap uns (h.bits + h.bits) v := by
  cases uns with
  | false => rw [value, if_neg (by decide), hx, BitVec.toInt_ofInt, wrap_false]
  | true =>
    have hpos : (0 : Int) < 2 ^ (h.bits + h.bits) := by positivity
    rw [value, if_pos rfl, hx, BitVec.toNat_ofInt, wrap_true, Int.natCast_pow, Int.toNat_of_nonneg]
    · rfl
    · exact Int.emod_nonneg _ hpos.ne'

theorem wrap_value (uns : Bool) (x : DoubleInt h) :
    wrap uns (h.bits + h.bits) (x.value uns) = x.value uns :=
  (value_of_bv uns (ofInt_value uns x).symm).symm

theorem isNeg_eq (uns : Bool) (x : DoubleInt h) : isNeg uns x = decide (x.value uns < 0) := by
  cases uns with
  | true =>
    rw [value_true]
    simp [isNeg]
  | false =>
    rw [isNeg, ← msb_bv, BitVec.msb_eq_toInt]
    rfl

theorem absolute_toNat (uns : Bool) (x : DoubleInt h) :
    (absolute uns x).toNat = (x.value uns).natAbs := by
  have hlt := toNat_lt_two_pow x
  rw [absolute, isNeg_eq]
  cases uns with
  | true =>
    rw [value_true, if_neg (by simp)]
    rfl
  | false =>
    rw [value_false]
    by_cases hsmall : 2 * x.toNat < 2 ^ (h.bits + h.bits)
    · rw [if_pos hsmall, if_neg (by simp)]
      rfl
    · rw [if_neg hsmall, if_pos (by rw [decide_eq_true_eq]; omega), ← bv_toNat, bv_negDouble,
        BitVec.toNat_neg, bv_toNat, Nat.mod_eq_of_lt (by omega)]
      omega

theorem natAbs_quotientSign_mul (neg : Bool) (t : Nat) : (quotientSign neg * t).natAbs = t := by
  cases neg <;> simp [quotientSign]

/-- The words of a number that may read as negative, without the sign. -/
theorem absolute_of_bv {x : DoubleInt h} {neg : Bool} {t : Nat} (ht : t < 2 ^ (h.bits + h.bits))
    (hx : x.bv = BitVec.ofInt _ (quotientSign neg * t)) :
    (absolute false x).toNat = min t (2 ^ (h.bits + h.bits) - t) := by
  have habs := natAbs_quotientSign_mul neg t
  rw [absolute_toNat, value_of_bv false hx, wrap_false, natAbs_bmod (by rwa [habs]), habs]

theorem bv_eq_ofInt_toNat (x : DoubleInt h) : x.bv = BitVec.ofInt _ (x.toNat : Int) := by
  rw [BitVec.ofInt_natCast, ← bv_toNat, BitVec.ofNat_toNat, BitVec.setWidth_eq]

/-- Two numbers less than the size apart that are kept alike are equal. -/
theorem eq_of_wrap_eq {uns : Bool} {n : Nat} {a b : Int} (hlt : (a - b).natAbs < 2 ^ n)
    (heq : wrap uns n a = wrap uns n b) : a = b := by
  have hdvd : (2 : Int) ^ n ∣ a - b := by
    have ha := dvd_wrap_sub (u := uns) (n := n) (v := a)
    have hb := dvd_wrap_sub (u := uns) (n := n) (v := b)
    rw [heq] at ha
    have := Int.dvd_sub hb ha
    rwa [sub_sub_sub_cancel_left] at this
  have hzero := Int.eq_zero_of_dvd_of_natAbs_lt_natAbs hdvd (by simpa [Int.natAbs_pow] using hlt)
  omega

end Values

section Steps

variable {uns : Bool} {num den quo rem : DoubleInt h}

theorem bv_remainder (num quo den : DoubleInt h) :
    (remainder num quo den).bv = num.bv - quo.bv * den.bv := by
  rw [remainder, bv_addDouble, bv_negDouble, bv_mulDouble, BitVec.sub_eq_add_neg]

/-- The remainder that is stored belongs to the quotient that is stored. -/
theorem remainder_eq (uns : Bool) (num quo den : DoubleInt h) :
    (remainder num quo den).bv =
      BitVec.ofInt _ (num.value uns - quo.value uns * den.value uns) := by
  rw [Int.sub_eq_add_neg, BitVec.ofInt_add, BitVec.ofInt_neg, BitVec.ofInt_mul, ofInt_value,
    ofInt_value, ofInt_value, bv_remainder, BitVec.sub_eq_add_neg]

theorem bv_trialQuotient (uns : Bool) (num den : DoubleInt h) :
    (trialQuotient uns num den).bv =
      BitVec.ofInt _ (quotientSign (isNeg uns num != isNeg uns den) *
        (unsignedQuotient (absolute uns num) (absolute uns den)).toNat) := by
  rw [trialQuotient]
  cases isNeg uns num != isNeg uns den with
  | false => simpa [quotientSign] using bv_eq_ofInt_toNat _
  | true =>
    rw [if_pos rfl, bv_negDouble, bv_eq_ofInt_toNat, ← BitVec.ofInt_neg]
    simp [quotientSign]

theorem words_lt_iff (x y : DoubleInt h) :
    (x.high.ult y.high || x.high == y.high && x.low.ult y.low) = decide (x.toNat < y.toNat) := by
  have hx := x.low.isLt
  have hy := y.low.isLt
  rw [Bool.eq_iff_iff, decide_eq_true_iff, toNat, toNat]
  simp only [Bool.or_eq_true, Bool.and_eq_true, BitVec.ult, decide_eq_true_eq, beq_iff_eq,
    BitVec.toNat_inj.symm]
  rcases Nat.lt_trichotomy x.high.toNat y.high.toNat with hlt | heq | hgt
  · have := Nat.mul_le_mul_right (2 ^ h.bits) hlt
    rw [Nat.succ_mul] at this
    omega
  · rw [heq]
    omega
  · have := Nat.mul_le_mul_right (2 ^ h.bits) hgt
    rw [Nat.succ_mul] at this
    omega

/-- The test for rounding away from zero, on the magnitudes. -/
theorem roundsUp_eq {neg : Bool} {t : Nat} (ht : t < 2 ^ (h.bits + h.bits))
    (hrem : rem.bv = BitVec.ofInt _ (quotientSign neg * t)) :
    roundsUp rem den = upInt (2 ^ (h.bits + h.bits)) den.toNat t := by
  have hr := absolute_of_bv ht hrem
  have hd : (absolute false den).toNat =
      min den.toNat (2 ^ (h.bits + h.bits) - den.toNat) := by
    have hden : den.bv = BitVec.ofInt _ (quotientSign false * den.toNat) := by
      simpa [quotientSign] using bv_eq_ofInt_toNat den
    exact absolute_of_bv (toNat_lt_two_pow den) hden
  have htwo : (⟨2, 0⟩ : DoubleInt h).toNat = 2 := by
    have hlt : 2 < 2 ^ h.bits :=
      Nat.lt_of_lt_of_le (by decide) (Nat.pow_le_pow_right (by decide) h.wide)
    simpa [toNat] using Nat.mod_eq_of_lt hlt
  rw [roundsUp]
  rw [words_lt_iff, upInt, ← bv_toNat (mulDouble _ _).1, bv_mulDouble, BitVec.toNat_mul, bv_toNat,
    bv_toNat, htwo]
  have habs : ∀ x : DoubleInt h, (if x.high.msb then x.negDouble.1 else x) = absolute false x :=
    fun x => rfl
  rw [habs, habs, hr, hd]

theorem inexact_eq {neg : Bool} {t : Nat} (ht : t < 2 ^ (h.bits + h.bits))
    (hrem : rem.bv = BitVec.ofInt _ (quotientSign neg * t)) :
    (rem.low != 0 || rem.high != 0) = decide (t ≠ 0) := by
  have habs := natAbs_quotientSign_mul neg t
  have hzero : rem.bv = 0 ↔ t = 0 := by
    constructor
    · intro h0
      have hval : wrap true (h.bits + h.bits) (quotientSign neg * t) =
          wrap true (h.bits + h.bits) 0 := by
        rw [← value_of_bv true hrem]
        exact value_of_bv true (by rw [h0, BitVec.ofInt_ofNat]; rfl)
      have := eq_of_wrap_eq (by rwa [Int.sub_zero, habs]) hval
      omega
    · intro h0
      rw [hrem, h0]
      simp
  rw [Bool.eq_iff_iff, decide_eq_true_iff, ne_eq, ← hzero, bv_eq_zero_iff]
  simp only [Bool.or_eq_true, bne_iff_ne, ne_eq]
  tauto

theorem reads_negative_eq {neg : Bool} {q : Nat} (hq : q < 2 ^ (h.bits + h.bits))
    (hun : uns = true → neg = false)
    (hsi : uns = false → if neg then 2 * q ≤ 2 ^ (h.bits + h.bits) else
      2 * q < 2 ^ (h.bits + h.bits))
    (hquo : quo.bv = BitVec.ofInt _ (quotientSign neg * q)) :
    quo.high.msb = lowInt uns neg (2 ^ (h.bits + h.bits)) q := by
  have hneg : quo.high.msb = decide (quo.value false < 0) := isNeg_eq false quo
  have hcast : (2 : Int) ^ (h.bits + h.bits) = (2 ^ (h.bits + h.bits) : Nat) := by push_cast; rfl
  rw [hneg, lowInt]
  cases uns with
  | true =>
    obtain rfl := hun rfl
    have hnat : quo.toNat = q := by
      have hval := value_of_bv true hquo
      have hself : (q : Int) % 2 ^ (h.bits + h.bits) = q :=
        emod_eq_self_iff.2 ⟨by omega, by rw [hcast]; omega⟩
      rw [quotientSign, if_neg (by decide), Int.one_mul, value_true, wrap_true, hself] at hval
      exact_mod_cast hval
    rw [value_false, hnat, if_pos rfl, decide_eq_decide]
    split <;> omega
  | false =>
    have hfit := hsi rfl
    have hself : (quotientSign neg * q).bmod (2 ^ (h.bits + h.bits)) = quotientSign neg * q := by
      rw [bmod_eq_self_iff, hcast]
      cases neg <;> simp [quotientSign] at hfit ⊢ <;> omega
    rw [value_of_bv false hquo, wrap_false, hself]
    cases neg with
    | false => simp [quotientSign]
    | true => simp [quotientSign, Nat.pos_iff_ne_zero]

end Steps

section Overflow

variable {uns : Bool} {num den : DoubleInt h}

theorem bv_intMin : (⟨0, BitVec.intMin h.bits⟩ : DoubleInt h).bv = BitVec.intMin (h.bits + h.bits) := by
  have hpos := h.bits_pos
  apply BitVec.eq_of_toNat_eq
  rw [bv_toNat, toNat, BitVec.toNat_intMin_of_pos hpos, BitVec.toNat_intMin_of_pos (by omega),
    ← Nat.pow_add]
  simp
  omega

theorem negDouble_overflow (hneg : num.high.msb = true) :
    num.negDouble.2 = true ↔ num.bv = BitVec.intMin (h.bits + h.bits) := by
  have hne : num.high ≠ 0#h.bits := by
    intro h0
    rw [h0] at hneg
    simp at hneg
  rw [← bv_intMin, bv_inj, DoubleInt.ext_iff, negDouble]
  by_cases hlow : num.low = 0
  · rw [if_pos hlow]
    simp [BitVec.msb_neg, hneg, hlow, hne]
  · rw [if_neg hlow]
    exact iff_of_false (by simp) fun hc => hlow hc.1

/-- The division reports a zero divisor and the minimum divided by -1. -/
theorem overflow_iff (code : DivTreeCode) (uns : Bool) (num den : DoubleInt h) :
    (divAndRound code uns num den).overflow = true ↔ den.bv = 0 ∨ Overflows uns num den := by
  have hflag : (divAndRound code uns num den).overflow =
      (decide (den.high = 0 ∧ den.low = 0) || isNeg uns num && (num.negDouble.2 &&
        (if decide (den.high = 0 ∧ den.low = 0) then ⟨1, den.high⟩ else den).low &&&
          (if decide (den.high = 0 ∧ den.low = 0) then ⟨1, den.high⟩ else den).high == -1)) := by
    rw [divAndRound]
    dsimp only
    split <;> rfl
  rw [hflag, bv_eq_zero_iff]
  by_cases hzero : den.high = 0 ∧ den.low = 0
  · simp [hzero]
  · have hmin : isNeg uns num = true ∧ num.negDouble.2 = true ↔
        uns = false ∧ num.bv = BitVec.intMin (h.bits + h.bits) := by
      have hpos := h.bits_pos
      cases hneg : num.high.msb with
      | true => simp [isNeg, hneg, negDouble_overflow hneg]
      | false =>
        have hne : num.bv ≠ BitVec.intMin (h.bits + h.bits) := by
          intro heq
          rw [← msb_bv, heq, BitVec.msb_intMin] at hneg
          simp at hneg
          omega
        simp [isNeg, hneg, hne]
    simp only [hzero, decide_false, Bool.false_or, Bool.false_eq_true, if_false, Bool.and_eq_true,
      beq_iff_eq, false_or, Overflows, bv_eq_neg_one_iff]
    rw [← and_assoc, hmin, and_assoc]

theorem bv_eq_intMin_iff (x : DoubleInt h) :
    x.bv = BitVec.intMin (h.bits + h.bits) ↔ x.value false * 2 = -2 ^ (h.bits + h.bits) := by
  have hpos := h.bits_pos
  have hpow : (2 : Int) ^ (h.bits + h.bits) = 2 * 2 ^ (h.bits + h.bits - 1) := by
    rw [← pow_succ']
    congr 1
    omega
  rw [← BitVec.toInt_inj, BitVec.toInt_intMin_of_pos (by omega), hpow, value, if_neg (by decide)]
  omega

theorem bv_eq_zero_iff_value (x : DoubleInt h) : x.bv = 0 ↔ x.value false = 0 := by
  rw [← BitVec.toInt_inj, value, if_neg (by decide), BitVec.toInt_ofNat]
  simp

theorem bv_eq_neg_one_iff_value (x : DoubleInt h) : x.bv = -1 ↔ x.value false = -1 := by
  have hpos := h.bits_pos
  have hones : (-1 : BitVec (h.bits + h.bits)) = BitVec.allOnes _ := BitVec.neg_one_eq_allOnes
  rw [← BitVec.toInt_inj, hones, BitVec.toInt_allOnes, if_pos (by omega)]
  rfl

theorem overflows_iff (uns : Bool) (num den : DoubleInt h) :
    Overflows uns num den ↔
      uns = false ∧ num.value uns * 2 = -2 ^ (h.bits + h.bits) ∧ den.value uns = -1 := by
  unfold Overflows
  cases uns with
  | true => simp
  | false => rw [bv_eq_intMin_iff, bv_eq_neg_one_iff_value]

end Overflow

section Fits

variable {uns : Bool} {a b : Int} {n d : Nat} {w : Nat}

theorem natAbs_of_wrap (ha : wrap uns w a = a) :
    (uns = true → 0 ≤ a ∧ a.natAbs < 2 ^ w) ∧ (uns = false → 2 * a.natAbs ≤ 2 ^ w) := by
  have hcast : (2 : Int) ^ w = (2 ^ w : Nat) := by push_cast; rfl
  constructor
  · rintro rfl
    rw [wrap_true, emod_eq_self_iff, hcast] at ha
    omega
  · rintro rfl
    rw [wrap_false, bmod_eq_self_iff, hcast] at ha
    omega

theorem natAbs_lt (ha : wrap uns w a = a) : a.natAbs < 2 ^ w := by
  have hpos := Nat.two_pow_pos w
  cases uns with
  | true => exact ((natAbs_of_wrap ha).1 rfl).2
  | false =>
    have := (natAbs_of_wrap ha).2 rfl
    omega

theorem signs_eq_of_unsigned (ha : wrap true w a = a) (hb : wrap true w b = b) :
    (decide (a < 0) != decide (b < 0)) = false := by
  have ha0 := ((natAbs_of_wrap ha).1 rfl).1
  have hb0 := ((natAbs_of_wrap hb).1 rfl).1
  rw [decide_eq_false ha0.not_gt, decide_eq_false hb0.not_gt]
  rfl

/-- Only the minimum divided by -1 has a quotient that does not fit. -/
theorem quotient_fits (ha : a.bmod (2 ^ w) = a) (hb : b ≠ 0)
    (hov : ¬(a * 2 = -2 ^ w ∧ b = -1)) (hneg : (decide (a < 0) != decide (b < 0)) = false) :
    2 * (a.natAbs / b.natAbs) < 2 ^ w := by
  have hcast : (2 : Int) ^ w = (2 ^ w : Nat) := by push_cast; rfl
  have hpos := Nat.two_pow_pos w
  rw [bmod_eq_self_iff] at ha
  rw [hcast] at ha hov
  rw [bne_eq_false_iff_eq, decide_eq_decide] at hneg
  rcases Nat.lt_or_ge 1 b.natAbs with hlt | hge
  · have hhalf : a.natAbs / b.natAbs ≤ a.natAbs / 2 := Nat.div_le_div_left hlt (by decide)
    omega
  · rw [show b.natAbs = 1 by omega, Nat.div_one]
    omega

/-- The rounded quotient is at most one away from the truncated one, and only if that leaves a
remainder. -/
theorem roundedMagnitude_bounds (code : DivTreeCode) (neg : Bool) (n : Nat) (hd : 0 < d) :
    ∃ e : Int, roundedMagnitude code neg n d = quotientSign neg * (n / d : Nat) + e ∧
      -1 ≤ e ∧ e ≤ 1 ∧ (e ≠ 0 → n % d ≠ 0) ∧ (neg = false → 0 ≤ e) := by
  have hmod := Nat.mod_lt n hd
  cases code with
  | truncDivExpr | truncModExpr | exactDivExpr =>
    exact ⟨0, by simp [roundedMagnitude], by decide, by decide, by simp, by simp⟩
  | floorDivExpr | floorModExpr =>
    refine ⟨-if neg = true ∧ n % d ≠ 0 then 1 else 0, by simp [roundedMagnitude, Int.sub_eq_add_neg],
      ?_, ?_, ?_, ?_⟩ <;> split <;> simp_all
  | ceilDivExpr | ceilModExpr =>
    refine ⟨if neg = false ∧ n % d ≠ 0 then 1 else 0, by simp [roundedMagnitude],
      ?_, ?_, ?_, ?_⟩ <;> split <;> simp_all
  | roundDivExpr | roundModExpr =>
    refine ⟨quotientSign neg * if d ≤ 2 * (n % d) then 1 else 0,
      by simp [roundedMagnitude, Int.mul_add], ?_, ?_, ?_, ?_⟩ <;>
      cases neg <;> split <;> simp [quotientSign] <;> omega

/-- A remainder comes with a quotient of at most half the dividend. -/
theorem div_le_half (h0 : n % d ≠ 0) : 2 * (n / d) ≤ n := by
  have hd : 1 < d ∨ d = 0 := by
    by_contra hc
    obtain rfl : d = 1 := by omega
    exact h0 (Nat.mod_one n)
  rcases hd with hd | rfl
  · have hhalf : n / d ≤ n / 2 := Nat.div_le_div_left hd (by decide)
    omega
  · simp

theorem wrap_roundedMagnitude (code : DivTreeCode) (hw : 3 ≤ w) (ha : wrap uns w a = a)
    (hbw : wrap uns w b = b) (hb : b ≠ 0) (hov : ¬(uns = false ∧ a * 2 = -2 ^ w ∧ b = -1)) :
    wrap uns w (roundedMagnitude code (decide (a < 0) != decide (b < 0)) a.natAbs b.natAbs) =
      roundedMagnitude code (decide (a < 0) != decide (b < 0)) a.natAbs b.natAbs := by
  have hcast : (2 : Int) ^ w = (2 ^ w : Nat) := by push_cast; rfl
  have hpow : 2 ^ 3 ≤ 2 ^ w := Nat.pow_le_pow_right (by decide) hw
  have hquo := Nat.div_le_self a.natAbs b.natAbs
  obtain ⟨e, he, hlo, hhi, hinexact, hpos⟩ := roundedMagnitude_bounds code
    (decide (a < 0) != decide (b < 0)) a.natAbs (Int.natAbs_pos.2 hb)
  have hhalf : e ≠ 0 → 2 * (a.natAbs / b.natAbs) ≤ a.natAbs := fun hne => div_le_half (hinexact hne)
  rw [he]
  cases uns with
  | true =>
    obtain ⟨ha0, halt⟩ := (natAbs_of_wrap ha).1 rfl
    have hneg := signs_eq_of_unsigned ha hbw
    have he0 := hpos hneg
    rw [hneg, wrap_true, emod_eq_self_iff, hcast]
    generalize a.natAbs / b.natAbs = q at *
    simp only [quotientSign, Bool.false_eq_true, if_false]
    omega
  | false =>
    have halt := (natAbs_of_wrap ha).2 rfl
    have hfit := quotient_fits (w := w) ha hb (fun hc => hov ⟨rfl, hc⟩)
    rw [wrap_false, bmod_eq_self_iff, hcast]
    generalize a.natAbs / b.natAbs = q at *
    cases hneg : decide (a < 0) != decide (b < 0) with
    | false =>
      have := hfit hneg
      simp only [quotientSign, Bool.false_eq_true, if_false]
      omega
    | true =>
      simp only [quotientSign, if_true]
      omega

theorem stepInt_bounds (code : DivTreeCode) (neg inexact up low : Bool) :
    -1 ≤ stepInt code neg inexact up low ∧ stepInt code neg inexact up low ≤ 1 := by
  cases code with
  | truncDivExpr | truncModExpr | exactDivExpr => exact ⟨by simp [stepInt], by simp [stepInt]⟩
  | floorDivExpr | floorModExpr | ceilDivExpr | ceilModExpr =>
    simp only [stepInt]
    split <;> exact ⟨by decide, by decide⟩
  | roundDivExpr | roundModExpr =>
    simp only [stepInt]
    split_ifs <;> exact ⟨by decide, by decide⟩

end Fits

section DivAndRound

variable {uns : Bool} {num den : DoubleInt h}

/-- The trial remainder, by the sign of the dividend and the magnitudes. -/
theorem trial_remainder_eq (a b : Int) {q : Nat} (hle : q ≤ a.natAbs / b.natAbs) :
    a - quotientSign (decide (a < 0) != decide (b < 0)) * q * b =
      quotientSign (decide (a < 0)) * (a.natAbs - q * b.natAbs : Nat) := by
  have hfit : q * b.natAbs ≤ a.natAbs :=
    (Nat.mul_le_mul_right _ hle).trans (Nat.div_mul_le_self _ _)
  rcases sign_cases a with ⟨ha, ha'⟩ | ⟨ha, ha'⟩ <;>
    rcases sign_cases b with ⟨hb, hb'⟩ | ⟨hb, hb'⟩ <;>
    rw [ha, hb, Int.ofNat_sub hfit] <;> generalize a.natAbs = n at * <;>
    generalize b.natAbs = d at * <;> rw [ha', hb'] <;> simp [quotientSign] <;> ring

def corrected (code : DivTreeCode) (neg : Bool) (quo rem den : DoubleInt h) : DoubleInt h :=
  match correction code neg quo rem den with
  | none => quo
  | some step => (quo.addDouble step).1

theorem bv_corrected (code : DivTreeCode) (neg : Bool) (quo rem den : DoubleInt h) :
    (corrected code neg quo rem den).bv = quo.bv + BitVec.ofInt _
      (stepInt code neg (rem.low != 0 || rem.high != 0) (roundsUp rem den) quo.high.msb) := by
  have hup : BitVec.ofInt (h.bits + h.bits) 1 = (⟨1, 0⟩ : DoubleInt h).bv := by
    rw [bv_one, BitVec.ofInt_ofNat]
    rfl
  have hdown : BitVec.ofInt (h.bits + h.bits) (-1) = (⟨-1, -1⟩ : DoubleInt h).bv := by
    rw [bv_neg_one, BitVec.ofInt_neg, BitVec.ofInt_ofNat]
    rfl
  have hstay : quo.bv + BitVec.ofInt _ 0 = quo.bv := by simp
  unfold corrected
  cases code with
  | truncDivExpr | truncModExpr | exactDivExpr => exact hstay.symm
  | floorDivExpr | floorModExpr =>
    simp only [correction, stepInt]
    cases neg && (rem.low != 0 || rem.high != 0) with
    | false => exact hstay.symm
    | true => simp only [if_true, bv_addDouble, hdown]
  | ceilDivExpr | ceilModExpr =>
    simp only [correction, stepInt]
    cases !neg && (rem.low != 0 || rem.high != 0) with
    | false => exact hstay.symm
    | true => simp only [if_true, bv_addDouble, hup]
  | roundDivExpr | roundModExpr =>
    simp only [correction, stepInt]
    cases roundsUp rem den with
    | false => exact hstay.symm
    | true =>
      cases quo.high.msb with
      | false => simp only [if_true, Bool.false_eq_true, if_false, bv_addDouble, hup]
      | true => simp only [if_true, bv_addDouble, hdown]

/-- The division for a divisor that is not zero. -/
theorem divAndRound_of_ne_zero (code : DivTreeCode) (hden : den.bv ≠ 0) :
    (divAndRound code uns num den).quo =
        corrected code (isNeg uns num != isNeg uns den) (trialQuotient uns num den)
          (remainder num (trialQuotient uns num den) den) (absolute uns den) ∧
      (divAndRound code uns num den).rem =
        remainder num (divAndRound code uns num den).quo den := by
  rw [ne_eq, bv_eq_zero_iff] at hden
  rw [divAndRound, corrected]
  simp only [hden, decide_false, Bool.false_eq_true, if_false]
  cases correction code (isNeg uns num != isNeg uns den) (trialQuotient uns num den)
      (remainder num (trialQuotient uns num den) den) (absolute uns den) with
  | none => exact ⟨rfl, rfl⟩
  | some step => exact ⟨rfl, rfl⟩

theorem bv_quotient (code : DivTreeCode) {q : Nat} (hden : den.bv ≠ 0)
    (hov : ¬Overflows uns num den)
    (hq : q = (unsignedQuotient (absolute uns num) (absolute uns den)).toNat)
    (hle : q ≤ (num.value uns).natAbs / (den.value uns).natAbs) :
    (divAndRound code uns num den).quo.bv =
      BitVec.ofInt _ (quotientSign (isNeg uns num != isNeg uns den) * q +
        stepInt code (isNeg uns num != isNeg uns den)
          (decide ((num.value uns).natAbs - q * (den.value uns).natAbs ≠ 0))
          (upInt (2 ^ (h.bits + h.bits)) (den.value uns).natAbs
            ((num.value uns).natAbs - q * (den.value uns).natAbs))
          (lowInt uns (isNeg uns num != isNeg uns den) (2 ^ (h.bits + h.bits)) q)) := by
  have htrial := bv_trialQuotient uns num den
  rw [← hq] at htrial
  have hn := natAbs_lt (wrap_value uns num)
  have hqn : q ≤ (num.value uns).natAbs := hle.trans (Nat.div_le_self _ _)
  -- the trial remainder is what the truncated quotient leaves
  have hrem : (remainder num (trialQuotient uns num den) den).bv =
      BitVec.ofInt _ (quotientSign (decide (num.value uns < 0)) *
        ((num.value uns).natAbs - q * (den.value uns).natAbs : Nat)) := by
    rw [← trial_remainder_eq _ _ hle, ← isNeg_eq, ← isNeg_eq, bv_remainder, htrial,
      ← ofInt_value uns num, ← ofInt_value uns den, ← BitVec.ofInt_mul, BitVec.sub_eq_add_neg,
      ← BitVec.ofInt_neg, ← BitVec.ofInt_add, ← Int.sub_eq_add_neg]
  have hlow : (trialQuotient uns num den).high.msb =
      lowInt uns (isNeg uns num != isNeg uns den) (2 ^ (h.bits + h.bits)) q := by
    refine reads_negative_eq (by omega) ?_ ?_ htrial
    · rintro rfl
      rfl
    · rintro rfl
      split
      · have := (natAbs_of_wrap (wrap_value false num)).2 rfl
        omega
      · next hneg =>
        rw [overflows_iff] at hov
        rw [isNeg_eq, isNeg_eq] at hneg
        have hne : den.value false ≠ 0 := by
          intro h0
          rw [← ofInt_value false, h0] at hden
          exact hden (by rw [BitVec.ofInt_ofNat]; rfl)
        have := quotient_fits (wrap_value false num) hne (fun hc => hov ⟨rfl, hc⟩)
          (Bool.eq_false_iff.2 hneg)
        omega
  rw [(divAndRound_of_ne_zero code hden).1, bv_corrected, inexact_eq (by omega) hrem,
    roundsUp_eq (by omega) hrem, absolute_toNat, hlow, htrial, BitVec.ofInt_add]

/-- A correction reaches the rounded quotient just when the division is right. -/
theorem stepInt_right_iff (code : DivTreeCode) (uns neg : Bool) {n d q : Nat} (hd : 0 < d)
    (hq : h.QuotientIs n d q)
    (hun : uns = true → neg = false ∧ n < 2 ^ (h.bits + h.bits) ∧ d < 2 ^ (h.bits + h.bits))
    (hsi : uns = false → 2 * d ≤ 2 ^ (h.bits + h.bits)) :
    quotientSign neg * q + stepInt code neg (decide (n - q * d ≠ 0))
          (upInt (2 ^ (h.bits + h.bits)) d (n - q * d))
          (lowInt uns neg (2 ^ (h.bits + h.bits)) q) = roundedMagnitude code neg n d ↔
      DivisionRight h code uns neg n d := by
  cases code with
  | truncDivExpr | truncModExpr | exactDivExpr =>
    simp only [stepInt, Int.add_zero]
    exact trunc_right_iff hq
  | floorDivExpr | floorModExpr => exact floor_right_iff hd hq
  | ceilDivExpr | ceilModExpr => exact ceil_right_iff hd hq
  | roundDivExpr | roundModExpr => exact round_right_iff hd hq hun hsi

/-- A quotient that is too low is not too low to be told from the right one. -/
theorem quotient_gap {n d q : Nat} {w : Nat} (hq : h.QuotientIs n d q) (hn : n < 2 ^ w) :
    2 * (n / d - q) < 2 ^ w := by
  by_cases hr : h.QuotientRight n d
  · rw [hq.1 hr, Nat.sub_self]
    exact Nat.two_pow_pos w
  · have hbits : 2 ^ 32 ≤ 2 ^ h.bits := Nat.pow_le_pow_right (by decide) h.wide
    have hd := (hq.2 hr).2.1
    have hhalf : n / d ≤ n / 2 := Nat.div_le_div_left (by omega) (by decide)
    omega

theorem natAbs_sub_lt {neg : Bool} {q Q N : Nat} {s e : Int} (hle : q ≤ Q) (hgap : 2 * (Q - q) < N)
    (hN : 2 ^ 3 ≤ N) (hs : -1 ≤ s ∧ s ≤ 1) (he : -1 ≤ e ∧ e ≤ 1) :
    (quotientSign neg * q + s - (quotientSign neg * Q + e)).natAbs < N := by
  cases neg with
  | false =>
    simp only [quotientSign, Bool.false_eq_true, if_false]
    omega
  | true =>
    simp only [quotientSign, if_true]
    omega

/-- The quotient that is stored is the rounded one just when the division is right. -/
theorem quotient_right_iff (code : DivTreeCode) (hden : den.bv ≠ 0)
    (hov : ¬Overflows uns num den) :
    (divAndRound code uns num den).quo.value uns =
        roundedQuotient code (num.value uns) (den.value uns) ↔
      DivisionRight h code uns (decide (num.value uns < 0) != decide (den.value uns < 0))
        (num.value uns).natAbs (den.value uns).natAbs := by
  have hb : den.value uns ≠ 0 := by
    intro h0
    rw [← ofInt_value uns, h0] at hden
    exact hden (by rw [BitVec.ofInt_ofNat]; rfl)
  have hd : 0 < (den.value uns).natAbs := Int.natAbs_pos.2 hb
  have hn := natAbs_lt (wrap_value uns num)
  have hdlt := natAbs_lt (wrap_value uns den)
  have hbits := h.wide
  have hpow : 2 ^ 3 ≤ 2 ^ (h.bits + h.bits) := Nat.pow_le_pow_right (by decide) (by omega)
  have hq := unsignedQuotient_eq (absolute uns num) (absolute uns den)
    (by rwa [absolute_toNat])
  rw [absolute_toNat, absolute_toNat] at hq
  have hstored := value_of_bv uns (bv_quotient code hden hov rfl (quotient_le hq))
  rw [isNeg_eq, isNeg_eq] at hstored
  have hfits : wrap uns (h.bits + h.bits) (roundedQuotient code (num.value uns) (den.value uns)) =
      roundedQuotient code (num.value uns) (den.value uns) := by
    rw [roundedQuotient_eq code _ hb]
    exact wrap_roundedMagnitude code (by omega) (wrap_value uns num) (wrap_value uns den) hb
      (fun hc => hov ((overflows_iff uns num den).2 hc))
  have hright := stepInt_right_iff code uns
    (decide (num.value uns < 0) != decide (den.value uns < 0)) hd hq
    (fun hu => ⟨by
      obtain rfl := hu
      exact signs_eq_of_unsigned (wrap_value true num) (wrap_value true den), hn, hdlt⟩)
    (fun hs => (natAbs_of_wrap (wrap_value uns den)).2 hs)
  rw [← hright, ← roundedQuotient_eq code _ hb, hstored]
  constructor
  · intro heq
    refine eq_of_wrap_eq ?_ (heq.trans hfits.symm)
    -- the two are less than the size apart
    rw [roundedQuotient_eq code _ hb]
    obtain ⟨e, he, hlo, hhi, -, -⟩ := roundedMagnitude_bounds code
      (decide (num.value uns < 0) != decide (den.value uns < 0)) (num.value uns).natAbs hd
    rw [he]
    exact natAbs_sub_lt (quotient_le hq) (quotient_gap hq hn) hpow (stepInt_bounds code _ _ _ _)
      ⟨hlo, hhi⟩
  · intro heq
    rw [heq, hfits]

end DivAndRound

end DoubleInt

open DoubleInt

variable {h : Host}

/-- Exactly when a division is right: where it reports that it is not, and otherwise where the
quotient without signs is right and the rounding codes see the tie and the sign as they are. -/
theorem div_and_round_right_iff (code : DivTreeCode) (uns : Bool) (num den : DoubleInt h) :
    DividesRight code uns num den (divAndRound code uns num den) ↔
      den.bv = 0 ∨ Overflows uns num den ∨
        DivisionRight h code uns (decide (num.value uns < 0) != decide (den.value uns < 0))
          (num.value uns).natAbs (den.value uns).natAbs := by
  unfold DividesRight
  rw [and_iff_right (overflow_iff code uns num den)]
  by_cases hden : den.bv = 0
  · simp [hden]
  by_cases hov : Overflows uns num den
  · simp [hov]
  simp only [hden, hov, ne_eq, not_false_eq_true, true_implies, false_or]
  -- the remainder always belongs to the quotient
  rw [(divAndRound_of_ne_zero code hden).2, and_iff_left (remainder_eq uns _ _ _),
    quotient_right_iff code hden hov]

/-- 2^32 divided by 2^32 - 1, without signs: the quotient is 0. -/
theorem div_and_round_wrong_short :
    ¬DividesRight (h := host32) .truncDivExpr true ⟨0, 1⟩ ⟨0xffffffff, 0⟩
      (divAndRound .truncDivExpr true ⟨0, 1⟩ ⟨0xffffffff, 0⟩) := by
  intro hr
  have hquo := (hr.2 (by decide) fun hc => absurd hc.1 (by decide)).1
  revert hquo
  decide

end Z80Gcc
