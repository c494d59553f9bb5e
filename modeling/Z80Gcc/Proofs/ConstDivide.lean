import Z80Gcc.Spec.ConstBinop
import Z80Gcc.Proofs.DivRound

/-! The shortcuts of `int_const_binop` for divisions, against `div_and_round_double`. -/

namespace Z80Gcc

open DoubleInt

variable {h : Host}

namespace DoubleInt

section Stored

variable {code : DivTreeCode} {uns : Bool} {num den : DoubleInt h}

def exactPart (code : DivTreeCode) (a b : Int) : Int :=
  match code with
  | .truncDivExpr | .floorDivExpr | .ceilDivExpr | .exactDivExpr | .roundDivExpr =>
      roundedQuotient code a b
  | .truncModExpr | .floorModExpr | .ceilModExpr | .roundModExpr =>
      a - roundedQuotient code a b * b

theorem bv_part (hden : den.bv ≠ 0) (hov : ¬Overflows uns num den)
    (hr : DivisionRight h code uns (decide (num.value uns < 0) != decide (den.value uns < 0))
      (num.value uns).natAbs (den.value uns).natAbs) :
    ((divAndRound code uns num den).part code).bv =
      BitVec.ofInt _ (exactPart code (num.value uns) (den.value uns)) := by
  obtain ⟨-, hright⟩ := (div_and_round_right_iff code uns num den).2 (.inr (.inr hr))
  obtain ⟨hquo, hrem⟩ := hright hden hov
  cases code with
  | truncDivExpr | floorDivExpr | ceilDivExpr | exactDivExpr | roundDivExpr =>
    rw [DivResult.part, exactPart, ← hquo, ofInt_value]
  | truncModExpr | floorModExpr | ceilModExpr | roundModExpr =>
    rw [DivResult.part, hrem, hquo, exactPart]

end Stored

section Exact

variable {n d : Nat}

/-- A quotient without remainder does not have to be rounded. -/
theorem divisionRight_of_mod_eq_zero (code : DivTreeCode) (uns neg : Bool) (hd : 0 < d)
    (hq : h.QuotientRight n d) (hmod : n % d = 0) : DivisionRight h code uns neg n d := by
  have htie : TieRight h uns neg n d := by
    unfold TieRight
    rw [hmod]
    have hpos : 0 < 2 ^ (h.bits + h.bits) := Nat.two_pow_pos _
    split
    · omega
    · exact ⟨by omega, fun hc => absurd hc.2.1 (Nat.not_lt_zero d)⟩
  unfold DivisionRight
  split
  · exact .inl ⟨hq, htie⟩
  · exact .inl ⟨hq, htie⟩
  · exact hq

/-- The codes that do not round to the nearest only need the quotient without signs. -/
theorem divisionRight_of_quotientRight {code : DivTreeCode} (uns neg : Bool)
    (hq : h.QuotientRight n d) (hcode : code ≠ .roundDivExpr ∧ code ≠ .roundModExpr) :
    DivisionRight h code uns neg n d := by
  unfold DivisionRight
  split
  · exact absurd rfl hcode.1
  · exact absurd rfl hcode.2
  · exact hq

theorem quotientRight_of_lt (hn : n < 2 ^ h.bits) : h.QuotientRight n d :=
  fun hge => absurd hge (Nat.not_le.2 hn)

theorem quotientRight_one : h.QuotientRight n 1 := by
  intro _ hge
  have : 2 ^ 2 ≤ 2 ^ h.bits := Nat.pow_le_pow_right (by decide) (by have := h.wide; omega)
  omega

theorem quotientRight_self : h.QuotientRight n n :=
  fun hge _ hlt => absurd hge (Nat.not_le.2 hlt)

end Exact

section Trivial

variable {uns : Bool} {num den : DoubleInt h}

theorem value_of_toNat_lt {x : DoubleInt h} (hx : 2 * x.toNat < 2 ^ (h.bits + h.bits)) :
    x.value uns = x.toNat := by
  cases uns with
  | true => exact value_true x
  | false => rw [value_false, if_pos hx]

theorem two_lt_two_pow : 2 < 2 ^ (h.bits + h.bits) := by
  have hw := h.wide
  have : 2 ^ 2 ≤ 2 ^ (h.bits + h.bits) := Nat.pow_le_pow_right (by decide) (by omega)
  omega

theorem toNat_one : (⟨1, 0⟩ : DoubleInt h).toNat = 1 := by
  have hone : (1 : BitVec h.bits).toNat = 1 := BitVec.toNat_one h.bits_pos
  rw [toNat, hone]
  simp

theorem bv_ne_zero_of_value (hden : den.value uns ≠ 0) : den.bv ≠ 0 := by
  intro h0
  have hzero : den.toNat = 0 := by
    rw [← bv_toNat, h0]
    simp
  have hval : den.value uns = den.toNat :=
    value_of_toNat_lt (by rw [hzero]; exact Nat.two_pow_pos _)
  rw [hval, hzero] at hden
  exact hden rfl

theorem roundedQuotient_mul (code : DivTreeCode) {b : Int} (hb : b ≠ 0) (k : Int) :
    roundedQuotient code (b * k) b = k := by
  cases code with
  | truncDivExpr | truncModExpr | exactDivExpr => exact Int.mul_tdiv_cancel_left k hb
  | floorDivExpr | floorModExpr => exact Int.mul_fdiv_cancel_left k hb
  | ceilDivExpr | ceilModExpr =>
    rw [roundedQuotient, ← Int.mul_neg, Int.mul_fdiv_cancel_left _ hb, Int.neg_neg]
  | roundDivExpr | roundModExpr =>
    have hzero : (b * k).tmod b = 0 := Int.mul_tmod_right b k
    have hpos : 0 < |b| := abs_pos.2 hb
    rw [roundedQuotient, hzero, if_neg (by simpa using hpos), Int.mul_tdiv_cancel_left k hb]

/-- Division by one, and of a number by itself, is right under each code. -/
theorem bv_quo_trivial (code : DivTreeCode) {k : Int} (hden : den.value uns ≠ 0)
    (hk : num.value uns = den.value uns * k) (htriv : k = 1 ∨ den.value uns = 1) :
    (divAndRound code uns num den).quo.bv = BitVec.ofInt _ k := by
  have hpos : 0 < (den.value uns).natAbs := Int.natAbs_pos.2 hden
  have hmod : (num.value uns).natAbs % (den.value uns).natAbs = 0 := by
    rw [hk, Int.natAbs_mul, Nat.mul_mod_right]
  have hq : h.QuotientRight (num.value uns).natAbs (den.value uns).natAbs := by
    rcases htriv with rfl | h1
    · rw [hk, Int.mul_one]
      exact quotientRight_self
    · rw [h1]
      exact quotientRight_one
  have hov : ¬Overflows uns num den := by
    rw [overflows_iff]
    rintro ⟨-, hmin, hone⟩
    have hbig : (2 : Int) < 2 ^ (h.bits + h.bits) := by exact_mod_cast two_lt_two_pow (h := h)
    rcases htriv with rfl | h1 <;> omega
  obtain ⟨-, hright⟩ := (div_and_round_right_iff code uns num den).2
    (.inr (.inr (divisionRight_of_mod_eq_zero code uns _ hpos hq hmod)))
  have hquo := (hright (bv_ne_zero_of_value hden) hov).1
  rw [hk, roundedQuotient_mul code hden] at hquo
  rw [← ofInt_value uns, hquo]

end Trivial


section Ceiling

variable {n d : Nat}

theorem neg_neg_fdiv (n : Nat) (hd : 0 < d) :
    -((-(n : Int)).fdiv d) = ((n + (d - 1)) / d : Nat) := by
  have hsplit := Nat.div_add_mod' n d
  have hlt := Nat.mod_lt n hd
  have hup : (n + (d - 1)) / d = n / d + if n % d ≠ 0 then 1 else 0 := by
    apply Nat.div_eq_of_lt_le
    · split <;> simp only [Nat.add_mul, Nat.one_mul, Nat.zero_mul] <;> omega
    · split <;> simp only [Nat.add_mul, Nat.one_mul, Nat.zero_mul] <;> omega
  rw [neg_fdiv_natCast n hd, hup]
  push_cast
  ring

theorem sub_neg_neg_fdiv (n : Nat) (hd : 0 < d) :
    (n : Int) - -((-(n : Int)).fdiv d) * d = ((n + (d - 1)) % d : Nat) - ((d - 1 : Nat) : Int) := by
  have hsplit := Nat.div_add_mod' (n + (d - 1)) d
  rw [neg_neg_fdiv n hd]
  zify at hsplit ⊢
  linear_combination -hsplit

theorem mod_eq_pred_iff (hd : 0 < d) : (n + (d - 1)) % d = d - 1 ↔ d ∣ n := by
  have hsplit := Nat.div_add_mod (n + (d - 1)) d
  constructor
  · intro heq
    have hsum : n + d = d * ((n + (d - 1)) / d) + d := by omega
    exact (Nat.dvd_add_iff_left (dvd_refl d)).2 (hsum ▸ (Dvd.intro _ rfl).add (dvd_refl d))
  · rintro ⟨k, rfl⟩
    rw [Nat.mul_add_mod, Nat.mod_eq_of_lt (by omega)]

/-- A sum that has gone round, for a dividend without remainder. -/
theorem wrapped_mod_iff {W : Nat} (hd : 0 < d) (hle : n + (d - 1) ≤ W) (hn : d ∣ n) :
    (W - (n + (d - 1))) % d = 0 ↔ d ∣ W + 1 := by
  have hsum : W + 1 = W - (n + (d - 1)) + (n + d) := by omega
  rw [← Nat.dvd_iff_mod_eq_zero, hsum]
  exact Nat.dvd_add_iff_left (hn.add (dvd_refl d))

end Ceiling

section Small

/-! Operands below half the range of a word. -/

variable {n d : Nat}

/-- A word with nothing above it, as a signed result of one word. -/
theorem bv_word_eq_iff {low : BitVec h.bits} {v : Int} (hlo : -2 ^ h.bits ≤ 2 * v)
    (hhi : 2 * v < 2 ^ h.bits) :
    (⟨low, 0⟩ : DoubleInt h).bv = BitVec.ofInt _ v ↔ low.toInt = v ∧ 0 ≤ v := by
  have hcast : (2 : Int) ^ h.bits = (2 ^ h.bits : Nat) := by push_cast; rfl
  have hlt := low.isLt
  have hnat : (⟨low, 0⟩ : DoubleInt h).toNat = low.toNat := toNat_of_high_eq_zero rfl
  have hsize : 2 * 2 ^ h.bits ≤ 2 ^ (h.bits + h.bits) := by
    rw [← pow_succ']
    exact Nat.pow_le_pow_right (by decide) (by have := h.bits_pos; omega)
  have hint := BitVec.toInt_eq_toNat_cond low
  rw [hcast] at hlo hhi
  constructor
  · intro heq
    have hval : WrapInt.wrap true (h.bits + h.bits) low.toNat =
        WrapInt.wrap true (h.bits + h.bits) v := by
      rw [← value_of_bv true heq, ← hnat]
      exact (value_of_bv true (bv_eq_ofInt_toNat _)).symm
    have : (low.toNat : Int) = v := eq_of_wrap_eq (by omega) hval
    rw [if_pos (by omega)] at hint
    omega
  · rintro ⟨heq, h0⟩
    rw [bv_eq_ofInt_toNat, hnat, ← heq]
    congr 1
    split at hint <;> omega

/-- The sum that the ceiling codes start from, as a signed word. -/
theorem toInt_ceilSum {a b : BitVec h.bits} (hd : 0 < b.toNat) (ha : 2 * a.toNat < 2 ^ h.bits)
    (hb : 2 * b.toNat < 2 ^ h.bits) :
    (a + (b - 1)).toInt = if 2 * (a.toNat + (b.toNat - 1)) < 2 ^ h.bits then
      ((a.toNat + (b.toNat - 1) : Nat) : Int) else
      ((a.toNat + (b.toNat - 1) : Nat) : Int) - (2 ^ h.bits : Nat) := by
  have hone : (1 : BitVec h.bits).toNat = 1 := BitVec.toNat_one h.bits_pos
  have hpred : (b - 1).toNat = b.toNat - 1 := by
    rw [BitVec.toNat_sub_of_le (by rw [BitVec.le_def, hone]; omega), hone]
  have hsum : (a + (b - 1)).toNat = a.toNat + (b.toNat - 1) := by
    rw [BitVec.toNat_add, hpred, Nat.mod_eq_of_lt (by omega)]
  rw [BitVec.toInt_eq_toNat_cond, hsum]

theorem toInt_small {a : BitVec h.bits} (ha : 2 * a.toNat < 2 ^ h.bits) : a.toInt = a.toNat := by
  rw [BitVec.toInt_eq_toNat_cond, if_pos ha]

theorem ne_neg_one_of_small {b : BitVec h.bits} (hb : 2 * b.toNat < 2 ^ h.bits) :
    b ≠ -1#h.bits := by
  rintro rfl
  have : 2 ^ 2 ≤ 2 ^ h.bits := Nat.pow_le_pow_right (by decide) (by have := h.wide; omega)
  rw [BitVec.neg_one_eq_allOnes, BitVec.toNat_allOnes] at hb
  omega

theorem toInt_sdiv_small (a : BitVec h.bits) {b : BitVec h.bits} (hb : 2 * b.toNat < 2 ^ h.bits) :
    (a.sdiv b).toInt = a.toInt.tdiv b.toNat := by
  rw [BitVec.toInt_sdiv_of_ne_or_ne _ _ (.inr (ne_neg_one_of_small hb)), toInt_small hb]

theorem toInt_srem_small (a : BitVec h.bits) {b : BitVec h.bits} (hb : 2 * b.toNat < 2 ^ h.bits) :
    (a.srem b).toInt = a.toInt.tmod b.toNat := by
  rw [BitVec.toInt_srem, toInt_small hb]

end Small

end DoubleInt

section Shortcuts

variable {arg1 arg2 : IntCst h}

theorem small_of_smallOperands (hs : smallOperands arg1 arg2 = true) :
    (arg1.words.high = 0 ∧ 2 * arg1.words.low.toNat < 2 ^ h.bits) ∧
      arg2.words.high = 0 ∧ 0 < arg2.words.low.toNat ∧
        2 * arg2.words.low.toNat < 2 ^ h.bits := by
  simp only [smallOperands, Bool.and_eq_true, beq_iff_eq, Bool.not_eq_true'] at hs
  obtain ⟨⟨⟨⟨⟨hhigh2, hpos⟩, -⟩, -⟩, hhigh1⟩, hmsb⟩ := hs
  have hint := BitVec.toInt_eq_toNat_cond arg2.words.low
  have hlt := arg2.words.low.isLt
  rw [BitVec.slt_iff_toInt_lt] at hpos
  rw [BitVec.msb_eq_false_iff_two_mul_lt] at hmsb
  have hzero : (0 : BitVec h.bits).toInt = 0 := BitVec.toInt_zero
  split at hint <;> exact ⟨⟨hhigh1, hmsb⟩, hhigh2, by omega, by omega⟩

/-- The shortcuts for a divisor of one and for equal operands give the quotient. -/
theorem trivialQuotient_agrees (code : DivTreeCode) (uns : Bool) {num den words : DoubleInt h}
    (ht : trivialQuotient num den = some words) : words = (divAndRound code uns num den).quo := by
  unfold trivialQuotient at ht
  split at ht
  · next hone =>
    obtain rfl := Option.some.inj ht
    have hval : den.value uns = 1 := by
      have hden : den = ⟨1, 0⟩ := DoubleInt.ext hone.2 hone.1
      rw [value_of_toNat_lt (by rw [hden, toNat_one]; exact two_lt_two_pow), hden, toNat_one]
      rfl
    rw [← bv_inj, bv_quo_trivial code (by rw [hval]; decide) (by rw [hval, Int.one_mul]) (.inr hval),
      ofInt_value]
  · split at ht
    · next heq =>
      obtain rfl := Option.some.inj ht
      obtain rfl : num = den := DoubleInt.ext heq.1 heq.2.1
      have hne : num.value uns ≠ 0 := by
        intro h0
        have hbv : num.bv = 0 := by
          rw [← ofInt_value uns, h0]
          simp
        exact heq.2.2 ((bv_eq_zero_iff num).1 hbv).symm
      rw [← bv_inj, bv_quo_trivial code hne (Int.mul_one _).symm (.inl rfl), bv_one]
      simp
    · cases ht

/-- When the shortcut for small operands gives what the division would: always, but for the two
codes that round up. There the sum may leave the signed word, and a remainder is taken from a
quotient that is too large. -/
def SmallExact (h : Host) (code : DivTreeCode) (n d : Nat) : Prop :=
  match code with
  | .ceilDivExpr => 2 * (n + (d - 1)) < 2 ^ h.bits
  | .ceilModExpr => d = 1 ∨ 2 ^ h.bits ≤ 2 * (n + (d - 1)) ∧ d ∣ n ∧ d ∣ 2 ^ h.bits + 1
  | _ => True

theorem bv_part_small {code : DivTreeCode} (uns : Bool)
    (hcode : code ≠ .roundDivExpr ∧ code ≠ .roundModExpr)
    (hs : smallOperands arg1 arg2 = true) :
    ((divAndRound code uns arg1.words arg2.words).part code).bv =
      BitVec.ofInt _ (exactPart code arg1.words.low.toNat arg2.words.low.toNat) := by
  obtain ⟨⟨hhigh1, hn⟩, hhigh2, hpos, hd⟩ := small_of_smallOperands hs
  have hsize : 2 ^ h.bits ≤ 2 ^ (h.bits + h.bits) :=
    Nat.pow_le_pow_right (by decide) (Nat.le_add_right _ _)
  have hnum : arg1.words.value uns = arg1.words.low.toNat := by
    rw [← toNat_of_high_eq_zero hhigh1]
    exact value_of_toNat_lt (by rw [toNat_of_high_eq_zero hhigh1]; omega)
  have hden : arg2.words.value uns = arg2.words.low.toNat := by
    rw [← toNat_of_high_eq_zero hhigh2]
    exact value_of_toNat_lt (by rw [toNat_of_high_eq_zero hhigh2]; omega)
  have hne : arg2.words.value uns ≠ 0 := by omega
  rw [← hnum, ← hden]
  refine bv_part (bv_ne_zero_of_value hne) ?_ ?_
  · rw [overflows_iff]
    omega
  · refine divisionRight_of_quotientRight _ _ (quotientRight_of_lt ?_) hcode
    rw [hnum, Int.natAbs_natCast]
    omega

section Ceil

variable {a b : BitVec h.bits} (hpos : 0 < b.toNat) (ha : 2 * a.toNat < 2 ^ h.bits)
  (hb : 2 * b.toNat < 2 ^ h.bits)

include hpos ha hb

omit hpos in
theorem quotient_word :
    (⟨a.sdiv b, 0⟩ : DoubleInt h).bv = BitVec.ofInt _ ((a.toNat / b.toNat : Nat) : Int) := by
  have hcast : (2 : Int) ^ h.bits = (2 ^ h.bits : Nat) := by push_cast; rfl
  have hle := Nat.div_le_self a.toNat b.toNat
  have hnonneg := Int.natCast_nonneg (a.toNat / b.toNat)
  rw [bv_word_eq_iff (by omega) (by omega), toInt_sdiv_small _ hb, toInt_small ha]
  exact ⟨rfl, Int.natCast_nonneg _⟩

omit hpos in
theorem remainder_word :
    (⟨a.srem b, 0⟩ : DoubleInt h).bv = BitVec.ofInt _ ((a.toNat % b.toNat : Nat) : Int) := by
  have hcast : (2 : Int) ^ h.bits = (2 ^ h.bits : Nat) := by push_cast; rfl
  have hle := Nat.mod_le a.toNat b.toNat
  rw [bv_word_eq_iff (by omega) (by omega), toInt_srem_small _ hb, toInt_small ha]
  exact ⟨rfl, Int.natCast_nonneg _⟩

omit hpos in
theorem sub_of_wrapped :
    ((a.toNat + (b.toNat - 1) : Nat) : Int) - (2 ^ h.bits : Nat) =
      -((2 ^ h.bits - (a.toNat + (b.toNat - 1)) : Nat) : Int) := by
  omega

/-- The sum of the ceiling division has to stay in the signed word. -/
theorem ceilDiv_word_iff :
    (⟨(a + (b - 1)).sdiv b, 0⟩ : DoubleInt h).bv =
        BitVec.ofInt _ (exactPart .ceilDivExpr a.toNat b.toNat) ↔
      SmallExact h .ceilDivExpr a.toNat b.toNat := by
  rw [exactPart, roundedQuotient, neg_neg_fdiv _ hpos, SmallExact]
  have hcast : (2 : Int) ^ h.bits = (2 ^ h.bits : Nat) := by push_cast; rfl
  have hquo : 2 * ((a.toNat + (b.toNat - 1)) / b.toNat) < 2 ^ h.bits := by
    rcases Nat.lt_or_ge 1 b.toNat with hd | hd
    · have hhalf : (a.toNat + (b.toNat - 1)) / b.toNat ≤ (a.toNat + (b.toNat - 1)) / 2 :=
        Nat.div_le_div_left hd (by decide)
      omega
    · rwa [show b.toNat = 1 by omega, Nat.sub_self, Nat.add_zero, Nat.div_one]
  have hbig : 2 ^ h.bits ≤ 2 * (a.toNat + (b.toNat - 1)) →
      0 < (a.toNat + (b.toNat - 1)) / b.toNat := fun hge => Nat.div_pos (by omega) hpos
  rw [bv_word_eq_iff (by omega) (by omega), toInt_sdiv_small _ hb, toInt_ceilSum hpos ha hb]
  split
  · next hlt => exact iff_of_true ⟨rfl, by omega⟩ hlt
  · next hge =>
    refine iff_of_false (fun hc => ?_) hge
    rw [sub_of_wrapped ha hb, Int.neg_tdiv, ← Int.ofNat_tdiv] at hc
    have hnonneg := Int.natCast_nonneg ((2 ^ h.bits - (a.toNat + (b.toNat - 1))) / b.toNat)
    have := hbig (by omega)
    omega

theorem ceilMod_word_iff :
    (⟨(a + (b - 1)).srem b, 0⟩ : DoubleInt h).bv =
        BitVec.ofInt _ (exactPart .ceilModExpr a.toNat b.toNat) ↔
      SmallExact h .ceilModExpr a.toNat b.toNat := by
  rw [exactPart, roundedQuotient, sub_neg_neg_fdiv _ hpos, SmallExact]
  have hmod := Nat.mod_lt (a.toNat + (b.toNat - 1)) hpos
  have hcast : (2 : Int) ^ h.bits = (2 ^ h.bits : Nat) := by push_cast; rfl
  have hdvd := mod_eq_pred_iff (n := a.toNat) hpos
  rw [bv_word_eq_iff (by omega) (by omega), toInt_srem_small _ hb, toInt_ceilSum hpos ha hb]
  split
  · next hlt =>
    have hone : b.toNat = 1 → a.toNat % b.toNat = 0 := fun h1 => by rw [h1, Nat.mod_one]
    rw [← Int.ofNat_tmod]
    constructor
    · intro hc
      exact .inl (by omega)
    · rintro (h1 | hc)
      · rw [h1]
        simp
      · omega
  · next hge =>
    have hwrap : b.toNat ∣ a.toNat → _ :=
      wrapped_mod_iff hpos (show a.toNat + (b.toNat - 1) ≤ 2 ^ h.bits by omega)
    rw [sub_of_wrapped ha hb, Int.neg_tmod, ← Int.ofNat_tmod]
    constructor
    · intro hc
      have hn : b.toNat ∣ a.toNat := hdvd.1 (by omega)
      exact .inr ⟨by omega, hn, (hwrap hn).1 (by omega)⟩
    · rintro (h1 | ⟨-, hn, hw⟩)
      · omega
      · have hzero := (hwrap hn).2 hw
        have hpred := hdvd.2 hn
        omega

end Ceil

theorem smallShortcut_iff (code : DivTreeCode) {words : DoubleInt h} (uns : Bool)
    (hs : smallOperands arg1 arg2 = true) (hcode : code ≠ .roundDivExpr ∧ code ≠ .roundModExpr)
    (hw : divShortcut code arg1 arg2 = some words) :
    words = (divAndRound code uns arg1.words arg2.words).part code ↔
      SmallExact h code arg1.words.low.toNat arg2.words.low.toNat := by
  obtain ⟨⟨-, hn⟩, -, hpos, hd⟩ := small_of_smallOperands hs
  have hmod : ∀ n d : Nat, (n : Int) - (n / d : Nat) * d = (n % d : Nat) := by
    intro n d
    have hsplit := Nat.div_add_mod' n d
    zify at hsplit ⊢
    linear_combination -hsplit
  rw [← bv_inj, bv_part_small uns hcode hs]
  cases code with
  | truncDivExpr | exactDivExpr =>
    rw [divShortcut, if_pos hs] at hw
    obtain rfl := Option.some.inj hw
    exact iff_of_true (quotient_word hn hd) trivial
  | floorDivExpr =>
    rw [divShortcut, if_pos hs] at hw
    obtain rfl := Option.some.inj hw
    rw [exactPart, roundedQuotient, fdiv_natCast]
    exact iff_of_true (quotient_word hn hd) trivial
  | ceilDivExpr =>
    rw [divShortcut, if_pos hs] at hw
    obtain rfl := Option.some.inj hw
    exact ceilDiv_word_iff hpos hn hd
  | truncModExpr =>
    rw [divShortcut, if_pos hs] at hw
    obtain rfl := Option.some.inj hw
    rw [exactPart, roundedQuotient, ← Int.ofNat_tdiv, hmod]
    exact iff_of_true (remainder_word hn hd) trivial
  | floorModExpr =>
    rw [divShortcut, if_pos hs] at hw
    obtain rfl := Option.some.inj hw
    rw [exactPart, roundedQuotient, fdiv_natCast, hmod]
    exact iff_of_true (remainder_word hn hd) trivial
  | ceilModExpr =>
    rw [divShortcut, if_pos hs] at hw
    obtain rfl := Option.some.inj hw
    exact ceilMod_word_iff hpos hn hd
  | roundDivExpr => exact absurd rfl hcode.1
  | roundModExpr => exact absurd rfl hcode.2

/-- When a shortcut is not for small operands. -/
theorem shortcut_of_not_small {code : DivTreeCode} {words : DoubleInt h}
    (hw : divShortcut code arg1 arg2 = some words)
    (hs : ¬(smallOperands arg1 arg2 = true ∧ code ≠ .roundDivExpr)) :
    trivialQuotient arg1.words arg2.words = some words ∧
      ∀ r : DivResult h, r.part code = r.quo := by
  cases code with
  | truncDivExpr | floorDivExpr | ceilDivExpr | exactDivExpr =>
    rw [divShortcut, if_neg fun hc => hs ⟨hc, by decide⟩] at hw
    exact ⟨hw, fun _ => rfl⟩
  | roundDivExpr => exact ⟨hw, fun _ => rfl⟩
  | truncModExpr | floorModExpr | ceilModExpr =>
    rw [divShortcut, if_neg fun hc => hs ⟨hc, by decide⟩] at hw
    cases hw
  | roundModExpr => cases hw

theorem exists_small_shortcut {code : DivTreeCode} (hs : smallOperands arg1 arg2 = true)
    (hcode : code ≠ .roundDivExpr ∧ code ≠ .roundModExpr) :
    ∃ words, divShortcut code arg1 arg2 = some words := by
  cases code with
  | truncDivExpr | floorDivExpr | ceilDivExpr | exactDivExpr
  | truncModExpr | floorModExpr | ceilModExpr =>
    rw [divShortcut, if_pos hs]
    exact ⟨_, rfl⟩
  | roundDivExpr => exact absurd rfl hcode.1
  | roundModExpr => exact absurd rfl hcode.2

end Shortcuts

/-- Exactly when the shortcuts of the constant divisions give what `div_and_round_double` stores:
where the one for small operands is not taken, and where it is exact. -/
theorem division_shortcut_agrees_iff (code : DivTreeCode) (arg1 arg2 : IntCst h) :
    ShortcutAgrees code arg1 arg2 ↔
      (smallOperands arg1 arg2 = true →
        SmallExact h code arg1.words.low.toNat arg2.words.low.toNat) := by
  constructor
  · intro hagree hs
    by_cases hcode : code ≠ .roundDivExpr ∧ code ≠ .roundModExpr
    · obtain ⟨words, hw⟩ := exists_small_shortcut hs hcode
      exact (smallShortcut_iff code _ hs hcode hw).1 (hagree words hw)
    · cases code <;> simp at hcode <;> trivial
  · intro hexact words hw
    by_cases hs : smallOperands arg1 arg2 = true ∧ code ≠ .roundDivExpr
    · have hround : code ≠ .roundModExpr := by
        rintro rfl
        cases hw
      exact (smallShortcut_iff code _ hs.1 ⟨hs.2, hround⟩ hw).2 (hexact hs.1)
    · obtain ⟨htriv, hpart⟩ := shortcut_of_not_small hw hs
      rw [hpart]
      exact trivialQuotient_agrees code _ htriv

def word32 (unsigned : Bool) : IntType host32 := ⟨32, unsigned, by decide, by decide⟩

/-- 6 is a multiple of 3, but the shortcut for the remainder of a division rounded up is 2. -/
theorem division_shortcut_wrong_ceil_mod :
    ¬ShortcutAgrees .ceilModExpr (⟨word32 false, ⟨6, 0⟩, false, false⟩ : IntCst host32)
      ⟨word32 false, ⟨3, 0⟩, false, false⟩ := by
  intro hagree
  have hw := hagree ⟨2, 0⟩ (by decide)
  revert hw
  decide

end Z80Gcc
