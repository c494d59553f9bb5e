import Z80Gcc.Proofs.ShortDivide

/-! The rounded quotient by signs and magnitudes, and when a correction of a quotient by its
remainder reaches it. -/

namespace Z80Gcc

namespace DoubleInt

section Signs

/-- The sign of a quotient that is not zero. -/
def quotientSign (neg : Bool) : Int := if neg then -1 else 1

theorem sign_cases (a : Int) :
    (decide (a < 0) = false ∧ a = a.natAbs) ∨ (decide (a < 0) = true ∧ a = -(a.natAbs : Int)) := by
  rcases lt_or_ge a 0 with h | h
  · exact .inr ⟨decide_eq_true h, by omega⟩
  · exact .inl ⟨decide_eq_false (by omega), by omega⟩

variable {a b : Int}

theorem tdiv_eq (a b : Int) :
    a.tdiv b = quotientSign (decide (a < 0) != decide (b < 0)) * (a.natAbs / b.natAbs : Nat) := by
  have hcast : ∀ n d : Nat, (n : Int).tdiv d = (n / d : Nat) := fun n d => rfl
  rcases sign_cases a with ⟨ha, ha'⟩ | ⟨ha, ha'⟩ <;>
    rcases sign_cases b with ⟨hb, hb'⟩ | ⟨hb, hb'⟩ <;>
    rw [ha, hb] <;> generalize a.natAbs = n at * <;> generalize b.natAbs = d at * <;>
    rw [ha', hb'] <;> simp [quotientSign, Int.neg_tdiv, Int.tdiv_neg, hcast]

theorem fdiv_natCast (n d : Nat) : (n : Int).fdiv d = (n / d : Nat) := by
  rw [Int.fdiv_eq_ediv_of_nonneg _ (Int.natCast_nonneg d)]
  rfl

theorem neg_fdiv_natCast (n : Nat) {d : Nat} (hd : 0 < d) :
    (-(n : Int)).fdiv d = -((n / d : Nat) : Int) - if n % d ≠ 0 then 1 else 0 := by
  rw [Int.fdiv_eq_ediv_of_nonneg _ (Int.natCast_nonneg d), Int.neg_ediv]
  have hsign : (d : Int).sign = 1 := Int.sign_eq_one_of_pos (by omega)
  have hdvd : (d : Int) ∣ n ↔ n % d = 0 := by
    rw [Int.natCast_dvd_natCast, Nat.dvd_iff_mod_eq_zero]
  rw [hsign]
  by_cases h0 : n % d = 0 <;> simp [hdvd, h0]

theorem fdiv_eq (a : Int) (hb : b ≠ 0) :
    a.fdiv b = quotientSign (decide (a < 0) != decide (b < 0)) * (a.natAbs / b.natAbs : Nat) -
      if (decide (a < 0) != decide (b < 0)) = true ∧ a.natAbs % b.natAbs ≠ 0 then 1 else 0 := by
  have hd : 0 < b.natAbs := Int.natAbs_pos.2 hb
  have hneg : ∀ n d : Nat, (n : Int).fdiv (-(d : Int)) = (-(n : Int)).fdiv d := by
    intro n d
    rw [← Int.neg_fdiv_neg, Int.neg_neg]
  rcases sign_cases a with ⟨ha, ha'⟩ | ⟨ha, ha'⟩ <;>
    rcases sign_cases b with ⟨hb, hb'⟩ | ⟨hb, hb'⟩ <;>
    rw [ha, hb] <;> generalize a.natAbs = n at * <;> generalize b.natAbs = d at * <;>
    rw [ha', hb']
  · rw [fdiv_natCast]
    simp [quotientSign]
  · rw [hneg, neg_fdiv_natCast n hd]
    simp [quotientSign]
  · rw [neg_fdiv_natCast n hd]
    simp [quotientSign]
  · rw [Int.neg_fdiv_neg, fdiv_natCast]
    simp [quotientSign]

end Signs

section Target

def roundedMagnitude (code : DivTreeCode) (neg : Bool) (n d : Nat) : Int :=
  match code with
  | .truncDivExpr | .truncModExpr | .exactDivExpr => quotientSign neg * (n / d : Nat)
  | .floorDivExpr | .floorModExpr =>
      quotientSign neg * (n / d : Nat) - if neg = true ∧ n % d ≠ 0 then 1 else 0
  | .ceilDivExpr | .ceilModExpr =>
      quotientSign neg * (n / d : Nat) + if neg = false ∧ n % d ≠ 0 then 1 else 0
  | .roundDivExpr | .roundModExpr =>
      quotientSign neg * ((n / d : Nat) + if d ≤ 2 * (n % d) then 1 else 0)

theorem ceil_eq (a : Int) {b : Int} (hb : b ≠ 0) :
    -((-a).fdiv b) =
      quotientSign (decide (a < 0) != decide (b < 0)) * (a.natAbs / b.natAbs : Nat) +
        if (decide (a < 0) != decide (b < 0)) = false ∧ a.natAbs % b.natAbs ≠ 0 then 1 else 0 := by
  rcases eq_or_ne a 0 with rfl | ha
  · simp
  · have hflip : decide (-a < 0) = !decide (a < 0) := by
      rw [← decide_not, decide_eq_decide]
      omega
    rw [fdiv_eq (-a) hb, hflip, Int.natAbs_neg]
    generalize (a.natAbs / b.natAbs : Nat) = q
    cases decide (a < 0) <;> cases decide (b < 0) <;> simp [quotientSign, Int.add_comm]

theorem round_eq (a b : Int) :
    roundedQuotient .roundDivExpr a b =
      roundedMagnitude .roundDivExpr (decide (a < 0) != decide (b < 0)) a.natAbs b.natAbs := by
  have hcond : 2 * |a.tmod b| ≥ |b| ↔ b.natAbs ≤ 2 * (a.natAbs % b.natAbs) := by
    rw [Int.abs_eq_natAbs, Int.abs_eq_natAbs, Int.natAbs_tmod]
    omega
  have hsign : (a < 0 ↔ b < 0) ↔ (decide (a < 0) != decide (b < 0)) = false := by
    rw [bne_eq_false_iff_eq, decide_eq_decide]
  simp only [roundedQuotient, roundedMagnitude, hcond, hsign, tdiv_eq]
  generalize (a.natAbs / b.natAbs : Nat) = q
  by_cases hup : b.natAbs ≤ 2 * (a.natAbs % b.natAbs)
  · rw [if_pos hup, if_pos hup]
    cases (decide (a < 0) != decide (b < 0)) with
    | false => simp [quotientSign]
    | true =>
      simp [quotientSign]
      omega
  · rw [if_neg hup, if_neg hup, Int.add_zero]

theorem roundedQuotient_eq (code : DivTreeCode) (a : Int) {b : Int} (hb : b ≠ 0) :
    roundedQuotient code a b =
      roundedMagnitude code (decide (a < 0) != decide (b < 0)) a.natAbs b.natAbs := by
  cases code with
  | truncDivExpr | truncModExpr | exactDivExpr => exact tdiv_eq a b
  | floorDivExpr | floorModExpr => exact fdiv_eq a hb
  | ceilDivExpr | ceilModExpr => exact ceil_eq a hb
  | roundDivExpr | roundModExpr => exact round_eq a b

end Target

section Correct

/-- What the `switch` adds to a quotient; `low` is whether the quotient reads as negative. -/
def stepInt (code : DivTreeCode) (neg inexact up low : Bool) : Int :=
  match code with
  | .truncDivExpr | .truncModExpr | .exactDivExpr => 0
  | .floorDivExpr | .floorModExpr => if neg && inexact then -1 else 0
  | .ceilDivExpr | .ceilModExpr => if !neg && inexact then 1 else 0
  | .roundDivExpr | .roundModExpr => if up then (if low then -1 else 1) else 0

variable (h : Host)

/-- The test for rounding away from zero is right, and so is the sign that it goes by. -/
def TieRight (uns neg : Bool) (n d : Nat) : Prop :=
  if uns = true ∧ 2 ^ (h.bits + h.bits) ≤ 2 * d then
    2 * (n % d) ≠ 2 ^ (h.bits + h.bits) ∧
      (2 * (n % d) < 2 ^ (h.bits + h.bits) →
        (2 ^ (h.bits + h.bits) - d < 2 * (n % d) ↔ d ≤ 2 * (n % d)))
  else 2 * (n % d) ≠ d ∧ ¬(neg = true ∧ d < 2 * (n % d) ∧ n < d)

/-- When a division is right: the quotient without signs is. In the rounding codes the test for
rounding has to be right, too, and a quotient that is low by one may be rounded up to the right
one. -/
def DivisionRight (code : DivTreeCode) (uns neg : Bool) (n d : Nat) : Prop :=
  match code with
  | .roundDivExpr | .roundModExpr =>
      (h.QuotientRight n d ∧ TieRight h uns neg n d) ∨
        (¬h.QuotientRight n d ∧ h.OneLow n d ∧ 2 * (n % d) < d ∧ ¬(neg = true ∧ n / d = 1))
  | _ => h.QuotientRight n d

variable {h} {neg : Bool} {n d q : Nat}

theorem quotientRight_iff (hq : h.QuotientIs n d q) : h.QuotientRight n d ↔ q = n / d := by
  refine ⟨hq.1, fun heq => ?_⟩
  by_contra hnot
  have := (hq.2 hnot).2.2.2.1
  omega

/-- The remainder of a quotient that is not too large. -/
theorem remainder_of_le (hle : q ≤ n / d) : n - q * d = n % d + (n / d - q) * d := by
  obtain ⟨j, hj⟩ := Nat.exists_eq_add_of_le hle
  have hsplit := Nat.div_add_mod' n d
  rw [hj, Nat.add_sub_cancel_left, Nat.add_mul] at *
  omega

theorem quotient_le (hq : h.QuotientIs n d q) : q ≤ n / d := by
  by_cases hr : h.QuotientRight n d
  · exact (hq.1 hr).le
  · exact (hq.2 hr).2.2.2.1.le

/-- A quotient that is low by one leaves no remainder of zero. -/
theorem mod_pos_of_oneLow (hd : d < 2 ^ h.bits) (hlow : h.OneLow n d) : 0 < n % d := by
  have := hlow.2.2.2
  omega

theorem trunc_right_iff (hq : h.QuotientIs n d q) :
    quotientSign neg * q = quotientSign neg * (n / d : Nat) ↔ h.QuotientRight n d := by
  rw [quotientRight_iff hq]
  cases neg <;> simp only [quotientSign, Bool.false_eq_true, if_false, if_true] <;> omega

/-- Where the quotient is not right, it leaves a remainder of more than a divisor. -/
theorem wrong_cases (hq : h.QuotientIs n d q) (hr : ¬h.QuotientRight n d) :
    q < n / d ∧ d ≤ n - q * d ∧ (q + 1 = n / d → 0 < n % d) := by
  obtain ⟨-, -, hd, hlt, hiff⟩ := hq.2 hr
  refine ⟨hlt, ?_, fun heq => mod_pos_of_oneLow hd (hiff.1 heq)⟩
  rw [remainder_of_le hlt.le]
  have := Nat.le_mul_of_pos_left d (Nat.sub_pos_of_lt hlt)
  omega

theorem remainder_of_right (hq : h.QuotientIs n d q) (hr : h.QuotientRight n d) :
    n - q * d = n % d := by
  rw [remainder_of_le (quotient_le hq), hq.1 hr, Nat.sub_self, Nat.zero_mul, Nat.add_zero]

theorem floor_right_iff (hd : 0 < d) (hq : h.QuotientIs n d q) :
    quotientSign neg * q + (if neg && decide (n - q * d ≠ 0) then -1 else 0) =
        (quotientSign neg * (n / d : Nat) - if neg = true ∧ n % d ≠ 0 then 1 else 0) ↔
      h.QuotientRight n d := by
  by_cases hr : h.QuotientRight n d
  · rw [remainder_of_right hq hr, hq.1 hr]
    refine iff_of_true ?_ hr
    by_cases h0 : n % d = 0 <;> cases neg <;> simp [h0, Int.sub_eq_add_neg]
  · obtain ⟨hlt, hrem, hpos⟩ := wrong_cases hq hr
    refine iff_of_false ?_ hr
    have hne : n - q * d ≠ 0 := by omega
    cases neg with
    | false => simp [quotientSign]; omega
    | true =>
      simp only [quotientSign, hne, ne_eq, not_false_eq_true, decide_true, Bool.and_self, if_true,
        true_and]
      split <;> omega

theorem ceil_right_iff (hd : 0 < d) (hq : h.QuotientIs n d q) :
    quotientSign neg * q + (if !neg && decide (n - q * d ≠ 0) then 1 else 0) =
        (quotientSign neg * (n / d : Nat) + if neg = false ∧ n % d ≠ 0 then 1 else 0) ↔
      h.QuotientRight n d := by
  by_cases hr : h.QuotientRight n d
  · rw [remainder_of_right hq hr, hq.1 hr]
    refine iff_of_true ?_ hr
    by_cases h0 : n % d = 0 <;> cases neg <;> simp [h0]
  · obtain ⟨hlt, hrem, hpos⟩ := wrong_cases hq hr
    refine iff_of_false ?_ hr
    have hne : n - q * d ≠ 0 := by omega
    cases neg with
    | true => simp [quotientSign]; omega
    | false =>
      simp only [quotientSign, hne, ne_eq, not_false_eq_true, decide_true, Bool.not_false,
        Bool.and_self, if_true, true_and]
      split <;> simp <;> omega

end Correct

section Round

variable {h : Host} {uns neg : Bool} {n d q N : Nat}

/-- Twice the remainder against the divisor, as the code sees their magnitudes in two words. -/
def upInt (N d r : Nat) : Bool := decide (min d (N - d) < 2 * min r (N - r) % N)

def lowInt (uns neg : Bool) (N q : Nat) : Bool :=
  if uns then decide (N ≤ 2 * q) else neg && decide (q ≠ 0)

theorem upInt_of_small {r : Nat} (hd : 2 * d ≤ N) (hr : 2 * r < N) :
    upInt N d r = decide (d < 2 * r) := by
  rw [upInt, Nat.min_eq_left (by omega), Nat.min_eq_left (by omega), Nat.mod_eq_of_lt hr]

theorem upInt_of_large {r : Nat} (hd : N ≤ 2 * d) (hr : r < d) (hdN : d < N) :
    upInt N d r =
      if 2 * r < N then decide (N - d < 2 * r) else decide (2 * r ≠ N) := by
  rw [upInt, Nat.min_eq_right (by omega)]
  split
  · next hlt => rw [Nat.min_eq_left (by omega), Nat.mod_eq_of_lt hlt]
  · next hge =>
    rw [Nat.min_eq_right (by omega), decide_eq_decide]
    rcases Nat.eq_or_lt_of_le (Nat.le_of_not_lt hge) with heq | hgt
    · rw [show 2 * (N - r) = N by omega, Nat.mod_self]
      omega
    · rw [Nat.mod_eq_of_lt (by omega)]
      omega

/-- The correction of a right quotient, for a divisor that does not read as negative. -/
theorem round_small (hd : 0 < d) (hdN : 2 * d ≤ N) (hun : uns = true → neg = false ∧ n < N) :
    quotientSign neg * (n / d : Nat) +
          (if upInt N d (n % d) then (if lowInt uns neg N (n / d) then -1 else 1) else 0) =
        quotientSign neg * ((n / d : Nat) + if d ≤ 2 * (n % d) then 1 else 0) ↔
      2 * (n % d) ≠ d ∧ ¬(neg = true ∧ d < 2 * (n % d) ∧ n < d) := by
  have hmod := Nat.mod_lt n hd
  have hzero : n / d = 0 ↔ n < d := Nat.div_eq_zero_iff_lt hd
  rw [upInt_of_small hdN (by omega)]
  by_cases hup : d < 2 * (n % d)
  · rw [decide_eq_true hup, if_pos rfl, if_pos hup.le]
    cases neg with
    | false =>
      have hlow : lowInt uns false N (n / d) = false := by
        unfold lowInt
        split
        · next hu =>
          -- a quotient that reads as negative leaves no remainder
          rw [decide_eq_false_iff_not]
          intro hle
          have hmul := Nat.div_mul_le_self n d
          have hlt := (hun hu).2
          have hd2 : 2 ≤ d := by
            by_contra hd1
            obtain rfl : d = 1 := by omega
            omega
          have := Nat.mul_le_mul_left (n / d) hd2
          omega
        · rfl
      rw [hlow]
      simp [quotientSign]
      omega
    | true =>
      have hu : uns = false := by
        cases uns with
        | false => rfl
        | true => exact absurd (hun rfl).1 (by decide)
      rw [hu]
      by_cases hz : n < d
      · have h0 := hzero.2 hz
        simp [lowInt, quotientSign, h0, hz, hup]
      · have h0 : n / d ≠ 0 := fun h0 => hz (hzero.1 h0)
        simp [lowInt, quotientSign, h0, hz]
        omega
  · rw [decide_eq_false hup]
    by_cases htie : 2 * (n % d) = d
    · rw [if_pos htie.ge]
      cases neg <;> simp [quotientSign, htie]
    · rw [if_neg (show ¬d ≤ 2 * (n % d) by omega)]
      simp [htie, hup]

/-- The correction of a right quotient, for a divisor that reads as negative. -/
theorem round_large (hdN : d < N) (hlarge : N ≤ 2 * d) (hn : n < N) (hN : 2 < N) :
    quotientSign false * (n / d : Nat) +
          (if upInt N d (n % d) then (if lowInt true false N (n / d) then -1 else 1) else 0) =
        quotientSign false * ((n / d : Nat) + if d ≤ 2 * (n % d) then 1 else 0) ↔
      2 * (n % d) ≠ N ∧ (2 * (n % d) < N → (N - d < 2 * (n % d) ↔ d ≤ 2 * (n % d))) := by
  have hmod := Nat.mod_lt n (show 0 < d by omega)
  have hone : n / d ≤ 1 := Nat.lt_succ_iff.1 (Nat.div_lt_of_lt_mul (by omega))
  have hlow : lowInt true false N (n / d) = false := by
    rw [lowInt, if_pos rfl, decide_eq_false_iff_not]
    omega
  rw [upInt_of_large hlarge hmod hdN, hlow]
  simp only [quotientSign, Bool.false_eq_true, if_false, Int.one_mul, Int.add_right_inj]
  split
  · next hlt =>
    by_cases h1 : N - d < 2 * (n % d) <;> by_cases h2 : d ≤ 2 * (n % d) <;>
      simp [h1, h2, hlt] <;> omega
  · next hge =>
    have h2 : d ≤ 2 * (n % d) := by omega
    by_cases heq : 2 * (n % d) = N
    · simp [heq, hdN.le]
    · refine iff_of_true ?_ ⟨heq, fun hlt => absurd hlt hge⟩
      simp [h2, heq]

/-- The correction of a quotient that is too low: it is rounded up, so it may be right if it is low
by one. -/
theorem round_wrong (hq : h.QuotientIs n d q) (hr : ¬h.QuotientRight n d)
    (hun : uns = true → neg = false ∧ n < 2 ^ (h.bits + h.bits)) :
    quotientSign neg * q +
          (if upInt (2 ^ (h.bits + h.bits)) d (n - q * d) then
            (if lowInt uns neg (2 ^ (h.bits + h.bits)) q then -1 else 1) else 0) =
        quotientSign neg * ((n / d : Nat) + if d ≤ 2 * (n % d) then 1 else 0) ↔
      h.OneLow n d ∧ 2 * (n % d) < d ∧ ¬(neg = true ∧ n / d = 1) := by
  obtain ⟨-, hhalf, hd, hlt, hiff⟩ := hq.2 hr
  have hP : 2 ^ 32 ≤ 2 ^ h.bits := Nat.pow_le_pow_right (by decide) h.wide
  have hN : 2 ^ (h.bits + h.bits) = 2 ^ h.bits * 2 ^ h.bits := Nat.pow_add _ _ _
  have hNP : 4 * 2 ^ h.bits ≤ 2 ^ (h.bits + h.bits) := by
    rw [hN]
    exact Nat.mul_le_mul_right _ (by omega)
  have hmod := Nat.mod_lt n (show 0 < d by omega)
  generalize 2 ^ (h.bits + h.bits) = N at *
  -- no quotient by such a divisor reads as negative without a sign
  have hlow : lowInt uns neg N q = (neg && decide (q ≠ 0)) := by
    unfold lowInt
    split
    · next hu =>
      obtain ⟨hneg, hn⟩ := hun hu
      rw [hneg, Bool.false_and, decide_eq_false_iff_not]
      have hmul := Nat.div_mul_le_self n d
      have h2 := Nat.mul_le_mul_left (n / d) hhalf
      intro hle
      have h4 : n / d * 2 ^ h.bits < 2 * 2 ^ h.bits * 2 ^ h.bits := by
        rw [Nat.mul_assoc 2, ← hN]
        linarith
      have := Nat.lt_of_mul_lt_mul_right h4
      omega
    · rfl
  rw [hlow]
  by_cases hone : q + 1 = n / d
  · -- low by one: the remainder is more than a divisor, so the quotient is rounded up
    have hrem : n - q * d = n % d + d := by
      rw [remainder_of_le hlt.le, show n / d - q = 1 by omega, Nat.one_mul]
    rw [hrem, upInt_of_small (by omega) (by omega), decide_eq_true (by omega), if_pos rfl, ← hone]
    simp only [hiff.1 hone, true_and]
    cases neg with
    | false =>
      by_cases h2 : d ≤ 2 * (n % d)
      · simp [quotientSign, h2]
      · simp [quotientSign, h2]
        omega
    | true =>
      by_cases h0 : q = 0
      · by_cases h2 : d ≤ 2 * (n % d)
        · simp [quotientSign, h0, h2]
        · simp [quotientSign, h0, h2]
      · by_cases h2 : d ≤ 2 * (n % d)
        · simp [quotientSign, h0, h2]
          omega
        · simp [quotientSign, h0, h2]
          omega
  · refine iff_of_false ?_ (fun hc => hone (hiff.2 hc.1))
    cases neg with
    | false =>
      simp only [quotientSign, Bool.false_and, Bool.false_eq_true, if_false, Int.one_mul]
      split_ifs <;> omega
    | true =>
      simp only [quotientSign, Bool.true_and, if_true]
      split_ifs <;> omega

theorem round_right_iff (hd : 0 < d) (hq : h.QuotientIs n d q)
    (hun : uns = true → neg = false ∧ n < 2 ^ (h.bits + h.bits) ∧ d < 2 ^ (h.bits + h.bits))
    (hsi : uns = false → 2 * d ≤ 2 ^ (h.bits + h.bits)) :
    quotientSign neg * q +
          (if upInt (2 ^ (h.bits + h.bits)) d (n - q * d) then
            (if lowInt uns neg (2 ^ (h.bits + h.bits)) q then -1 else 1) else 0) =
        quotientSign neg * ((n / d : Nat) + if d ≤ 2 * (n % d) then 1 else 0) ↔
      (h.QuotientRight n d ∧ TieRight h uns neg n d) ∨
        (¬h.QuotientRight n d ∧ h.OneLow n d ∧ 2 * (n % d) < d ∧ ¬(neg = true ∧ n / d = 1)) := by
  by_cases hr : h.QuotientRight n d
  · rw [remainder_of_right hq hr, hq.1 hr]
    simp only [hr, true_and, not_true_eq_false, false_and, or_false, TieRight]
    by_cases hcond : uns = true ∧ 2 ^ (h.bits + h.bits) ≤ 2 * d
    · rw [if_pos hcond]
      obtain ⟨hu, hlarge⟩ := hcond
      obtain ⟨hneg, hn, hdN⟩ := hun hu
      subst hu hneg
      have hN : 2 ^ 64 ≤ 2 ^ (h.bits + h.bits) :=
        Nat.pow_le_pow_right (by decide) (by have := h.wide; omega)
      exact round_large hdN hlarge hn (by omega)
    · rw [if_neg hcond]
      refine round_small hd ?_ (fun hu => ⟨(hun hu).1, (hun hu).2.1⟩)
      cases uns with
      | false => exact hsi rfl
      | true =>
        by_contra hle
        exact hcond ⟨rfl, by omega⟩
  · rw [round_wrong hq hr (fun hu => ⟨(hun hu).1, (hun hu).2.1⟩)]
    simp only [hr, false_and, not_false_eq_true, true_and, false_or]

end Round

end DoubleInt

end Z80Gcc
