import Z80Gcc.Proofs.ETypeRounding

/-! `emdnorm` rounds what its operands stand for to the nearest number of the precision. -/

namespace Z80Gcc.Emulator

open WordList BinaryFloat

section RoundSig

/-- How many bits the format of a precision implies: the top one, but for the format of the emulator itself. -/
def impliedBits (p : Precision) : Nat := if p = .nbits then 0 else 1

/-- The bits below the top one in the significand of a precision. -/
def fractionBits (p : Precision) : Nat := 95 - guardBits p

/-- How far a significand with the exponent is shifted down, to leave room for an implied bit. -/
def roomFor (p : Precision) (exp : Int) : Nat := if exp ≤ 0 then impliedBits p else 0

/-- A rounded significand and its exponent, as the bits of a number in the format of the precision. -/
structure Rounded (p : Precision) (bits : Nat) (r : Sig × Int) : Prop where
  lt : sigValue r.1 < 2 ^ 96
  normal : 0 < r.2 → 2 ^ 95 ≤ sigValue r.1
  eq : ∃ m, sigValue r.1 = m * 2 ^ (guardBits p + roomFor p r.2) ∧
    bits = (r.2 - impliedBits p).toNat * 2 ^ fractionBits p + m

variable {p : Precision} {s : Sig} {exp : Int}

theorem impliedBits_le (p : Precision) : impliedBits p ≤ 1 := by
  cases p <;> decide

theorem guardBits_add (p : Precision) : guardBits p + fractionBits p = 95 := by
  cases p <;> rfl

/-- A carry out of the rounding leaves a power of two, which is shifted down. -/
theorem rounded_of_carry {m : Nat} (hs : sigValue s = m * 2 ^ (guardBits p + roomFor p exp)) (hle : sigValue s ≤ 2 ^ 96)
    (hnormal : 0 < exp → 2 ^ 95 ≤ sigValue s) (hneg : exp < 0 → sigValue s < 2 ^ 96) :
    Rounded p ((exp - impliedBits p).toNat * 2 ^ fractionBits p + m)
      (if word s 2 ≠ 0 then (eshdn1 s, exp + 1) else (s, exp)) := by
  by_cases hlt : sigValue s < 2 ^ 96
  · rw [if_neg (not_not_intro ((word_two_eq_zero_iff s).2 hlt))]
    exact ⟨hlt, hnormal, m, hs, rfl⟩
  · rw [if_pos (mt (word_two_eq_zero_iff s).1 hlt)]
    have heq : sigValue s = 2 ^ 96 := by omega
    have hexp : 0 ≤ exp := by
      by_contra hexp
      exact hlt (hneg (by omega))
    have hdown : sigValue (eshdn1 s) = 2 ^ 95 := by
      rw [eshdn1_value, heq]
      rfl
    have hroom : roomFor p (exp + 1) = 0 := if_neg (by omega)
    have hsplit := guardBits_add p
    refine ⟨by rw [hdown]; decide, fun _ => hdown.ge, 2 ^ fractionBits p, ?_, ?_⟩
    · rw [hdown, hroom, Nat.add_zero, ← Nat.pow_add, Nat.add_comm, hsplit]
    · have hpow : m * 2 ^ (guardBits p + roomFor p exp) = 2 ^ (fractionBits p + 1 - roomFor p exp) *
          2 ^ (guardBits p + roomFor p exp) := by
        have hroom : roomFor p exp ≤ 1 := by
          unfold roomFor
          have hle := impliedBits_le p
          split_ifs <;> omega
        rw [← hs, heq, ← Nat.pow_add]
        congr 1
        omega
      have hm := Nat.eq_of_mul_eq_mul_right (Nat.two_pow_pos _) hpow
      have hbits := impliedBits_le p
      rw [hm]
      by_cases hzero : roomFor p exp = 0
      · have hsucc : (exp + 1 - impliedBits p).toNat = (exp - impliedBits p).toNat + 1 := by
          unfold roomFor at hzero
          split_ifs at hzero <;> omega
        rw [hsucc, hzero, Nat.sub_zero, Nat.pow_succ]
        ring
      · have hone : roomFor p exp = 1 ∧ exp = 0 ∧ impliedBits p = 1 := by
          unfold roomFor at hzero ⊢
          split_ifs at hzero ⊢ <;> omega
        obtain ⟨hroom, rfl, hbits⟩ := hone
        rw [hroom, hbits]
        rfl

/-- The significand that is rounded off, as the bits of the nearest number. -/
theorem roundOff_spec {lost subflg : Bool} {n D k d e : Nat} (h : Covers (sigValue s) lost subflg n D k) (hk : k ≤ 1)
    (hD : 0 < D) (hd : 0 < d) (hs : sigValue s < 2 ^ 96) (hunit : 2 ^ guardBits p * D = d * 2 ^ e)
    (hlow : e = 0 ∨ 2 ^ 95 ≤ sigValue s) :
    ∃ m, sigValue (roundOff (roundMasks p) (p = .nbits) lost subflg s) = m * 2 ^ guardBits p ∧
      roundMagnitude (fractionBits p) n d = e * 2 ^ fractionBits p + m ∧
      sigValue s / 2 ^ guardBits p ≤ m ∧ ∀ j, sigValue s < 2 ^ (guardBits p + j) → m ≤ 2 ^ j := by
  have hg := guardBits_le p
  refine ⟨roundTo (guardBits p) (sigValue s) lost subflg, roundOff_value p lost subflg hs,
    h.roundMagnitude_eq hD (by omega) (by omega) hs hd hunit hlow, Nat.le_add_right _ _, fun j hj => ?_⟩
  rw [Nat.pow_add] at hj
  have hquot := Nat.div_lt_of_lt_mul hj
  unfold roundTo
  split_ifs <;> omega

theorem and_one_ne_zero_iff (x : Sig) : word x 8 &&& 1 ≠ 0 ↔ sigValue x % 2 ^ 1 ≠ 0 := by
  have hword := toNat_word x (by decide : 2 ≤ 8) (by decide)
  have hbit := toNat_mod_two (word x 8)
  rw [hword] at hbit
  change sigValue x / 2 ^ 0 % 2 ^ 16 % 2 = _ at hbit
  rw [and_one_ne_zero]
  cases hone : (word x 8).getLsbD 0 with
  | true =>
    rw [hone] at hbit
    change _ = 1 at hbit
    exact iff_of_true rfl (by omega)
  | false =>
    rw [hone] at hbit
    change _ = 0 at hbit
    exact iff_of_false Bool.false_ne_true (by omega)

section Sizes

variable {m v g j : Nat}

theorem mul_two_pow_le (hm : m ≤ 2 ^ j) : m * 2 ^ g ≤ 2 ^ (g + j) := by
  rw [Nat.pow_add, Nat.mul_comm]
  exact Nat.mul_le_mul_left _ hm

theorem two_pow_le_mul (hv : 2 ^ (g + j) ≤ v) (hm : v / 2 ^ g ≤ m) : 2 ^ (g + j) ≤ m * 2 ^ g := by
  have hquot : 2 ^ j ≤ v / 2 ^ g := by
    rw [Nat.le_div_iff_mul_le (Nat.two_pow_pos g), ← Nat.pow_add, Nat.add_comm]
    exact hv
  rw [Nat.pow_add, Nat.mul_comm]
  exact Nat.mul_le_mul_right _ (hquot.trans hm)

end Sizes

/-- A normalized significand, or one that has been shifted down to the exponent zero, is rounded to the nearest number. -/
theorem roundSig_spec {c : RoundControl} (hmasks : c.masks = roundMasks c.rndprc) {lost subflg : Bool} {n D k d : Nat}
    (h : Covers (sigValue s) lost subflg n D k) (hk : k ≤ 1) (hD : 0 < D) (hd : 0 < d) (hs : sigValue s < 2 ^ 96)
    (hnormal : 0 < exp → 2 ^ 95 ≤ sigValue s) (hneg : exp < 0 → sigValue s < 2 ^ 95)
    (hunit : 2 ^ (guardBits c.rndprc + impliedBits c.rndprc) * D = d * 2 ^ exp.toNat)
    (hsub : subflg = true → exp ≤ 0 → impliedBits c.rndprc = 0) :
    Rounded c.rndprc (roundMagnitude (fractionBits c.rndprc) n d) (roundSig c lost subflg exp s) := by
  have hsplit := guardBits_add c.rndprc
  have htop : guardBits c.rndprc + (fractionBits c.rndprc + 1) = 96 := by omega
  have hle := impliedBits_le c.rndprc
  by_cases hroom : roomFor c.rndprc exp = 0
  · -- nothing is shifted
    have hbool : (decide (exp ≤ 0) && !decide (c.rndprc = .nbits)) = false := by
      unfold roomFor impliedBits at hroom
      by_cases hexp : exp ≤ 0
      · by_cases hfull : c.rndprc = .nbits
        · simp [hfull]
        · rw [if_pos hexp, if_neg hfull] at hroom
          cases hroom
      · simp [hexp]
    have hexp : exp.toNat = (exp - impliedBits c.rndprc).toNat + impliedBits c.rndprc := by
      unfold roomFor at hroom
      split_ifs at hroom <;> omega
    have hunit' : 2 ^ guardBits c.rndprc * D = d * 2 ^ (exp - impliedBits c.rndprc).toNat := by
      rw [hexp] at hunit
      refine Nat.eq_of_mul_eq_mul_right (Nat.two_pow_pos (impliedBits c.rndprc)) ?_
      calc 2 ^ guardBits c.rndprc * D * 2 ^ impliedBits c.rndprc
          = 2 ^ (guardBits c.rndprc + impliedBits c.rndprc) * D := by ring
        _ = d * 2 ^ ((exp - impliedBits c.rndprc).toNat + impliedBits c.rndprc) := hunit
        _ = d * 2 ^ (exp - impliedBits c.rndprc).toNat * 2 ^ impliedBits c.rndprc := by ring
    have hlow : (exp - impliedBits c.rndprc).toNat = 0 ∨ 2 ^ 95 ≤ sigValue s := by
      by_cases hexp : 0 < exp
      · exact .inr (hnormal hexp)
      · exact .inl (by omega)
    obtain ⟨m, hround, hbits, hge, hsmall⟩ := roundOff_spec h hk hD hd hs hunit' hlow
    unfold roundSig
    simp only [hbool, hmasks, Bool.false_and, Bool.or_false, Bool.false_eq_true, if_false]
    rw [hbits]
    refine rounded_of_carry ?_ ?_ ?_ ?_
    · rw [hround, hroom, Nat.add_zero]
    · have hm := mul_two_pow_le (g := guardBits c.rndprc) (hsmall _ (by rwa [htop]))
      rwa [htop, ← hround] at hm
    · intro hexp
      have hm := two_pow_le_mul (by rw [hsplit]; exact hnormal hexp) hge
      rwa [hsplit, ← hround] at hm
    · intro hexp
      have hm := mul_two_pow_le (g := guardBits c.rndprc) (hsmall _ (by rw [hsplit]; exact hneg hexp))
      rw [hsplit, ← hround] at hm
      exact hm.trans_lt (by decide)
  · -- a denormal is shifted down once more, and up again
    have hexp : exp ≤ 0 ∧ impliedBits c.rndprc = 1 := by
      unfold roomFor at hroom
      split_ifs at hroom <;> omega
    obtain ⟨hexp, hone⟩ := hexp
    have hfull : ¬ c.rndprc = .nbits := by
      intro hfull
      rw [impliedBits, if_pos hfull] at hone
      cases hone
    have hbool : (decide (exp ≤ 0) && !decide (c.rndprc = .nbits)) = true := by
      rw [decide_eq_true hexp, decide_eq_false hfull]
      rfl
    have hdown := h.shift hD 1 (fun hflag => absurd (hsub hflag hexp) (by omega))
    have hlost : decide (word s 8 &&& 1 ≠ 0) = decide (sigValue s % 2 ^ 1 ≠ 0) :=
      decide_eq_decide.2 (and_one_ne_zero_iff s)
    have hvalue : sigValue (eshdn1 s) = sigValue s / 2 ^ 1 := eshdn1_value s
    have hhalf : sigValue (eshdn1 s) < 2 ^ 95 := by
      rw [hvalue]
      omega
    rw [← hvalue, ← hlost] at hdown
    have hunit' : 2 ^ guardBits c.rndprc * (2 ^ 1 * D) = d * 2 ^ 0 := by
      rw [hone, Int.toNat_of_nonpos hexp] at hunit
      rw [← hunit]
      ring
    obtain ⟨m, hround, hbits, -, hsmall⟩ := roundOff_spec hdown (by omega) (by omega) hd (hhalf.trans (by decide)) hunit'
      (.inl rfl)
    have hm := mul_two_pow_le (g := guardBits c.rndprc) (hsmall _ (by rwa [hsplit]))
    rw [hsplit, ← hround] at hm
    have hup : sigValue (eshup1 (roundOff (roundMasks c.rndprc) (c.rndprc = .nbits)
        (lost || decide (word s 8 &&& 1 ≠ 0)) subflg (eshdn1 s))) = m * 2 ^ (guardBits c.rndprc + 1) := by
      rw [eshup1_value, Nat.mod_eq_of_lt (by omega), hround, Nat.pow_succ, Nat.mul_assoc]
    unfold roundSig
    simp only [hbool, hmasks, Bool.true_and, if_true]
    have hzero : (exp - impliedBits c.rndprc).toNat = 0 := by omega
    rw [hbits, ← hzero]
    refine rounded_of_carry ?_ ?_ (fun hpos => absurd hexp (by omega)) ?_
    · rw [hup, roomFor, if_pos hexp, hone]
    · rw [hup, Nat.pow_succ, ← Nat.mul_assoc, ← hround]
      omega
    · intro hexpneg
      have hfrac : guardBits c.rndprc + (fractionBits c.rndprc - 1) = 94 := by
        have hg := guardBits_le c.rndprc
        omega
      have hquarter : sigValue (eshdn1 s) < 2 ^ 94 := by
        have hsmall := hneg hexpneg
        rw [hvalue]
        omega
      have hm := mul_two_pow_le (g := guardBits c.rndprc) (hsmall _ (by rwa [hfrac]))
      rw [hfrac] at hm
      rw [hup, Nat.pow_succ, ← Nat.mul_assoc]
      omega

end RoundSig

section Emdnorm

theorem setUp_rndprc (c : RoundControl) : c.setUp.rndprc = c.rndprc := by
  unfold RoundControl.setUp
  split_ifs <;> rfl

/-- The masks that are kept are those of the precision they were made for. -/
theorem setUp_masks (c : RoundControl) : c.setUp.masks = roundMasks c.setUp.rndprc := by
  unfold RoundControl.setUp
  split_ifs with hset
  · rfl
  · exact c.cached c.rndprc (not_not.1 hset).symm

theorem roundMagnitude_of_small {t n d : Nat} (hn : 2 * n < d) : roundMagnitude t n d = 0 := by
  have hd : 0 < d := by omega
  have hpow : 0 < 2 ^ (t + 1) := Nat.two_pow_pos _
  have hround : Nearest 0 n (d * 2 ^ 0) := ⟨by omega, by omega, fun _ => rfl⟩
  rw [roundMagnitude_eq hd (.inl rfl) ?_ hround]
  · rw [Nat.zero_mul]
  · calc n < d := by omega
      _ ≤ 2 ^ (t + 1) * d := Nat.le_mul_of_pos_left d hpow
      _ = 2 ^ (t + 1) * (d * 2 ^ 0) := by rw [Nat.pow_zero, Nat.mul_one]

theorem rounded_zero (p : Precision) : Rounded p 0 (zeros 7, 0) := by
  have hzero : sigValue (zeros 7) = 0 := sigValue_zeros
  refine ⟨by rw [hzero]; decide, fun h => absurd h (lt_irrefl 0), 0, ?_, ?_⟩
  · rw [hzero, Nat.zero_mul]
  · have hle := impliedBits_le p
    have htoNat : ((0 : Int) - impliedBits p).toNat = 0 := by omega
    rw [htoNat, Nat.zero_mul]

theorem ecleazs_eq (s : Exploded) : ecleazs s = roundFinish s.sign (zeros 7) 0 := rfl

variable {c : RoundControl} {s : Exploded} {lost subflg : Bool} {exp : Int} {rcntrl n D k d : Nat}

/-- What is covered is less than the bound of the significand. -/
theorem Covers.lt {R : Nat} (h : Covers R lost subflg n D k) (hD : 0 < D) {j : Nat} (hk : k ≤ j) (hR : R < 2 ^ j) :
    n < 2 ^ j * D := by
  obtain ⟨hdvd, hwhere⟩ := h
  have hgap := add_mul_le hdvd (Nat.pow_dvd_pow 2 hk) hR D
  have hpos : 0 < 2 ^ k * D := Nat.mul_pos (Nat.two_pow_pos k) hD
  split_ifs at hwhere <;> omega

/-- A significand that has been normalized is rounded to the nearest number. -/
theorem emdnorm_spec (hrcntrl : rcntrl ≠ 0) (hcount : (enormlz s.sig).1 ≤ nbits)
    (hlow : 2 ^ 95 ≤ sigValue (enormlz s.sig).2) (hhigh : sigValue (enormlz s.sig).2 < 2 ^ 96)
    (h : Covers (sigValue (enormlz s.sig).2) lost subflg n D k) (hk : k ≤ 1) (hD : 0 < D) (hd : 0 < d)
    (hunit : 2 ^ (guardBits c.rndprc + impliedBits c.rndprc + (-(exp - (enormlz s.sig).1)).toNat) * D =
      d * 2 ^ (exp - (enormlz s.sig).1).toNat)
    (hsub : subflg = true → c.rndprc = .nbits ∧ sigValue (enormlz s.sig).2 % 2 ^ (-(exp - (enormlz s.sig).1)).toNat = 0) :
    ∃ r, Rounded c.rndprc (roundMagnitude (fractionBits c.rndprc) n d) r ∧
      (emdnorm c s lost subflg exp rcntrl).1 = roundFinish s.sign r.1 r.2 := by
  unfold emdnorm
  generalize enormlz s.sig = norm at *
  obtain ⟨j, sig⟩ := norm
  dsimp only at *
  generalize exp - j = x at *
  rw [if_neg (fun hbig => absurd hbig.1 (not_lt.2 hcount))]
  have hg := guardBits_le c.rndprc
  by_cases hsmall : x < 0 ∧ x ≤ -nbits - 1
  · -- not even a half of the lowest bit
    rw [if_pos hsmall]
    refine ⟨(zeros 7, 0), ?_, ecleazs_eq s⟩
    have hless : 2 * n < d := by
      have hn := h.lt hD (by omega) hhigh
      rw [Int.toNat_of_nonpos hsmall.1.le, Nat.pow_zero, Nat.mul_one] at hunit
      have hx := hsmall.2
      unfold nbits at hx
      have hpow : 2 ^ 97 * D ≤ d := by
        rw [← hunit]
        exact Nat.mul_le_mul_right D (Nat.pow_le_pow_right (by decide) (by omega))
      omega
    rw [roundMagnitude_of_small hless]
    exact rounded_zero _
  rw [if_neg hsmall, if_neg hrcntrl]
  have hmasks := setUp_masks c
  have hprc := setUp_rndprc c
  generalize c.setUp = c' at *
  rw [← hprc] at hunit hsub ⊢
  by_cases hneg : x < 0
  · obtain ⟨y, hy⟩ : ∃ y : Nat, x = -y := ⟨(-x).toNat, by omega⟩
    obtain ⟨hvalue, hlost⟩ := eshift_down sig y (by omega)
    rw [hy, neg_neg, Int.toNat_natCast] at hunit hsub
    have hshifted := h.shift hD y (fun hflag => (hsub hflag).2)
    have hflag : (eshift sig (-y)).1 = decide (sigValue sig % 2 ^ y ≠ 0) := by
      rw [Bool.eq_iff_iff, hlost, decide_eq_true_iff]
    rw [if_pos hneg, hy]
    rw [← hvalue, ← hflag] at hshifted
    generalize eshift sig (-y) = shifted at *
    refine ⟨_, roundSig_spec hmasks hshifted (by omega) (Nat.mul_pos (Nat.two_pow_pos y) hD) hd ?_ ?_ ?_ ?_ ?_, rfl⟩
    · rw [hvalue]
      exact (Nat.div_le_self _ _).trans_lt hhigh
    · exact fun hpos => absurd hpos (by omega)
    · intro _
      rw [hvalue, Nat.div_lt_iff_lt_mul (Nat.two_pow_pos y)]
      have hpow : 2 ^ 1 ≤ 2 ^ y := Nat.pow_le_pow_right (by decide) (by omega)
      omega
    · rw [← hunit]
      ring
    · intro hflag _
      rw [impliedBits, if_pos (hsub hflag).1]
  · have hnonneg : (-x).toNat = 0 := by omega
    rw [hnonneg] at hunit hsub
    rw [if_neg hneg]
    dsimp only
    rw [Bool.or_false]
    refine ⟨_, roundSig_spec hmasks h hk hD hd hhigh (fun _ => hlow) (fun hx => absurd hx hneg) hunit ?_, rfl⟩
    intro hflag _
    rw [impliedBits, if_pos (hsub hflag).1]

end Emdnorm

end Z80Gcc.Emulator
