import Z80Gcc.Proofs.ETypeFormat

/-! The four operations on e-type numbers store the exact result, rounded, but for a sum that loses its last bit to a
carry. -/

namespace Z80Gcc.Emulator

open WordList BinaryFloat

section Registers

variable {R n D d p q : Nat} {lost subflg : Bool} {c : RoundControl} {s : Exploded} {exp : Int}

/-- A shift up; no more than one bit is needed when something has been lost. -/
theorem Covers.up (h : Covers R lost subflg n D 0) (j : Nat) (hj : lost = true → j ≤ 1) :
    ∃ k ≤ 1, Covers (R * 2 ^ j) lost subflg (n * 2 ^ j) D k := by
  obtain ⟨-, hwhere⟩ := h
  have hpos : 0 < 2 ^ j := Nat.two_pow_pos j
  have hscale : R * 2 ^ j * D = R * D * 2 ^ j := by ring
  cases lost with
  | false =>
    rw [if_neg Bool.false_ne_true] at hwhere
    refine ⟨0, by decide, one_dvd _, ?_⟩
    rw [if_neg Bool.false_ne_true, hscale, hwhere]
  | true =>
    have hgap : n * 2 ^ j + 2 ^ j * D = (n + D) * 2 ^ j := by ring
    have hgap' : R * D * 2 ^ j + 2 ^ j * D = (R * D + D) * 2 ^ j := by ring
    refine ⟨j, hj rfl, Dvd.intro_left R rfl, ?_⟩
    rw [if_pos rfl, Nat.pow_zero, Nat.one_mul] at hwhere
    rw [if_pos rfl, hscale, hgap, hgap']
    split_ifs at hwhere ⊢
    · exact ⟨Nat.mul_lt_mul_of_pos_right hwhere.1 hpos, Nat.mul_lt_mul_of_pos_right hwhere.2 hpos⟩
    · exact ⟨Nat.mul_lt_mul_of_pos_right hwhere.1 hpos, Nat.mul_lt_mul_of_pos_right hwhere.2 hpos⟩

/-- A register under the high guard word, whose unit is `2 ^ (exp - 16)`, is rounded to the nearest number. -/
theorem emdnorm_number (hc : c.rndprc = .nbits) (hexp : exp = p - q) (hd : 0 < d)
    (h : Covers (sigValue s.sig) lost subflg (n * 2 ^ (16 + q)) (d * 2 ^ p) 0) (hlow : 2 ^ 15 ≤ sigValue s.sig)
    (hhigh : sigValue s.sig < 2 ^ 96) (hlost : lost = true → 2 ^ 94 ≤ sigValue s.sig)
    (hsub : subflg = true → 0 ≤ exp) :
    emovo (emdnorm c s lost subflg exp 64).1 = ofBits (s.sign ≠ 0) (roundMagnitude 79 n d) := by
  obtain ⟨j, hcount, hj80, hvalue, htop, hlt⟩ := enormlz_up hlow hhigh
  have hj : lost = true → j ≤ 1 := by
    intro hflag
    have hbig := hlost hflag
    have hpow : 2 ^ 94 * 2 ^ j < 2 ^ 94 * 2 ^ 2 := by
      rw [hvalue] at hlt
      exact (Nat.mul_le_mul_right _ hbig).trans_lt hlt
    have hlt2 : j < 2 := (Nat.pow_lt_pow_iff_right (by decide)).1 (Nat.lt_of_mul_lt_mul_left hpow)
    omega
  obtain ⟨k, hk, hup⟩ := h.up j hj
  rw [← hvalue] at hup
  have hD : 0 < d * 2 ^ p := Nat.mul_pos hd (Nat.two_pow_pos p)
  have hscaled : 0 < d * 2 ^ (16 + q + j) := Nat.mul_pos hd (Nat.two_pow_pos _)
  have hunit : 2 ^ (guardBits c.rndprc + impliedBits c.rndprc + (-(exp - (enormlz s.sig).1)).toNat) * (d * 2 ^ p) =
      d * 2 ^ (16 + q + j) * 2 ^ (exp - (enormlz s.sig).1).toNat := by
    have hsum : guardBits c.rndprc + impliedBits c.rndprc + (-(exp - (enormlz s.sig).1)).toNat + p =
        16 + q + j + (exp - (enormlz s.sig).1).toNat := by
      have hbits : guardBits c.rndprc + impliedBits c.rndprc = 16 := by rw [hc]; rfl
      rw [hcount, hbits]
      omega
    calc _ = d * 2 ^ (guardBits c.rndprc + impliedBits c.rndprc + (-(exp - (enormlz s.sig).1)).toNat + p) := by ring
      _ = d * 2 ^ (16 + q + j + (exp - (enormlz s.sig).1).toNat) := by rw [hsum]
      _ = _ := by ring
  obtain ⟨r, hr, hresult⟩ := @emdnorm_spec c s _ _ exp _ _ _ _ _ (by decide : 64 ≠ 0) (by rw [hcount]; unfold nbits; omega)
    htop hlt hup hk hD hscaled hunit (fun hflag => ⟨hc, by
      refine Nat.mod_eq_zero_of_dvd ?_
      rw [hvalue, hcount]
      exact (Nat.pow_dvd_pow 2 (by have := hsub hflag; omega)).mul_left _⟩)
  rw [hc] at hr
  rw [hresult, emovo_roundFinish hr]
  have hassoc : n * 2 ^ (16 + q) * 2 ^ j = n * 2 ^ (16 + q + j) := by ring
  rw [hassoc]
  exact congrArg _ (roundMagnitude_scale hd (Nat.two_pow_pos _))

/-- A register that reaches one bit into the high guard word is shifted down, and the bit that falls out is forgotten. -/
theorem emdnorm_carry (hc : c.rndprc = .nbits) (hd : 0 < d)
    (h : Covers (sigValue s.sig) lost false (n * 2 ^ 16) (d * 2 ^ p) 0) (hlow : 2 ^ 96 ≤ sigValue s.sig)
    (hhigh : sigValue s.sig < 2 ^ 97) :
    emovo (emdnorm c s lost false p 64).1 =
        ofBits (s.sign ≠ 0) ((p + 1) * 2 ^ 79 + roundTo 16 (sigValue s.sig / 2) lost false) ∧
      roundMagnitude 79 n d =
        (p + 1) * 2 ^ 79 + roundTo 16 (sigValue s.sig / 2) (lost || sigValue s.sig % 2 ≠ 0) false := by
  obtain ⟨j, hcount, hvalue, htop, hlt⟩ := enormlz_down hlow
  obtain rfl : j = 1 := by
    rw [hvalue] at htop hlt
    obtain _ | _ | j := j
    · rw [Nat.pow_zero, Nat.div_one] at hlt
      omega
    · rfl
    · have hpow : 2 ^ 2 ≤ 2 ^ (j + 1 + 1) := Nat.pow_le_pow_right (by decide) (Nat.le_add_left 2 j)
      have hle := htop.trans (Nat.div_le_div_left hpow (by decide))
      omega
  have hD : 0 < d * 2 ^ p := Nat.mul_pos hd (Nat.two_pow_pos p)
  have hD1 : 0 < 2 ^ 1 * (d * 2 ^ p) := Nat.mul_pos (by decide) hD
  have hscaled : 0 < d * 2 ^ 16 := Nat.mul_pos hd (by decide)
  have hunit : 2 ^ 16 * (2 ^ 1 * (d * 2 ^ p)) = d * 2 ^ 16 * 2 ^ (p + 1) := by ring
  have hshift := h.shift hD 1 (fun hflag => absurd hflag Bool.false_ne_true)
  have hhalf : sigValue s.sig / 2 ^ 1 < 2 ^ 96 := hvalue ▸ hlt
  have hnormal : 2 ^ 95 ≤ sigValue s.sig / 2 ^ 1 := hvalue ▸ htop
  have hround {n' : Nat} {lost' : Bool} (hcov : Covers (sigValue s.sig / 2 ^ 1) lost' false n' (2 ^ 1 * (d * 2 ^ p)) 0) :
      roundMagnitude 79 n' (d * 2 ^ 16) = (p + 1) * 2 ^ 79 + roundTo 16 (sigValue s.sig / 2 ^ 1) lost' false :=
    hcov.roundMagnitude_eq (g := 16) hD1 (by decide) (by decide) hhalf hscaled hunit (.inr hnormal)
  refine ⟨?_, ?_⟩
  · -- the code takes the significand for what it is after the shift
    obtain ⟨n', hcov⟩ : ∃ n', Covers (sigValue s.sig / 2 ^ 1) lost false n' (2 ^ 1 * (d * 2 ^ p)) 0 := by
      cases lost with
      | true => exact ⟨_, hshift⟩
      | false => exact ⟨_, one_dvd _, rfl⟩
    have hx : (p : Int) - (enormlz s.sig).1 = (p + 1 : Nat) := by
      rw [hcount]
      omega
    obtain ⟨r, hr, hresult⟩ := @emdnorm_spec c s _ _ p _ _ _ _ _ (by decide : 64 ≠ 0)
      (by rw [hcount]; unfold nbits; omega) htop hlt (hvalue ▸ hcov) (by decide) hD1 hscaled
      (by
        have hbits : guardBits c.rndprc + impliedBits c.rndprc = 16 := by rw [hc]; rfl
        have hnonneg : (-((p + 1 : Nat) : Int)).toNat = 0 := by omega
        rw [hx, hbits, hnonneg, Int.toNat_natCast]
        exact hunit)
      (fun hflag => absurd hflag Bool.false_ne_true)
    rw [hc] at hr
    have hbits := hround hcov
    rw [hresult, emovo_roundFinish hr]
    exact congrArg _ hbits
  · have hscale := roundMagnitude_scale (t := 79) (n := n) (k := 2 ^ 16) hd (by decide)
    rw [← hscale]
    exact hround hshift

/-- It is wrong where this bit decides between two numbers that are as near without it, and the lower one is even. -/
theorem carry_right_iff (hc : c.rndprc = .nbits) (hd : 0 < d)
    (h : Covers (sigValue s.sig) lost false (n * 2 ^ 16) (d * 2 ^ p) 0) (hlow : 2 ^ 96 ≤ sigValue s.sig)
    (hhigh : sigValue s.sig < 2 ^ 97) :
    emovo (emdnorm c s lost false p 64).1 = ofBits (s.sign ≠ 0) (roundMagnitude 79 n d) ↔
      ¬ (lost = false ∧ sigValue s.sig % 2 ^ 18 = 2 ^ 16 + 1 ∧ p + 1 < 0x7fff) := by
  obtain ⟨hcode, hexact⟩ := emdnorm_carry hc hd h hlow hhigh
  rw [hcode, hexact]
  generalize sigValue s.sig = R at *
  obtain ⟨q, hq⟩ : ∃ q, q = R / 2 / 2 ^ 16 := ⟨_, rfl⟩
  have hqlow : 2 ^ 79 ≤ q := by omega
  have hqhigh : q < 2 ^ 80 := by omega
  by_cases htie : lost = false ∧ R % 2 ^ 18 = 2 ^ 16 + 1
  · obtain ⟨rfl, hmod⟩ := htie
    have hodd : R % 2 ≠ 0 := by omega
    have hrest : R / 2 % 2 ^ 16 = 2 ^ 15 := by omega
    have heven : q % 2 = 0 := by omega
    have hcodeBits : roundTo 16 (R / 2) false false = q := by
      unfold roundTo
      rw [← hq, hrest, if_neg (by simp [heven]), Nat.add_zero]
    have hexactBits : roundTo 16 (R / 2) (false || decide (R % 2 ≠ 0)) false = q + 1 := by
      unfold roundTo
      rw [← hq, hrest, decide_eq_true hodd, if_pos (.inr ⟨rfl, rfl⟩)]
    rw [hcodeBits, hexactBits]
    by_cases hexp : p + 1 < 0x7fff
    · refine iff_of_false (fun heq => ?_) (not_not_intro ⟨rfl, hmod, hexp⟩)
      rw [ofBits_encode hexp hqhigh (fun _ => hqlow), ofBits_encode hexp (by omega) (fun _ => by omega)] at heq
      have hsig := congrArg EType.significand heq
      rw [significand_encode hqhigh, significand_encode (by omega)] at hsig
      omega
    · refine iff_of_true ?_ fun hbad => hexp hbad.2.2
      rw [ofBits_infinity (by omega), ofBits_infinity (by omega)]
  · refine iff_of_true ?_ fun hbad => htie ⟨hbad.1, hbad.2.1⟩
    congr 2
    cases lost with
    | true => rfl
    | false =>
      by_cases hodd : R % 2 = 0
      · rw [decide_eq_false (not_not_intro hodd)]
        rfl
      · rw [decide_eq_true hodd]
        -- not a tie, or one with an odd number below
        have hnot : ¬ (R / 2 % 2 ^ 16 = 2 ^ 15 ∧ q % 2 = 0) := fun hboth => htie ⟨rfl, by omega⟩
        unfold roundTo
        rw [← hq]
        change q + _ = q + _
        congr 1
        refine if_congr (or_congr_right ?_) rfl rfl
        refine and_congr_right fun hhalf => ?_
        rw [Bool.false_or, if_pos rfl, if_neg Bool.false_ne_true]
        have heven : ¬ q % 2 = 0 := fun heven => hnot ⟨hhalf, heven⟩
        exact iff_of_true (by omega) rfl

end Registers

end Z80Gcc.Emulator
