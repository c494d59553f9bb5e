import Z80Gcc.Proofs.LongDivide

/-! The doubleword division of fold-const.c is exact for a divisor below half the range of a
word. -/

namespace Z80Gcc

open Z80Gcc.LongDivision

namespace Host

variable (h : Host)

section QuotientDigit

variable {d₁ d₀ x : Nat} {s : Nat × Nat}

/-- The loop for a divisor of two digits is the general one. -/
theorem quotientDigit_eq :
    h.quotientDigit d₁ d₀ x s =
      let r := h.quotientDigits [d₀, d₁] x [s.2, s.1]
      ((r.1.getD 1 0, r.1.getD 0 0), r.2) := by
  have hite : ∀ (c : Prop) [Decidable c] (a b : List Nat × Nat),
      (let r := if c then a else b; ((r.1.getD 1 0, r.1.getD 0 0), r.2)) =
        if c then ((a.1.getD 1 0, a.1.getD 0 0), a.2) else ((b.1.getD 1 0, b.1.getD 0 0), b.2) := by
    intro c _ a b
    split <;> rfl
  simp only [quotientDigits]
  rw [hite]
  rfl

/-- One turn of the main loop takes in a digit and gives a digit of the quotient. -/
theorem quotientDigit_step (hd₁ : d₁ < h.base) (hd₀ : d₀ < h.base) (hnorm : h.base ≤ 2 * d₁) :
    DivStep h.base (d₁ * h.base + d₀) (fun s : Nat × Nat => s.1 < h.base ∧ s.2 < h.base)
      (fun s => s.1 * h.base + s.2) (h.quotientDigit d₁ d₀) := by
  have hval : ∀ a b : Nat, Nat.ofDigits h.base [a, b] = b * h.base + a := by
    intro a b
    simp only [Nat.ofDigits_cons, Nat.ofDigits_nil]
    ring
  have hstep := h.quotientDigits_step (show [d₀, d₁].length = 0 + 2 from rfl) (by simp [hd₀, hd₁]) hnorm
  have hall : ∀ x (s : Nat × Nat), x < h.base → s.1 < h.base ∧ s.2 < h.base →
      s.1 * h.base + s.2 < d₁ * h.base + d₀ → ∃ a b q, a < h.base ∧ b < h.base ∧
        h.quotientDigit d₁ d₀ x s = ((b, a), q) ∧ b * h.base + a < d₁ * h.base + d₀ ∧
        q * (d₁ * h.base + d₀) + (b * h.base + a) = (s.1 * h.base + s.2) * h.base + x := by
    intro x s hx hs hv
    have hg : [s.2, s.1].length = [d₀, d₁].length ∧ ∀ y ∈ [s.2, s.1], y < h.base := by
      simp [hs]
    rw [← hval, ← hval] at hv
    obtain ⟨hlen, hdigit⟩ := hstep.keep x [s.2, s.1] hx hg hv
    have hlt := hstep.lt x [s.2, s.1] hx hg hv
    have heq := hstep.eq x [s.2, s.1] hx hg hv
    rw [quotientDigit_eq]
    generalize h.quotientDigits [d₀, d₁] x [s.2, s.1] = r at hlen hdigit hlt heq
    obtain ⟨ds, q⟩ := r
    obtain ⟨a, b, rfl⟩ := List.length_eq_two.1 hlen
    rw [hval, hval] at hlt heq
    rw [hval] at heq
    exact ⟨a, b, q, hdigit a (by simp), hdigit b (by simp), rfl, hlt, heq⟩
  refine ⟨?_, ?_, ?_⟩
  · intro x s hx hs hv
    obtain ⟨a, b, q, ha, hb, heq, -⟩ := hall x s hx hs hv
    rw [heq]
    exact ⟨hb, ha⟩
  · intro x s hx hs hv
    obtain ⟨a, b, q, -, -, heq, hlt, -⟩ := hall x s hx hs hv
    rw [heq]
    exact hlt
  · intro x s hx hs hv
    obtain ⟨a, b, q, -, -, heq, -, hsum⟩ := hall x s hx hs hv
    rw [heq]
    exact hsum

end QuotientDigit

theorem scaled_divisor {scale d₁ d₀ e₁ e₀ carry : Nat} (hs0 : 0 < scale) (hmul : scale * (d₁ + 1) ≤ h.base)
    (hd₀ : d₀ < h.base) (he₀ : e₀ < h.base)
    (heq : Nat.ofDigits h.base [e₀, e₁] + h.base ^ [d₀, d₁].length * carry =
      Nat.ofDigits h.base [d₀, d₁] * scale) :
    e₁ * h.base + e₀ = (d₁ * h.base + d₀) * scale ∧ scale * d₁ ≤ e₁ := by
  have hsum : e₁ * h.base + e₀ + h.base * h.base * carry = (d₁ * h.base + d₀) * scale := by
    simp only [Nat.ofDigits_cons, Nat.ofDigits_nil, List.length_cons, List.length_nil] at heq
    linear_combination heq
  have hlt : (d₁ * h.base + d₀) * scale < h.base * h.base := by
    have h1 : (d₁ * h.base + d₀) * scale < (d₁ * h.base + h.base) * scale :=
      Nat.mul_lt_mul_of_pos_right (by omega) hs0
    have h2 := Nat.mul_le_mul_right h.base hmul
    have h3 : (d₁ * h.base + h.base) * scale = scale * (d₁ + 1) * h.base := by ring
    omega
  have hcarry : carry = 0 := by
    by_contra hne
    have := Nat.mul_le_mul_left (h.base * h.base) (Nat.one_le_iff_ne_zero.2 hne)
    omega
  rw [hcarry, Nat.mul_zero, Nat.add_zero] at hsum
  refine ⟨hsum, Nat.lt_succ_iff.1 (Nat.lt_of_mul_lt_mul_right (a := h.base) ?_)⟩
  have h1 : (d₁ * h.base + d₀) * scale = scale * d₁ * h.base + d₀ * scale := by ring
  rw [Nat.succ_mul]
  omega

/-- The long division, after scaling to a divisor whose top digit is at least half the base. -/
theorem longDigits_eq {num : List Nat} (hlen : num.length = 4) (hnum : ∀ x ∈ num, x < h.base)
    {d₁ d₀ : Nat} (hd₁ : d₁ < h.base) (hd₀ : d₀ < h.base) (hpos : 0 < d₁) :
    (∀ q ∈ h.longDigits num d₁ d₀, q < h.base) ∧ (h.longDigits num d₁ d₀).length = 4 ∧
      Nat.ofDigits h.base (h.longDigits num d₁ d₀) =
        Nat.ofDigits h.base num / (d₁ * h.base + d₀) := by
  have hge := h.base_ge
  obtain ⟨scale, hscale⟩ : ∃ s, s = h.base / (d₁ + 1) := ⟨_, rfl⟩
  have hs0 : 0 < scale := hscale ▸ Nat.div_pos hd₁ (Nat.succ_pos d₁)
  have hsB : scale < h.base := hscale ▸ Nat.div_lt_self h.base_pos (by omega)
  have hnorm : h.base ≤ 2 * (scale * d₁) :=
    hscale ▸ scale_normalizes h.base_even hpos hd₁
  have hmul : scale * (d₁ + 1) ≤ h.base := hscale ▸ Nat.div_mul_le_self _ _
  obtain ⟨⟨xs, top⟩, hnum', hlen', hlt', hc', heq'⟩ := h.scaled_eq hs0 hsB hnum
  obtain ⟨⟨ys, carry⟩, hden', hdlen, hdlt, -, hdeq⟩ :=
    h.scaled_eq hs0 hsB (by simp [hd₀, hd₁] : ∀ x ∈ [d₀, d₁], x < h.base)
  obtain ⟨e₀, e₁, rfl⟩ := List.length_eq_two.1 hdlen
  simp only [List.mem_cons, List.not_mem_nil, or_false, forall_eq_or_imp, forall_eq] at hdlt
  obtain ⟨he₀, he₁⟩ := hdlt
  obtain ⟨hden, he⟩ := h.scaled_divisor hs0 hmul hd₀ he₀ hdeq
  obtain ⟨x₀, x₁, x₂, x₃, rfl⟩ := exists_digits_of_length (hlen'.trans hlen)
  rw [hlen] at heq'
  simp only [List.mem_cons, List.not_mem_nil, or_false, forall_eq_or_imp, forall_eq] at hlt'
  obtain ⟨hx₀, hx₁, hx₂, hx₃⟩ := hlt'
  have hval : (top * h.base + x₃) * h.base ^ 3 + Nat.ofDigits h.base [x₀, x₁, x₂] =
      Nat.ofDigits h.base num * scale := by
    rw [← heq']
    simp only [Nat.ofDigits_cons, Nat.ofDigits_nil]
    ring
  -- the dividend's top two digits are below the scaled divisor
  have htop : top * h.base + x₃ < e₁ * h.base + e₀ := by
    have h1 : Nat.ofDigits h.base num < h.base ^ 4 :=
      hlen ▸ Nat.ofDigits_lt_base_pow_length (by omega) hnum
    have h2 : Nat.ofDigits h.base num * scale < h.base ^ 4 * scale :=
      Nat.mul_lt_mul_of_pos_right h1 hs0
    have h3 : h.base * scale ≤ e₁ * h.base + e₀ := by
      have hle := Nat.le_mul_of_pos_left h.base hpos
      rw [hden]
      exact Nat.mul_le_mul_right scale (by omega)
    have h4 : h.base * scale * h.base ^ 3 ≤ (e₁ * h.base + e₀) * h.base ^ 3 :=
      Nat.mul_le_mul_right _ h3
    have h5 : h.base ^ 4 * scale = h.base * scale * h.base ^ 3 := by ring
    exact Nat.lt_of_mul_lt_mul_right (a := h.base ^ 3) (by omega)
  have hstep := h.quotientDigit_step he₁ he₀ (hnorm.trans (Nat.mul_le_mul_left 2 he))
  obtain ⟨-, hrem, hqlt, hrun⟩ := hstep.run
    (by simp [hx₀, hx₁, hx₂] : ∀ x ∈ [x₀, x₁, x₂], x < h.base) (s := (top, x₃)) ⟨hc', hx₃⟩ htop
  have hden1 : (if scale > 1 then (h.scaleDigits scale [d₀, d₁] 0).1 else [d₀, d₁]) =
      [e₀, e₁] := by
    have := congrArg Prod.fst hden'
    rwa [apply_ite Prod.fst] at this
  have hlong : h.longDigits num d₁ d₀ =
      ([x₀, x₁, x₂].mapAccumr (h.quotientDigit e₁ e₀) (top, x₃)).2 ++ [0] := by
    simp only [longDigits, ← hscale, hnum', hden1]
    rfl
  rw [hlong]
  refine ⟨?_, ?_, ?_⟩
  · intro q hq
    rcases List.mem_append.1 hq with hq | hq
    · exact hqlt q hq
    · rw [List.mem_singleton.1 hq]
      exact h.base_pos
  · rw [List.length_append, List.length_mapAccumr]
    rfl
  · rw [Nat.ofDigits_append_zero, eq_div_of_run (hrun.trans hval) hrem, hden,
      Nat.mul_div_mul_right _ _ hs0]

end Host

namespace DoubleInt

variable {h : Host}

theorem divAndRoundDouble_toNat (num : DoubleInt h) {lden : BitVec h.bits} (hpos : 0 < lden.toNat)
    (hlt : 2 * lden.toNat < 2 ^ h.bits) :
    (num.divAndRoundDouble lden).toNat = num.toNat / lden.toNat := by
  have hne : lden ≠ 0 := by
    rintro rfl
    simp at hpos
  unfold divAndRoundDouble
  simp only [if_neg hne]
  split
  · next hhigh => simp [toNat, hhigh]
  have hlden : lden.toNat < h.base * h.base := h.base_sq ▸ lden.isLt
  split
  · next hs =>
    have hsmall := (slt_base_iff hlt).1 hs
    obtain ⟨-, hrem, hqlt, hrun⟩ :=
      (h.shortDigit_step hpos hsmall).run num.digits_lt trivial hpos
    rw [toNat_ofDigits (List.length_mapAccumr _ _ _) hqlt]
    rw [Nat.zero_mul, Nat.zero_add, ofDigits_digits] at hrun
    exact eq_div_of_run hrun hrem
  · next hs =>
    have hbig : h.base ≤ lden.toNat := Nat.le_of_not_lt fun hc => hs ((slt_base_iff hlt).2 hc)
    obtain ⟨hqlt, hlen, heq⟩ := h.longDigits_eq rfl num.digits_lt
      (h.highpart_lt hlden) (h.lowpart_lt lden.toNat) (Nat.div_pos hbig h.base_pos)
    have hsplit : h.highpart lden.toNat * h.base + h.lowpart lden.toNat = lden.toNat :=
      Nat.div_add_mod' _ _
    rw [toNat_ofDigits hlen hqlt, heq, ofDigits_digits, hsplit]

end DoubleInt

end Z80Gcc
