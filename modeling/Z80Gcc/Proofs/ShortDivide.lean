import Mathlib
import Z80Gcc.Proofs.DoubleArith
import Z80Gcc.Proofs.LongDivide

/-! The division by one word is meant for a divisor below the base, but a divisor with its top bit
set takes it, too, since the test compares signed words. The partial remainder then loses what is
above the word, and the quotient comes out low. -/

namespace Z80Gcc

open Z80Gcc.LongDivision

namespace Host

section Wrapped

variable {B D c x : Nat}

/-- A digit taken in by a partial remainder that has lost its upper part is low. -/
theorem wrapped_div_lt (hD : 0 < D) (hlt : D < B * B) (hc : B ≤ c) :
    (c % B * B + x) / D < (c * B + x) / D := by
  have hsplit := Nat.div_add_mod c B
  have hB : 0 < B := Nat.pos_of_mul_pos_left (Nat.zero_lt_of_lt hlt)
  have hq : 1 ≤ c / B := (Nat.one_le_div_iff hB).2 hc
  have hmul : B * B ≤ B * (c / B) * B := by
    have := Nat.mul_le_mul_left B (Nat.mul_le_mul_right B hq)
    rwa [Nat.one_mul, ← Nat.mul_assoc] at this
  have hle : c % B * B + x + D ≤ c * B + x := by
    have : c * B = B * (c / B) * B + c % B * B := by rw [← Nat.add_mul, hsplit]
    omega
  calc (c % B * B + x) / D < (c % B * B + x) / D + 1 := Nat.lt_succ_self _
    _ = (c % B * B + x + D) / D := (Nat.add_div_right _ hD).symm
    _ ≤ _ := Nat.div_le_div_right hle

/-- It is low by one only if one base is lost and the divisor fits once less in what is left. -/
theorem wrapped_div_succ_iff (hB : 0 < B) (hhalf : B * B ≤ 2 * D) (hlt : D < B * B) (hc : B ≤ c) :
    (c % B * B + x) / D + 1 = (c * B + x) / D ↔ c < 2 * B ∧ B * B ≤ (c * B + x) % D + D := by
  have hD : 0 < D := by
    have := Nat.mul_pos hB hB
    omega
  have hsplit := Nat.div_add_mod c B
  have hq : 1 ≤ c / B := (Nat.one_le_div_iff hB).2 hc
  obtain ⟨k, hk⟩ := Nat.exists_eq_add_of_le hq
  have hX : c * B + x = (1 + k) * (B * B) + (c % B * B + x) := by
    calc c * B + x = (B * (c / B) + c % B) * B + x := by rw [hsplit]
      _ = _ := by
        rw [hk]
        ring
  have hmod := Nat.div_add_mod (c * B + x) D
  have hmodlt := Nat.mod_lt (c * B + x) hD
  rw [← Nat.add_div_right _ hD, hX] at *
  generalize c % B * B + x = w at *
  generalize ((1 + k) * (B * B) + w) % D = r at *
  generalize hQ : ((1 + k) * (B * B) + w) / D = Q at *
  have hexp : (1 + k) * (B * B) = B * B + k * (B * B) := by ring
  have hc2 : c < 2 * B ↔ k = 0 := by
    rw [← Nat.div_lt_iff_lt_mul hB, hk]
    omega
  rw [hc2]
  constructor
  · intro heq
    have h1 : D * Q ≤ w + D := by
      rw [← heq]
      exact Nat.mul_div_le _ _
    rcases Nat.eq_zero_or_pos k with rfl | hkpos
    · omega
    · have := Nat.mul_le_mul_right (B * B) hkpos
      omega
  · rintro ⟨rfl, hr⟩
    refine (Nat.div_eq_of_lt_le ?_ ?_)
    · rw [Nat.mul_comm]
      omega
    · rw [Nat.succ_mul, Nat.mul_comm]
      omega

theorem div_digit (a : Nat) (hD : 0 < D) :
    (a * B + x) / D = a / D * B + (a % D * B + x) / D := by
  have hsum : a * B + x = D * (a / D * B) + (a % D * B + x) := by
    calc a * B + x = (D * (a / D) + a % D) * B + x := by rw [Nat.div_add_mod]
      _ = _ := by ring
  rw [hsum, Nat.mul_add_div hD]

theorem mod_digit (a : Nat) : (a * B + x) % D = (a % D * B + x) % D := by
  simp [Nat.add_mod, Nat.mul_mod]

end Wrapped

variable (h : Host)

/-- The partial remainders of `n` by `d` stay below the base. -/
def ShortRight (n d : Nat) : Prop := n / 2 ^ h.bits % d < h.base ∧ n / h.base % d < h.base

/-- Only the last digit of the quotient comes out low, and by one. -/
def OneLow (n d : Nat) : Prop :=
  n / 2 ^ h.bits % d < h.base ∧ h.base ≤ n / h.base % d ∧ n / h.base % d < 2 * h.base ∧
    2 ^ h.bits ≤ n % d + d

theorem shortDigit_eq {d x c : Nat} (hx : x < h.base) :
    h.shortDigit d x c =
      ((c % h.base * h.base + x) % d, (c % h.base * h.base + x) / d) := by
  have hw : h.word (c * h.base) = c % h.base * h.base := by
    rw [word, ← h.base_sq, Nat.mul_mod_mul_right]
  have hlt := h.two_digits_lt (Nat.mod_lt c h.base_pos) hx
  rw [shortDigit, hw, Nat.add_comm, h.word_of_lt hlt]

/-- The division by one word for a divisor with its top bit set. -/
theorem shortQuotient_eq {xs : List Nat} (hlen : xs.length = 4) (hxs : ∀ x ∈ xs, x < h.base)
    {d : Nat} (hhalf : 2 ^ h.bits ≤ 2 * d) (hlt : d < 2 ^ h.bits) :
    (∀ q ∈ (xs.mapAccumr (h.shortDigit d) 0).2, q < h.base) ∧
      (xs.mapAccumr (h.shortDigit d) 0).2.length = 4 ∧
      (h.ShortRight (Nat.ofDigits h.base xs) d →
        Nat.ofDigits h.base (xs.mapAccumr (h.shortDigit d) 0).2 = Nat.ofDigits h.base xs / d) ∧
      (¬h.ShortRight (Nat.ofDigits h.base xs) d →
        Nat.ofDigits h.base (xs.mapAccumr (h.shortDigit d) 0).2 < Nat.ofDigits h.base xs / d ∧
        (Nat.ofDigits h.base (xs.mapAccumr (h.shortDigit d) 0).2 + 1 = Nat.ofDigits h.base xs / d ↔
          h.OneLow (Nat.ofDigits h.base xs) d)) := by
  have hge := h.base_ge
  have hB := h.base_pos
  unfold ShortRight OneLow
  rw [← h.base_sq] at *
  have hd : 0 < d := by nlinarith
  obtain ⟨x₀, x₁, x₂, x₃, rfl⟩ := exists_digits_of_length hlen
  simp only [List.mem_cons, List.not_mem_nil, or_false, forall_eq_or_imp, forall_eq] at hxs
  obtain ⟨hx₀, hx₁, hx₂, hx₃⟩ := hxs
  -- the partial remainders, and what is left of them in a word
  obtain ⟨H, hH⟩ : ∃ H, H = x₃ * h.base + x₂ := ⟨_, rfl⟩
  obtain ⟨c₂, hc₂⟩ : ∃ c, c = H % d := ⟨_, rfl⟩
  obtain ⟨c₁, hc₁⟩ : ∃ c, c = (c₂ % h.base * h.base + x₁) % d := ⟨_, rfl⟩
  have hx₃d : x₃ < d := by nlinarith
  have hrun : ([x₀, x₁, x₂, x₃].mapAccumr (h.shortDigit d) 0).2 =
      [(c₁ % h.base * h.base + x₀) / d, (c₂ % h.base * h.base + x₁) / d, H / d, 0] := by
    simp only [List.mapAccumr, h.shortDigit_eq hx₃, h.shortDigit_eq hx₂, h.shortDigit_eq hx₁,
      h.shortDigit_eq hx₀, Nat.zero_mod, Nat.zero_mul, Nat.zero_add, Nat.mod_eq_of_lt hx₃d,
      Nat.mod_eq_of_lt hx₃, Nat.div_eq_of_lt hx₃d, hc₁, hc₂, hH]
  have hn : Nat.ofDigits h.base [x₀, x₁, x₂, x₃] = (H * h.base + x₁) * h.base + x₀ := by
    rw [hH]
    simp only [Nat.ofDigits_cons, Nat.ofDigits_nil]
    ring
  have hq : Nat.ofDigits h.base [(c₁ % h.base * h.base + x₀) / d,
      (c₂ % h.base * h.base + x₁) / d, H / d, 0] =
      (H / d * h.base + (c₂ % h.base * h.base + x₁) / d) * h.base +
        (c₁ % h.base * h.base + x₀) / d := by
    simp only [Nat.ofDigits_cons, Nat.ofDigits_nil]
    ring
  have hsmall : ∀ {c x : Nat}, x < h.base → (c % h.base * h.base + x) / d ≤ 1 := by
    intro c x hx
    have := h.two_digits_lt (Nat.mod_lt c hB) hx
    exact Nat.lt_succ_iff.1 (Nat.div_lt_of_lt_mul (by omega))
  have hHd : H / d ≤ 1 := by
    have := h.two_digits_lt hx₃ hx₂
    exact Nat.lt_succ_iff.1 (Nat.div_lt_of_lt_mul (by omega))
  have hn1 : ((H * h.base + x₁) * h.base + x₀) / h.base = H * h.base + x₁ := by
    rw [Nat.mul_comm _ h.base, Nat.mul_add_div hB, Nat.div_eq_of_lt hx₀, Nat.add_zero]
  have hn2 : ((H * h.base + x₁) * h.base + x₀) / (h.base * h.base) = H := by
    rw [← Nat.div_div_eq_div_mul, hn1, Nat.mul_comm, Nat.mul_add_div hB, Nat.div_eq_of_lt hx₁,
      Nat.add_zero]
  rw [hrun, hn, hq, hn1, hn2, ← hc₂, mod_digit H, ← hc₂]
  have htrue : ((H * h.base + x₁) * h.base + x₀) / d =
      (H / d * h.base + (c₂ * h.base + x₁) / d) * h.base +
        ((c₂ * h.base + x₁) % d * h.base + x₀) / d := by
    rw [div_digit _ hd, div_digit H hd, mod_digit H, ← hc₂]
  refine ⟨?_, rfl, ?_, ?_⟩
  · have h0 := hsmall (c := c₁) hx₀
    have h1 := hsmall (c := c₂) hx₁
    intro q hq
    simp only [List.mem_cons, List.not_mem_nil, or_false] at hq
    rcases hq with rfl | rfl | rfl | rfl <;> omega
  · rintro ⟨h2, h1⟩
    rw [htrue]
    rw [Nat.mod_eq_of_lt h2] at hc₁ ⊢
    rw [← hc₁] at h1 ⊢
    rw [Nat.mod_eq_of_lt h1]
  · intro hnot
    rw [htrue]
    rcases Nat.lt_or_ge c₂ h.base with h2 | h2
    · -- only the last turn loses a part of the remainder
      have h1 : h.base ≤ (c₂ * h.base + x₁) % d := Nat.le_of_not_lt fun h1 => hnot ⟨h2, h1⟩
      rw [Nat.mod_eq_of_lt h2] at hc₁ ⊢
      rw [← hc₁] at h1 ⊢
      have hlow := wrapped_div_lt (x := x₀) hd hlt h1
      have hiff := wrapped_div_succ_iff (x := x₀) hB hhalf hlt h1
      have hmod : ((H * h.base + x₁) * h.base + x₀) % d = (c₁ * h.base + x₀) % d := by
        rw [mod_digit (H * h.base + x₁), mod_digit H, ← hc₂, ← hc₁]
      rw [hmod]
      refine ⟨by omega, ?_⟩
      rw [Nat.add_assoc, Nat.add_left_cancel_iff, hiff]
      constructor
      · rintro ⟨h3, h4⟩
        exact ⟨h2, h1, h3, h4⟩
      · rintro ⟨-, -, h3, h4⟩
        exact ⟨h3, h4⟩
    · -- a digit before the last one is low
      have hlow := wrapped_div_lt (x := x₁) hd hlt h2
      have h0 := hsmall (c := c₁) hx₀
      have hmul : (H / d * h.base + ((c₂ % h.base * h.base + x₁) / d + 1)) * h.base ≤
          (H / d * h.base + (c₂ * h.base + x₁) / d) * h.base :=
        Nat.mul_le_mul_right _ (by omega)
      rw [← Nat.add_assoc, Nat.succ_mul] at hmul
      have hpos := Nat.le_add_right ((H / d * h.base + (c₂ * h.base + x₁) / d) * h.base)
        (((c₂ * h.base + x₁) % d * h.base + x₀) / d)
      generalize (H / d * h.base + (c₂ * h.base + x₁) / d) * h.base +
        ((c₂ * h.base + x₁) % d * h.base + x₀) / d = Q at hpos ⊢
      refine ⟨by omega, iff_of_false (by omega) ?_⟩
      rintro ⟨h3, -⟩
      omega

/-- The quotient without signs is right, unless the divisor is one word with its top bit set and a
partial remainder does not fit. -/
def QuotientRight (n d : Nat) : Prop :=
  2 ^ h.bits ≤ n → 2 ^ h.bits ≤ 2 * d → d < 2 ^ h.bits → h.ShortRight n d

/-- What the division without signs gives: the quotient, or less where it is not right. -/
def QuotientIs (n d q : Nat) : Prop :=
  (h.QuotientRight n d → q = n / d) ∧
    (¬h.QuotientRight n d → 2 ^ h.bits ≤ n ∧ 2 ^ h.bits ≤ 2 * d ∧ d < 2 ^ h.bits ∧ q < n / d ∧
      (q + 1 = n / d ↔ h.OneLow n d))

theorem quotientIs_of_right {n d q : Nat} (hr : h.QuotientRight n d) (hq : q = n / d) :
    h.QuotientIs n d q :=
  ⟨fun _ => hq, fun hn => absurd hr hn⟩

end Host

namespace DoubleInt

variable {h : Host} (num den : DoubleInt h)

theorem toNat_of_high_eq_zero {x : DoubleInt h} (hx : x.high = 0) : x.toNat = x.low.toNat := by
  simp [toNat, hx]

theorem le_toNat_of_high_ne_zero {x : DoubleInt h} (hx : x.high ≠ 0) : 2 ^ h.bits ≤ x.toNat := by
  have hpos : 0 < x.high.toNat := Nat.pos_of_ne_zero fun h0 => hx (BitVec.eq_of_toNat_eq h0)
  rw [toNat]
  have := Nat.le_mul_of_pos_left (2 ^ h.bits) hpos
  omega

theorem slt_base_cases (lden : BitVec h.bits) :
    (lden.slt (BitVec.ofNat h.bits h.base) = true ∧
        (lden.toNat < h.base ∧ 2 * lden.toNat < 2 ^ h.bits ∨ 2 ^ h.bits ≤ 2 * lden.toNat)) ∨
      lden.slt (BitVec.ofNat h.bits h.base) = false ∧ h.base ≤ lden.toNat ∧
        2 * lden.toNat < 2 ^ h.bits := by
  rcases Nat.lt_or_ge (2 * lden.toNat) (2 ^ h.bits) with hlt | hge
  · have hiff := slt_base_iff hlt
    cases hs : lden.slt (BitVec.ofNat h.bits h.base) with
    | true => exact .inl ⟨rfl, .inl ⟨hiff.1 hs, hlt⟩⟩
    | false =>
      refine .inr ⟨rfl, Nat.le_of_not_lt fun hc => ?_, hlt⟩
      rw [hiff.2 hc] at hs
      cases hs
  · refine .inl ⟨?_, .inr hge⟩
    have hge' := h.base_ge
    have hsmall : 2 * h.base < 2 ^ h.bits := by
      rw [← h.base_sq]
      nlinarith
    have hbase := base_toNat (h := h)
    have hlt := lden.isLt
    rw [BitVec.slt_iff_toInt_lt, BitVec.toInt_eq_toNat_cond, BitVec.toInt_eq_toNat_cond, hbase,
      if_neg (by omega), if_pos hsmall]
    omega

theorem unsignedQuotient_eq (hpos : 0 < den.toNat) :
    h.QuotientIs num.toNat den.toNat (unsignedQuotient num den).toNat := by
  by_cases hnum : num.high = 0
  · have hn := toNat_of_high_eq_zero hnum
    have hnlt := num.low.isLt
    refine h.quotientIs_of_right (fun hge => by omega) ?_
    by_cases hden : den.high = 0
    · rw [unsignedQuotient, if_pos ⟨hnum, hden⟩, hn, toNat_of_high_eq_zero hden]
      simp [toNat]
    · have := le_toNat_of_high_ne_zero hden
      rw [unsignedQuotient, if_neg (fun hc => hden hc.2), if_pos hnum,
        Nat.div_eq_of_lt (by omega)]
      simp [toNat]
  · have hn := le_toNat_of_high_ne_zero hnum
    have hsq := h.base_sq
    rw [unsignedQuotient, if_neg (fun hc => hnum hc.1), if_neg hnum]
    -- the long division
    have hlong : h.base ≤ den.toNat → (2 ^ h.bits ≤ den.toNat ∨ 2 * den.toNat < 2 ^ h.bits) →
        h.QuotientIs num.toNat den.toNat
          (ofDigits (h.longDivide num.digits den.digits) : DoubleInt h).toNat := by
      intro hbig hor
      refine h.quotientIs_of_right (fun _ h2 h3 => by omega) ?_
      have hB : 1 < h.base := Nat.lt_of_lt_of_le (by decide) h.base_ge
      have hlog : 0 < Nat.log h.base den.toNat := Nat.log_pos hB hbig
      obtain ⟨hlt, hlen, hval⟩ := h.longDivide_eq rfl num.digits_lt rfl den.digits_lt hlog
        (by rw [ofDigits_digits]; exact Nat.pow_log_le_self _ hpos.ne')
        (by rw [ofDigits_digits]; exact Nat.lt_pow_succ_log_self hB _)
      rw [toNat_ofDigits hlen hlt, hval, ofDigits_digits, ofDigits_digits]
    by_cases hden : den.high = 0
    · have hd := toNat_of_high_eq_zero hden
      have hdlt := den.low.isLt
      rcases slt_base_cases den.low with ⟨hs, hsmall⟩ | ⟨hs, hbig, hlt⟩
      · rw [if_pos ⟨hden, hs⟩]
        rcases hsmall with ⟨hsmall, hlt⟩ | hhalf
        · obtain ⟨-, hrem, hqlt, hrun⟩ :=
            (h.shortDigit_step (hd ▸ hpos) hsmall).run num.digits_lt trivial (hd ▸ hpos)
          rw [toNat_ofDigits (List.length_mapAccumr _ _ _) hqlt]
          rw [Nat.zero_mul, Nat.zero_add, ofDigits_digits] at hrun
          rw [eq_div_of_run hrun hrem, ← hd]
          exact h.quotientIs_of_right (fun _ h2 _ => by omega) rfl
        · obtain ⟨hqlt, hqlen, hyes, hno⟩ :=
            h.shortQuotient_eq (show num.digits.length = 4 from rfl) num.digits_lt hhalf hdlt
          rw [ofDigits_digits, ← toNat_ofDigits hqlen hqlt] at hyes hno
          rw [hd]
          refine ⟨fun hr => hyes (hr hn hhalf hdlt), fun hr => ?_⟩
          obtain ⟨hlow, hiff⟩ := hno fun hc => hr fun _ _ _ => hc
          exact ⟨hn, hhalf, hdlt, hlow, hiff⟩
      · rw [if_neg (fun hc => by rw [hs] at hc; exact absurd hc.2 (by decide))]
        exact hlong (by omega) (.inr (by omega))
    · have hd := le_toNat_of_high_ne_zero hden
      have hle := Nat.le_mul_self h.base
      rw [if_neg (fun hc => hden hc.1)]
      exact hlong (by omega) (.inl hd)

end DoubleInt

end Z80Gcc
