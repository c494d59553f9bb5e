import Z80Gcc.Spec.LongLongDivide
import Z80Gcc.Proofs.LongLong
import Z80Gcc.Lib.LongDivision

/-! The 64-bit division: two half digits make a digit of the quotient, and normalizing makes at most two digits of one word. -/

namespace Z80Gcc.LongLong

section HalfDigit

variable {B d₁ d₀ n x : Nat}

/-- The estimate `n / d₁` of a half digit, against the whole divisor. -/
theorem half_estimate (B d₁ d₀ n x : Nat) :
    n * B + x + n / d₁ * d₀ = n / d₁ * (d₁ * B + d₀) + (n % d₁ * B + x) := by
  have h := Nat.div_add_mod n d₁
  generalize n / d₁ = e at *
  generalize n % d₁ = t at *
  rw [← h]
  ring

/-- What the estimate takes from the low half of the divisor fits in a word. -/
theorem half_product_lt (hnorm : B ≤ 2 * d₁) (hd₀ : d₀ < B) (hn : n < d₁ * B + d₀) : n / d₁ * d₀ < B * B := by
  have hpos : 0 < d₁ := by omega
  have he : n / d₁ ≤ B + 1 := by
    rw [Nat.div_le_iff_le_mul_add_pred hpos]
    have hexp : d₁ * (B + 1) = d₁ * B + d₁ := by ring
    omega
  obtain ⟨k, hk⟩ : ∃ k, B = k + 1 := ⟨B - 1, by omega⟩
  calc n / d₁ * d₀ ≤ (B + 1) * (B - 1) := Nat.mul_le_mul he (by omega)
    _ < B * B := by
      rw [hk, Nat.add_sub_cancel]
      have hexp : (k + 1 + 1) * k + 1 = (k + 1) * (k + 1) := by ring
      omega

/-- The half digit is the estimate, or one or two less: one less when what is left and the divisor do not fit in a word together. -/
theorem half_digit {W e t m d N : Nat} (hid : N + m = e * d + t) (hm : m < W) (hnorm : W ≤ 2 * d) (ht : t < d) :
    (m ≤ t → e * d + (t - m) = N ∧ t - m < d) ∧
    (t < m → m ≤ t + d → 1 ≤ e ∧ (e - 1) * d + (t + d - m) = N ∧ t + d - m < d) ∧
    (t + d < m → 2 ≤ e ∧ (e - 2) * d + (t + d + d - m) = N ∧ t + d + d - m < d) := by
  refine ⟨fun h => ⟨by omega, by omega⟩, fun hlt hle => ?_, fun hlt => ?_⟩
  · have he : 1 ≤ e := by
      by_contra hzero
      obtain rfl : e = 0 := by omega
      omega
    obtain ⟨k, rfl⟩ := Nat.exists_eq_add_of_le' he
    have hexp : (k + 1) * d = k * d + d := Nat.succ_mul k d
    rw [Nat.add_sub_cancel]
    omega
  · have he : 2 ≤ e := by
      by_contra hsmall
      obtain rfl | rfl : e = 0 ∨ e = 1 := by omega
      · omega
      · omega
    obtain ⟨k, rfl⟩ := Nat.exists_eq_add_of_le' he
    have hexp : (k + 2) * d = k * d + d + d := by ring
    rw [Nat.add_sub_cancel]
    omega

end HalfDigit

section Qrnnd

variable {d n x : BitVec 32}

theorem or_half_toNat (h l : BitVec 32) (hh : h.toNat < 2 ^ 16) (hl : l.toNat < 2 ^ 16) :
    (h * 0x10000 ||| l).toNat = h.toNat * 2 ^ 16 + l.toNat := by
  have hmul : (h * 0x10000).toNat = h.toNat <<< 16 := by
    rw [BitVec.toNat_mul, Nat.shiftLeft_eq, show (0x10000 : BitVec 32).toNat = 2 ^ 16 from rfl, Nat.mod_eq_of_lt (by omega)]
  rw [BitVec.toNat_or, hmul, ← Nat.shiftLeft_add_eq_or_of_lt hl, Nat.shiftLeft_eq]

theorem toNat_sub_word {a b : BitVec 32} (h : b.toNat ≤ a.toNat) : (a - b).toNat = a.toNat - b.toNat :=
  BitVec.toNat_sub_of_le (BitVec.le_def.2 h)

/-- The corrections of a half digit, with the carry found by comparing. -/
theorem half_corrections {q m t : BitVec 32} {N : Nat} (hd : 2 ^ 31 ≤ d.toNat) (ht : t.toNat < d.toNat)
    (hid : N + m.toNat = q.toNat * d.toNat + t.toNat) {s : BitVec 32 × BitVec 32}
    (hs : s = if t < m then if t + d ≥ d ∧ t + d < m then (q - 1 - 1, t + d + d - m) else (q - 1, t + d - m) else (q, t - m)) :
    s.1.toNat * d.toNat + s.2.toNat = N ∧ s.2.toNat < d.toNat := by
  have hdlt := d.isLt
  have hmlt := m.isLt
  have hqlt := q.isLt
  have hone : (1 : BitVec 32).toNat = 1 := rfl
  obtain ⟨hfit, hless, htwo⟩ := half_digit hid m.isLt (show 2 ^ 32 ≤ 2 * d.toNat by omega) ht
  have hsum : (t + d).toNat = (t.toNat + d.toNat) % 2 ^ 32 := BitVec.toNat_add _ _
  by_cases htm : t.toNat < m.toNat
  case neg =>
    obtain ⟨heq, hlt⟩ := hfit (Nat.le_of_not_lt htm)
    rw [if_neg (fun h => htm (BitVec.lt_def.1 h))] at hs
    rw [hs, toNat_sub_word (Nat.le_of_not_lt htm)]
    exact ⟨heq, hlt⟩
  rw [if_pos (BitVec.lt_def.2 htm)] at hs
  by_cases htwice : t.toNat + d.toNat < m.toNat
  · -- both corrections
    obtain ⟨hq, heq, hlt⟩ := htwo htwice
    have hsum' : (t + d).toNat = t.toNat + d.toNat := by omega
    have hback : (t + d + d - m).toNat = t.toNat + d.toNat + d.toNat - m.toNat := by
      rw [BitVec.toNat_sub, BitVec.toNat_add, hsum']
      omega
    have hq1 : (q - 1).toNat = q.toNat - 1 := toNat_sub_word (by omega)
    have hq2 : (q - 1 - 1).toNat = q.toNat - 2 := by
      rw [toNat_sub_word (by omega), hq1, hone, Nat.sub_sub]
    rw [if_pos ⟨BitVec.le_def.2 (by omega), BitVec.lt_def.2 (by omega)⟩] at hs
    rw [hs, hq2, hback]
    exact ⟨heq, hlt⟩
  · obtain ⟨hq, heq, hlt⟩ := hless htm (Nat.le_of_not_lt htwice)
    have hback : (t + d - m).toNat = t.toNat + d.toNat - m.toNat := by
      rw [BitVec.toNat_sub, hsum]
      omega
    have hq1 : (q - 1).toNat = q.toNat - 1 := toNat_sub_word (by omega)
    have hcond : ¬ (t + d ≥ d ∧ t + d < m) := by
      rw [ge_iff_le, BitVec.le_def, BitVec.lt_def]
      omega
    rw [if_neg hcond] at hs
    rw [hs, hq1, hback]
    exact ⟨heq, hlt⟩

theorem udivQrnndHalf_spec (hd : 2 ^ 31 ≤ d.toNat) (hn : n.toNat < d.toNat) (hx : x.toNat < 2 ^ 16) :
    (udivQrnndHalf d n x).1.toNat * d.toNat + (udivQrnndHalf d n x).2.toNat = n.toNat * 2 ^ 16 + x.toNat ∧
      (udivQrnndHalf d n x).2.toNat < d.toNat := by
  have hdlt := d.isLt
  have hsplit : d.toNat = (llHighpart d).toNat * 2 ^ 16 + (llLowpart d).toNat := by
    rw [llHighpart_toNat, llLowpart_toNat]
    omega
  have hlow : (llLowpart d).toNat < 2 ^ 16 := by
    rw [llLowpart_toNat]
    omega
  have hmod : n.toNat % (llHighpart d).toNat < (llHighpart d).toNat := Nat.mod_lt _ (by omega)
  have hproduct : (n / llHighpart d * llLowpart d).toNat = n.toNat / (llHighpart d).toNat * (llLowpart d).toNat := by
    have hlt := half_product_lt (show 2 ^ 16 ≤ 2 * (llHighpart d).toNat by omega) hlow (hsplit ▸ hn)
    rw [BitVec.toNat_mul, BitVec.toNat_udiv, Nat.mod_eq_of_lt (by omega)]
  have hrest : ((n % llHighpart d) * 0x10000 ||| x).toNat = n.toNat % (llHighpart d).toNat * 2 ^ 16 + x.toNat := by
    rw [or_half_toNat _ _ (by rw [BitVec.toNat_umod]; omega) hx, BitVec.toNat_umod]
  refine half_corrections (m := n / llHighpart d * llLowpart d) (q := n / llHighpart d) hd ?_ ?_ rfl
  · rw [hrest]
    omega
  · rw [hproduct, hrest, BitVec.toNat_udiv, hsplit]
    exact half_estimate _ _ _ _ _

theorem half_digit_lt {q d r n x : Nat} (h : q * d + r = n * 2 ^ 16 + x) (hn : n < d) (hx : x < 2 ^ 16) : q < 2 ^ 16 := by
  by_contra hge
  have hmul : 2 ^ 16 * d ≤ q * d := Nat.mul_le_mul_right d (Nat.le_of_not_lt hge)
  omega

theorem udivQrnnd_spec {n1 : BitVec 32} (n0 : BitVec 32) (hd : 2 ^ 31 ≤ d.toNat) (hn : n1.toNat < d.toNat) :
    ∃ q r, udivQrnnd n1 n0 d = some (q, r) ∧ q.toNat * d.toNat + r.toNat = n1.toNat * 2 ^ 32 + n0.toNat ∧ r.toNat < d.toNat := by
  have hmsb : d.msb = true := by
    rw [BitVec.msb_eq_decide]
    exact decide_eq_true hd
  rw [udivQrnnd, if_pos ⟨hmsb, BitVec.lt_def.2 hn⟩]
  have hdlt := d.isLt
  have hn0 := n0.isLt
  have hx1 : (llHighpart n0).toNat < 2 ^ 16 := by
    rw [llHighpart_toNat]
    omega
  have hx0 : (llLowpart n0).toNat < 2 ^ 16 := by
    rw [llLowpart_toNat]
    omega
  obtain ⟨heq1, hlt1⟩ := udivQrnndHalf_spec hd hn hx1
  obtain ⟨heq0, hlt0⟩ := udivQrnndHalf_spec (n := (udivQrnndHalf d n1 (llHighpart n0)).2) hd hlt1 hx0
  refine ⟨_, _, rfl, ?_, hlt0⟩
  have hq1 := half_digit_lt heq1 hn hx1
  have hq0 := half_digit_lt heq0 hlt1 hx0
  rw [or_half_toNat _ _ hq1 hq0]
  generalize udivQrnndHalf d n1 (llHighpart n0) = s1 at *
  generalize udivQrnndHalf d s1.2 (llLowpart n0) = s0 at *
  have hexp : (s1.1.toNat * 2 ^ 16 + s0.1.toNat) * d.toNat = s1.1.toNat * d.toNat * 2 ^ 16 + s0.1.toNat * d.toNat := by ring
  rw [llHighpart_toNat] at heq1
  rw [llLowpart_toNat] at heq0
  omega

end Qrnnd

section Normalize

theorem clzTab_eq : ∀ i < 256, i ≠ 0 → clzTab.getD i 0 = Nat.log2 i + 1 := by
  decide +kernel

/-- The count is right when the byte at `a` is the highest that is not 0. -/
theorem count_of_byte {x a : BitVec 32} (ha : a.toNat ≤ 24) (hlow : 2 ^ a.toNat ≤ x.toNat) (hhigh : x.toNat < 2 ^ (a.toNat + 8)) :
    ∃ k < 32, 32 - (BitVec.ofNat 32 (clzTab.getD (x >>> a.toNat).toNat 0) + a) = BitVec.ofNat 32 k ∧
      2 ^ 31 ≤ x.toNat * 2 ^ k ∧ x.toNat * 2 ^ k < 2 ^ 32 := by
  obtain ⟨i, hi⟩ : ∃ i, i = x.toNat / 2 ^ a.toNat := ⟨_, rfl⟩
  have hpos : 0 < 2 ^ a.toNat := Nat.two_pow_pos _
  have hi0 : i ≠ 0 := by
    rw [hi]
    exact Nat.pos_iff_ne_zero.1 (Nat.div_pos hlow hpos)
  have hi256 : i < 2 ^ 8 := by
    rw [hi, Nat.div_lt_iff_lt_mul hpos, ← Nat.pow_add, Nat.add_comm 8]
    exact hhigh
  have hl8 : Nat.log2 i < 8 := (Nat.log2_lt hi0).2 hi256
  have hshift : (x >>> a.toNat).toNat = i := by
    rw [BitVec.toNat_ushiftRight, Nat.shiftRight_eq_div_pow, hi]
  have hlo : 2 ^ (Nat.log2 i + a.toNat) ≤ x.toNat := by
    rw [Nat.pow_add]
    have hself := Nat.log2_self_le hi0
    rw [hi] at hself ⊢
    exact (Nat.mul_le_mul_right _ hself).trans (Nat.div_mul_le_self _ _)
  have hhi : x.toNat < 2 ^ (Nat.log2 i + 1 + a.toNat) := by
    rw [Nat.pow_add, ← Nat.div_lt_iff_lt_mul hpos, ← hi]
    exact Nat.lt_log2_self
  refine ⟨31 - (Nat.log2 i + a.toNat), by omega, ?_, ?_, ?_⟩
  · rw [hshift, clzTab_eq i hi256 hi0]
    apply BitVec.eq_of_toNat_eq
    rw [BitVec.toNat_sub, BitVec.toNat_add, BitVec.toNat_ofNat, BitVec.toNat_ofNat]
    have h32 : (32 : BitVec 32).toNat = 32 := rfl
    omega
  · calc 2 ^ 31 = 2 ^ (Nat.log2 i + a.toNat) * 2 ^ (31 - (Nat.log2 i + a.toNat)) := by
          rw [← Nat.pow_add]
          congr 1
          omega
      _ ≤ _ := Nat.mul_le_mul_right _ hlo
  · calc _ < 2 ^ (Nat.log2 i + 1 + a.toNat) * 2 ^ (31 - (Nat.log2 i + a.toNat)) := Nat.mul_lt_mul_of_pos_right hhi (Nat.two_pow_pos _)
      _ = 2 ^ 32 := by
          rw [← Nat.pow_add]
          congr 1
          omega

theorem countLeadingZeros_spec {x : BitVec 32} (hx : x ≠ 0) :
    ∃ k < 32, countLeadingZeros x = BitVec.ofNat 32 k ∧ 2 ^ 31 ≤ x.toNat * 2 ^ k ∧ x.toNat * 2 ^ k < 2 ^ 32 := by
  have hxlt := x.isLt
  have hpos : x.toNat ≠ 0 := fun h => hx (BitVec.eq_of_toNat_eq h)
  have h8 : ((1 : BitVec 32) <<< 8).toNat = 2 ^ 8 := rfl
  have h16 : ((1 : BitVec 32) <<< (2 * 8)).toNat = 2 ^ 16 := rfl
  have h24 : ((1 : BitVec 32) <<< (3 * 8)).toNat = 2 ^ 24 := rfl
  rw [countLeadingZeros]
  simp only [BitVec.lt_def]
  split
  · split
    · exact count_of_byte (by decide) (show 2 ^ 0 ≤ x.toNat by omega) (show x.toNat < 2 ^ 8 by omega)
    · exact count_of_byte (by decide) (show 2 ^ 8 ≤ x.toNat by omega) (show x.toNat < 2 ^ 16 by omega)
  · split
    · exact count_of_byte (by decide) (show 2 ^ 16 ≤ x.toNat by omega) (show x.toNat < 2 ^ 24 by omega)
    · exact count_of_byte (by decide) (show 2 ^ 24 ≤ x.toNat by omega) (show x.toNat < 2 ^ 32 by omega)

variable {x y : BitVec 32} {k : Nat}

theorem count_toNat (hk : k < 32) : (BitVec.ofNat 32 k).toNat = k := by
  rw [BitVec.toNat_ofNat, Nat.mod_eq_of_lt (by omega)]

theorem count_lt (hk : k < 32) : BitVec.ofNat 32 k < 32 := by
  rw [BitVec.lt_def, count_toNat hk]
  exact hk

theorem shl_ofNat (hk : k < 32) : shl x (BitVec.ofNat 32 k) = some (x <<< k) := by
  rw [shl, if_pos (count_lt hk), count_toNat hk]

theorem shr_ofNat (hk : k < 32) : shr x (BitVec.ofNat 32 k) = some (x >>> k) := by
  rw [shr, if_pos (count_lt hk), count_toNat hk]

theorem count_complement (hk : k < 32) : (32 : BitVec 32) - BitVec.ofNat 32 k = BitVec.ofNat 32 (32 - k) := by
  have h32 : (32 : BitVec 32).toNat = 32 := rfl
  apply BitVec.eq_of_toNat_eq
  rw [BitVec.toNat_sub, BitVec.toNat_ofNat, BitVec.toNat_ofNat]
  omega

theorem count_eq_zero (hk : k < 32) : BitVec.ofNat 32 k = 0 ↔ k = 0 := by
  rw [← BitVec.toNat_inj, BitVec.toNat_ofNat, Nat.mod_eq_of_lt (by omega)]
  rfl

theorem pow_mul_pow (hk : k < 32) : 2 ^ k * 2 ^ (32 - k) = 2 ^ 32 := by
  rw [← Nat.pow_add]
  congr 1
  omega

theorem shiftLeft_toNat (hk : k < 32) : (x <<< k).toNat = x.toNat % 2 ^ (32 - k) * 2 ^ k := by
  rw [BitVec.toNat_shiftLeft, Nat.shiftLeft_eq, ← pow_mul_pow hk, Nat.mul_comm (2 ^ k), Nat.mul_mod_mul_right]

theorem shiftRight_toNat : (x >>> k).toNat = x.toNat / 2 ^ k := by
  rw [BitVec.toNat_ushiftRight, Nat.shiftRight_eq_div_pow]

/-- A word shifted left, with the bits that come from the word below. -/
theorem funnel_toNat (hk : k < 32) :
    (x <<< k ||| y >>> (32 - k)).toNat = x.toNat % 2 ^ (32 - k) * 2 ^ k + y.toNat / 2 ^ (32 - k) := by
  have hlt : y.toNat / 2 ^ (32 - k) < 2 ^ k := by
    rw [Nat.div_lt_iff_lt_mul (Nat.two_pow_pos _), pow_mul_pow hk]
    exact y.isLt
  rw [BitVec.toNat_or, shiftLeft_toNat hk, shiftRight_toNat, ← Nat.shiftLeft_eq, Nat.shiftLeft_add_eq_or_of_lt hlt]

theorem normalize_words (hk : k < 32) (n₁ n₀ : Nat) :
    n₁ / 2 ^ (32 - k) * 2 ^ 64 + (n₁ % 2 ^ (32 - k) * 2 ^ k + n₀ / 2 ^ (32 - k)) * 2 ^ 32 + n₀ % 2 ^ (32 - k) * 2 ^ k =
      (n₁ * 2 ^ 32 + n₀) * 2 ^ k := by
  have hPQ := pow_mul_pow hk
  have h₁ := Nat.div_add_mod n₁ (2 ^ (32 - k))
  have h₀ := Nat.div_add_mod n₀ (2 ^ (32 - k))
  generalize n₁ / 2 ^ (32 - k) = a at *
  generalize n₁ % 2 ^ (32 - k) = b at *
  generalize n₀ / 2 ^ (32 - k) = c at *
  generalize n₀ % 2 ^ (32 - k) = e at *
  rw [← h₁, ← h₀]
  generalize 2 ^ (32 - k) = Q at *
  generalize 2 ^ k = P at *
  calc a * 2 ^ 64 + (b * P + c) * 2 ^ 32 + e * P = a * 2 ^ 32 * 2 ^ 32 + b * P * 2 ^ 32 + c * 2 ^ 32 + e * P := by ring
    _ = a * 2 ^ 32 * (P * Q) + b * P * 2 ^ 32 + c * (P * Q) + e * P := by rw [hPQ]
    _ = _ := by ring

theorem scaled_division {q d r N P : Nat} (hP : 0 < P) (h : q * (d * P) + r = N * P) (hr : r < d * P) :
    q * d + r / P = N ∧ r / P < d := by
  refine ⟨?_, (Nat.div_lt_iff_lt_mul hP).2 hr⟩
  have hdvd : P ∣ r := by
    rw [← Nat.dvd_add_right (Dvd.intro_left (q * d) (Nat.mul_assoc q d P)), h]
    exact Nat.dvd_mul_left P N
  have hcancel := Nat.div_mul_cancel hdvd
  apply Nat.eq_of_mul_eq_mul_right hP
  calc (q * d + r / P) * P = q * (d * P) + r / P * P := by ring
    _ = N * P := by rw [hcancel, h]

end Normalize

section Branches

def Divides (n d : Nat) (r : Option (BitVec 64 × BitVec 64)) : Prop :=
  ∃ q rem, r = some (q, rem) ∧ q.toNat * d + rem.toNat = n ∧ rem.toNat < d

variable {n1 n0 d1 d0 : BitVec 32}

theorem ll_low (x : BitVec 32) : (DIunion.ll ⟨0, x⟩).toNat = x.toNat := by
  rw [DIunion.ll_toNat]
  exact (congrArg (· + x.toNat) (Nat.zero_mul _)).trans (Nat.zero_add _)

theorem top_word_zero {k : Nat} {x : BitVec 32} (hk : k < 32) (h : x.toNat * 2 ^ k < 2 ^ 32) : x.toNat / 2 ^ (32 - k) = 0 := by
  rw [Nat.div_eq_zero_iff_lt (Nat.two_pow_pos _)]
  refine Nat.lt_of_mul_lt_mul_left (a := 2 ^ k) ?_
  rwa [pow_mul_pow hk, Nat.mul_comm]

theorem normalizeShort_spec (n0 : BitVec 32) {k : Nat} (hk : k < 32) (h : n1.toNat < d0.toNat) (hhigh : d0.toNat * 2 ^ k < 2 ^ 32) :
    ∃ d' n1' n0' : BitVec 32, normalizeShort (BitVec.ofNat 32 k) n1 n0 d0 = some (d', n1', n0') ∧
      d'.toNat = d0.toNat * 2 ^ k ∧ n1'.toNat < d'.toNat ∧
        n1'.toNat * 2 ^ 32 + n0'.toNat = (n1.toNat * 2 ^ 32 + n0.toNat) * 2 ^ k := by
  rw [normalizeShort]
  by_cases hzero : k = 0
  · subst hzero
    exact ⟨d0, n1, n0, if_neg (not_not.2 ((count_eq_zero hk).2 rfl)), (Nat.mul_one _).symm, h, (Nat.mul_one _).symm⟩
  have hk' : 32 - k < 32 := by omega
  rw [if_pos (mt (count_eq_zero hk).1 hzero), count_complement hk, shl_ofNat hk, shl_ofNat hk, shl_ofNat hk, shr_ofNat hk']
  have hd' : (d0 <<< k).toNat = d0.toNat * 2 ^ k := by
    rw [BitVec.toNat_shiftLeft, Nat.shiftLeft_eq, Nat.mod_eq_of_lt hhigh]
  have hwords := normalize_words hk n1.toNat n0.toNat
  have hnone : n1.toNat / 2 ^ (32 - k) = 0 :=
    top_word_zero hk ((Nat.mul_lt_mul_of_pos_right h (Nat.two_pow_pos k)).trans hhigh)
  rw [hnone, Nat.zero_mul, Nat.zero_add, ← funnel_toNat hk, ← shiftLeft_toNat hk] at hwords
  refine ⟨_, _, _, rfl, hd', ?_, hwords⟩
  rw [hd']
  have hn0 := n0.isLt
  have hlt : (n1.toNat * 2 ^ 32 + n0.toNat) * 2 ^ k < d0.toNat * 2 ^ 32 * 2 ^ k :=
    Nat.mul_lt_mul_of_pos_right (by omega) (Nat.two_pow_pos k)
  rw [Nat.mul_right_comm, ← hwords] at hlt
  exact Nat.lt_of_mul_lt_mul_right (Nat.lt_of_le_of_lt (Nat.le_add_right _ _) hlt)

theorem divShortQuotient_spec (h : n1.toNat < d0.toNat) :
    Divides (n1.toNat * 2 ^ 32 + n0.toNat) d0.toNat (divShortQuotient n1 n0 d0) := by
  have hd0 : d0 ≠ 0 := by
    intro hzero
    rw [hzero] at h
    exact Nat.not_lt_zero _ h
  obtain ⟨k, hk, hcount, hlow, hhigh⟩ := countLeadingZeros_spec hd0
  obtain ⟨d', n1', n0', hs, hd', hlt, hn'⟩ := normalizeShort_spec n0 hk h hhigh
  obtain ⟨q, r, hq, heq, hr⟩ := udivQrnnd_spec n0' (hd' ▸ hlow) hlt
  rw [hn', hd'] at heq
  rw [hd'] at hr
  obtain ⟨hdiv, hrem⟩ := scaled_division (Nat.two_pow_pos k) heq hr
  refine ⟨DIunion.ll ⟨0, q⟩, DIunion.ll ⟨0, r >>> k⟩, ?_, ?_, ?_⟩
  · rw [divShortQuotient, hcount, hs, Option.bind_some, hq, Option.bind_some, shr_ofNat hk]
    rfl
  · rw [ll_low, ll_low, shiftRight_toNat]
    exact hdiv
  · rw [ll_low, shiftRight_toNat]
    exact hrem

theorem firstDigit_spec (n0 : BitVec 32) {k : Nat} (hk : k < 32) (h : d0.toNat ≤ n1.toNat) (hlow : 2 ^ 31 ≤ d0.toNat * 2 ^ k)
    (hhigh : d0.toNat * 2 ^ k < 2 ^ 32) :
    ∃ d' q1 n1' n0' : BitVec 32, firstDigit (BitVec.ofNat 32 k) n1 n0 d0 = some (d', q1, n1', n0') ∧
      d'.toNat = d0.toNat * 2 ^ k ∧ n1'.toNat < d'.toNat ∧
        q1.toNat * d'.toNat * 2 ^ 32 + (n1'.toNat * 2 ^ 32 + n0'.toNat) = (n1.toNat * 2 ^ 32 + n0.toNat) * 2 ^ k := by
  have hn1 := n1.isLt
  rw [firstDigit]
  by_cases hzero : k = 0
  · subst hzero
    have hone : (1 : BitVec 32).toNat = 1 := rfl
    refine ⟨d0, 1, n1 - d0, n0, if_pos ((count_eq_zero hk).2 rfl), (Nat.mul_one _).symm, ?_, ?_⟩
    · rw [toNat_sub_word h]
      omega
    · rw [toNat_sub_word h, hone]
      omega
  have hk' : 32 - k < 32 := by omega
  have hd' : (d0 <<< k).toNat = d0.toNat * 2 ^ k := by
    rw [BitVec.toNat_shiftLeft, Nat.shiftLeft_eq, Nat.mod_eq_of_lt hhigh]
  have hn2 : (n1 >>> (32 - k)).toNat < (d0 <<< k).toNat := by
    rw [hd', shiftRight_toNat, Nat.div_lt_iff_lt_mul (Nat.two_pow_pos _)]
    have hle : 2 ^ 31 * 2 ^ 1 ≤ d0.toNat * 2 ^ k * 2 ^ (32 - k) :=
      Nat.mul_le_mul hlow (Nat.pow_le_pow_right (by decide) (by omega))
    omega
  obtain ⟨q1, r1, hq, heq, hr⟩ := udivQrnnd_spec (n1 <<< k ||| n0 >>> (32 - k)) (hd' ▸ hlow) hn2
  rw [if_neg (mt (count_eq_zero hk).1 hzero), count_complement hk]
  dsimp only
  rw [shl_ofNat hk, shl_ofNat hk, shl_ofNat hk, shr_ofNat hk', shr_ofNat hk']
  refine ⟨d0 <<< k, q1, r1, n0 <<< k, ?_, hd', hr, ?_⟩
  · simp only [Option.bind_eq_bind, Option.bind_some, hq]
  · have hwords := normalize_words hk n1.toNat n0.toNat
    rw [← funnel_toNat hk, ← shiftLeft_toNat hk, ← shiftRight_toNat] at hwords
    rw [← hwords, ← Nat.add_assoc, ← Nat.add_mul, heq]
    ring

theorem divShortDivisor_spec (hd0 : d0 ≠ 0) (h : d0.toNat ≤ n1.toNat) :
    Divides (n1.toNat * 2 ^ 32 + n0.toNat) d0.toNat (divShortDivisor n1 n0 d0) := by
  obtain ⟨k, hk, hcount, hlow, hhigh⟩ := countLeadingZeros_spec hd0
  obtain ⟨d', q1, n1', n0', hs, hd', hlt, hn'⟩ := firstDigit_spec n0 hk h hlow hhigh
  obtain ⟨q, r, hq, heq, hr⟩ := udivQrnnd_spec n0' (hd' ▸ hlow) hlt
  have hboth : (q1.toNat * 2 ^ 32 + q.toNat) * (d0.toNat * 2 ^ k) + r.toNat = (n1.toNat * 2 ^ 32 + n0.toNat) * 2 ^ k := by
    rw [← hn', ← heq, hd']
    ring
  rw [hd'] at hr
  obtain ⟨hdiv, hrem⟩ := scaled_division (Nat.two_pow_pos k) hboth hr
  refine ⟨DIunion.ll ⟨q1, q⟩, DIunion.ll ⟨0, r >>> k⟩, ?_, ?_, ?_⟩
  · rw [divShortDivisor, hcount, hs, Option.bind_some, hq, Option.bind_some, shr_ofNat hk]
    rfl
  · rw [DIunion.ll_toNat, ll_low, shiftRight_toNat]
    exact hdiv
  · rw [ll_low, shiftRight_toNat]
    exact hrem

theorem subDdmmss_ll (a b : DIunion) : (subDdmmss a b).ll = a.ll - b.ll := by
  have ha := a.low.isLt
  have hb := b.low.isLt
  have hah := a.high.isLt
  have hbh := b.high.isLt
  have hone : (1 : BitVec 32).toNat = 1 := rfl
  have hzero : (0 : BitVec 32).toNat = 0 := rfl
  apply BitVec.eq_of_toNat_eq
  rw [DIunion.ll_toNat, BitVec.toNat_sub, DIunion.ll_toNat, DIunion.ll_toNat, subDdmmss]
  dsimp only
  have hlow : (a.low - b.low).toNat = (2 ^ 32 - b.low.toNat + a.low.toNat) % 2 ^ 32 := BitVec.toNat_sub _ _
  by_cases hborrow : a.low - b.low > a.low
  · rw [if_pos hborrow, hlow, BitVec.toNat_sub, BitVec.toNat_sub, hone]
    rw [gt_iff_lt, BitVec.lt_def, hlow] at hborrow
    omega
  · rw [if_neg hborrow, hlow, BitVec.toNat_sub, BitVec.toNat_sub, hzero]
    rw [gt_iff_lt, BitVec.lt_def, hlow] at hborrow
    omega

/-- The digit for a divisor of two words is at most one too large. -/
theorem long_digit {k n d q r n₀ d₁ d₀ : Nat} (hk : k < 32) (hd₁ : 2 ^ 31 ≤ d₁) (hd₀ : d₀ < 2 ^ 32) (hn : n < 2 ^ 64)
    (hn' : (q * d₁ + r) * 2 ^ 32 + n₀ = n * 2 ^ k) (hd' : d₁ * 2 ^ 32 + d₀ = d * 2 ^ k) : q * d₀ ≤ d₁ * 2 ^ 32 + d₀ := by
  have hq : q < 2 * 2 ^ k := by
    have hle : q * 2 ^ 31 ≤ q * d₁ := Nat.mul_le_mul_left q hd₁
    have hlt : n * 2 ^ k < 2 ^ 64 * 2 ^ k := Nat.mul_lt_mul_of_pos_right hn (Nat.two_pow_pos k)
    omega
  obtain hk | rfl : k ≤ 30 ∨ k = 31 := by omega
  · have hpow : 2 ^ k ≤ 2 ^ 30 := Nat.pow_le_pow_right (by decide) hk
    have hle : q * d₀ ≤ 2 ^ 31 * 2 ^ 32 := Nat.mul_le_mul (by omega) hd₀.le
    omega
  · -- the low word is 0 or 2^31
    have hle : q * d₀ ≤ 2 ^ 32 * 2 ^ 31 := Nat.mul_le_mul (by omega) (by omega)
    omega

theorem shift_right_words {k : Nat} (hk : k < 32) (hzero : 0 < k) (a b : BitVec 32) :
    (DIunion.ll ⟨a >>> k, a <<< (32 - k) ||| b >>> k⟩).toNat = (a.toNat * 2 ^ 32 + b.toNat) / 2 ^ k := by
  have hcompl : 32 - (32 - k) = k := by omega
  have hfunnel := funnel_toNat (x := a) (y := b) (show 32 - k < 32 by omega)
  rw [hcompl] at hfunnel
  rw [DIunion.ll_toNat]
  dsimp only
  rw [hfunnel, shiftRight_toNat]
  have hsplit := Nat.div_add_mod a.toNat (2 ^ k)
  have hPQ := pow_mul_pow hk
  generalize a.toNat / 2 ^ k = s at *
  generalize a.toNat % 2 ^ k = t at *
  generalize hQ : 2 ^ (32 - k) = Q at *
  have hpos : 0 < 2 ^ k := Nat.two_pow_pos k
  generalize 2 ^ k = P at *
  have hexp : (P * s + t) * 2 ^ 32 = P * (s * 2 ^ 32 + t * Q) := by
    rw [← hPQ]
    ring
  rw [← hsplit, hexp, Nat.mul_add_div hpos, Nat.add_assoc]

/-- The correction of the digit: the product is compared with what is left, and the divisor taken off it again. -/
theorem long_correction {q : BitVec 32} {m R d : DIunion} {X : Nat} (hm : m.ll.toNat = q.toNat * d.low.toNat)
    (hX : X = q.toNat * d.high.toNat * 2 ^ 32 + R.ll.toNat) (hR : R.high.toNat < d.high.toNat) (hle : m.ll.toNat ≤ d.ll.toNat)
    {s : BitVec 32 × DIunion}
    (hs : s = if m.high > R.high ∨ m.high = R.high ∧ m.low > R.low then (q - 1, subDdmmss m d) else (q, m)) :
    s.1.toNat * d.ll.toNat + (subDdmmss R s.2).ll.toNat = X ∧ (subDdmmss R s.2).ll.toNat < d.ll.toNat := by
  have hcompare : (m.high > R.high ∨ m.high = R.high ∧ m.low > R.low) ↔ R.ll.toNat < m.ll.toNat := by
    have hl := m.low.isLt
    have hl' := R.low.isLt
    rw [gt_iff_lt, gt_iff_lt, BitVec.lt_def, BitVec.lt_def, ← BitVec.toNat_inj, DIunion.ll_toNat, DIunion.ll_toNat]
    omega
  have hexp : q.toNat * d.ll.toNat = q.toNat * d.high.toNat * 2 ^ 32 + q.toNat * d.low.toNat := by
    rw [DIunion.ll_toNat]
    ring
  have hRd : R.ll.toNat < d.ll.toNat := by
    have hl := R.low.isLt
    rw [DIunion.ll_toNat, DIunion.ll_toNat]
    omega
  have hdlt := d.ll.isLt
  by_cases hless : R.ll.toNat < m.ll.toNat
  · rw [if_pos (hcompare.2 hless)] at hs
    have hq : 1 ≤ q.toNat := by
      by_contra hzero
      rw [hm, (by omega : q.toNat = 0), Nat.zero_mul] at hless
      exact Nat.not_lt_zero _ hless
    have hback : (subDdmmss R s.2).ll.toNat = R.ll.toNat + d.ll.toNat - m.ll.toNat := by
      rw [hs]
      dsimp only
      rw [subDdmmss_ll, subDdmmss_ll, BitVec.toNat_sub, BitVec.toNat_sub]
      omega
    have hpred : s.1.toNat = q.toNat - 1 := by
      rw [hs]
      exact toNat_sub_word hq
    obtain ⟨j, hj⟩ := Nat.exists_eq_add_of_le' hq
    rw [hback, hpred, hj, Nat.add_sub_cancel]
    rw [hj] at hm hX hexp
    rw [Nat.succ_mul j d.ll.toNat] at hexp
    omega
  · rw [if_neg (mt hcompare.1 hless)] at hs
    have hback : (subDdmmss R s.2).ll.toNat = R.ll.toNat - m.ll.toNat := by
      rw [hs]
      dsimp only
      rw [subDdmmss_ll, BitVec.toNat_sub]
      omega
    have hself : s.1 = q := by rw [hs]
    rw [hback, hself]
    omega

theorem divLongDivisor_spec (hd1 : d1 ≠ 0) (h : d1.toNat ≤ n1.toNat) :
    Divides (n1.toNat * 2 ^ 32 + n0.toNat) (d1.toNat * 2 ^ 32 + d0.toNat) (divLongDivisor n1 n0 d1 d0) := by
  obtain ⟨k, hk, hcount, hlow, hhigh⟩ := countLeadingZeros_spec hd1
  have hn1 := n1.isLt
  have hn0 := n0.isLt
  have hd0 := d0.isLt
  rw [divLongDivisor, hcount]
  dsimp only
  by_cases hzero : k = 0
  · subst hzero
    rw [if_pos ((count_eq_zero hk).2 rfl)]
    simp only [gt_iff_lt, ge_iff_le, BitVec.lt_def, BitVec.le_def]
    split
    · have hsub : ((subDdmmss ⟨n1, n0⟩ ⟨d1, d0⟩).ll).toNat = n1.toNat * 2 ^ 32 + n0.toNat - (d1.toNat * 2 ^ 32 + d0.toNat) := by
        rw [subDdmmss_ll, BitVec.toNat_sub, DIunion.ll_toNat, DIunion.ll_toNat]
        dsimp only
        omega
      refine ⟨_, _, rfl, ?_, ?_⟩
      · rw [hsub, ll_low, show (1 : BitVec 32).toNat = 1 from rfl]
        omega
      · rw [hsub]
        omega
    · refine ⟨_, _, rfl, ?_, ?_⟩
      · rw [ll_low, DIunion.ll_toNat, show (0 : BitVec 32).toNat = 0 from rfl, Nat.zero_mul, Nat.zero_add]
      · rw [DIunion.ll_toNat]
        dsimp only
        omega
  have hk' : 32 - k < 32 := by omega
  rw [if_neg (mt (count_eq_zero hk).1 hzero), count_complement hk]
  simp only [shl_ofNat hk, shl_ofNat hk', shr_ofNat hk, shr_ofNat hk', Option.bind_eq_bind, Option.bind_some]
  -- the divisor in its two words, the dividend in three
  have hdwords := normalize_words hk d1.toNat d0.toNat
  have hdnone : d1.toNat / 2 ^ (32 - k) = 0 := top_word_zero hk hhigh
  have hdmod : d1.toNat % 2 ^ (32 - k) = d1.toNat := Nat.mod_eq_of_lt ((Nat.div_eq_zero_iff_lt (Nat.two_pow_pos _)).1 hdnone)
  have hdhigh : 2 ^ 31 ≤ (d1 <<< k ||| d0 >>> (32 - k)).toNat := by
    rw [funnel_toNat hk, hdmod]
    exact hlow.trans (Nat.le_add_right _ _)
  rw [hdnone, Nat.zero_mul, Nat.zero_add, ← funnel_toNat hk, ← shiftLeft_toNat hk] at hdwords
  have hnwords := normalize_words hk n1.toNat n0.toNat
  rw [← funnel_toNat hk, ← shiftLeft_toNat hk, ← shiftRight_toNat] at hnwords
  generalize d1 <<< k ||| d0 >>> (32 - k) = dh at *
  generalize d0 <<< k = dl at *
  have hn2 : (n1 >>> (32 - k)).toNat < dh.toNat := by
    rw [shiftRight_toNat, Nat.div_lt_iff_lt_mul (Nat.two_pow_pos _)]
    have hle : 2 ^ 31 * 2 ^ 1 ≤ dh.toNat * 2 ^ (32 - k) := Nat.mul_le_mul hdhigh (Nat.pow_le_pow_right (by decide) (by omega))
    omega
  generalize n1 >>> (32 - k) = n2 at *
  generalize n1 <<< k ||| n0 >>> (32 - k) = n1' at *
  generalize n0 <<< k = n0' at *
  obtain ⟨q, r, hq, heq, hr⟩ := udivQrnnd_spec n1' hdhigh hn2
  have hN : (q.toNat * dh.toNat + r.toNat) * 2 ^ 32 + n0'.toNat = (n1.toNat * 2 ^ 32 + n0.toNat) * 2 ^ k := by
    rw [heq, ← hnwords]
    ring
  have hproduct : (umulPpmm q dl).ll.toNat = q.toNat * dl.toNat := umulPpmm_toNat q dl
  have hdll : (DIunion.ll ⟨dh, dl⟩).toNat = (d1.toNat * 2 ^ 32 + d0.toNat) * 2 ^ k := (DIunion.ll_toNat _).trans hdwords
  have hle : (umulPpmm q dl).ll.toNat ≤ (DIunion.ll ⟨dh, dl⟩).toNat := by
    rw [hproduct, DIunion.ll_toNat]
    exact long_digit hk hdhigh dl.isLt (by omega) hN hdwords
  have hX : (n1.toNat * 2 ^ 32 + n0.toNat) * 2 ^ k = q.toNat * dh.toNat * 2 ^ 32 + (DIunion.ll ⟨r, n0'⟩).toNat := by
    rw [← hN, DIunion.ll_toNat]
    ring
  obtain ⟨hdiv, hrem⟩ := long_correction (d := ⟨dh, dl⟩) (R := ⟨r, n0'⟩) hproduct hX hr hle rfl
  rw [hdll] at hdiv hrem
  obtain ⟨hquot, hlt⟩ := scaled_division (Nat.two_pow_pos k) hdiv hrem
  rw [hq, Option.bind_some]
  refine ⟨_, _, rfl, ?_, ?_⟩
  · rw [ll_low, shift_right_words hk (Nat.pos_of_ne_zero hzero), ← DIunion.ll_toNat]
    exact hquot
  · rw [shift_right_words hk (Nat.pos_of_ne_zero hzero), ← DIunion.ll_toNat]
    exact hlt

end Branches

section Results

theorem udivmoddi4_spec (n : BitVec 64) {d : BitVec 64} (hd : d ≠ 0) : udivmoddi4 n d = some (n / d, n % d) := by
  have hnw : n.toNat = (DIunion.ofLl n).high.toNat * 2 ^ 32 + (DIunion.ofLl n).low.toNat := by
    rw [← DIunion.ll_toNat, DIunion.ll_ofLl]
  have hdw : d.toNat = (DIunion.ofLl d).high.toNat * 2 ^ 32 + (DIunion.ofLl d).low.toNat := by
    rw [← DIunion.ll_toNat, DIunion.ll_ofLl]
  have hpos : d.toNat ≠ 0 := fun h => hd (BitVec.eq_of_toNat_eq h)
  have hdiv : Divides n.toNat d.toNat (udivmoddi4 n d) := by
    rw [udivmoddi4, hnw, hdw]
    by_cases hhigh : (DIunion.ofLl d).high = 0
    · rw [hhigh, show (0 : BitVec 32).toNat = 0 from rfl] at hdw
      rw [if_pos hhigh, hhigh, show (0 : BitVec 32).toNat = 0 from rfl, Nat.zero_mul, Nat.zero_add]
      by_cases hless : (DIunion.ofLl d).low > (DIunion.ofLl n).high
      · rw [if_pos hless]
        exact divShortQuotient_spec (BitVec.lt_def.1 hless)
      · have hlow : (DIunion.ofLl d).low ≠ 0 := by
          intro hzero
          rw [hzero] at hdw
          exact hpos hdw
        rw [if_neg hless, if_neg hlow]
        exact divShortDivisor_spec hlow (Nat.le_of_not_lt fun h => hless (BitVec.lt_def.2 h))
    rw [if_neg hhigh]
    by_cases hless : (DIunion.ofLl d).high > (DIunion.ofLl n).high
    · rw [if_pos hless]
      refine ⟨_, _, rfl, ?_, ?_⟩
      · rw [ll_low, DIunion.ll_toNat, show (0 : BitVec 32).toNat = 0 from rfl, Nat.zero_mul, Nat.zero_add]
      · have hlow := (DIunion.ofLl n).low.isLt
        have hlt := BitVec.lt_def.1 hless
        rw [DIunion.ll_toNat]
        dsimp only
        omega
    · rw [if_neg hless]
      exact divLongDivisor_spec hhigh (Nat.le_of_not_lt fun h => hless (BitVec.lt_def.2 h))
  obtain ⟨q, r, hqr, heq, hlt⟩ := hdiv
  have hq : q = n / d := by
    apply BitVec.eq_of_toNat_eq
    rw [BitVec.toNat_udiv]
    exact LongDivision.eq_div_of_run heq hlt
  have hr : r = n % d := by
    apply BitVec.eq_of_toNat_eq
    rw [BitVec.toNat_umod, ← heq, Nat.mul_add_mod_self_right, Nat.mod_eq_of_lt hlt]
  rw [hqr, hq, hr]

theorem high_slt_zero (u : BitVec 64) : (DIunion.ofLl u).high.slt 0 = u.msb := by
  rw [← msb_high]
  exact BitVec.slt_zero_eq_msb

/-- `__divdi3` and `__moddi3` are the signed division of the machine. -/
theorem divdi3_eq (u : BitVec 64) {v : BitVec 64} (hv : v ≠ 0) : divdi3 u v = some (u.sdiv v) ∧ moddi3 u v = some (u.srem v) := by
  have hneg : -v ≠ 0 := fun h => hv (BitVec.neg_eq_zero_iff.1 h)
  rw [divdi3, moddi3, high_slt_zero, high_slt_zero, negdi2_eq, negdi2_eq, BitVec.sdiv_eq, BitVec.srem_eq]
  cases hu : u.msb <;> cases hvs : v.msb
  · simp [udivmoddi4_spec u hv]
  · simp [udivmoddi4_spec u hneg, negdi2_eq]
  · simp [udivmoddi4_spec (-u) hv, negdi2_eq]
  · simp [udivmoddi4_spec (-u) hneg, negdi2_eq]

/-- The 64-bit division is right, unsigned, and signed but for the quotient that does not fit. -/
theorem long_long_divide (n : BitVec 64) {d : BitVec 64} (hd : d ≠ 0) :
    udivmoddi4 n d = some (n / d, n % d) ∧
    (¬ (n = BitVec.intMin 64 ∧ d = -1) → ∃ q r, divdi3 n d = some q ∧ moddi3 n d = some r ∧
      q.toInt = n.toInt.tdiv d.toInt ∧ r.toInt = n.toInt.tmod d.toInt) := by
  refine ⟨udivmoddi4_spec n hd, fun hfit => ?_⟩
  obtain ⟨hdiv, hmod⟩ := divdi3_eq n hd
  refine ⟨_, _, hdiv, hmod, ?_, ?_⟩
  · refine BitVec.toInt_sdiv_of_ne_or_ne n d ?_
    by_cases hmin : n = BitVec.intMin 64
    · exact .inr fun hone => hfit ⟨hmin, hone⟩
    · exact .inl hmin
  · exact BitVec.toInt_srem n d

theorem long_long_divide_minus_seven : ∃ q r, divdi3 (-7) 2 = some q ∧ moddi3 (-7) 2 = some r ∧
    q.toInt = (-7 : BitVec 64).toInt.tdiv (2 : BitVec 64).toInt ∧ r.toInt = (-7 : BitVec 64).toInt.tmod (2 : BitVec 64).toInt :=
  (long_long_divide (-7) (by decide)).2 (by decide)

end Results

end Z80Gcc.LongLong
