import Mathlib.Data.BitVec
import Mathlib.Data.Nat.Find

/-! The two word tricks on powers of two: `x & (x - 1)` is zero for them only, and `x & -x` is the
largest one that divides `x`. -/

namespace Z80Gcc.PowerOfTwo

variable {w : Nat} {x : BitVec w}

theorem and_sub_one_eq_zero_iff (hx : x ≠ 0) :
    x &&& (x - 1) = 0 ↔ ∃ k < w, x.toNat = 2 ^ k := by
  have hpos : x.toNat ≠ 0 := fun h0 => hx (BitVec.eq_of_toNat_eq h0)
  have hlt := x.isLt
  have hw : 0 < w := by
    by_contra h0
    obtain rfl : w = 0 := by omega
    rw [Nat.pow_zero] at hlt
    omega
  have hone : (1 : BitVec w).toNat = 1 := BitVec.toNat_one hw
  have hsub : (x - 1).toNat = x.toNat - 1 := by
    rw [BitVec.toNat_sub_of_le (by rw [BitVec.le_def, hone]; omega), hone]
  rw [← BitVec.toNat_inj, BitVec.toNat_and, hsub]
  refine (Nat.and_sub_one_eq_zero_iff_isPowerOfTwo hpos).trans ⟨?_, ?_⟩
  · rintro ⟨k, hk⟩
    exact ⟨k, (Nat.pow_lt_pow_iff_right (by decide)).1 (hk ▸ hlt), hk⟩
  · rintro ⟨k, -, hk⟩
    exact ⟨k, hk⟩

theorem exists_lowest (hx : x ≠ 0) :
    ∃ k, x.getLsbD k = true ∧ ∀ j < k, x.getLsbD j = false := by
  have hex : ∃ k, x.getLsbD k = true := by
    by_contra hno
    refine hx (BitVec.eq_of_getLsbD_eq fun i _ => ?_)
    simpa using fun hi => hno ⟨i, hi⟩
  refine ⟨Nat.find hex, Nat.find_spec hex, fun j hj => ?_⟩
  simpa using Nat.find_min hex hj

theorem and_neg_eq_twoPow {k : Nat} (hk : x.getLsbD k = true)
    (hlow : ∀ j < k, x.getLsbD j = false) : x &&& -x = BitVec.twoPow w k := by
  have hkw : k < w := BitVec.lt_of_getLsbD hk
  apply BitVec.eq_of_getLsbD_eq
  intro i hi
  rw [BitVec.getLsbD_and, BitVec.getLsbD_neg, BitVec.getLsbD_twoPow]
  rcases Nat.lt_trichotomy i k with hlt | rfl | hgt
  · have hne : k ≠ i := by omega
    simp [hlow i hlt, hne]
  · have hno : ¬∃ j < i, x.getLsbD j = true := by
      rintro ⟨j, hj, hb⟩
      rw [hlow j hj] at hb
      contradiction
    simp [hk, hkw, hno]
  · have hex : ∃ j < i, x.getLsbD j = true := ⟨k, hgt, hk⟩
    have hne : k ≠ i := by omega
    simp [hi, hex, hne]

theorem two_pow_dvd {k : Nat} (hlow : ∀ j < k, x.getLsbD j = false) : 2 ^ k ∣ x.toNat := by
  apply Nat.dvd_of_mod_eq_zero
  apply Nat.eq_of_testBit_eq
  intro i
  rw [Nat.testBit_mod_two_pow, Nat.zero_testBit]
  by_cases hi : i < k
  · have hbit := hlow i hi
    rw [BitVec.getLsbD] at hbit
    simp [hbit]
  · simp [hi]

theorem and_neg_of_even (hx : x ≠ 0) (heven : x &&& 1 = 0) :
    ∃ k, 1 ≤ k ∧ k < w ∧ (x &&& -x).toNat = 2 ^ k ∧ 2 ^ k ∣ x.toNat := by
  obtain ⟨k, hk, hlow⟩ := exists_lowest hx
  have hkw : k < w := BitVec.lt_of_getLsbD hk
  refine ⟨k, ?_, hkw, ?_, two_pow_dvd hlow⟩
  · by_contra h0
    obtain rfl : k = 0 := by omega
    have hbit := congrArg (BitVec.getLsbD · 0) heven
    simp [BitVec.getLsbD_and, hk, - BitVec.getLsbD_eq_getElem] at hbit
    omega
  · rw [and_neg_eq_twoPow hk hlow, BitVec.toNat_twoPow]
    exact Nat.mod_eq_of_lt (Nat.pow_lt_pow_right (by decide) hkw)

end Z80Gcc.PowerOfTwo
