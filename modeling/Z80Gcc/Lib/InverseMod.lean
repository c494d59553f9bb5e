import Mathlib.Data.BitVec
import Mathlib.Tactic.Ring

/-! Inverses modulo a power of two: each step of Newton's iteration doubles the number of bits that
are right. -/

namespace Z80Gcc

def InverseTo {R : Type*} [CommRing R] (k : Nat) (x y : R) : Prop := ∃ q, x * y = 1 + 2 ^ k * q

namespace InverseTo

section Ring

variable {R : Type*} [CommRing R] {k : Nat} {x y : R}

theorem step (h : InverseTo k x y) : InverseTo (2 * k) x (y * (2 - x * y)) := by
  obtain ⟨q, hq⟩ := h
  refine ⟨-(q * q), ?_⟩
  calc x * (y * (2 - x * y)) = x * y * (2 - x * y) := by ring
    _ = (1 + 2 ^ k * q) * (1 - 2 ^ k * q) := by
        rw [hq]
        ring
    _ = 1 + 2 ^ (2 * k) * -(q * q) := by ring

theorem eq_one (h : InverseTo k x y) (hk : (2 : R) ^ k = 0) : x * y = 1 := by
  obtain ⟨q, hq⟩ := h
  rw [hq, hk]
  ring

theorem self_of_odd (j : Nat) : InverseTo 3 ((2 * j + 1 : Nat) : R) ((2 * j + 1 : Nat) : R) := by
  obtain ⟨i, hi⟩ := Nat.even_mul_succ_self j
  refine ⟨(i : R), ?_⟩
  have hsq : (2 * j + 1) * (2 * j + 1) = 1 + 2 ^ 3 * i := by
    have h1 : (2 * j + 1) * (2 * j + 1) = 4 * (j * (j + 1)) + 1 := by ring
    have h2 : j * (j + 1) = i + i := hi
    rw [h1, h2]
    ring
  exact_mod_cast congrArg (Nat.cast (R := R)) hsq

end Ring

section Bits

variable {n : Nat}

theorem two_pow_eq_zero {k : Nat} (hk : n ≤ k) : (2 : BitVec n) ^ k = 0 := by
  have hcast : (2 : BitVec n) ^ k = ((2 ^ k : Nat) : BitVec n) := by push_cast; rfl
  rw [hcast, BitVec.natCast_eq_ofNat]
  apply BitVec.eq_of_toNat_eq
  rw [BitVec.toNat_ofNat, Nat.mod_eq_zero_of_dvd (Nat.pow_dvd_pow 2 hk)]
  simp

theorem self_of_bit {x : BitVec n} (hx : x.toNat % 2 = 1) : InverseTo 3 x x := by
  have hodd : x = ((2 * (x.toNat / 2) + 1 : Nat) : BitVec n) := by
    rw [BitVec.natCast_eq_ofNat, show 2 * (x.toNat / 2) + 1 = x.toNat by omega,
      BitVec.ofNat_toNat, BitVec.setWidth_eq]
  rw [hodd]
  exact self_of_odd _

end Bits

end InverseTo

end Z80Gcc
