import Mathlib.Data.BitVec
import Mathlib.Logic.Function.Iterate
import Mathlib.Tactic.Positivity
import Mathlib.Tactic.Ring
import Mathlib.Tactic.SplitIfs

/-! The signed and the unsigned reading of a word, and additions that are exact in one of them. -/

namespace Z80Gcc.WordReading

variable {n : Nat} (x y : BitVec n)

theorem toInt_cases :
    x.toInt = x.toNat ∧ (2 * x.toNat : Int) < 2 ^ n ∨ x.toInt = x.toNat - 2 ^ n ∧ (2 : Int) ^ n ≤ 2 * x.toNat := by
  have hcast : ((2 ^ n : Nat) : Int) = 2 ^ n := by push_cast; rfl
  rw [BitVec.toInt_eq_toNat_cond, hcast]
  split_ifs with hlt
  · exact .inl ⟨rfl, by omega⟩
  · exact .inr ⟨rfl, by omega⟩

theorem toNat_bounds : 0 ≤ (x.toNat : Int) ∧ (x.toNat : Int) < 2 ^ n :=
  ⟨Int.natCast_nonneg _, by exact_mod_cast x.isLt⟩

theorem toNat_add_cases :
    ((x + y).toNat : Int) = x.toNat + y.toNat ∨ ((x + y).toNat : Int) = x.toNat + y.toNat - 2 ^ n := by
  have hx := x.isLt
  have hy := y.isLt
  have hcast : ((2 ^ n : Nat) : Int) = 2 ^ n := by push_cast; rfl
  rw [← hcast, BitVec.toNat_add]
  obtain hlt | hge := Nat.lt_or_ge (x.toNat + y.toNat) (2 ^ n)
  · rw [Nat.mod_eq_of_lt hlt]
    omega
  · rw [Nat.mod_eq_sub_mod hge, Nat.mod_eq_of_lt (by omega)]
    omega

variable {x y}

/-- An addition of a signed increment that stays in the unsigned range. -/
theorem toNat_add_of_range (hlo : 0 ≤ x.toNat + y.toInt) (hhi : x.toNat + y.toInt < 2 ^ n) :
    ((x + y).toNat : Int) = x.toNat + y.toInt := by
  have hxy := toNat_bounds (x + y)
  have hsum := toNat_add_cases x y
  have hy := toInt_cases y
  omega

theorem exists_toNat_add (x y : BitVec n) : ∃ q : Int, ((x + y).toNat : Int) = x.toNat + y.toInt + q * 2 ^ n := by
  have hsum := toNat_add_cases x y
  have hy := toInt_cases y
  obtain ⟨hy, -⟩ | ⟨hy, -⟩ := hy <;> obtain hsum | hsum := hsum
  · exact ⟨0, by omega⟩
  · exact ⟨-1, by omega⟩
  · exact ⟨1, by omega⟩
  · exact ⟨0, by omega⟩

theorem eq_zero_of_range {a b q p : Int} (ha : 0 ≤ a ∧ a < p) (hb : 0 ≤ b ∧ b < p) (h : a = b + q * p) :
    q = 0 := by
  by_contra hne
  obtain hneg | hpos := lt_or_gt_of_ne hne
  · have hmul : q * p ≤ -1 * p := Int.mul_le_mul_of_nonneg_right (by omega) (by omega)
    omega
  · have hmul : 1 * p ≤ q * p := Int.mul_le_mul_of_nonneg_right (by omega) (by omega)
    omega

/-- Two words that differ by a multiple of the modulus are one. -/
theorem eq_of_toNat_add_mul {q : Int} (h : (x.toNat : Int) = y.toNat + q * 2 ^ n) : x = y := by
  have hzero := eq_zero_of_range (toNat_bounds x) (toNat_bounds y) h
  rw [hzero, zero_mul, add_zero] at h
  exact BitVec.eq_of_toNat_eq (by exact_mod_cast h)

theorem exists_toNat_iterate (x y : BitVec n) (k : Nat) : ∃ q : Int,
    (((fun z => z + y)^[k] x).toNat : Int) = x.toNat + k * y.toInt + q * 2 ^ n := by
  induction k with
  | zero => exact ⟨0, by simp⟩
  | succ k ih =>
    obtain ⟨q, hq⟩ := ih
    obtain ⟨r, hr⟩ := exists_toNat_add ((fun z => z + y)^[k] x) y
    refine ⟨q + r, ?_⟩
    rw [Function.iterate_succ_apply', hr, hq]
    push_cast
    ring

theorem iterate_add_period (x y : BitVec n) : (fun z => z + y)^[2 ^ n] x = x := by
  obtain ⟨q, hq⟩ := exists_toNat_iterate x y (2 ^ n)
  refine @eq_of_toNat_add_mul _ _ _ (y.toInt + q) ?_
  rw [hq]
  push_cast
  ring

theorem toInt_add_of_range (hlo : -2 ^ n ≤ 2 * (x.toInt + y.toInt)) (hhi : 2 * (x.toInt + y.toInt) < 2 ^ n) :
    (x + y).toInt = x.toInt + y.toInt := by
  have hxy := toNat_bounds (x + y)
  have hsum := toNat_add_cases x y
  have hx := toInt_cases x
  have hy := toInt_cases y
  have hs := toInt_cases (x + y)
  omega

theorem toNat_sub_of_toInt_lt (hlt : x.toInt < y.toInt) : ((y - x).toNat : Int) = y.toInt - x.toInt := by
  have hsum := toNat_add_cases (y - x) x
  rw [BitVec.sub_add_cancel] at hsum
  have hd := toNat_bounds (y - x)
  have hx := toInt_cases x
  have hy := toInt_cases y
  omega

theorem toNat_sub_of_toNat_lt (hlt : x.toNat < y.toNat) : ((y - x).toNat : Int) = y.toNat - x.toNat := by
  have hsum := toNat_add_cases (y - x) x
  rw [BitVec.sub_add_cancel] at hsum
  have hd := toNat_bounds (y - x)
  have hx := toNat_bounds x
  have hy := toNat_bounds y
  omega

theorem toNat_neg_of_toInt_neg (hneg : x.toInt < 0) : ((-x).toNat : Int) = -x.toInt := by
  have hzero : (0 : BitVec n).toInt = 0 := by simp
  have hsub := toNat_sub_of_toInt_lt (x := x) (y := 0) (by rw [hzero]; exact hneg)
  rw [hzero] at hsub
  rw [← BitVec.zero_sub]
  simpa using hsub

theorem toNat_of_toInt_pos (hpos : 0 < x.toInt) : (x.toNat : Int) = x.toInt := by
  have hx := toInt_cases x
  have hb := toNat_bounds x
  omega

theorem toInt_neg_or_pos (hne : x ≠ 0) : x.toInt < 0 ∨ 0 < x.toInt := by
  have hzero : x.toInt ≠ 0 := by
    intro h0
    refine hne (BitVec.eq_of_toInt_eq ?_)
    rw [h0]
    simp
  omega

end Z80Gcc.WordReading
