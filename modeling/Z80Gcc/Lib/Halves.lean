import Mathlib.Data.BitVec
import Mathlib.Tactic.Linarith

/-! Words cut into a high and a low half, and the flag arithmetic of an adder that works on
one half after the other. -/

namespace Z80Gcc.Halves

def lo8 (v : BitVec 16) : BitVec 8 := v.setWidth 8
def hi8 (v : BitVec 16) : BitVec 8 := (v >>> 8).setWidth 8
def lo16 (v : BitVec 32) : BitVec 16 := v.setWidth 16
def hi16 (v : BitVec 32) : BitVec 16 := (v >>> 16).setWidth 16

@[simp] theorem lo8_append (h l : BitVec 8) : lo8 (h ++ l) = l := by
  apply BitVec.eq_of_getLsbD_eq
  intro i hi
  simp only [lo8, BitVec.getLsbD_setWidth, BitVec.getLsbD_append, hi, decide_true,
    Bool.true_and, if_true]

@[simp] theorem hi8_append (h l : BitVec 8) : hi8 (h ++ l) = h := by
  apply BitVec.eq_of_getLsbD_eq
  intro i hi
  simp only [hi8, BitVec.getLsbD_setWidth, BitVec.getLsbD_ushiftRight, BitVec.getLsbD_append,
    hi, decide_true, Bool.true_and, show ¬8 + i < 8 by omega, if_false,
    Nat.add_sub_cancel_left]

@[simp] theorem hi8_append_lo8 (v : BitVec 16) : hi8 v ++ lo8 v = v := by
  apply BitVec.eq_of_getLsbD_eq
  intro i hi
  simp only [hi8, lo8, BitVec.getLsbD_append, BitVec.getLsbD_setWidth, BitVec.getLsbD_ushiftRight]
  by_cases h : i < 8
  · simp [h]
  · simp [h, show 8 + (i - 8) = i by omega, show i - 8 < 8 by omega]

@[simp] theorem lo16_append (h l : BitVec 16) : lo16 (h ++ l) = l := by
  apply BitVec.eq_of_getLsbD_eq
  intro i hi
  simp only [lo16, BitVec.getLsbD_setWidth, BitVec.getLsbD_append, hi, decide_true,
    Bool.true_and, if_true]

@[simp] theorem hi16_append (h l : BitVec 16) : hi16 (h ++ l) = h := by
  apply BitVec.eq_of_getLsbD_eq
  intro i hi
  simp only [hi16, BitVec.getLsbD_setWidth, BitVec.getLsbD_ushiftRight,
    BitVec.getLsbD_append, hi, decide_true, Bool.true_and, show ¬16 + i < 16 by omega,
    if_false, Nat.add_sub_cancel_left]

@[simp] theorem hi16_append_lo16 (v : BitVec 32) : hi16 v ++ lo16 v = v := by
  apply BitVec.eq_of_getLsbD_eq
  intro i hi
  simp only [hi16, lo16, BitVec.getLsbD_append, BitVec.getLsbD_setWidth,
    BitVec.getLsbD_ushiftRight]
  by_cases h : i < 16
  · simp [h]
  · simp [h, show 16 + (i - 16) = i by omega, show i - 16 < 16 by omega]

theorem msb_hi8 (v : BitVec 16) : (hi8 v).msb = v.msb := by
  rw [BitVec.msb_eq_getLsbD_last, BitVec.msb_eq_getLsbD_last, hi8, BitVec.getLsbD_setWidth,
    BitVec.getLsbD_ushiftRight]
  rfl

theorem getElem_lo8_zero (v : BitVec 16) : (lo8 v)[0] = v[0] := by
  simp [lo8]

theorem toNat_lo16 (v : BitVec 32) : (lo16 v).toNat = v.toNat % 2 ^ 16 := by
  simp [lo16]

theorem toNat_hi16 (v : BitVec 32) : (hi16 v).toNat = v.toNat / 2 ^ 16 := by
  have := v.isLt
  simp only [hi16, BitVec.toNat_setWidth, BitVec.toNat_ushiftRight, Nat.shiftRight_eq_div_pow]
  omega

theorem eq_iff_halves (x y : BitVec 32) : x = y ↔ lo16 x = lo16 y ∧ hi16 x = hi16 y := by
  constructor
  · rintro rfl
    exact ⟨rfl, rfl⟩
  · rintro ⟨hl, hh⟩
    rw [← hi16_append_lo16 x, ← hi16_append_lo16 y, hl, hh]

end Z80Gcc.Halves
