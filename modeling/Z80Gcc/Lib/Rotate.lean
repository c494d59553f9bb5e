import Mathlib.Tactic.Ring
import Z80Gcc.Lib.Adder

/-! Shifts by one place with a bit coming in at the free end, how a shift of a word is made of
shifts of its parts, and rotations, with and without the carry. -/

namespace Z80Gcc.Rotate

open Z80Gcc.Adder

variable {w v : Nat}

def shiftInLow (x : BitVec w) (c : Bool) : BitVec w := x <<< 1 ||| bit c

def shiftInHigh (x : BitVec w) (c : Bool) : BitVec w := x >>> 1 ||| bit c <<< (w - 1)

theorem getLsbD_bit (c : Bool) (i : Nat) :
    (bit c : BitVec w).getLsbD i = (decide (i < w) && (decide (i = 0) && c)) := by
  cases c with
  | false => simp
  | true =>
    rcases Nat.eq_zero_or_pos i with rfl | hi
    · simp [bit]
    · simp [bit, Nat.pos_iff_ne_zero.mp hi]

theorem getLsbD_shiftInLow (x : BitVec w) (c : Bool) (i : Nat) :
    (shiftInLow x c).getLsbD i = (decide (i < w) && if i = 0 then c else x.getLsbD (i - 1)) := by
  rw [shiftInLow, BitVec.getLsbD_or, BitVec.getLsbD_shiftLeft, getLsbD_bit]
  rcases Nat.eq_zero_or_pos i with rfl | hi
  · simp
  · have h0 : i ≠ 0 := by omega
    have h1 : ¬i < 1 := by omega
    by_cases hw : i < w <;> simp [h0, h1, hw]

theorem getLsbD_shiftInHigh (x : BitVec w) (c : Bool) (i : Nat) :
    (shiftInHigh x c).getLsbD i = if i + 1 = w then c else x.getLsbD (i + 1) := by
  rw [shiftInHigh, BitVec.getLsbD_or, BitVec.getLsbD_ushiftRight, BitVec.getLsbD_shiftLeft,
    getLsbD_bit, Nat.add_comm 1 i]
  by_cases h : i + 1 = w
  · subst h
    simp
  · by_cases hi : i < w
    · have h1 : i < w - 1 := by omega
      simp [h, hi, h1]
    · have h2 : w ≤ i + 1 := by omega
      simp [h, hi, BitVec.getLsbD_of_ge x (i + 1) h2]

theorem shiftInLow_false (x : BitVec w) : shiftInLow x false = x <<< 1 := by
  simp [shiftInLow]

theorem shiftInHigh_false (x : BitVec w) : shiftInHigh x false = x >>> 1 := by
  simp [shiftInHigh]

theorem shiftInHigh_msb (x : BitVec w) : shiftInHigh x x.msb = x.sshiftRight 1 := by
  apply BitVec.eq_of_getLsbD_eq
  intro i hi
  rw [getLsbD_shiftInHigh, BitVec.getLsbD_sshiftRight, Nat.add_comm 1 i]
  by_cases h : i + 1 = w
  · subst h
    simp
  · have h1 : i + 1 < w := by omega
    simp [h, h1, hi]

/-- The bit shifted out of the low part comes into the high part. -/
theorem shiftInLow_append (h : BitVec w) (l : BitVec v) (hv : 0 < v) (c : Bool) :
    shiftInLow (h ++ l) c = shiftInLow h l.msb ++ shiftInLow l c := by
  apply BitVec.eq_of_getLsbD_eq
  intro i hi
  rw [getLsbD_shiftInLow, BitVec.getLsbD_append, BitVec.getLsbD_append, getLsbD_shiftInLow,
    getLsbD_shiftInLow, BitVec.msb_eq_getLsbD_last]
  by_cases hlow : i < v
  · by_cases h0 : i = 0
    · simp [h0, hv]
    · have h1 : i - 1 < v := by omega
      simp [h0, h1, hlow, hi]
  · have h0 : i ≠ 0 := by omega
    by_cases hedge : i = v
    · subst hedge
      have h1 : i - 1 < i := by omega
      simp [h0, h1, show 0 < w by omega, hi]
    · have h1 : ¬i - 1 < v := by omega
      have h2 : i - v ≠ 0 := by omega
      have h3 : i - 1 - v = i - v - 1 := by omega
      simp [h0, h1, h2, h3, hlow, show i - v < w by omega, hi]

/-- The bit shifted out of the high part comes into the low part. -/
theorem shiftInHigh_append (h : BitVec w) (l : BitVec v) (hw : 0 < w) (c : Bool) :
    shiftInHigh (h ++ l) c = shiftInHigh h c ++ shiftInHigh l (h.getLsbD 0) := by
  apply BitVec.eq_of_getLsbD_eq
  intro i hi
  rw [getLsbD_shiftInHigh, BitVec.getLsbD_append, BitVec.getLsbD_append, getLsbD_shiftInHigh,
    getLsbD_shiftInHigh]
  by_cases hlow : i < v
  · have h1 : i + 1 ≠ w + v := by omega
    by_cases hedge : i + 1 = v
    · simp [hedge, hlow, Nat.pos_iff_ne_zero.mp hw]
    · have h2 : i + 1 < v := by omega
      simp [h1, h2, hedge, hlow]
  · have h1 : ¬i + 1 < v := by omega
    have h2 : i - v + 1 = i + 1 - v := by omega
    by_cases hedge : i + 1 = w + v
    · simp [hedge, hlow, h2]
    · have h3 : i + 1 - v ≠ w := by omega
      simp [hedge, hlow, h1, h2, h3]

section Circular

/-- A rotation to the left by any number of places; a negative one goes to the right. -/
def rotl (x : BitVec w) (n : Int) : BitVec w := x.rotateLeft (n % w).toNat

theorem getLsbD_rotl (x : BitVec w) (n : Int) {i : Nat} (hi : i < w) :
    (rotl x n).getLsbD i = x.getLsbD (((i : Int) - n) % w).toNat := by
  have hw : (0 : Int) < w := by omega
  obtain ⟨r, hr⟩ : ∃ r : Nat, n % w = r :=
    ⟨_, (Int.toNat_of_nonneg (Int.emod_nonneg _ hw.ne')).symm⟩
  have hrw : r < w := by
    have := Int.emod_lt_of_pos n hw
    omega
  have hsub : ((i : Int) - n) % w = ((i : Int) - r) % w := by
    rw [← hr, Int.sub_emod, Int.sub_emod i (n % w), Int.emod_emod]
  rw [rotl, hr, hsub, Int.toNat_natCast, BitVec.getLsbD_rotateLeft, Nat.mod_eq_of_lt hrw]
  by_cases h : i < r
  · have hidx : (((i : Int) - r) % w).toNat = w - r + i := by
      rw [← Int.add_emod_right, Int.emod_eq_of_lt (by omega) (by omega)]
      omega
    rw [hidx]
    simp [h]
  · have hidx : (((i : Int) - r) % w).toNat = i - r := by
      rw [Int.emod_eq_of_lt (by omega) (by omega)]
      omega
    rw [hidx]
    simp [h, hi]

theorem rotl_rotl (x : BitVec w) (m n : Int) : rotl (rotl x m) n = rotl x (m + n) := by
  apply BitVec.eq_of_getLsbD_eq
  intro i hi
  have hw : (0 : Int) < w := by omega
  have hlt := Int.emod_lt_of_pos ((i : Int) - n) hw
  have hnn := Int.emod_nonneg ((i : Int) - n) hw.ne'
  rw [getLsbD_rotl _ _ hi, getLsbD_rotl _ _ (by omega), getLsbD_rotl _ _ hi,
    Int.toNat_of_nonneg hnn, Int.emod_sub_emod, show (i : Int) - n - m = i - (m + n) by omega]

@[simp] theorem rotl_zero (x : BitVec w) : rotl x 0 = x := by
  apply BitVec.eq_of_getLsbD_eq
  intro i hi
  rw [getLsbD_rotl _ _ hi, Int.sub_zero, Int.emod_eq_of_lt (by omega) (by omega),
    Int.toNat_natCast]

/-- Two rotations agree when the rotation by the difference changes nothing. -/
theorem rotl_eq_rotl_iff (x : BitVec w) (m n : Int) :
    rotl x m = rotl x n ↔ rotl x (n - m) = x := by
  constructor
  · intro h
    rw [show n - m = n + -m by omega, ← rotl_rotl, ← h, rotl_rotl, Int.add_right_neg, rotl_zero]
  · intro h
    rw [← congrArg (rotl · m) h, rotl_rotl, Int.sub_add_cancel]

theorem rotl_neg_eq_iff (x : BitVec w) (n : Int) : rotl x (-n) = x ↔ rotl x n = x := by
  have h := rotl_eq_rotl_iff x (-n) 0
  rwa [rotl_zero, Int.zero_sub, Int.neg_neg] at h

theorem rotl_one (x : BitVec w) : rotl x 1 = x.rotateLeft 1 := by
  rcases w with _ | w
  · exact Subsingleton.elim _ _
  · rw [rotl, ← BitVec.rotateLeft_mod_eq_rotateLeft (r := 1)]
    rfl

theorem rotl_neg_one (x : BitVec w) : rotl x (-1) = x.rotateRight 1 := by
  have h : rotl (x.rotateRight 1) 1 = x := by
    rw [rotl_one]
    apply BitVec.eq_of_getLsbD_eq
    intro i hi
    rw [BitVec.getLsbD_rotateLeft, BitVec.getLsbD_rotateRight, BitVec.getLsbD_rotateRight]
    rcases Nat.lt_or_ge 1 w with hw | hw
    · rw [Nat.mod_eq_of_lt hw]
      by_cases h0 : i < 1
      · simp [show i = 0 by omega, show w - 1 < w by omega]
      · simp [h0, hi, show i - 1 < w - 1 by omega, show 1 + (i - 1) = i by omega]
    · obtain rfl : w = 1 := by omega
      simp [show i = 0 by omega]
  rw [← congrArg (rotl · (-1)) h, rotl_rotl]
  simp

/-- The places `k`, `2k`, `3k`, .. hold one bit as long as place 0 is not met. -/
theorem getLsbD_orbit {x : BitVec w} {k : Int} (hw : 0 < w)
    (h : ∀ i < w, i ≠ 0 → (rotl x (-k)).getLsbD i = x.getLsbD i) (j : Nat)
    (hj : ∀ i < j, ((i + 1 : Nat) * k) % w ≠ 0) :
    x.getLsbD (((j + 1 : Nat) * k) % w).toNat = x.getLsbD (k % w).toNat := by
  have hwz : (0 : Int) < w := by omega
  induction j with
  | zero => simp
  | succ j ih =>
    rw [← ih (fun i hi => hj i (by omega))]
    have hnn := Int.emod_nonneg ((j + 1 : Nat) * k) hwz.ne'
    have hlt := Int.emod_lt_of_pos ((j + 1 : Nat) * k) hwz
    have hne := hj j (by omega)
    have hstep := h (((j + 1 : Nat) * k) % w).toNat (by omega) (by omega)
    rw [getLsbD_rotl _ _ (by omega), Int.toNat_of_nonneg hnn, Int.sub_neg,
      Int.emod_add_emod] at hstep
    rw [← hstep, Nat.cast_succ (j + 1), add_mul, one_mul]

/-- A rotation that keeps every bit but perhaps one keeps that one, too. -/
theorem rotl_eq_of_agree {x : BitVec w} {k : Int}
    (h : ∀ i < w, i ≠ 0 → (rotl x (-k)).getLsbD i = x.getLsbD i) : rotl x k = x := by
  rw [← rotl_neg_eq_iff]
  apply BitVec.eq_of_getLsbD_eq
  intro i hi
  by_cases h0 : i = 0
  · subst h0
    -- the orbit of 0 comes back to 0, the last place before that is `-k`
    have hex : ∃ j : Nat, ((j + 1 : Nat) * k) % w = 0 := by
      refine ⟨w - 1, ?_⟩
      rw [show w - 1 + 1 = w by omega]
      exact Int.mul_emod_right _ _
    have horbit := getLsbD_orbit hi h (Nat.find hex) (fun j hj => Nat.find_min hex hj)
    rw [Nat.find_spec hex] at horbit
    rw [getLsbD_rotl _ _ hi, Int.sub_neg, Int.natCast_zero, Int.zero_add, ← horbit, Int.toNat_zero]
  · exact h i hi h0

end Circular

section ThroughCarry

/-- A shift to the left with the carry coming in rotates the carry and the word together. -/
theorem cons_shiftInLow (x : BitVec w) (c : Bool) (hw : 0 < w) :
    BitVec.cons x.msb (shiftInLow x c) = (BitVec.cons c x).rotateLeft 1 := by
  apply BitVec.eq_of_getLsbD_eq
  intro i hi
  rw [BitVec.getLsbD_rotateLeft, Nat.mod_eq_of_lt (show 1 < w + 1 by omega), BitVec.getLsbD_cons,
    BitVec.getLsbD_cons, BitVec.getLsbD_cons, getLsbD_shiftInLow, BitVec.msb_eq_getLsbD_last]
  by_cases h0 : i = 0
  · simp [h0, hw, hw.ne]
  · by_cases hwi : i = w
    · simp [hwi, show ¬w < 1 by omega, show w - 1 ≠ w by omega]
    · simp [h0, hwi, hi, show ¬i < 1 by omega, show i - 1 ≠ w by omega, show i < w by omega]

/-- A shift to the right with the carry coming in rotates the carry and the word together. -/
theorem cons_shiftInHigh (x : BitVec w) (c : Bool) (hw : 0 < w) :
    BitVec.cons (x.getLsbD 0) (shiftInHigh x c) = (BitVec.cons c x).rotateRight 1 := by
  apply BitVec.eq_of_getLsbD_eq
  intro i hi
  rw [BitVec.getLsbD_rotateRight, Nat.mod_eq_of_lt (show 1 < w + 1 by omega), BitVec.getLsbD_cons,
    BitVec.getLsbD_cons, BitVec.getLsbD_cons, getLsbD_shiftInHigh]
  by_cases hwi : i = w
  · simp [hwi, hw.ne]
  · by_cases h1 : i + 1 = w
    · simp [hwi, h1, show i < w by omega, show 1 + i = w by omega]
    · simp [hwi, h1, show i < w by omega, Nat.add_comm]

end ThroughCarry

end Z80Gcc.Rotate
