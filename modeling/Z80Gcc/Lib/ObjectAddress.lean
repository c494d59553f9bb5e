import Mathlib.LinearAlgebra.Finsupp.LinearCombination
import Mathlib.Algebra.Module.Torsion.Free
import Mathlib.Data.Int.Bitwise

/-! Addresses that know the object they point into: a combination of objects, and an offset. Two of them
cannot meet if the combinations differ, wherever the objects are. -/

namespace Z80Gcc.ObjectAddress

/-- An address: which objects it is based on, and an offset. -/
@[ext] structure ObjAddr (S : Type*) where
  object : S →₀ ℤ
  offset : ℤ

section Masks

theorem land_comm (m n : ℤ) : Int.land m n = Int.land n m := by
  rcases m with m | m
  · rcases n with n | n
    · exact congrArg Int.ofNat (Nat.land_comm m n)
    · rfl
  · rcases n with n | n
    · rfl
    · exact congrArg Int.negSucc (Nat.lor_comm m n)

theorem ldiff_mask (n j : ℕ) : Nat.ldiff n (2 ^ j - 1) = 2 ^ j * (n / 2 ^ j) := by
  refine Nat.eq_of_testBit_eq fun i => ?_
  rw [Nat.testBit_ldiff, Nat.testBit_two_pow_sub_one, Nat.testBit_two_pow_mul, Nat.testBit_div_two_pow]
  by_cases h : i < j
  · simp [h]
  · rw [show i - j + j = i by omega]
    simp [h, Nat.le_of_not_lt h]

theorem lor_mask (n j : ℕ) : n ||| (2 ^ j - 1) = 2 ^ j * (n / 2 ^ j) + (2 ^ j - 1) := by
  have hpos := Nat.two_pow_pos j
  refine Nat.eq_of_testBit_eq fun i => ?_
  rw [Nat.testBit_or, Nat.testBit_two_pow_sub_one, Nat.testBit_two_pow_mul_add _ (by omega),
    Nat.testBit_two_pow_sub_one, Nat.testBit_div_two_pow]
  by_cases h : i < j
  · simp [h]
  · rw [show i - j + j = i by omega]
    simp [h]

theorem land_neg_two_pow (n : ℤ) (j : ℕ) : Int.land n (-(2 ^ j)) = 2 ^ j * (n / 2 ^ j) := by
  have hpos := Nat.two_pow_pos j
  have hcast : ((2 : ℤ) ^ j) = ((2 ^ j : ℕ) : ℤ) := (Nat.cast_pow 2 j).symm
  have hneg : (-((2 ^ j : ℕ) : ℤ)) = Int.negSucc (2 ^ j - 1) := by
    rw [Int.negSucc_eq, Nat.cast_sub hpos]
    ring
  rw [hcast, hneg]
  rcases n with n | n
  · change Int.ofNat (Nat.ldiff n (2 ^ j - 1)) = _
    rw [ldiff_mask]
    exact Nat.cast_mul _ _
  · change Int.negSucc (n ||| (2 ^ j - 1)) = _
    have hdiv : Int.negSucc n / ((2 ^ j : ℕ) : ℤ) = -(((n / 2 ^ j : ℕ) : ℤ) + 1) :=
      Int.negSucc_ediv n (Int.natCast_pos.2 hpos)
    rw [lor_mask, Int.negSucc_eq, hdiv, Nat.cast_add, Nat.cast_mul, Nat.cast_sub hpos]
    ring

end Masks

namespace ObjAddr

variable {S : Type*}

section Arithmetic

/-- The address as a number, when every object has its place. -/
noncomputable def flat (place : S → ℤ) (a : ObjAddr S) : ℤ :=
  Finsupp.linearCombination ℤ place a.object + a.offset

def absolute (n : ℤ) : ObjAddr S := ⟨0, n⟩

noncomputable def start (s : S) : ObjAddr S := ⟨Finsupp.single s 1, 0⟩

noncomputable def add (a b : ObjAddr S) : ObjAddr S := ⟨a.object + b.object, a.offset + b.offset⟩

/-- A product; of the objects of both factors, one is taken at its place. -/
noncomputable def mul (place : S → ℤ) (a b : ObjAddr S) : ObjAddr S where
  object := b.offset • a.object + a.offset • b.object
  offset := a.offset * b.offset +
    Finsupp.linearCombination ℤ place a.object * Finsupp.linearCombination ℤ place b.object

noncomputable def land (place : S → ℤ) (a b : ObjAddr S) : ObjAddr S where
  object := a.object + b.object
  offset := Int.land (a.flat place) (b.flat place) -
    Finsupp.linearCombination ℤ place (a.object + b.object)

variable (place : S → ℤ) (a b : ObjAddr S)

@[simp] theorem flat_absolute (n : ℤ) : (absolute n : ObjAddr S).flat place = n := by
  simp [flat, absolute]

@[simp] theorem flat_start (s : S) : (start s).flat place = place s := by
  simp [flat, start]

@[simp] theorem flat_add : (a.add b).flat place = a.flat place + b.flat place := by
  simp only [flat, add, map_add]
  ring

@[simp] theorem flat_mul : (a.mul place b).flat place = a.flat place * b.flat place := by
  simp only [flat, mul, map_add, map_smul, smul_eq_mul]
  ring

@[simp] theorem flat_land : (a.land place b).flat place = Int.land (a.flat place) (b.flat place) := by
  simp only [flat, land, map_add]
  ring

theorem add_comm : a.add b = b.add a := by
  ext
  · simp only [add, Finsupp.add_apply]
    exact Int.add_comm ..
  · exact Int.add_comm ..

theorem add_assoc (c : ObjAddr S) : (a.add b).add c = a.add (b.add c) :=
  ObjAddr.ext (AddSemigroup.add_assoc _ _ _) (Int.add_assoc _ _ _)

theorem add_absolute_zero : a.add (absolute 0) = a := ObjAddr.ext (add_zero _) (Int.add_zero _)

theorem absolute_add (m n : ℤ) : (absolute m : ObjAddr S).add (absolute n) = absolute (m + n) :=
  ObjAddr.ext (add_zero _) rfl

theorem mul_comm : a.mul place b = b.mul place a := by
  refine ObjAddr.ext ?_ ?_
  · exact AddCommMagma.add_comm _ _
  · simp only [mul]
    ring

theorem land_comm : a.land place b = b.land place a := by
  refine ObjAddr.ext ?_ ?_
  · exact AddCommMagma.add_comm _ _
  · simp only [land]
    rw [ObjectAddress.land_comm, AddCommMagma.add_comm]

theorem mul_absolute (k : ℤ) : a.mul place (absolute k) = ⟨k • a.object, a.offset * k⟩ := by
  simp [mul, absolute]

end Arithmetic

/-- Two references that do not meet: they are based on different objects, or their sizes are known and
their offsets are far enough from each other. The second one is shifted by `c`. -/
def Apart (xsize : ℤ) (x : ObjAddr S) (ysize : ℤ) (y : ObjAddr S) (c : ℤ) : Prop :=
  x.object ≠ y.object ∨ 0 < xsize ∧ 0 < ysize ∧
    (x.offset + xsize ≤ y.offset + c ∨ y.offset + c + ysize ≤ x.offset)

section Disjoint

variable {xsize ysize c : ℤ} {x y z : ObjAddr S} {place : S → ℤ}

theorem Apart.add_right (h : Apart xsize x ysize y c) (z : ObjAddr S) :
    Apart xsize (x.add z) ysize (y.add z) c := by
  rcases h with hne | ⟨hx, hy, hoff⟩
  · exact .inl fun heq => hne (add_right_cancel heq)
  · refine .inr ⟨hx, hy, ?_⟩
    simp only [add]
    omega

theorem Apart.add_left (h : Apart xsize x ysize y c) (z : ObjAddr S) :
    Apart xsize (z.add x) ysize (z.add y) c := by
  rw [z.add_comm, z.add_comm]
  exact h.add_right z

theorem Apart.add_absolute_left {n : ℤ} (h : Apart xsize x ysize y (c - n)) :
    Apart xsize (x.add (absolute n)) ysize y c := by
  rcases h with hne | ⟨hx, hy, hoff⟩
  · refine .inl ?_
    rwa [add, absolute, add_zero]
  · refine .inr ⟨hx, hy, ?_⟩
    simp only [add, absolute]
    omega

theorem Apart.add_absolute_right {n : ℤ} (h : Apart xsize x ysize y (c + n)) :
    Apart xsize x ysize (y.add (absolute n)) c := by
  rcases h with hne | ⟨hx, hy, hoff⟩
  · refine .inl ?_
    rwa [add, absolute, add_zero]
  · refine .inr ⟨hx, hy, ?_⟩
    simp only [add, absolute]
    omega

theorem Apart.scale {k : ℤ} (hk : 0 < k) (h : Apart xsize x ysize y c) (place : S → ℤ) :
    Apart (xsize * k) (x.mul place (absolute k)) (ysize * k) (y.mul place (absolute k)) (c * k) := by
  rw [mul_absolute, mul_absolute]
  rcases h with hne | ⟨hx, hy, hoff⟩
  · refine .inl fun heq => hne ?_
    exact smul_right_injective _ hk.ne' heq
  · refine .inr ⟨Int.mul_pos hx hk, Int.mul_pos hy hk, ?_⟩
    rw [← Int.add_mul, ← Int.add_mul, ← Int.add_mul]
    exact hoff.imp (fun h => Int.mul_le_mul_of_nonneg_right h hk.le)
      fun h => Int.mul_le_mul_of_nonneg_right h hk.le

theorem Apart.symm (h : Apart xsize x ysize y c) : Apart ysize y xsize x (-c) := by
  rcases h with hne | ⟨hx, hy, hoff⟩
  · exact .inl hne.symm
  · refine .inr ⟨hy, hx, ?_⟩
    omega

/-- The first reference is aligned downwards, and the second one is aligned. -/
theorem Apart.align {j : ℕ} (h : Apart xsize x ysize y c) (hy : (2 ^ j : ℤ) ∣ y.flat place + c)
    (hysize : (2 ^ j : ℤ) ∣ ysize) :
    Apart xsize (x.land place (absolute (-(2 ^ j)))) ysize y c := by
  have hobject : (x.land place (absolute (-(2 ^ j)))).object = x.object := add_zero _
  rcases h with hne | ⟨hxs, hys, hoff⟩
  · refine .inl ?_
    rwa [hobject]
  · by_cases heq : x.object = y.object
    swap
    · refine .inl ?_
      rwa [hobject]
    refine .inr ⟨hxs, hys, ?_⟩
    have hflat := flat_land place x (absolute (-(2 ^ j)))
    rw [flat_absolute, land_neg_two_pow, flat, hobject, flat] at hflat
    rw [flat, ← heq] at hy
    have hpos : (0 : ℤ) < 2 ^ j := Int.pow_pos (by decide)
    have hdown := Int.mul_ediv_self_le (x := Finsupp.linearCombination ℤ place x.object + x.offset) hpos.ne'
    rcases hoff with hoff | hoff
    · left
      omega
    · right
      obtain ⟨q, hq⟩ := hy
      obtain ⟨r, hr⟩ := hysize
      have hle : q + r ≤ (Finsupp.linearCombination ℤ place x.object + x.offset) / 2 ^ j := by
        rw [Int.le_ediv_iff_mul_le hpos, Int.mul_comm, Int.mul_add]
        omega
      have hmul := Int.mul_le_mul_of_nonneg_left hle hpos.le
      rw [Int.mul_add] at hmul
      omega

end Disjoint

end ObjAddr

end Z80Gcc.ObjectAddress
