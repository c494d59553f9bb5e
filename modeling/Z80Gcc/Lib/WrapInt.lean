import Mathlib.Data.Int.ModEq
import Mathlib.Tactic.Positivity
import Mathlib.Tactic.Ring

/-! Integers kept in `n` bits: by their remainder, or by the representative nearest to zero. -/

namespace Z80Gcc.WrapInt

theorem two_pow_succ_cast (n : Nat) : ((2 ^ (n + 1) : Nat) : Int) = 2 * 2 ^ n := by
  push_cast
  ring

theorem bmod_eq_self_iff {n : Nat} {v : Int} :
    v.bmod (2 ^ n) = v ↔ -2 ^ n ≤ v * 2 ∧ v * 2 < 2 ^ n := by
  constructor
  · intro hv
    have hlo := Int.le_bmod (x := v) (m := 2 ^ n) (by positivity)
    have hhi := Int.bmod_lt (x := v) (m := 2 ^ n) (by positivity)
    rw [hv] at hlo hhi
    cases n with
    | zero =>
      simp at hlo hhi ⊢
      omega
    | succ n =>
      rw [two_pow_succ_cast] at hlo hhi
      rw [pow_succ]
      omega
  · rintro ⟨hlo, hhi⟩
    exact Int.bmod_eq_of_le_mul_two (by push_cast; exact hlo) (by push_cast; exact hhi)

/-- The magnitude of what is kept of a number that is less than the size away from zero. -/
theorem natAbs_bmod {n : Nat} {v : Int} (hv : v.natAbs < 2 ^ n) :
    (v.bmod (2 ^ n)).natAbs = min v.natAbs (2 ^ n - v.natAbs) := by
  have hself : ∀ u : Int, -2 ^ n ≤ u * 2 → u * 2 < 2 ^ n → u.bmod (2 ^ n) = u :=
    fun u hlo hhi => bmod_eq_self_iff.2 ⟨hlo, hhi⟩
  have hcast : (2 : Int) ^ n = (2 ^ n : Nat) := by push_cast; rfl
  rw [hcast] at hself
  generalize 2 ^ n = N at *
  rcases lt_or_ge (v * 2) N with hhi | hhi
  · rcases lt_or_ge (v * 2) (-N) with hlo | hlo
    · have hadd : v.bmod N = v + N := by
        rw [← Int.add_bmod_right]
        exact hself _ (by omega) (by omega)
      omega
    · rw [hself v hlo hhi]
      omega
  · have hsub : v.bmod N = v - N := by
      rw [← Int.sub_bmod_right]
      exact hself _ (by omega) (by omega)
    omega

/-- What is kept of a number that is less than the size away from zero. -/
theorem bmod_cases {n : Nat} {v : Int} (hlo : -2 ^ n ≤ v) (hhi : v < 2 ^ n) :
    v.bmod (2 ^ n) = v ∧ -2 ^ n ≤ v * 2 ∧ v * 2 < 2 ^ n ∨
      v.bmod (2 ^ n) = v - 2 ^ n ∧ 2 ^ n ≤ v * 2 ∨ v.bmod (2 ^ n) = v + 2 ^ n ∧ v * 2 < -2 ^ n := by
  have hsub : (v - 2 ^ n).bmod (2 ^ n) = v.bmod (2 ^ n) := by
    simpa using Int.sub_bmod_right v (2 ^ n)
  have hadd : (v + 2 ^ n).bmod (2 ^ n) = v.bmod (2 ^ n) := by
    simpa using Int.add_bmod_right v (2 ^ n)
  rcases lt_or_ge (v * 2) (2 ^ n) with hlt | hge
  · rcases lt_or_ge (v * 2) (-2 ^ n) with hneg | hin
    · refine .inr (.inr ⟨?_, hneg⟩)
      rw [← hadd]
      exact bmod_eq_self_iff.2 ⟨by omega, by omega⟩
    · exact .inl ⟨bmod_eq_self_iff.2 ⟨hin, hlt⟩, hin, hlt⟩
  · refine .inr (.inl ⟨?_, hge⟩)
    rw [← hsub]
    exact bmod_eq_self_iff.2 ⟨by omega, by omega⟩

theorem emod_eq_self_iff {n : Nat} {v : Int} : v % 2 ^ n = v ↔ 0 ≤ v ∧ v < 2 ^ n := by
  constructor
  · intro hv
    rw [← hv]
    exact ⟨Int.emod_nonneg _ (by positivity), Int.emod_lt_of_pos _ (by positivity)⟩
  · rintro ⟨hlo, hhi⟩
    exact Int.emod_eq_of_lt hlo hhi

theorem two_pow_le {m n : Nat} (h : m ≤ n) : (2 : Int) ^ m ≤ 2 ^ n := by
  exact_mod_cast Nat.pow_le_pow_right (by decide) h

theorem bmod_eq_self_mono {m n : Nat} (h : m ≤ n) {v : Int} (hv : v.bmod (2 ^ m) = v) :
    v.bmod (2 ^ n) = v := by
  rw [bmod_eq_self_iff] at hv ⊢
  have := two_pow_le h
  omega

theorem emod_eq_self_mono {m n : Nat} (h : m ≤ n) {v : Int} (hv : v % 2 ^ m = v) :
    v % 2 ^ n = v := by
  rw [emod_eq_self_iff] at hv ⊢
  exact ⟨hv.1, hv.2.trans_le (two_pow_le h)⟩

/-- A number of fewer bits is not negative as a signed number of more. -/
theorem bmod_eq_self_of_emod {m n : Nat} (h : m < n) {v : Int} (hv : v % 2 ^ m = v) :
    v.bmod (2 ^ n) = v := by
  rw [emod_eq_self_iff] at hv
  rw [bmod_eq_self_iff]
  have hle : (2 : Int) ^ (m + 1) ≤ 2 ^ n := two_pow_le h
  rw [pow_succ] at hle
  omega

/-- The number that `n` bits keep of `v`: zero-extended if unsigned, sign-extended if not. -/
def wrap (unsigned : Bool) (n : Nat) (v : Int) : Int :=
  if unsigned then v % 2 ^ n else v.bmod (2 ^ n)

variable {u : Bool} {n : Nat} {a b v : Int}

@[simp] theorem wrap_true : wrap true n v = v % 2 ^ n := rfl

@[simp] theorem wrap_false : wrap false n v = v.bmod (2 ^ n) := rfl

theorem wrap_eq_of_dvd (h : (2 : Int) ^ n ∣ a - b) : wrap u n a = wrap u n b := by
  cases u with
  | true => exact Int.emod_eq_emod_iff_emod_sub_eq_zero.2 (Int.emod_eq_zero_of_dvd h)
  | false =>
    have hcast : ((2 ^ n : Nat) : Int) ∣ a - b := by exact_mod_cast h
    exact Int.bmod_eq_bmod_iff_bmod_sub_eq_zero.2 (Int.bmod_eq_zero_of_dvd hcast)

theorem dvd_wrap_sub : (2 : Int) ^ n ∣ wrap u n v - v := by
  cases u with
  | true => exact Int.dvd_emod_sub_self
  | false =>
    have h := Int.dvd_bmod_sub_self (x := v) (m := 2 ^ n)
    push_cast at h
    exact h

theorem wrap_wrap : wrap u n (wrap u n v) = wrap u n v := wrap_eq_of_dvd dvd_wrap_sub

theorem wrap_eq_self_convex (ha : wrap u n a = a) (hb : wrap u n b = b) (hav : a ≤ v)
    (hvb : v ≤ b) : wrap u n v = v := by
  cases u with
  | true =>
    rw [wrap_true, emod_eq_self_iff] at ha hb ⊢
    exact ⟨ha.1.trans hav, hvb.trans_lt hb.2⟩
  | false =>
    rw [wrap_false, bmod_eq_self_iff] at ha hb ⊢
    omega

theorem wrap_eq_self_mono {m : Nat} (h : m ≤ n) (hv : wrap u m v = v) : wrap u n v = v := by
  cases u with
  | true => exact emod_eq_self_mono h hv
  | false => exact bmod_eq_self_mono h hv

theorem sub_lt_of_wrap (ha : wrap u n a = a) (hb : wrap u n b = b) : b - a < 2 ^ n := by
  cases u with
  | true =>
    rw [wrap_true, emod_eq_self_iff] at ha hb
    omega
  | false =>
    rw [wrap_false, bmod_eq_self_iff] at ha hb
    omega

/-- The next value, where adding one does not go round. -/
theorem wrap_succ (hv : wrap u n v = v) (h : v < wrap u n (v + 1)) : wrap u n (v + 1) = v + 1 :=
  wrap_eq_self_convex hv wrap_wrap (Int.le_add_one le_rfl) h

theorem wrap_pred (hv : wrap u n v = v) (h : wrap u n (v - 1) < v) : wrap u n (v - 1) = v - 1 :=
  wrap_eq_self_convex wrap_wrap hv (Int.le_sub_one_of_lt h) (Int.sub_le_self v (by decide))

end Z80Gcc.WrapInt
