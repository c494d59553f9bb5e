import Z80Gcc.Spec.LongLong
import Z80Gcc.Lib.Adder
import Mathlib.Tactic.Ring

/-! The 64-bit routines do what they are for; `__ffsdi2` where the words have their lowest bit in the lower half. -/

namespace Z80Gcc.LongLong

namespace DIunion

@[simp] theorem ll_toNat (w : DIunion) : w.ll.toNat = w.high.toNat * 2 ^ 32 + w.low.toNat := by
  rw [ll, Adder.toNat_append]
  ring

theorem ofLl_high (u : BitVec 64) : (ofLl u).high.toNat = u.toNat / 2 ^ 32 := by
  have hu := u.isLt
  rw [ofLl, BitVec.toNat_setWidth, BitVec.toNat_ushiftRight, Nat.shiftRight_eq_div_pow]
  omega

theorem ofLl_low (u : BitVec 64) : (ofLl u).low.toNat = u.toNat % 2 ^ 32 := by
  rw [ofLl, BitVec.toNat_setWidth]

theorem ll_ofLl (u : BitVec 64) : (ofLl u).ll = u := by
  apply BitVec.eq_of_toNat_eq
  rw [ll_toNat, ofLl_high, ofLl_low]
  omega

theorem getLsbD_ll (w : DIunion) (i : Nat) : w.ll.getLsbD i = if i < 32 then w.low.getLsbD i else w.high.getLsbD (i - 32) := by
  rw [ll, BitVec.getLsbD_append]

theorem getLsbD_high (u : BitVec 64) (i : Nat) : (ofLl u).high.getLsbD i = u.getLsbD (32 + i) := by
  rw [ofLl, BitVec.getLsbD_setWidth, BitVec.getLsbD_ushiftRight]
  by_cases hi : i < 32
  · simp [hi]
  · simp [hi, BitVec.getLsbD_of_ge u (32 + i) (by omega)]

theorem getLsbD_low (u : BitVec 64) (i : Nat) : (ofLl u).low.getLsbD i = (decide (i < 32) && u.getLsbD i) := by
  rw [ofLl, BitVec.getLsbD_setWidth]

end DIunion

section Mul

theorem llLowpart_toNat (t : BitVec 32) : (llLowpart t).toNat = t.toNat % 2 ^ 16 := by
  rw [llLowpart, BitVec.toNat_umod]
  rfl

theorem llHighpart_toNat (t : BitVec 32) : (llHighpart t).toNat = t.toNat / 2 ^ 16 := by
  rw [llHighpart, BitVec.toNat_udiv]
  rfl

theorem half_mul {x y : Nat} (hx : x < 2 ^ 16) (hy : y < 2 ^ 16) : x * y + 2 * 2 ^ 16 ≤ 2 ^ 32 + 1 := by
  have h : x * y ≤ (2 ^ 16 - 1) * (2 ^ 16 - 1) := Nat.mul_le_mul (by omega) (by omega)
  omega

/-- `umul_ppmm` is the whole product: the sum for the middle can carry once. -/
theorem umulPpmm_toNat (u v : BitVec 32) : (umulPpmm u v).ll.toNat = u.toNat * v.toNat := by
  have hu := u.isLt
  have hv := v.isLt
  have hul := Nat.mod_lt u.toNat (show 0 < 2 ^ 16 by decide)
  have hvl := Nat.mod_lt v.toNat (show 0 < 2 ^ 16 by decide)
  have huh : u.toNat / 2 ^ 16 < 2 ^ 16 := by omega
  have hvh : v.toNat / 2 ^ 16 < 2 ^ 16 := by omega
  have hprod : u.toNat * v.toNat = (u.toNat / 2 ^ 16 * (v.toNat / 2 ^ 16)) * 2 ^ 32 +
      (u.toNat % 2 ^ 16 * (v.toNat / 2 ^ 16) + u.toNat / 2 ^ 16 * (v.toNat % 2 ^ 16)) * 2 ^ 16 +
        u.toNat % 2 ^ 16 * (v.toNat % 2 ^ 16) := by
    have hus := Nat.div_add_mod u.toNat (2 ^ 16)
    have hvs := Nat.div_add_mod v.toNat (2 ^ 16)
    generalize u.toNat / 2 ^ 16 = a at *
    generalize u.toNat % 2 ^ 16 = b at *
    generalize v.toNat / 2 ^ 16 = c at *
    generalize v.toNat % 2 ^ 16 = d at *
    rw [← hus, ← hvs]
    ring
  have h0 := half_mul hul hvl
  have h1 := half_mul hul hvh
  have h2 := half_mul huh hvl
  have h3 := half_mul huh hvh
  have e0 : (llLowpart u * llLowpart v).toNat = u.toNat % 2 ^ 16 * (v.toNat % 2 ^ 16) := by
    rw [BitVec.toNat_mul, llLowpart_toNat, llLowpart_toNat, Nat.mod_eq_of_lt (by omega)]
  have e1 : (llLowpart u * llHighpart v).toNat = u.toNat % 2 ^ 16 * (v.toNat / 2 ^ 16) := by
    rw [BitVec.toNat_mul, llLowpart_toNat, llHighpart_toNat, Nat.mod_eq_of_lt (by omega)]
  have e2 : (llHighpart u * llLowpart v).toNat = u.toNat / 2 ^ 16 * (v.toNat % 2 ^ 16) := by
    rw [BitVec.toNat_mul, llLowpart_toNat, llHighpart_toNat, Nat.mod_eq_of_lt (by omega)]
  have e3 : (llHighpart u * llHighpart v).toNat = u.toNat / 2 ^ 16 * (v.toNat / 2 ^ 16) := by
    rw [BitVec.toNat_mul, llHighpart_toNat, llHighpart_toNat, Nat.mod_eq_of_lt (by omega)]
  rw [DIunion.ll_toNat, hprod, umulPpmm]
  dsimp only
  generalize llLowpart u * llLowpart v = x0 at *
  generalize llLowpart u * llHighpart v = x1 at *
  generalize llHighpart u * llLowpart v = x2 at *
  generalize llHighpart u * llHighpart v = x3 at *
  rw [← e0, ← e1, ← e2, ← e3]
  rw [← e0] at h0
  rw [← e1] at h1
  rw [← e2] at h2
  rw [← e3] at h3
  have hB : (0x10000 : BitVec 32).toNat = 2 ^ 16 := rfl
  have ha : (x1 + llHighpart x0).toNat = x1.toNat + x0.toNat / 2 ^ 16 := by
    rw [BitVec.toNat_add, llHighpart_toNat, Nat.mod_eq_of_lt (by omega)]
  generalize x1 + llHighpart x0 = a at *
  have hsum : (a + x2).toNat = (a.toNat + x2.toNat) % 2 ^ 32 := BitVec.toNat_add _ _
  generalize a + x2 = sum at *
  have hlow : (llLowpart sum * 0x10000 + llLowpart x0).toNat = sum.toNat % 2 ^ 16 * 2 ^ 16 + x0.toNat % 2 ^ 16 := by
    rw [BitVec.toNat_add, BitVec.toNat_mul, llLowpart_toNat, llLowpart_toNat, hB]
    omega
  rw [hlow, BitVec.toNat_add, llHighpart_toNat]
  by_cases hcarry : sum < x2
  · rw [if_pos hcarry, BitVec.toNat_add, hB]
    rw [BitVec.lt_def] at hcarry
    omega
  · rw [if_neg hcarry]
    rw [BitVec.lt_def] at hcarry
    omega

theorem muldi3_eq (u v : BitVec 64) : muldi3 u v = u * v := by
  have hu := u.isLt
  have hv := v.isLt
  have hw : (DIunion.ofLl (umulsidi3 (DIunion.ofLl u).low (DIunion.ofLl v).low)).ll.toNat =
      (u.toNat % 2 ^ 32) * (v.toNat % 2 ^ 32) := by
    rw [DIunion.ll_ofLl, umulsidi3, umulPpmm_toNat, DIunion.ofLl_low, DIunion.ofLl_low]
  apply BitVec.eq_of_toNat_eq
  rw [muldi3]
  generalize DIunion.ofLl (umulsidi3 (DIunion.ofLl u).low (DIunion.ofLl v).low) = w at hw ⊢
  rw [DIunion.ll_toNat] at hw ⊢
  dsimp only
  rw [BitVec.toNat_add, BitVec.toNat_add, BitVec.toNat_mul, BitVec.toNat_mul, DIunion.ofLl_low, DIunion.ofLl_high,
    DIunion.ofLl_low, DIunion.ofLl_high, BitVec.toNat_mul]
  have hprod : u.toNat * v.toNat = 2 ^ 64 * (u.toNat / 2 ^ 32 * (v.toNat / 2 ^ 32)) +
      ((u.toNat % 2 ^ 32 * (v.toNat / 2 ^ 32) + u.toNat / 2 ^ 32 * (v.toNat % 2 ^ 32)) * 2 ^ 32 +
        u.toNat % 2 ^ 32 * (v.toNat % 2 ^ 32)) := by
    have hus := Nat.div_add_mod u.toNat (2 ^ 32)
    have hvs := Nat.div_add_mod v.toNat (2 ^ 32)
    generalize u.toNat / 2 ^ 32 = a at *
    generalize u.toNat % 2 ^ 32 = b at *
    generalize v.toNat / 2 ^ 32 = c at *
    generalize v.toNat % 2 ^ 32 = d at *
    rw [← hus, ← hvs]
    ring
  rw [hprod, Nat.mul_add_mod, ← hw]
  have hlow := w.low.isLt
  generalize u.toNat % 2 ^ 32 * (v.toNat / 2 ^ 32) = p
  generalize u.toNat / 2 ^ 32 * (v.toNat % 2 ^ 32) = q
  clear hw hprod hu hv
  omega

end Mul

section Neg

theorem negdi2_eq (u : BitVec 64) : negdi2 u = -u := by
  have hu := u.isLt
  apply BitVec.eq_of_toNat_eq
  rw [negdi2, BitVec.toNat_neg u, DIunion.ll_toNat]
  dsimp only
  have hlow : (-(DIunion.ofLl u).low).toNat = (2 ^ 32 - u.toNat % 2 ^ 32) % 2 ^ 32 := by
    rw [BitVec.toNat_neg, DIunion.ofLl_low]
  have hone : (1 : BitVec 32).toNat = 1 := rfl
  have hzero : (0 : BitVec 32).toNat = 0 := rfl
  by_cases hborrow : -(DIunion.ofLl u).low > 0
  · rw [if_pos hborrow, hlow, BitVec.toNat_sub, BitVec.toNat_neg, DIunion.ofLl_high]
    rw [gt_iff_lt, BitVec.lt_def, hlow, hzero] at hborrow
    rw [hone]
    omega
  · rw [if_neg hborrow, hlow, BitVec.toNat_sub, BitVec.toNat_neg, DIunion.ofLl_high]
    rw [gt_iff_lt, BitVec.lt_def, hlow, hzero] at hborrow
    rw [hzero]
    omega

end Neg

section Shift

/-- The complement of a count, and what the test on it finds out. -/
theorem bm_toNat (b : BitVec 16) : (32 - b).toNat = (2 ^ 16 - b.toNat + 32) % 2 ^ 16 := BitVec.toNat_sub _ _

theorem bm_sle {b : BitVec 16} (hb : b.toNat < 64) : (32 - b).sle 0 = true ↔ 32 ≤ b.toNat := by
  rw [BitVec.sle_eq_decide, decide_eq_true_iff, BitVec.toInt_eq_toNat_cond, bm_toNat b]
  split <;> simp <;> omega

theorem bm_small {b : BitVec 16} (hb : b.toNat < 32) : (32 - b).toNat = 32 - b.toNat := by
  rw [bm_toNat b]
  omega

theorem bm_large {b : BitVec 16} (hb : b.toNat < 64) (hlarge : 32 ≤ b.toNat) : (-(32 - b)).toNat = b.toNat - 32 := by
  rw [BitVec.toNat_neg, bm_toNat b]
  omega

theorem lshrdi3_eq (u : BitVec 64) {b : BitVec 16} (hb : b.toNat < 64) : lshrdi3 u b = u >>> b.toNat := by
  rw [lshrdi3]
  by_cases hzero : b = 0
  · rw [if_pos hzero, hzero]
    exact (BitVec.ushiftRight_zero u).symm
  rw [if_neg hzero]
  dsimp only
  by_cases hlarge : 32 ≤ b.toNat
  · rw [if_pos ((bm_sle hb).2 hlarge), bm_large hb hlarge]
    apply BitVec.eq_of_getLsbD_eq
    intro i hi
    rw [DIunion.getLsbD_ll, BitVec.getLsbD_ushiftRight, BitVec.getLsbD_ushiftRight, DIunion.getLsbD_high]
    split
    · congr 1
      omega
    · rw [BitVec.getLsbD_of_ge u _ (by omega)]
      exact BitVec.getLsbD_zero
  · rw [if_neg (fun h => hlarge ((bm_sle hb).1 h)), bm_small (Nat.lt_of_not_le hlarge)]
    apply BitVec.eq_of_getLsbD_eq
    intro i hi
    rw [DIunion.getLsbD_ll, BitVec.getLsbD_ushiftRight, BitVec.getLsbD_or, BitVec.getLsbD_ushiftRight, BitVec.getLsbD_shiftLeft,
      BitVec.getLsbD_ushiftRight, DIunion.getLsbD_high, DIunion.getLsbD_high, DIunion.getLsbD_low]
    split
    · next hlow =>
      by_cases hin : b.toNat + i < 32
      · simp [hin, show i < 32 - b.toNat by omega]
      · have hbit : 32 + (i - (32 - b.toNat)) = b.toNat + i := by omega
        simp [hin, hlow, hbit, show ¬ i < 32 - b.toNat by omega]
    · congr 1
      omega

theorem ashldi3_eq (u : BitVec 64) {b : BitVec 16} (hb : b.toNat < 64) : ashldi3 u b = u <<< b.toNat := by
  rw [ashldi3]
  by_cases hzero : b = 0
  · rw [if_pos hzero, hzero]
    exact (BitVec.shiftLeft_zero u).symm
  rw [if_neg hzero]
  dsimp only
  by_cases hlarge : 32 ≤ b.toNat
  · rw [if_pos ((bm_sle hb).2 hlarge), bm_large hb hlarge]
    apply BitVec.eq_of_getLsbD_eq
    intro i hi
    rw [DIunion.getLsbD_ll, BitVec.getLsbD_shiftLeft, BitVec.getLsbD_shiftLeft, DIunion.getLsbD_low]
    split
    · simp [show i < b.toNat by omega]
    · by_cases hin : i < b.toNat
      · simp [hin, show i - 32 < b.toNat - 32 by omega]
      · have hbit : i - 32 - (b.toNat - 32) = i - b.toNat := by omega
        simp [hi, hin, hbit, show i - 32 < 32 by omega, show ¬ i - 32 < b.toNat - 32 by omega, show i - b.toNat < 32 by omega]
  · rw [if_neg (fun h => hlarge ((bm_sle hb).1 h)), bm_small (Nat.lt_of_not_le hlarge)]
    apply BitVec.eq_of_getLsbD_eq
    intro i hi
    rw [DIunion.getLsbD_ll, BitVec.getLsbD_shiftLeft, BitVec.getLsbD_or, BitVec.getLsbD_ushiftRight, BitVec.getLsbD_shiftLeft,
      BitVec.getLsbD_shiftLeft, DIunion.getLsbD_high, DIunion.getLsbD_low, DIunion.getLsbD_low]
    split
    · next hlow => simp [hlow, hi, show i - b.toNat < 32 by omega]
    · next hhigh =>
      by_cases hin : i - 32 < b.toNat
      · have hbit : 32 - b.toNat + (i - 32) = i - b.toNat := by omega
        simp [hi, hin, hbit, show i - b.toNat < 32 by omega, show ¬ i < b.toNat by omega]
      · have hbit : 32 + (i - 32 - b.toNat) = i - b.toNat := by omega
        simp [hi, hin, hbit, show i - 32 < 32 by omega, show ¬ i < b.toNat by omega, show ¬ 32 - b.toNat + (i - 32) < 32 by omega]

theorem msb_high (u : BitVec 64) : (DIunion.ofLl u).high.msb = u.msb := by
  rw [BitVec.msb_eq_getLsbD_last, BitVec.msb_eq_getLsbD_last, DIunion.getLsbD_high]

theorem ashrdi3_eq (u : BitVec 64) {b : BitVec 16} (hb : b.toNat < 64) : ashrdi3 u b = u.sshiftRight b.toNat := by
  rw [ashrdi3]
  by_cases hzero : b = 0
  · rw [if_pos hzero, hzero]
    exact (BitVec.sshiftRight_zero).symm
  rw [if_neg hzero]
  dsimp only
  by_cases hlarge : 32 ≤ b.toNat
  · rw [if_pos ((bm_sle hb).2 hlarge), bm_large hb hlarge]
    apply BitVec.eq_of_getLsbD_eq
    intro i hi
    rw [DIunion.getLsbD_ll, BitVec.getLsbD_sshiftRight, BitVec.getLsbD_sshiftRight, BitVec.getLsbD_sshiftRight, msb_high,
      DIunion.getLsbD_high, DIunion.getLsbD_high]
    rw [decide_eq_false (by omega : ¬ 64 ≤ i)]
    split
    · next hlow =>
      rw [decide_eq_false (by omega : ¬ 32 ≤ i)]
      by_cases hin : b.toNat + i < 64
      · rw [if_pos hin, if_pos (by omega), show 32 + (b.toNat - 32 + i) = b.toNat + i by omega]
      · rw [if_neg hin, if_neg (by omega)]
    · rw [decide_eq_false (by omega : ¬ 32 ≤ i - 32), if_neg (by omega : ¬ b.toNat + i < 64)]
      split
      · next hlast => rw [BitVec.msb_eq_getLsbD_last, show 32 + (32 - 1 + (i - 32)) = 64 - 1 by omega]
      · rfl
  · rw [if_neg (fun h => hlarge ((bm_sle hb).1 h)), bm_small (Nat.lt_of_not_le hlarge)]
    apply BitVec.eq_of_getLsbD_eq
    intro i hi
    rw [DIunion.getLsbD_ll, BitVec.getLsbD_sshiftRight, BitVec.getLsbD_or, BitVec.getLsbD_ushiftRight, BitVec.getLsbD_shiftLeft,
      BitVec.getLsbD_sshiftRight, msb_high, DIunion.getLsbD_high, DIunion.getLsbD_high, DIunion.getLsbD_low]
    rw [decide_eq_false (by omega : ¬ 64 ≤ i)]
    split
    · next hlow =>
      rw [if_pos (by omega)]
      by_cases hin : b.toNat + i < 32
      · simp [hin, show i < 32 - b.toNat by omega]
      · have hbit : 32 + (i - (32 - b.toNat)) = b.toNat + i := by omega
        simp [hin, hlow, hbit, show ¬ i < 32 - b.toNat by omega]
    · rw [decide_eq_false (by omega : ¬ 32 ≤ i - 32)]
      by_cases hin : b.toNat + i < 64
      · rw [if_pos hin, if_pos (by omega), show 32 + (b.toNat + (i - 32)) = b.toNat + i by omega]
      · rw [if_neg hin, if_neg (by omega)]

end Shift

section Order

theorem order_cases {a b a₁ b₁ a₀ b₀ : Int} (ha : a = a₁ * 2 ^ 32 + a₀) (hb : b = b₁ * 2 ^ 32 + b₀) (ha₀ : 0 ≤ a₀ ∧ a₀ < 2 ^ 32)
    (hb₀ : 0 ≤ b₀ ∧ b₀ < 2 ^ 32) : order a b = if a₁ < b₁ then 0 else if b₁ < a₁ then 2 else
      if a₀ < b₀ then 0 else if b₀ < a₀ then 2 else 1 := by
  rw [order]
  split
  · split
    · rfl
    · rw [if_neg (by omega), if_pos (by omega)]
  split
  · rw [if_neg (by omega), if_neg (by omega), if_neg (by omega), if_neg (by omega)]
  rw [if_neg (by omega)]
  split
  · rfl
  rw [if_neg (by omega), if_pos (by omega)]

theorem toInt_words (u : BitVec 64) : u.toInt = (DIunion.ofLl u).high.toInt * 2 ^ 32 + (DIunion.ofLl u).low.toNat := by
  rw [BitVec.toInt_eq_toNat_cond, BitVec.toInt_eq_toNat_cond, DIunion.ofLl_high, DIunion.ofLl_low]
  split <;> split <;> push_cast <;> omega

theorem toNat_words (u : BitVec 64) :
    (u.toNat : Int) = (DIunion.ofLl u).high.toNat * 2 ^ 32 + (DIunion.ofLl u).low.toNat := by
  rw [DIunion.ofLl_high, DIunion.ofLl_low]
  omega

theorem low_range (w : DIunion) : 0 ≤ (w.low.toNat : Int) ∧ (w.low.toNat : Int) < 2 ^ 32 := by
  have h := w.low.isLt
  omega

theorem cmpdi2_eq (u v : BitVec 64) : cmpdi2 u v = order u.toInt v.toInt := by
  rw [order_cases (toInt_words u) (toInt_words v) (low_range _) (low_range _), cmpdi2]
  simp only [BitVec.slt_iff_toInt_lt, BitVec.ult_iff_lt, BitVec.lt_def, Int.ofNat_lt]

theorem ucmpdi2_eq (u v : BitVec 64) : ucmpdi2 u v = order u.toNat v.toNat := by
  rw [order_cases (toNat_words u) (toNat_words v) (low_range _) (low_range _), ucmpdi2]
  simp only [BitVec.ult_iff_lt, BitVec.lt_def, Int.ofNat_lt]

end Order

section FindFirst

variable {w : Nat}

theorem firstSet_spec (x : BitVec w) :
    (firstSet x = 0 ∧ ∀ i, x.getLsbD i = false) ∨
      ∃ i < w, firstSet x = i + 1 ∧ x.getLsbD i = true ∧ ∀ j < i, x.getLsbD j = false := by
  rw [firstSet]
  split
  · next i hi =>
    obtain ⟨hbit, hmem, hlow⟩ := List.find?_range_eq_some.1 hi
    exact .inr ⟨i, List.mem_range.1 hmem, rfl, hbit, fun j hj => by simpa using hlow j hj⟩
  · next hnone =>
    refine .inl ⟨rfl, fun i => ?_⟩
    by_cases hi : i < w
    · simpa using List.find?_eq_none.1 hnone i (List.mem_range.2 hi)
    · exact BitVec.getLsbD_of_ge x i (Nat.le_of_not_lt hi)

/-- The lowest set bit is the only one with only zeros below it. -/
theorem firstSet_eq {x : BitVec w} {i : Nat} (hi : x.getLsbD i = true) (hbelow : ∀ j < i, x.getLsbD j = false) :
    firstSet x = i + 1 := by
  obtain ⟨-, hnone⟩ | ⟨k, -, hk, hbit, hlow⟩ := firstSet_spec x
  · rw [hnone i] at hi
    cases hi
  · obtain hlt | rfl | hlt := Nat.lt_trichotomy k i
    · rw [hbelow k hlt] at hbit
      cases hbit
    · exact hk
    · rw [hlow i hlt] at hi
      cases hi

theorem firstSet_eq_zero {x : BitVec w} : firstSet x = 0 ↔ ∀ i, x.getLsbD i = false := by
  constructor
  · intro hzero
    obtain ⟨-, hnone⟩ | ⟨k, -, hk, -⟩ := firstSet_spec x
    · exact hnone
    · rw [hk] at hzero
      cases hzero
  · intro hnone
    obtain ⟨hzero, -⟩ | ⟨k, -, -, hbit, -⟩ := firstSet_spec x
    · exact hzero
    · rw [hnone k] at hbit
      cases hbit

theorem low_bits_zero (x : BitVec w) (k : Nat) : x.toNat % 2 ^ k = 0 ↔ ∀ i < k, x.getLsbD i = false := by
  have hzero : x.setWidth k = 0 ↔ ∀ i < k, x.getLsbD i = false := by
    constructor
    · intro h i hi
      have hbit := congrArg (fun y => y.getLsbD i) h
      simpa [BitVec.getLsbD_setWidth, hi] using hbit
    · intro h
      apply BitVec.eq_of_getLsbD_eq
      intro i hi
      rw [BitVec.getLsbD_setWidth, h i hi, Bool.and_false]
      exact BitVec.getLsbD_zero.symm
  rw [← hzero, ← BitVec.toNat_inj, BitVec.toNat_setWidth]
  rfl

/-- The call of `ffs` for a word finds the lowest bit in its lower half. -/
theorem ffs_spec (x : BitVec 32) :
    ((ffs (x.setWidth 16)).signExtend 32 = 0 ∧ x.toNat % 2 ^ 16 = 0) ∨
      ∃ i < 16, (ffs (x.setWidth 16)).signExtend 32 = BitVec.ofNat 32 (i + 1) ∧ x.getLsbD i = true ∧
        ∀ j < i, x.getLsbD j = false := by
  have hsign : ∀ i < 17, (BitVec.ofNat 16 i).signExtend 32 = BitVec.ofNat 32 i := by decide
  have hbit {i : Nat} (hi : i < 16) : (x.setWidth 16).getLsbD i = x.getLsbD i := by
    rw [BitVec.getLsbD_setWidth, decide_eq_true hi, Bool.true_and]
  rw [ffs]
  obtain ⟨hzero, hnone⟩ | ⟨i, hi, hfirst, hset, hlow⟩ := firstSet_spec (x.setWidth 16)
  · rw [hzero]
    exact .inl ⟨hsign 0 (by decide), (low_bits_zero x 16).2 fun i hi => (hbit hi).symm.trans (hnone i)⟩
  · rw [hfirst]
    refine .inr ⟨i, hi, hsign _ (by omega), (hbit hi).symm.trans hset, fun j hj => ?_⟩
    exact (hbit (by omega)).symm.trans (hlow j hj)

/-- The lowest set bit, if there is one, is in the lower half of its word. -/
def LowestInLowerHalf (u : BitVec 64) : Prop :=
  u.toNat % 2 ^ 16 ≠ 0 ∨ u.toNat % 2 ^ 32 = 0 ∧ u.toNat / 2 ^ 32 % 2 ^ 16 ≠ 0 ∨ u = 0

theorem ll_ofNat {n : Nat} (hn : n < 2 ^ 32) : DIunion.ll ⟨0, BitVec.ofNat 32 n⟩ = BitVec.ofNat 64 n := by
  apply BitVec.eq_of_toNat_eq
  rw [DIunion.ll_toNat, BitVec.toNat_ofNat, BitVec.toNat_ofNat]
  dsimp only
  rw [Nat.mod_eq_of_lt hn, Nat.mod_eq_of_lt (by omega)]
  exact Nat.zero_add n

theorem firstSet_le (x : BitVec w) : firstSet x ≤ w := by
  obtain ⟨h, -⟩ | ⟨i, hi, h, -⟩ := firstSet_spec x <;> omega

theorem ofNat_succ_ne_zero {i : Nat} (hi : i + 1 < 2 ^ 32) : BitVec.ofNat 32 (i + 1) ≠ 0 := by
  intro h
  have hnat := congrArg BitVec.toNat h
  rw [BitVec.toNat_ofNat, Nat.mod_eq_of_lt hi] at hnat
  cases hnat

/-- `__ffsdi2` is right where the calls of `ffs` see the lowest bit. -/
theorem ffsdi2_iff (u : BitVec 64) : ffsdi2 u = BitVec.ofNat 64 (firstSet u) ↔ LowestInLowerHalf u := by
  have hofNat {m n : Nat} (hm : m ≤ 64) (hn : n ≤ 64) : BitVec.ofNat 64 m = BitVec.ofNat 64 n ↔ m = n := by
    rw [← BitVec.toNat_inj, BitVec.toNat_ofNat, BitVec.toNat_ofNat, Nat.mod_eq_of_lt (by omega), Nat.mod_eq_of_lt (by omega)]
  have hfirst := firstSet_le u
  rw [ffsdi2]
  dsimp only
  obtain ⟨hlow, hzero⟩ | ⟨i, hi, hlow, hset, hbelow⟩ := ffs_spec (DIunion.ofLl u).low
  case inr =>
    -- the lowest bit is one of the first 16
    have hne : BitVec.ofNat 32 (i + 1) ≠ 0 := ofNat_succ_ne_zero (by omega)
    rw [hlow, if_pos hne, ll_ofNat (by omega)]
    have hbit {j : Nat} (hj : j < 32) : (DIunion.ofLl u).low.getLsbD j = u.getLsbD j := by
      rw [DIunion.getLsbD_low, decide_eq_true hj, Bool.true_and]
    rw [hbit (by omega)] at hset
    have hright : firstSet u = i + 1 := firstSet_eq hset fun j hj => (hbit (by omega)).symm.trans (hbelow j hj)
    refine iff_of_true (by rw [hright]) (.inl fun hmod => ?_)
    rw [(low_bits_zero u 16).1 hmod i hi] at hset
    cases hset
  rw [DIunion.ofLl_low] at hzero
  have hzero16 : u.toNat % 2 ^ 16 = 0 := by omega
  rw [hlow, if_neg (not_not.2 rfl)]
  obtain ⟨hhigh, hzero'⟩ | ⟨i, hi, hhigh, hset, hbelow⟩ := ffs_spec (DIunion.ofLl u).high
  · -- nothing is found
    rw [DIunion.ofLl_high] at hzero'
    have hll : DIunion.ll ⟨0, 0⟩ = BitVec.ofNat 64 0 := rfl
    rw [hhigh, if_neg (not_not.2 rfl), hll, hofNat (by decide) hfirst, eq_comm, firstSet_eq_zero]
    constructor
    · intro hnone
      refine .inr (.inr (BitVec.eq_of_getLsbD_eq fun i _ => ?_))
      rw [hnone i]
      exact BitVec.getLsbD_zero.symm
    · intro h
      obtain h | h | rfl := h
      · exact absurd hzero16 h
      · exact absurd hzero' h.2
      · exact fun i => BitVec.getLsbD_zero
  · -- the lowest bit that is found is in the high word
    have hne : BitVec.ofNat 32 (i + 1) ≠ 0 := ofNat_succ_ne_zero (by omega)
    have hsum : BitVec.ofNat 32 (i + 1) + 32 = BitVec.ofNat 32 (i + 33) := by
      rw [show i + 33 = i + 1 + 32 from rfl, BitVec.ofNat_add _ 32]
      rfl
    rw [hhigh, if_pos hne, hsum, ll_ofNat (by omega), hofNat (by omega) hfirst]
    rw [DIunion.getLsbD_high] at hset
    have hmod : u.toNat / 2 ^ 32 % 2 ^ 16 ≠ 0 := by
      rw [← DIunion.ofLl_high]
      intro hmod
      have hclear := (low_bits_zero _ 16).1 hmod i hi
      rw [DIunion.getLsbD_high, hset] at hclear
      cases hclear
    constructor
    · intro hright
      refine .inr (.inl ⟨(low_bits_zero u 32).2 fun j hj => ?_, hmod⟩)
      obtain ⟨-, hnone⟩ | ⟨k, -, hk, -, hclear⟩ := firstSet_spec u
      · exact hnone j
      · exact hclear j (by omega)
    · intro h
      obtain h | h | rfl := h
      · exact absurd hzero16 h
      · rw [firstSet_eq hset fun j hj => ?_]
        · omega
        by_cases hj32 : j < 32
        · exact (low_bits_zero u 32).1 h.1 j hj32
        · have hclear := hbelow (j - 32) (by omega)
          rwa [DIunion.getLsbD_high, show 32 + (j - 32) = j by omega] at hclear
      · exact absurd hset (by simp)

end FindFirst

/-- The routines do what they are for, but that `__ffsdi2` misses a lowest bit in the upper half of a word. -/
theorem long_long_routines_iff (u v : BitVec 64) {b : BitVec 16} (hb : b.toNat < 64) :
    RoutinesRight u v b ↔ LowestInLowerHalf u := by
  constructor
  · exact fun h => (ffsdi2_iff u).1 h.ffs
  · exact fun h => ⟨muldi3_eq u v, negdi2_eq u, lshrdi3_eq u hb, ashldi3_eq u hb, ashrdi3_eq u hb, (ffsdi2_iff u).2 h, cmpdi2_eq u v,
      ucmpdi2_eq u v⟩

theorem long_long_routines_shift_33 : RoutinesRight 6 7 33 := (long_long_routines_iff 6 7 (by decide)).2 (.inl (by decide))

/-- The lowest bit of 0x10000 is not found at all. -/
theorem long_long_wrong_ffs : ffsdi2 0x10000 = 0 ∧ ¬ RoutinesRight 0x10000 0 0 := by
  have hffs : ffsdi2 0x10000 = 0 := by decide
  refine ⟨hffs, fun h => ?_⟩
  have hright := h.ffs
  rw [hffs] at hright
  revert hright
  decide

end Z80Gcc.LongLong
