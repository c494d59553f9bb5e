import Mathlib

/-! Long division, digit by digit from the top. The digits of a number are a list with the lowest
first, so `List.mapAccumr` visits them in the order of a long division. How the partial remainder
is kept (a number, a pair of digits) is left to a value function `val`. -/

namespace Z80Gcc.LongDivision

open Nat (ofDigits ofDigits_nil ofDigits_cons)

/-- One step of a long division by `d`: the partial remainder takes in a digit and gives one. -/
structure DivStep {S : Type} (B d : Nat) (good : S → Prop) (val : S → Nat)
    (f : Nat → S → S × Nat) : Prop where
  keep : ∀ x s, x < B → good s → val s < d → good (f x s).1
  lt : ∀ x s, x < B → good s → val s < d → val (f x s).1 < d
  eq : ∀ x s, x < B → good s → val s < d → (f x s).2 * d + val (f x s).1 = val s * B + x

section Run

variable {S : Type} {B d : Nat} {good : S → Prop} {val : S → Nat} {f : Nat → S → S × Nat}

theorem DivStep.digit_lt (h : DivStep B d good val f) {x : Nat} {s : S} (hx : x < B)
    (hg : good s) (hs : val s < d) : (f x s).2 < B := by
  have heq := h.eq x s hx hg hs
  have hle : (val s + 1) * B ≤ d * B := Nat.mul_le_mul_right B hs
  have hlt : (f x s).2 * d < B * d := by linarith
  exact Nat.lt_of_mul_lt_mul_right hlt

/-- The steps over all digits: the quotient's digits and the remainder. -/
theorem DivStep.run (h : DivStep B d good val f) {xs : List Nat} (hxs : ∀ x ∈ xs, x < B) {s : S}
    (hg : good s) (hs : val s < d) :
    good (xs.mapAccumr f s).1 ∧ val (xs.mapAccumr f s).1 < d ∧
      (∀ q ∈ (xs.mapAccumr f s).2, q < B) ∧
      ofDigits B (xs.mapAccumr f s).2 * d + val (xs.mapAccumr f s).1 =
        val s * B ^ xs.length + ofDigits B xs := by
  induction xs with
  | nil => simpa [List.mapAccumr] using ⟨hg, hs⟩
  | cons x xs ih =>
    obtain ⟨hg', hs', hlt, heq⟩ := ih fun y hy => hxs y (List.mem_cons_of_mem x hy)
    have hx : x < B := hxs x List.mem_cons_self
    refine ⟨h.keep x _ hx hg' hs', h.lt x _ hx hg' hs', ?_, ?_⟩
    · intro q hq
      rcases List.mem_cons.1 hq with rfl | hq
      · exact h.digit_lt hx hg' hs'
      · exact hlt q hq
    · have hstep := h.eq x _ hx hg' hs'
      simp only [List.mapAccumr, ofDigits_cons, List.length_cons]
      calc _ = B * (ofDigits B (xs.mapAccumr f s).2 * d) +
              ((f x (xs.mapAccumr f s).1).2 * d + val (f x (xs.mapAccumr f s).1).1) := by ring
        _ = B * (ofDigits B (xs.mapAccumr f s).2 * d + val (xs.mapAccumr f s).1) + x := by
            rw [hstep]
            ring
        _ = _ := by
            rw [heq]
            ring

end Run

/-- The remainder after all steps is the remainder, the digits are the quotient's. -/
theorem eq_div_of_run {q d r n : Nat} (h : q * d + r = n) (hr : r < d) : q = n / d := by
  have hd : 0 < d := Nat.lt_of_le_of_lt (Nat.zero_le r) hr
  rw [← h, Nat.mul_comm, Nat.mul_add_div hd, Nat.div_eq_of_lt hr, Nat.add_zero]

/-- Scaling by `B / (d₁ + 1)` brings the top digit of the divisor to at least half the base. -/
theorem scale_normalizes {B d₁ : Nat} (heven : B % 2 = 0) (hpos : 0 < d₁) (hlt : d₁ < B) :
    B ≤ 2 * (B / (d₁ + 1) * d₁) := by
  obtain ⟨s, hs⟩ : ∃ s, s = B / (d₁ + 1) := ⟨_, rfl⟩
  have hsplit := Nat.div_add_mod B (d₁ + 1)
  have hr : B % (d₁ + 1) < d₁ + 1 := Nat.mod_lt _ (Nat.succ_pos d₁)
  have hs1 : 1 ≤ s := hs ▸ (Nat.one_le_div_iff (Nat.succ_pos d₁)).2 hlt
  rw [← hs] at hsplit ⊢
  generalize B % (d₁ + 1) = r at hsplit hr
  have hexp : (d₁ + 1) * s = s * d₁ + s := by ring
  suffices hle : s + r ≤ s * d₁ by omega
  rcases Nat.lt_or_ge d₁ 2 with hd | hd
  · -- a top digit of one: the base is even, so nothing is left over
    obtain rfl : d₁ = 1 := by omega
    omega
  · rcases Nat.lt_or_ge s 2 with hs2 | hs2
    · obtain rfl : s = 1 := by omega
      omega
    · obtain ⟨k, rfl⟩ := Nat.exists_eq_add_of_le hd
      have : 2 * k ≤ s * k := Nat.mul_le_mul_right k hs2
      have : s * (2 + k) = 2 * s + s * k := by ring
      omega

section Estimate

variable {B d₁ d₀ u₂ u₁ u₀ : Nat}

/-- The digit that the two top digits of the partial remainder and the top digit of the divisor
suggest. -/
def estimate (B d₁ u₂ u₁ : Nat) : Nat :=
  if u₂ = d₁ then B - 1 else (u₂ * B + u₁) / d₁

theorem estimate_lt (hB : 0 < B) (hu : u₁ < B) (hle : u₂ ≤ d₁) : estimate B d₁ u₂ u₁ < B := by
  unfold estimate
  split
  · exact Nat.sub_lt hB Nat.one_pos
  · next hne =>
    have hlt : u₂ + 1 ≤ d₁ := Nat.lt_of_le_of_ne hle hne
    rw [Nat.div_lt_iff_lt_mul (by omega)]
    have := Nat.mul_le_mul_right B hlt
    linarith

/-- The estimate times the top digit fits under the two top digits. -/
theorem estimate_mul_le (hle : u₂ ≤ d₁) : estimate B d₁ u₂ u₁ * d₁ ≤ u₂ * B + u₁ := by
  unfold estimate
  split
  · next heq =>
    subst heq
    have := Nat.mul_le_mul_left u₂ (Nat.sub_le B 1)
    linarith
  · exact Nat.div_mul_le_self _ _

theorem estimate_ge (hu₀ : u₀ < B) (hle : u₂ ≤ d₁) {q : Nat} (hq : q < B)
    (hfit : q * (d₁ * B + d₀) ≤ (u₂ * B + u₁) * B + u₀) : q ≤ estimate B d₁ u₂ u₁ := by
  unfold estimate
  split
  · exact Nat.le_sub_one_of_lt hq
  · next hne =>
    have hpos : 0 < d₁ := by omega
    rw [Nat.le_div_iff_mul_le hpos]
    have h1 : q * d₁ * B ≤ (u₂ * B + u₁) * B + u₀ := by
      have h3 : q * (d₁ * B + d₀) = q * d₁ * B + q * d₀ := by ring
      omega
    have h2 : q * d₁ * B < (u₂ * B + u₁ + 1) * B := by linarith
    exact Nat.lt_succ_iff.1 (Nat.lt_of_mul_lt_mul_right h2)

/-- The top digit of a partial remainder that is below the divisor. -/
theorem top_le (hd₀ : d₀ < B) {T t x : Nat} (ht : t < T)
    (hlt : ((u₂ * B + u₁) * B + u₀) * T + x < B * ((d₁ * B + d₀) * T + t)) : u₂ ≤ d₁ := by
  have h1 : d₀ * T + t ≤ B * T := by
    have := Nat.mul_le_mul_right T (Nat.succ_le_of_lt hd₀)
    rw [Nat.succ_mul] at this
    omega
  have h2 : B * ((d₁ * B + d₀) * T + t) ≤ (d₁ + 1) * (B * (B * T)) := by
    have h3 : B * ((d₁ * B + d₀) * T + t) = d₁ * (B * (B * T)) + B * (d₀ * T + t) := by ring
    have h4 : B * (d₀ * T + t) ≤ B * (B * T) := Nat.mul_le_mul_left B h1
    rw [h3, Nat.succ_mul]
    omega
  have h5 : u₂ * (B * (B * T)) ≤ ((u₂ * B + u₁) * B + u₀) * T + x := by
    have h6 : ((u₂ * B + u₁) * B + u₀) * T + x =
        u₂ * (B * (B * T)) + (u₁ * B * T + u₀ * T + x) := by ring
    omega
  exact Nat.lt_succ_iff.1 (Nat.lt_of_mul_lt_mul_right (Nat.lt_of_le_of_lt h5 (hlt.trans_le h2)))

/-- With a top digit of at least half the base the estimate is at most two high, whatever the digits
`t` of the divisor and `x` of the partial remainder below those that it sees. -/
theorem estimate_le (hnorm : B ≤ 2 * d₁) (hd₀ : d₀ < B) (hu₁ : u₁ < B) (hle : u₂ ≤ d₁)
    {T t x : Nat} (ht : t < T) {q : Nat}
    (hmax : ((u₂ * B + u₁) * B + u₀) * T + x < (q + 1) * ((d₁ * B + d₀) * T + t)) :
    estimate B d₁ u₂ u₁ ≤ q + 2 := by
  have hB : 0 < B := Nat.lt_of_le_of_lt (Nat.zero_le u₁) hu₁
  have hmul : estimate B d₁ u₂ u₁ * d₁ ≤ u₂ * B + u₁ := estimate_mul_le hle
  have hlt := estimate_lt hB hu₁ hle
  by_contra hgt
  -- three high would make `2 * d₁` fit under `q + 1`
  have h3 : q + 3 ≤ estimate B d₁ u₂ u₁ := by omega
  have hq : (q + 3) * d₁ ≤ u₂ * B + u₁ := (Nat.mul_le_mul_right d₁ h3).trans hmul
  have h1 : (q + 3) * d₁ * B * T ≤ (u₂ * B + u₁) * B * T :=
    Nat.mul_le_mul_right T (Nat.mul_le_mul_right B hq)
  have h2 : d₀ * T + t < B * T := by
    have := Nat.mul_le_mul_right T (Nat.succ_le_of_lt hd₀)
    rw [Nat.succ_mul] at this
    omega
  have h4 : (q + 1) * (d₀ * T + t) ≤ (q + 1) * (B * T) := Nat.mul_le_mul_left _ h2.le
  have h5 : (q + 1) * (B * T) ≤ 2 * d₁ * (B * T) := Nat.mul_le_mul_right _ (by omega)
  have h6 : (q + 3) * d₁ * B * T = (q + 1) * (d₁ * B * T) + 2 * d₁ * (B * T) := by ring
  have h7 : (q + 1) * ((d₁ * B + d₀) * T + t) =
      (q + 1) * (d₁ * B * T) + (q + 1) * (d₀ * T + t) := by ring
  have h8 : ((u₂ * B + u₁) * B + u₀) * T + x =
      (u₂ * B + u₁) * B * T + u₀ * T + x := by ring
  omega

/-- A digit that is estimated from the top digit `d₁` of the divisor alone, and kept below the base, is at most two
high. -/
theorem trial_bounds {D W T t : Nat} (hnorm : B ≤ 2 * d₁) (hlow : d₁ * T ≤ D) (hhigh : D < (d₁ + 1) * T)
    (hW : W < B * D) (ht : t = min (B - 1) (W / T / d₁)) : W / D ≤ t ∧ t ≤ W / D + 2 := by
  have hD : 0 < D := Nat.pos_of_ne_zero fun h => by simp [h] at hW
  have hT : 0 < T := Nat.pos_of_ne_zero fun h => by simp [h] at hhigh
  have hq : W / D < B := (Nat.div_lt_iff_lt_mul hD).2 hW
  have hd₁ : 0 < d₁ := by
    have hB : B ≠ 0 := fun h => by simp [h] at hW
    omega
  constructor
  · have hmul : W / D * (d₁ * T) ≤ W := (Nat.mul_le_mul_left _ hlow).trans (Nat.div_mul_le_self W D)
    have hle : W / D ≤ W / T / d₁ := by
      rw [Nat.le_div_iff_mul_le hd₁, Nat.le_div_iff_mul_le hT, Nat.mul_assoc]
      exact hmul
    omega
  · have htB : t ≤ B := by omega
    have htd : t * d₁ * T ≤ W := by
      have hle : t * d₁ ≤ W / T := (Nat.mul_le_mul_right d₁ (by omega)).trans (Nat.div_mul_le_self (W / T) d₁)
      exact (Nat.mul_le_mul_right T hle).trans (Nat.div_mul_le_self W T)
    -- what the lower digits of the divisor add is less than twice the divisor
    have hrest : t * D ≤ W + 2 * D := by
      have h1 : t * D ≤ t * ((d₁ + 1) * T) := Nat.mul_le_mul_left t hhigh.le
      have h2 : t * ((d₁ + 1) * T) = t * d₁ * T + t * T := by ring
      have h3 : t * T ≤ 2 * d₁ * T := Nat.mul_le_mul_right T (htB.trans hnorm)
      have h4 : 2 * d₁ * T = 2 * (d₁ * T) := Nat.mul_assoc 2 d₁ T
      omega
    have hdiv : t ≤ (W + 2 * D) / D := (Nat.le_div_iff_mul_le hD).2 hrest
    rwa [Nat.add_mul_div_right W 2 hD] at hdiv

/-- The estimate, lowered by one if the lower digit of the divisor shows that it is high. -/
def refined (B d₁ d₀ u₂ u₁ u₀ : Nat) : Nat :=
  let e := estimate B d₁ u₂ u₁
  let tmp := u₂ * B + u₁ - e * d₁
  if tmp < B ∧ tmp * B + u₀ < d₀ * e then e - 1 else e

theorem test_iff (hle : u₂ ≤ d₁) {e : Nat} (he : e = estimate B d₁ u₂ u₁) :
    (u₂ * B + u₁ - e * d₁) * B + u₀ < d₀ * e ↔
      (u₂ * B + u₁) * B + u₀ < e * (d₁ * B + d₀) := by
  obtain ⟨t, ht⟩ := Nat.exists_eq_add_of_le (he ▸ estimate_mul_le hle : e * d₁ ≤ u₂ * B + u₁)
  have h1 : (u₂ * B + u₁) * B = e * (d₁ * B) + t * B := by
    rw [ht]
    ring
  have h2 : e * (d₁ * B + d₀) = e * (d₁ * B) + d₀ * e := by ring
  rw [ht, Nat.add_sub_cancel_left, ← ht, h1, h2]
  omega

theorem refined_bounds (hnorm : B ≤ 2 * d₁) (hd₀ : d₀ < B) (hu₁ : u₁ < B) (hu₀ : u₀ < B)
    (hle : u₂ ≤ d₁) {T t x : Nat} (ht : t < T) (hx : x < T) {q : Nat} (hq : q < B)
    (hfit : q * ((d₁ * B + d₀) * T + t) ≤ ((u₂ * B + u₁) * B + u₀) * T + x)
    (hmax : ((u₂ * B + u₁) * B + u₀) * T + x < (q + 1) * ((d₁ * B + d₀) * T + t)) :
    q ≤ refined B d₁ d₀ u₂ u₁ u₀ ∧ refined B d₁ d₀ u₂ u₁ u₀ ≤ q + 1 := by
  have hB : 0 < B := Nat.lt_of_le_of_lt (Nat.zero_le u₁) hu₁
  have hfit' : q * (d₁ * B + d₀) ≤ (u₂ * B + u₁) * B + u₀ := by
    have h1 : q * (d₁ * B + d₀) * T < ((u₂ * B + u₁) * B + u₀ + 1) * T := by
      have h2 : q * ((d₁ * B + d₀) * T + t) = q * (d₁ * B + d₀) * T + q * t := by ring
      rw [Nat.succ_mul]
      omega
    exact Nat.lt_succ_iff.1 (Nat.lt_of_mul_lt_mul_right h1)
  unfold refined
  extract_lets e tmp
  have htest : _ ↔ (u₂ * B + u₁) * B + u₀ < e * (d₁ * B + d₀) :=
    test_iff hle (rfl : e = estimate B d₁ u₂ u₁)
  have hge : q ≤ e := estimate_ge hu₀ hle hq hfit'
  have hle2 : e ≤ q + 2 := estimate_le hnorm hd₀ hu₁ hle ht hmax
  have helt : e < B := estimate_lt hB hu₁ hle
  split
  · next h =>
    have hgt := htest.1 h.2
    have : q ≠ e := by
      intro heq
      rw [← heq] at hgt
      omega
    omega
  · next h =>
    refine ⟨hge, ?_⟩
    by_contra hbig
    -- the test fails only for an estimate that fits, so the divisor's top digits fit once more
    have hfits : e * (d₁ * B + d₀) ≤ (u₂ * B + u₁) * B + u₀ := by
      by_contra hno
      have hlt : tmp * B + u₀ < d₀ * e := htest.2 (Nat.lt_of_not_le hno)
      have hsmall : d₀ * e < B * B := Nat.mul_lt_mul'' hd₀ helt
      have htmp : tmp * B < B * B := by omega
      exact h ⟨Nat.lt_of_mul_lt_mul_right htmp, hlt⟩
    have hmore : (q + 2) * (d₁ * B + d₀) * T ≤ ((u₂ * B + u₁) * B + u₀) * T :=
      Nat.mul_le_mul_right T ((Nat.mul_le_mul_right _ (by omega)).trans hfits)
    have htail : (q + 1) * t ≤ B * T := Nat.mul_le_mul (by omega) ht.le
    have htop : B * T ≤ (d₁ * B + d₀) * T := by
      have hd := Nat.le_mul_of_pos_left B (show 0 < d₁ by omega)
      exact Nat.mul_le_mul_right T (by omega)
    have h1 : (q + 2) * (d₁ * B + d₀) * T =
        (q + 1) * ((d₁ * B + d₀) * T) + (d₁ * B + d₀) * T := by ring
    have h2 : (q + 1) * ((d₁ * B + d₀) * T + t) =
        (q + 1) * ((d₁ * B + d₀) * T) + (q + 1) * t := by ring
    omega

end Estimate

section Correct

variable {W D M q e u c R low : Nat}

/-- The estimate times the divisor has been subtracted below `M`, with `R` left and `c` borrowed
from the top digit `u`. If that is too much, the estimate was one high, and adding the divisor back
in leaves the remainder. -/
theorem correct_of_borrow (hW : W = low + M * u) (hsub : R + e * D = low + M * c) (hR : R < M)
    (hfit : q * D ≤ W) (hle : e ≤ q + 1) (hge : q ≤ e) (hlt : u < c) {A m : Nat} (hA : A < M)
    (hm : m ≤ 1) (hback : A + M * m = R + D) :
    e = q + 1 ∧ A + q * D = W := by
  obtain ⟨j, rfl⟩ := Nat.exists_eq_add_of_lt hlt
  have hsplit : M * (u + j + 1) = M * u + M * j + M := by ring
  have hj : j = 0 ∨ M ≤ M * j := by
    rcases Nat.eq_zero_or_pos j with hj | hj
    · exact .inl hj
    · exact .inr (Nat.le_mul_of_pos_right M hj)
  rcases Nat.eq_or_lt_of_le hge with rfl | hlt'
  · omega
  · obtain rfl : e = q + 1 := by omega
    rw [Nat.succ_mul] at hsub
    refine ⟨rfl, ?_⟩
    rcases Nat.le_one_iff_eq_zero_or_eq_one.1 hm with rfl | rfl
    · omega
    · rcases hj with rfl | hj <;> omega

theorem correct_of_no_borrow (hW : W = low + M * u) (hsub : R + e * D = low + M * c)
    (hD : D < M) (hmax : W < (q + 1) * D) (hle : e ≤ q + 1) (hge : q ≤ e) (hnot : ¬u < c) : e = q ∧ R + q * D = W := by
  obtain ⟨j, rfl⟩ := Nat.exists_eq_add_of_le (Nat.le_of_not_lt hnot)
  have hsplit : M * (c + j) = M * c + M * j := by ring
  have hj : j = 0 ∨ M ≤ M * j := by
    rcases Nat.eq_zero_or_pos j with hj | hj
    · exact .inl hj
    · exact .inr (Nat.le_mul_of_pos_right M hj)
  rcases Nat.eq_or_lt_of_le hge with rfl | hlt
  · rw [Nat.succ_mul] at hmax
    refine ⟨rfl, ?_⟩
    rcases hj with rfl | hj <;> omega
  · obtain rfl : e = q + 1 := by omega
    omega

end Correct

end Z80Gcc.LongDivision
