import Z80Gcc.Lib.LongDivision
import Z80Gcc.Spec.DivRound
import Mathlib.Data.List.GetD
import Mathlib.Tactic.LinearCombination

/-! The digit loops of `div_and_round_double`. Each turn works in a word that holds two digits, and
nothing is lost there: one turn of the main loop is one step of a long division, for a divisor of
any number of digits whose top digit is at least half the base. -/

namespace Z80Gcc

open Z80Gcc.LongDivision

namespace Host

variable (h : Host)

theorem base_sq : h.base * h.base = 2 ^ h.bits := by
  have heven := h.even
  rw [base, ← Nat.pow_add]
  congr 1
  omega

theorem base_ge : 2 ^ 16 ≤ h.base := by
  have hwide := h.wide
  exact Nat.pow_le_pow_right (by decide) (by omega)

theorem base_pos : 0 < h.base := Nat.lt_of_lt_of_le (by decide) h.base_ge

theorem word_of_lt {x : Nat} (hx : x < h.base * h.base) : h.word x = x := by
  rw [word, ← h.base_sq]
  exact Nat.mod_eq_of_lt hx

theorem wordSub_of_le {x y : Nat} (hx : x < h.base * h.base) (hle : y ≤ x) :
    h.wordSub x y = x - y := by
  have hy : y < h.base * h.base := Nat.lt_of_le_of_lt hle hx
  rw [wordSub, h.word_of_lt hy, word, ← h.base_sq,
    show x + (h.base * h.base - y) = x - y + h.base * h.base by omega, Nat.add_mod_right]
  exact Nat.mod_eq_of_lt (by omega)

theorem lowpart_lt (x : Nat) : h.lowpart x < h.base := Nat.mod_lt _ h.base_pos

/-- A product of two digits and two more digits still fit in a word. -/
theorem digit_mul_le {x y : Nat} (hx : x < h.base) (hy : y < h.base) :
    x * y + 2 * (h.base - 1) < h.base * h.base := by
  obtain ⟨k, hk⟩ := Nat.exists_eq_add_of_lt h.base_pos
  have h1 : x * y ≤ k * k := Nat.mul_le_mul (by omega) (by omega)
  have h2 : h.base * h.base = k * k + 2 * k + 1 := by
    rw [hk]
    ring
  omega

theorem two_digits_lt {x y : Nat} (hx : x < h.base) (hy : y < h.base) :
    x * h.base + y < h.base * h.base := by
  have := Nat.mul_le_mul_right h.base (Nat.succ_le_of_lt hx)
  rw [Nat.succ_mul] at this
  omega

theorem digit_of_split (x : Nat) : h.lowpart x + h.base * h.highpart x = x :=
  Nat.mod_add_div x h.base

theorem highpart_lt {x : Nat} (hx : x < h.base * h.base) : h.highpart x < h.base :=
  Nat.div_lt_of_lt_mul hx

theorem shortDigit_step {d : Nat} (hpos : 0 < d) (hd : d < h.base) :
    DivStep h.base d (fun _ => True) (fun c => c) (h.shortDigit d) := by
  have hval : ∀ x c, x < h.base → c < d →
      h.word (x + h.word (c * h.base)) = c * h.base + x := by
    intro x c hx hc
    have hlt := h.two_digits_lt (hc.trans hd) hx
    rw [h.word_of_lt (Nat.lt_of_le_of_lt (Nat.le_add_right _ x) hlt), Nat.add_comm,
      h.word_of_lt hlt]
  refine ⟨fun _ _ _ _ _ => trivial, ?_, ?_⟩
  · intro x c hx _ hc
    exact Nat.mod_lt _ hpos
  · intro x c hx _ hc
    simp only [shortDigit, hval x c hx hc]
    exact Nat.div_add_mod' _ d

theorem scaleDigits_eq {scale : Nat} (hs : scale < h.base) {ds : List Nat}
    (hds : ∀ x ∈ ds, x < h.base) {carry : Nat} (hc : carry < h.base) :
    (∀ x ∈ (h.scaleDigits scale ds carry).1, x < h.base) ∧
      (h.scaleDigits scale ds carry).2 < h.base ∧
      Nat.ofDigits h.base (h.scaleDigits scale ds carry).1 +
          h.base ^ ds.length * (h.scaleDigits scale ds carry).2 =
        Nat.ofDigits h.base ds * scale + carry := by
  induction ds generalizing carry with
  | nil => simpa [scaleDigits] using hc
  | cons x ds ih =>
    have hx : x < h.base := hds x List.mem_cons_self
    have hfit := h.digit_mul_le hx hs
    have hw : h.word (h.word (x * scale) + carry) = x * scale + carry := by
      rw [h.word_of_lt (x := x * scale) (by omega), h.word_of_lt (by omega)]
    obtain ⟨hlt, hlt', heq⟩ := ih (fun y hy => hds y (List.mem_cons_of_mem x hy))
      (h.highpart_lt (x := x * scale + carry) (by omega))
    simp only [scaleDigits, hw, List.mem_cons, forall_eq_or_imp, Nat.ofDigits_cons,
      List.length_cons]
    refine ⟨⟨h.lowpart_lt _, hlt⟩, hlt', ?_⟩
    have hsplit := h.digit_of_split (x * scale + carry)
    calc _ = h.lowpart (x * scale + carry) +
          h.base * (Nat.ofDigits h.base (h.scaleDigits scale ds _).1 +
            h.base ^ ds.length * (h.scaleDigits scale ds _).2) := by ring
      _ = h.lowpart (x * scale + carry) + h.base * h.highpart (x * scale + carry) +
          h.base * (Nat.ofDigits h.base ds * scale) := by
          rw [heq]
          ring
      _ = _ := by
          rw [hsplit]
          ring

theorem scaleDigits_length (scale : Nat) (ds : List Nat) (carry : Nat) :
    (h.scaleDigits scale ds carry).1.length = ds.length := by
  induction ds generalizing carry with
  | nil => rfl
  | cons x ds ih => simp [scaleDigits, ih]

theorem mulSubDigit_eq {e num den carry : Nat} (he : e < h.base) (hn : num < h.base)
    (hd : den < h.base) (hc : carry ≤ h.base) :
    (h.mulSubDigit e num den carry).1 < h.base ∧ (h.mulSubDigit e num den carry).2 ≤ h.base ∧
      (h.mulSubDigit e num den carry).1 + e * den + carry =
        num + h.base * (h.mulSubDigit e num den carry).2 := by
  have hge := h.base_ge
  have hfit := h.digit_mul_le he hd
  have hw : h.word (h.word (e * den) + carry) = e * den + carry := by
    rw [h.word_of_lt (x := e * den) (by omega), h.word_of_lt (by omega)]
  have hlow := h.lowpart_lt (e * den + carry)
  have hhigh := h.highpart_lt (x := e * den + carry) (by omega)
  have hsplit := h.digit_of_split (e * den + carry)
  have hsq : h.base < h.base * h.base := by nlinarith
  simp only [mulSubDigit, hw]
  refine ⟨h.lowpart_lt _, ?_, ?_⟩
  · split <;> rw [h.word_of_lt (by omega)] <;> omega
  by_cases hle : h.lowpart (e * den + carry) ≤ num
  · have hsub : h.wordSub num (h.lowpart (e * den + carry)) =
        num - h.lowpart (e * den + carry) := h.wordSub_of_le (by omega) hle
    have hlt : num - h.lowpart (e * den + carry) < h.base := by omega
    have h0 : h.highpart (num - h.lowpart (e * den + carry)) = 0 := Nat.div_eq_of_lt hlt
    have h1 : h.lowpart (num - h.lowpart (e * den + carry)) =
        num - h.lowpart (e * den + carry) := Nat.mod_eq_of_lt hlt
    rw [hsub, h0, h1, if_neg (by simp), Nat.add_zero, h.word_of_lt (by omega)]
    omega
  · -- the digit borrows: the word wraps to just under `base * base`
    obtain ⟨k, hk⟩ := Nat.exists_eq_add_of_lt (Nat.lt_of_not_le hle)
    have hsub : h.wordSub num (h.lowpart (e * den + carry)) =
        (h.base - 1 - k) + h.base * (h.base - 1) := by
      rw [wordSub, h.word_of_lt (by omega : h.lowpart (e * den + carry) < h.base * h.base), hk,
        ← h.base_sq, Nat.mul_sub_one, h.word_of_lt (by omega)]
      omega
    have hlt : h.base - 1 - k < h.base := by omega
    have h0 : h.highpart (h.base - 1 - k + h.base * (h.base - 1)) = h.base - 1 := by
      rw [highpart, Nat.add_mul_div_left _ _ h.base_pos, Nat.div_eq_of_lt hlt, Nat.zero_add]
    have h1 : h.lowpart (h.base - 1 - k + h.base * (h.base - 1)) = h.base - 1 - k := by
      rw [lowpart, Nat.add_mul_mod_self_left, Nat.mod_eq_of_lt hlt]
    rw [hsub, h0, h1, if_pos (by omega), h.word_of_lt (by omega), Nat.mul_add, Nat.mul_one]
    omega

theorem addBackDigit_eq {num den carry : Nat} (hn : num < h.base) (hd : den < h.base)
    (hc : carry ≤ 1) :
    (h.addBackDigit num den carry).1 < h.base ∧ (h.addBackDigit num den carry).2 ≤ 1 ∧
      (h.addBackDigit num den carry).1 + h.base * (h.addBackDigit num den carry).2 =
        num + den + carry := by
  have hge := h.base_ge
  have hsq : 2 * h.base < h.base * h.base := by nlinarith
  have hw : h.word (h.word (num + den) + carry) = num + den + carry := by
    rw [h.word_of_lt (x := num + den) (by omega), h.word_of_lt (by omega)]
  simp only [addBackDigit, hw]
  refine ⟨h.lowpart_lt _, ?_, h.digit_of_split _⟩
  exact Nat.lt_succ_iff.1 (Nat.div_lt_of_lt_mul (by omega))

section Estimate

variable {d₁ d₀ u₂ u₁ u₀ : Nat}

theorem refined_eq (hd₀ : d₀ < h.base) (hu₀ : u₀ < h.base) (hu₂ : u₂ < h.base) (hu₁ : u₁ < h.base)
    (hle : u₂ ≤ d₁) :
    (let work := h.word (h.word (u₂ * h.base) + u₁)
     let quoEst := if u₂ ≠ d₁ then work / d₁ else h.base - 1
     let tmp := h.wordSub work (h.word (quoEst * d₁))
     if tmp < h.base ∧ h.word (d₀ * quoEst) > h.word (h.word (tmp * h.base) + u₀) then
       h.wordSub quoEst 1
     else quoEst) = refined h.base d₁ d₀ u₂ u₁ u₀ := by
  have hwork := h.two_digits_lt hu₂ hu₁
  have hw : h.word (h.word (u₂ * h.base) + u₁) = u₂ * h.base + u₁ := by
    rw [h.word_of_lt (x := u₂ * h.base) (by omega), h.word_of_lt hwork]
  have he : (if u₂ ≠ d₁ then (u₂ * h.base + u₁) / d₁ else h.base - 1) =
      estimate h.base d₁ u₂ u₁ := by
    rw [estimate, ite_not]
  have hfit : estimate h.base d₁ u₂ u₁ * d₁ ≤ u₂ * h.base + u₁ := estimate_mul_le hle
  have helt := estimate_lt h.base_pos hu₁ hle
  have hprod := h.digit_mul_le hd₀ helt
  simp only [hw, he, refined]
  rw [h.word_of_lt (x := estimate h.base d₁ u₂ u₁ * d₁) (by omega), h.wordSub_of_le hwork hfit,
    h.word_of_lt (x := d₀ * estimate h.base d₁ u₂ u₁) (by omega)]
  by_cases htmp : u₂ * h.base + u₁ - estimate h.base d₁ u₂ u₁ * d₁ < h.base
  · have hlt := h.two_digits_lt htmp hu₀
    rw [h.word_of_lt (x := (u₂ * h.base + u₁ - estimate h.base d₁ u₂ u₁ * d₁) * h.base)
      (by omega), h.word_of_lt hlt]
    split
    · next ht =>
      have hpos : 1 ≤ estimate h.base d₁ u₂ u₁ := by
        by_contra h0
        rw [Nat.lt_one_iff.1 (Nat.lt_of_not_le h0)] at ht
        omega
      exact h.wordSub_of_le (by omega) hpos
    · rfl
  · rw [if_neg (fun hc => htmp hc.1), if_neg (fun hc => htmp hc.1)]

end Estimate

section Digits

variable {n : Nat} {den : List Nat}

/-- The subtracting loop over all digits of the divisor, up to what it borrows. -/
theorem mulSubDigits_eq {e : Nat} (he : e < h.base) {num : List Nat}
    (hnum : ∀ x ∈ num, x < h.base) (hden : ∀ d ∈ den, d < h.base)
    (hlen : den.length ≤ num.length) {carry : Nat} (hc : carry ≤ h.base) :
    (h.mulSubDigits e num den carry).1.length = den.length ∧
      (∀ x ∈ (h.mulSubDigits e num den carry).1, x < h.base) ∧
      Nat.ofDigits h.base (h.mulSubDigits e num den carry).1 + e * Nat.ofDigits h.base den + carry =
        Nat.ofDigits h.base (num.take den.length) +
          h.base ^ den.length * (h.mulSubDigits e num den carry).2 := by
  induction den generalizing num carry with
  | nil => simp [mulSubDigits]
  | cons d dens ih =>
    rcases num with _ | ⟨x, nums⟩
    · simp at hlen
    have hx := hnum x List.mem_cons_self
    have hd := hden d List.mem_cons_self
    obtain ⟨hlow, hcarry, heq⟩ := h.mulSubDigit_eq he hx hd hc
    obtain ⟨hlen', hlt', heq'⟩ := ih (fun y hy => hnum y (List.mem_cons_of_mem x hy))
      (fun y hy => hden y (List.mem_cons_of_mem d hy)) (Nat.le_of_succ_le_succ hlen) hcarry
    simp only [mulSubDigits, List.length_cons, List.mem_cons, forall_eq_or_imp, Nat.ofDigits_cons,
      List.take_succ_cons, pow_succ]
    refine ⟨by rw [hlen'], ⟨hlow, hlt'⟩, ?_⟩
    linear_combination heq + h.base * heq'

/-- The loop that adds the divisor back in, up to what it carries. -/
theorem addBackDigits_eq {num : List Nat} (hnum : ∀ x ∈ num, x < h.base)
    (hden : ∀ d ∈ den, d < h.base) (hlen : num.length = den.length) {carry : Nat}
    (hc : carry ≤ 1) :
    (h.addBackDigits num den carry).1.length = den.length ∧
      (∀ x ∈ (h.addBackDigits num den carry).1, x < h.base) ∧
      (h.addBackDigits num den carry).2 ≤ 1 ∧
      Nat.ofDigits h.base (h.addBackDigits num den carry).1 +
          h.base ^ den.length * (h.addBackDigits num den carry).2 =
        Nat.ofDigits h.base num + Nat.ofDigits h.base den + carry := by
  induction den generalizing num carry with
  | nil =>
    obtain rfl := List.length_eq_zero_iff.1 hlen
    simpa [addBackDigits] using hc
  | cons d dens ih =>
    rcases num with _ | ⟨x, nums⟩
    · simp at hlen
    have hx := hnum x List.mem_cons_self
    have hd := hden d List.mem_cons_self
    obtain ⟨hlow, hcarry, heq⟩ := h.addBackDigit_eq hx hd hc
    obtain ⟨hlen', hlt', hc', heq'⟩ := ih (fun y hy => hnum y (List.mem_cons_of_mem x hy))
      (fun y hy => hden y (List.mem_cons_of_mem d hy)) (Nat.succ.inj hlen) hcarry
    simp only [addBackDigits, List.length_cons, List.mem_cons, forall_eq_or_imp, Nat.ofDigits_cons,
      pow_succ]
    refine ⟨by rw [hlen'], ⟨hlow, hlt'⟩, hc', ?_⟩
    linear_combination heq + h.base * heq'

end Digits

section QuotientDigits

variable {n : Nat}

theorem exists_digits_of_length {xs : List Nat} (hlen : xs.length = 4) :
    ∃ a b c d, xs = [a, b, c, d] := by
  match xs, hlen with
  | [a, b, c, d], _ => exact ⟨a, b, c, d, rfl⟩

theorem exists_top_two {xs : List Nat} (hlen : xs.length = n + 2) :
    ∃ ls a b, xs = ls ++ [a, b] ∧ ls.length = n := by
  obtain ⟨a, b, hab⟩ := List.length_eq_two.1
    (show (xs.drop n).length = 2 by rw [List.length_drop, hlen]; omega)
  refine ⟨xs.take n, a, b, ?_, by rw [List.length_take, hlen]; omega⟩
  rw [← hab, List.take_append_drop]

theorem exists_top_three {xs : List Nat} (hlen : xs.length = n + 3) :
    ∃ ls a b c, xs = ls ++ [a, b, c] ∧ ls.length = n := by
  obtain ⟨a, b, c, habc⟩ := List.length_eq_three.1
    (show (xs.drop n).length = 3 by rw [List.length_drop, hlen]; omega)
  refine ⟨xs.take n, a, b, c, ?_, by rw [List.length_take, hlen]; omega⟩
  rw [← habc, List.take_append_drop]

/-- One turn of the main loop with the digits that the estimate sees written out. -/
theorem quotientDigits_eq {dl ul : List Nat} (hdl : dl.length = n) (hul : ul.length = n)
    {d₁ d₀ u₂ u₁ u₀ : Nat} (hd₀ : d₀ < h.base) (hu₀ : u₀ < h.base) (hu₂ : u₂ < h.base)
    (hu₁ : u₁ < h.base) (hle : u₂ ≤ d₁) {x : Nat} {s : List Nat}
    (hwin : x :: s = ul ++ [u₀, u₁, u₂]) :
    h.quotientDigits (dl ++ [d₀, d₁]) x s =
      let e := refined h.base d₁ d₀ u₂ u₁ u₀
      let r := h.mulSubDigits e (ul ++ [u₀, u₁, u₂]) (dl ++ [d₀, d₁]) 0
      if u₂ < r.2 then ((h.addBackDigits r.1 (dl ++ [d₀, d₁]) 0).1, h.wordSub e 1) else (r.1, e) := by
  have href := h.refined_eq hd₀ hu₀ hu₂ hu₁ hle
  simp only [] at href
  have hlen : (dl ++ [d₀, d₁]).length = n + 2 := by simp [hdl]
  have h2 : (ul ++ [u₀, u₁, u₂]).getD (n + 2) 0 = u₂ := by
    simp [hul]
  have h1 : (ul ++ [u₀, u₁, u₂]).getD (n + 2 - 1) 0 = u₁ := by
    simp [hul]
  have h0 : (ul ++ [u₀, u₁, u₂]).getD (n + 2 - 2) 0 = u₀ := by
    simp [hul]
  have hd1 : (dl ++ [d₀, d₁]).getD (n + 2 - 1) 0 = d₁ := by
    simp [hdl]
  have hd0 : (dl ++ [d₀, d₁]).getD (n + 2 - 2) 0 = d₀ := by
    simp [hdl]
  simp only [quotientDigits, hwin, hlen, h2, h1, h0, hd1, hd0, href]

/-- One turn of the main loop takes in a digit and gives a digit of the quotient. -/
theorem quotientDigits_step {den : List Nat} (hlen : den.length = n + 2)
    (hden : ∀ d ∈ den, d < h.base) (hnorm : h.base ≤ 2 * den.getD (n + 1) 0) :
    DivStep h.base (Nat.ofDigits h.base den)
      (fun s => s.length = den.length ∧ ∀ x ∈ s, x < h.base) (Nat.ofDigits h.base)
      (h.quotientDigits den) := by
  suffices hall : ∀ x s, x < h.base → (s.length = den.length ∧ ∀ y ∈ s, y < h.base) →
      Nat.ofDigits h.base s < Nat.ofDigits h.base den →
      ((h.quotientDigits den x s).1.length = den.length ∧
        ∀ y ∈ (h.quotientDigits den x s).1, y < h.base) ∧
      Nat.ofDigits h.base (h.quotientDigits den x s).1 < Nat.ofDigits h.base den ∧
      (h.quotientDigits den x s).2 * Nat.ofDigits h.base den +
          Nat.ofDigits h.base (h.quotientDigits den x s).1 =
        Nat.ofDigits h.base s * h.base + x from
    ⟨fun x s hx hg hv => (hall x s hx hg hv).1, fun x s hx hg hv => (hall x s hx hg hv).2.1,
      fun x s hx hg hv => (hall x s hx hg hv).2.2⟩
  intro x s hx hs hv
  have hB : 1 < h.base := Nat.lt_of_lt_of_le (by decide) h.base_ge
  obtain ⟨dl, d₀, d₁, rfl, hdl⟩ := exists_top_two hlen
  obtain ⟨ul, u₀, u₁, u₂, hwin, hul⟩ :=
    exists_top_three (show (x :: s).length = n + 3 by rw [List.length_cons, hs.1, hlen])
  have hdigit : ∀ y ∈ ul ++ [u₀, u₁, u₂], y < h.base := by
    intro y hy
    rw [← hwin] at hy
    rcases List.mem_cons.1 hy with rfl | hy
    · exact hx
    · exact hs.2 y hy
  have hd₀ : d₀ < h.base := hden d₀ (by simp)
  have hd₁ : d₁ < h.base := hden d₁ (by simp)
  have hu₀ : u₀ < h.base := hdigit u₀ (by simp)
  have hu₁ : u₁ < h.base := hdigit u₁ (by simp)
  have hu₂ : u₂ < h.base := hdigit u₂ (by simp)
  have hnorm' : h.base ≤ 2 * d₁ := by
    rwa [List.getD_append_right _ _ _ _ (by omega), hdl, show n + 1 - n = 1 by omega] at hnorm
  -- the parts of the divisor and of the window below the digits that the estimate sees
  have ht : Nat.ofDigits h.base dl < h.base ^ n :=
    hdl ▸ Nat.ofDigits_lt_base_pow_length hB fun y hy => hden y (List.mem_append_left _ hy)
  have hul' : Nat.ofDigits h.base ul < h.base ^ n :=
    hul ▸ Nat.ofDigits_lt_base_pow_length hB fun y hy => hdigit y (List.mem_append_left _ hy)
  have hD : Nat.ofDigits h.base (dl ++ [d₀, d₁]) =
      (d₁ * h.base + d₀) * h.base ^ n + Nat.ofDigits h.base dl := by
    rw [Nat.ofDigits_append, hdl]
    simp only [Nat.ofDigits_cons, Nat.ofDigits_nil]
    ring
  have hW : Nat.ofDigits h.base s * h.base + x =
      ((u₂ * h.base + u₁) * h.base + u₀) * h.base ^ n + Nat.ofDigits h.base ul := by
    have := congrArg (Nat.ofDigits h.base) hwin
    rw [Nat.ofDigits_cons, Nat.ofDigits_append, hul] at this
    simp only [Nat.ofDigits_cons, Nat.ofDigits_nil] at this
    linear_combination this
  have hDlt : Nat.ofDigits h.base (dl ++ [d₀, d₁]) < h.base ^ (n + 2) :=
    hlen ▸ Nat.ofDigits_lt_base_pow_length hB hden
  have hWlt : Nat.ofDigits h.base s * h.base + x <
      h.base * Nat.ofDigits h.base (dl ++ [d₀, d₁]) := by
    have := Nat.mul_le_mul_left h.base (Nat.succ_le_of_lt hv)
    rw [Nat.mul_succ] at this
    rw [Nat.mul_comm]
    omega
  have hle : u₂ ≤ d₁ := by
    rw [hW, hD] at hWlt
    exact top_le hd₀ ht hWlt
  rw [h.quotientDigits_eq hdl hul hd₀ hu₀ hu₂ hu₁ hle hwin]
  generalize hDdef : Nat.ofDigits h.base (dl ++ [d₀, d₁]) = D at *
  generalize hWdef : Nat.ofDigits h.base s * h.base + x = W at *
  -- the true digit of this turn
  obtain ⟨q, hq⟩ : ∃ q, q = W / D := ⟨_, rfl⟩
  have hDpos : 0 < D := by omega
  have hfit : q * D ≤ W := hq ▸ Nat.div_mul_le_self _ _
  have hmax : W < (q + 1) * D := by
    rw [Nat.mul_comm, hq]
    exact Nat.lt_mul_div_succ _ hDpos
  have hqlt : q < h.base := by
    rw [hq]
    exact Nat.div_lt_of_lt_mul (by rwa [Nat.mul_comm])
  obtain ⟨hge, hle'⟩ := refined_bounds hnorm' hd₀ hu₁ hu₀ hle ht hul' hqlt
    (by rw [← hD, ← hW]; exact hfit) (by rw [← hD, ← hW]; exact hmax)
  have helt : refined h.base d₁ d₀ u₂ u₁ u₀ < h.base := by
    unfold refined
    extract_lets e tmp
    have := estimate_lt h.base_pos hu₁ hle
    split <;> omega
  generalize refined h.base d₁ d₀ u₂ u₁ u₀ = e at hge hle' helt
  obtain ⟨hrlen, hrlt, hsub⟩ := h.mulSubDigits_eq helt hdigit hden
    (by simp [hdl, hul]) (Nat.zero_le h.base)
  have htake : (ul ++ [u₀, u₁, u₂]).take (dl ++ [d₀, d₁]).length = ul ++ [u₀, u₁] := by
    rw [hlen, ← hul, List.take_length_add_append]
    rfl
  have hpow : h.base ^ (dl ++ [d₀, d₁]).length = h.base ^ (n + 2) := by rw [hlen]
  have hW' : W = Nat.ofDigits h.base (ul ++ [u₀, u₁]) + h.base ^ (n + 2) * u₂ := by
    rw [hW, Nat.ofDigits_append, hul]
    simp only [Nat.ofDigits_cons, Nat.ofDigits_nil]
    ring
  rw [htake, hpow, hDdef, Nat.add_zero] at hsub
  have hrlt' := hlen ▸ hrlen ▸ Nat.ofDigits_lt_base_pow_length hB hrlt
  dsimp only
  split
  · next hneg =>
    obtain ⟨hmlen, hmlt, hm, hback⟩ := h.addBackDigits_eq hrlt hden hrlen (Nat.zero_le 1)
    rw [hpow, hDdef, Nat.add_zero] at hback
    have hmlt' := hlen ▸ hmlen ▸ Nat.ofDigits_lt_base_pow_length hB hmlt
    obtain ⟨rfl, hrem⟩ :=
      correct_of_borrow hW' hsub hrlt' hfit hle' hge hneg hmlt' hm hback
    have hsq := Nat.le_mul_self h.base
    rw [h.wordSub_of_le (by omega) (by omega), Nat.add_sub_cancel]
    rw [Nat.succ_mul] at hmax
    dsimp only
    exact ⟨⟨hmlen, hmlt⟩, by omega, by omega⟩
  · next hpos =>
    obtain ⟨rfl, hrem⟩ := correct_of_no_borrow hW' hsub hDlt hmax hle' hge hpos
    rw [Nat.succ_mul] at hmax
    dsimp only
    exact ⟨⟨hrlen, hrlt⟩, by omega, by omega⟩

end QuotientDigits

end Host

namespace DoubleInt

variable {h : Host}

theorem ofDigits_digits (x : DoubleInt h) : Nat.ofDigits h.base x.digits = x.toNat := by
  have h0 := h.digit_of_split x.low.toNat
  have h1 := h.digit_of_split x.high.toNat
  simp only [digits, Nat.ofDigits_cons, Nat.ofDigits_nil, toNat, ← h.base_sq]
  linear_combination h0 + h.base * h.base * h1

theorem digits_lt (x : DoubleInt h) : ∀ d ∈ x.digits, d < h.base := by
  have hlo : x.low.toNat < h.base * h.base := h.base_sq ▸ x.low.isLt
  have hhi : x.high.toNat < h.base * h.base := h.base_sq ▸ x.high.isLt
  simp only [digits, List.mem_cons, List.not_mem_nil, or_false, forall_eq_or_imp, forall_eq]
  exact ⟨h.lowpart_lt _, h.highpart_lt hlo, h.lowpart_lt _, h.highpart_lt hhi⟩

theorem toNat_pack {x y : Nat} (hx : x < h.base) (hy : y < h.base) :
    (BitVec.ofNat h.bits (x ||| y * h.base)).toNat = y * h.base + x := by
  have hor : x ||| y * h.base = y * h.base + x := by
    rw [Nat.or_comm, Nat.mul_comm, Host.base, Nat.two_pow_add_eq_or_of_lt hx]
  rw [hor, BitVec.toNat_ofNat, ← h.base_sq]
  exact Nat.mod_eq_of_lt (h.two_digits_lt hy hx)

theorem toNat_ofDigits {ds : List Nat} (hlen : ds.length = 4) (hds : ∀ d ∈ ds, d < h.base) :
    (ofDigits ds : DoubleInt h).toNat = Nat.ofDigits h.base ds := by
  obtain ⟨a, b, c, d, rfl⟩ := Host.exists_digits_of_length hlen
  simp only [List.mem_cons, List.not_mem_nil, or_false, forall_eq_or_imp, forall_eq] at hds
  obtain ⟨ha, hb, hc, hd⟩ := hds
  have hlow := toNat_pack ha hb
  have hhigh := toNat_pack hc hd
  simp only [toNat, ofDigits, List.getD_cons_zero, List.getD_cons_succ, hlow, hhigh,
    Nat.ofDigits_cons, Nat.ofDigits_nil, ← h.base_sq]
  ring

theorem toNat_ofDigits_mod {ds : List Nat} (hlen : 4 ≤ ds.length) (hds : ∀ d ∈ ds, d < h.base) :
    (ofDigits ds : DoubleInt h).toNat = Nat.ofDigits h.base ds % h.base ^ 4 := by
  have hB : 1 < h.base := Nat.lt_of_lt_of_le (by decide) h.base_ge
  have htake : (ds.take 4).length = 4 := by
    rw [List.length_take]
    omega
  have hlt : ∀ d ∈ ds.take 4, d < h.base := fun d hd => hds d (List.mem_of_mem_take hd)
  have heq : (ofDigits ds : DoubleInt h) = ofDigits (ds.take 4) := by
    simp [ofDigits]
  have hsplit := congrArg (Nat.ofDigits h.base) (List.take_append_drop 4 ds)
  rw [Nat.ofDigits_append, htake] at hsplit
  have hsmall := Nat.ofDigits_lt_base_pow_length hB hlt
  rw [htake] at hsmall
  rw [heq, toNat_ofDigits htake hlt, ← hsplit, Nat.add_mul_mod_self_left, Nat.mod_eq_of_lt hsmall]

theorem base_toNat : (BitVec.ofNat h.bits h.base).toNat = h.base := by
  have hge := h.base_ge
  rw [BitVec.toNat_ofNat, ← h.base_sq]
  exact Nat.mod_eq_of_lt (by nlinarith)

/-- Below half the range the signed test for a small divisor is the unsigned one. -/
theorem slt_base_iff {lden : BitVec h.bits} (hlt : 2 * lden.toNat < 2 ^ h.bits) :
    lden.slt (BitVec.ofNat h.bits h.base) = true ↔ lden.toNat < h.base := by
  have hge := h.base_ge
  have hbase := base_toNat (h := h)
  have hsmall : 2 * h.base < 2 ^ h.bits := by
    rw [← h.base_sq]
    nlinarith
  rw [BitVec.slt_iff_toInt_lt, BitVec.toInt_eq_toNat_cond, BitVec.toInt_eq_toNat_cond, hbase,
    if_pos hlt, if_pos hsmall]
  exact Int.ofNat_lt

end DoubleInt

end Z80Gcc
