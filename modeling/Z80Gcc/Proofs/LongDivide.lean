import Z80Gcc.Proofs.QuotientDigits

/-! The long division of `div_and_round_double`, for a divisor of two to four digits: after scaling
the top digit of the divisor is at least half the base, and the main loop leaves the quotient. -/

namespace Z80Gcc

open Z80Gcc.LongDivision

namespace Host

variable (h : Host)

section Scale

/-- The scaling loop as it is entered: not at all for a scale of one. -/
theorem scaled_eq {scale : Nat} (hpos : 0 < scale) (hs : scale < h.base) {ds : List Nat}
    (hds : ∀ x ∈ ds, x < h.base) :
    ∃ r : List Nat × Nat, (if scale > 1 then h.scaleDigits scale ds 0 else (ds, 0)) = r ∧
      r.1.length = ds.length ∧ (∀ x ∈ r.1, x < h.base) ∧ r.2 < h.base ∧
      Nat.ofDigits h.base r.1 + h.base ^ ds.length * r.2 = Nat.ofDigits h.base ds * scale := by
  refine ⟨_, rfl, ?_⟩
  split
  · obtain ⟨hlt, hc, heq⟩ := h.scaleDigits_eq hs hds h.base_pos
    exact ⟨h.scaleDigits_length scale ds 0, hlt, hc, heq⟩
  · next hle =>
    obtain rfl : scale = 1 := by omega
    exact ⟨rfl, hds, h.base_pos, by simp⟩

theorem base_even : h.base % 2 = 0 := by
  have hwide := h.wide
  obtain ⟨k, hk⟩ : ∃ k, h.bits / 2 = k + 1 := ⟨h.bits / 2 - 1, by omega⟩
  rw [base, hk, Nat.pow_succ]
  exact Nat.mul_mod_left _ 2

end Scale

section HiSig

/-- The highest digit that is not zero, by the size of the number. -/
theorem hiSig_eq {ds : List Nat} (hds : ∀ d ∈ ds, d < h.base) {k : Nat}
    (hle : h.base ^ k ≤ Nat.ofDigits h.base ds) (hlt : Nat.ofDigits h.base ds < h.base ^ (k + 1)) :
    hiSig ds = k ∧ k < ds.length ∧
      Nat.ofDigits h.base (ds.take (k + 1)) = Nat.ofDigits h.base ds ∧
      ds.getD k 0 * h.base ^ k ≤ Nat.ofDigits h.base ds ∧
      Nat.ofDigits h.base ds < (ds.getD k 0 + 1) * h.base ^ k := by
  have hB : 1 < h.base := Nat.lt_of_lt_of_le (by decide) h.base_ge
  induction ds generalizing k with
  | nil =>
    have := Nat.pow_pos (n := k) h.base_pos
    simp only [Nat.ofDigits_nil] at hle
    omega
  | cons d ds ih =>
    have hd := hds d List.mem_cons_self
    have hds' := fun y hy => hds y (List.mem_cons_of_mem d hy)
    rw [Nat.ofDigits_cons] at hle hlt
    by_cases hz : ∀ y ∈ ds, y = 0
    · have hv : Nat.ofDigits h.base ds = 0 := by
        rw [List.eq_replicate_of_mem hz]
        exact Nat.ofDigits_replicate_zero
      rw [hv, Nat.mul_zero, Nat.add_zero] at hle hlt
      obtain rfl : k = 0 := by
        by_contra hk
        have := Nat.le_self_pow hk h.base
        omega
      have hcons : Nat.ofDigits h.base (d :: ds) = d := by
        rw [Nat.ofDigits_cons, hv, Nat.mul_zero, Nat.add_zero]
      refine ⟨by rw [hiSig, if_pos hz], Nat.succ_pos _, ?_, ?_, ?_⟩ <;> simp [hcons]
    · have hv : Nat.ofDigits h.base ds ≠ 0 := by
        intro hv
        have hsum := Nat.sum_le_ofDigits ds h.base_pos
        rw [hv, Nat.le_zero, List.sum_eq_zero_iff_forall_eq_nat] at hsum
        exact hz hsum
      obtain ⟨k, rfl⟩ : ∃ j, k = j + 1 := by
        refine ⟨k - 1, ?_⟩
        by_contra hk
        obtain rfl : k = 0 := by omega
        have := Nat.le_mul_of_pos_right h.base (Nat.pos_of_ne_zero hv)
        rw [Nat.zero_add, pow_one] at hlt
        omega
      have hpow : h.base ^ (k + 1) = h.base * h.base ^ k := by ring
      have hpow' : h.base ^ (k + 1 + 1) = h.base * h.base ^ (k + 1) := by ring
      have hle' : h.base ^ k ≤ Nat.ofDigits h.base ds := by
        have : h.base * h.base ^ k < h.base * (Nat.ofDigits h.base ds + 1) := by
          rw [Nat.mul_succ]
          omega
        exact Nat.lt_succ_iff.1 (Nat.lt_of_mul_lt_mul_left this)
      have hlt' : Nat.ofDigits h.base ds < h.base ^ (k + 1) := by
        have : h.base * Nat.ofDigits h.base ds < h.base * h.base ^ (k + 1) := by omega
        exact Nat.lt_of_mul_lt_mul_left this
      obtain ⟨h1, h2, h3, h4, h5⟩ := ih hds' hle' hlt'
      refine ⟨by rw [hiSig, if_neg hz, h1], Nat.succ_lt_succ h2, ?_, ?_, ?_⟩
      · rw [List.take_succ_cons, Nat.ofDigits_cons, Nat.ofDigits_cons, h3]
      · rw [List.getD_cons_succ, Nat.ofDigits_cons]
        have := Nat.mul_le_mul_left h.base h4
        rw [hpow]
        calc _ = h.base * (ds.getD k 0 * h.base ^ k) := by ring
          _ ≤ _ := by omega
      · rw [List.getD_cons_succ, Nat.ofDigits_cons, hpow]
        have := Nat.mul_le_mul_left h.base (Nat.succ_le_of_lt h5)
        calc d + h.base * Nat.ofDigits h.base ds < h.base * (Nat.ofDigits h.base ds + 1) := by
              rw [Nat.mul_succ]
              omega
          _ ≤ h.base * ((ds.getD k 0 + 1) * h.base ^ k) := this
          _ = _ := by ring

end HiSig

section Divide

variable {num den : List Nat} {k : Nat}

/-- The top digit is a digit and not zero, so the scale is a digit and not zero. -/
theorem scale_bounds (hden : ∀ d ∈ den, d < h.base) (hle : h.base ^ k ≤ Nat.ofDigits h.base den)
    (hlt : Nat.ofDigits h.base den < h.base ^ (k + 1)) :
    0 < den.getD k 0 ∧ den.getD k 0 < h.base ∧ 0 < h.base / (den.getD k 0 + 1) ∧
      h.base / (den.getD k 0 + 1) < h.base := by
  obtain ⟨-, hk, -, -, hmax⟩ := h.hiSig_eq hden hle hlt
  have htop : den.getD k 0 < h.base := by
    rw [List.getD_eq_getElem _ _ hk]
    exact hden _ (List.getElem_mem hk)
  have hpos : 0 < den.getD k 0 := by
    by_contra h0
    rw [Nat.eq_zero_of_not_pos h0, Nat.zero_add, Nat.one_mul] at hmax
    omega
  exact ⟨hpos, htop, Nat.div_pos htop (Nat.succ_pos _), Nat.div_lt_self h.base_pos (by omega)⟩

/-- The scaled divisor keeps its number of digits, and its top digit is at least half the base. -/
theorem scaled_divisor_eq {scale : Nat} (hscale : scale = h.base / (den.getD k 0 + 1))
    (hlen : den.length = 4) (hden : ∀ d ∈ den, d < h.base)
    (hle : h.base ^ k ≤ Nat.ofDigits h.base den) (hlt : Nat.ofDigits h.base den < h.base ^ (k + 1)) :
    ∃ den', (if scale > 1 then (h.scaleDigits scale den 0).1 else den) = den' ∧
      den'.length = 4 ∧ (∀ d ∈ den', d < h.base) ∧ hiSig den' = k ∧
      Nat.ofDigits h.base (den'.take (k + 1)) = Nat.ofDigits h.base den * scale ∧
      h.base ≤ 2 * den'.getD k 0 := by
  obtain ⟨hhi, hk, -, hge, hmax⟩ := h.hiSig_eq hden hle hlt
  obtain ⟨hpos, htop, hs0, hsB⟩ := h.scale_bounds hden hle hlt
  rw [← hscale] at hs0 hsB
  have hnorm : h.base ≤ 2 * (scale * den.getD k 0) :=
    hscale ▸ scale_normalizes h.base_even hpos htop
  have hmul : scale * (den.getD k 0 + 1) ≤ h.base := hscale ▸ Nat.div_mul_le_self _ _
  obtain ⟨⟨ys, carry⟩, heq, hyslen, hyslt, -, hval⟩ := h.scaled_eq hs0 hsB hden
  -- nothing is carried out of the scaled divisor
  have hsmall : Nat.ofDigits h.base den * scale < h.base ^ (k + 1) := by
    calc _ < (den.getD k 0 + 1) * h.base ^ k * scale := Nat.mul_lt_mul_of_pos_right hmax hs0
      _ = scale * (den.getD k 0 + 1) * h.base ^ k := by ring
      _ ≤ h.base * h.base ^ k := Nat.mul_le_mul_right _ hmul
      _ = h.base ^ (k + 1) := by ring
  have hpow : h.base ^ (k + 1) ≤ h.base ^ den.length :=
    Nat.pow_le_pow_right h.base_pos hk
  have hcarry : carry = 0 := by
    dsimp only at hval
    by_contra hne
    have := Nat.mul_le_mul_left (h.base ^ den.length) (Nat.one_le_iff_ne_zero.2 hne)
    omega
  rw [hcarry] at hval
  simp only [Nat.mul_zero, Nat.add_zero] at hval
  have hgrow : Nat.ofDigits h.base den ≤ Nat.ofDigits h.base den * scale :=
    Nat.le_mul_of_pos_right _ hs0
  obtain ⟨hhi', hk', htake, -, hmax'⟩ :=
    h.hiSig_eq hyslt (hval ▸ hle.trans hgrow) (hval ▸ hsmall)
  refine ⟨ys, ?_, hyslen.trans hlen, hyslt, hhi', htake.trans hval, hnorm.trans ?_⟩
  · have := congrArg Prod.fst heq
    rwa [apply_ite Prod.fst] at this
  · refine Nat.mul_le_mul_left 2 (Nat.lt_succ_iff.1 (Nat.lt_of_mul_lt_mul_right (a := h.base ^ k) ?_))
    calc scale * den.getD k 0 * h.base ^ k = den.getD k 0 * h.base ^ k * scale := by ring
      _ ≤ Nat.ofDigits h.base den * scale := Nat.mul_le_mul_right _ hge
      _ < _ := hval ▸ hmax'

theorem longDivide_eq (hnlen : num.length = 4) (hnum : ∀ x ∈ num, x < h.base)
    (hlen : den.length = 4) (hden : ∀ d ∈ den, d < h.base) (hk : 0 < k)
    (hle : h.base ^ k ≤ Nat.ofDigits h.base den) (hlt : Nat.ofDigits h.base den < h.base ^ (k + 1)) :
    (∀ q ∈ h.longDivide num den, q < h.base) ∧ (h.longDivide num den).length = 4 ∧
      Nat.ofDigits h.base (h.longDivide num den) =
        Nat.ofDigits h.base num / Nat.ofDigits h.base den := by
  have hB : 1 < h.base := Nat.lt_of_lt_of_le (by decide) h.base_ge
  obtain ⟨hhi, hk4, -⟩ := h.hiSig_eq hden hle hlt
  rw [hlen] at hk4
  obtain ⟨scale, hscale⟩ : ∃ s, s = h.base / (den.getD k 0 + 1) := ⟨_, rfl⟩
  obtain ⟨den', hden', hlen', hdlt', hhi', hval', hnorm⟩ :=
    h.scaled_divisor_eq hscale hlen hden hle hlt
  obtain ⟨-, -, hs0, hsB⟩ := h.scale_bounds hden hle hlt
  rw [← hscale] at hs0 hsB
  obtain ⟨⟨xs, top⟩, hnum', hxlen, hxlt, htop, hxval⟩ := h.scaled_eq hs0 hsB hnum
  have hlong : h.longDivide num den =
      (((xs ++ [top]).take (4 - k)).mapAccumr (h.quotientDigits (den'.take (k + 1)))
        ((xs ++ [top]).drop (4 - k))).2 ++ List.replicate k 0 := by
    simp only [longDivide, hhi, ← hscale, hnum', hden', hhi', ite_self]
  have hdigits : ∀ x ∈ xs ++ [top], x < h.base := by
    intro x hx
    rcases List.mem_append.1 hx with hx | hx
    · exact hxlt x hx
    · rwa [List.mem_singleton.1 hx]
  have hdlen : (den'.take (k + 1)).length = k + 1 := by
    rw [List.length_take, hlen']
    omega
  have hxtop : (xs ++ [top]).length = 5 := by
    rw [List.length_append, hxlen, hnlen]
    rfl
  -- the digits below the first window, and the window
  have hsplit : Nat.ofDigits h.base ((xs ++ [top]).drop (4 - k)) * h.base ^ (4 - k) +
      Nat.ofDigits h.base ((xs ++ [top]).take (4 - k)) = Nat.ofDigits h.base num * scale := by
    rw [← hxval, hnlen]
    have := congrArg (Nat.ofDigits h.base) (List.take_append_drop (4 - k) (xs ++ [top]))
    rw [Nat.ofDigits_append, Nat.ofDigits_append, List.length_take, hxtop,
      Nat.min_eq_left (by omega), hxlen, hnlen] at this
    rw [Nat.ofDigits_singleton] at this
    linear_combination this
  have hstart : Nat.ofDigits h.base ((xs ++ [top]).drop (4 - k)) <
      Nat.ofDigits h.base (den'.take (k + 1)) := by
    have h1 : Nat.ofDigits h.base num < h.base ^ 4 :=
      hnlen ▸ Nat.ofDigits_lt_base_pow_length hB hnum
    have h2 : Nat.ofDigits h.base num * scale < h.base ^ 4 * scale :=
      Nat.mul_lt_mul_of_pos_right h1 hs0
    have h3 : h.base ^ 4 * scale ≤ Nat.ofDigits h.base den * scale * h.base ^ (4 - k) := by
      calc h.base ^ 4 * scale = h.base ^ k * scale * h.base ^ (4 - k) := by
            rw [Nat.mul_right_comm, ← Nat.pow_add, Nat.add_sub_cancel' (by omega)]
        _ ≤ _ := Nat.mul_le_mul_right _ (Nat.mul_le_mul_right _ hle)
    rw [hval']
    exact Nat.lt_of_mul_lt_mul_right (a := h.base ^ (4 - k)) (by omega)
  have hlen' : (den'.take (k + 1)).length = k - 1 + 2 := by
    rw [hdlen]
    omega
  have hstep := h.quotientDigits_step hlen' (fun d hd => hdlt' d (List.mem_of_mem_take hd))
    (by rwa [List.getD_eq_getElem?_getD, List.getElem?_take_of_lt (by omega),
      ← List.getD_eq_getElem?_getD, show k - 1 + 1 = k by omega])
  obtain ⟨-, hrem, hqlt, hrun⟩ := hstep.run
    (fun x hx => hdigits x (List.mem_of_mem_take hx))
    (s := (xs ++ [top]).drop (4 - k))
    ⟨by rw [List.length_drop, hxtop, hdlen]; omega,
      fun x hx => hdigits x (List.mem_of_mem_drop hx)⟩ hstart
  rw [hlong]
  refine ⟨?_, ?_, ?_⟩
  · intro q hq
    rcases List.mem_append.1 hq with hq | hq
    · exact hqlt q hq
    · rw [List.eq_of_mem_replicate hq]
      exact h.base_pos
  · rw [List.length_append, List.length_mapAccumr, List.length_replicate, List.length_take, hxtop]
    omega
  · rw [Nat.ofDigits_append_replicate_zero]
    have hlen4 : ((xs ++ [top]).take (4 - k)).length = 4 - k := by
      rw [List.length_take, hxtop]
      omega
    rw [hlen4] at hrun
    rw [eq_div_of_run (hrun.trans hsplit) hrem, hval', Nat.mul_div_mul_right _ _ hs0]

end Divide

end Host

end Z80Gcc
