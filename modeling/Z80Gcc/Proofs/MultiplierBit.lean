import Z80Gcc.Proofs.ChooseMultiplier
import Z80Gcc.Proofs.ShortDivide

/-! `choose_multiplier` for every divisor, precision and word size: the multiplier is right, unless
it is all ones and narrower than a host word. -/

namespace Z80Gcc

open Z80Gcc.InvariantDiv

section Reduce

variable {h : Host}

/-- The loop halves both candidates as long as their halves differ. -/
theorem reduceToLowest_eq (s : Nat) {mlow mhigh : DoubleInt h} (hlt : mlow.toNat < mhigh.toNat)
    (hsmall : mhigh.toNat < 2 * 2 ^ h.bits) :
    ∃ k r, k ≤ s ∧ reduceToLowest s mlow mhigh = (s - k, r) ∧ r.toNat = mhigh.toNat / 2 ^ k ∧
      (∀ t ≤ k, mlow.toNat / 2 ^ t < mhigh.toNat / 2 ^ t) ∧
      (k < s → mhigh.toNat / 2 ^ (k + 1) ≤ mlow.toNat / 2 ^ (k + 1)) := by
  induction s generalizing mlow mhigh with
  | zero =>
    refine ⟨0, mhigh, le_refl 0, rfl, by simp, fun t ht => ?_, fun hc => absurd hc (by decide)⟩
    obtain rfl := Nat.le_zero.1 ht
    simpa using hlt
  | succ s ih =>
    have hlow := DoubleInt.half_toNat (hlt.trans hsmall)
    have hhigh := DoubleInt.half_toNat hsmall
    unfold reduceToLowest
    simp only [ge_iff_le, BitVec.le_def, hlow, hhigh]
    split
    · next hge =>
      refine ⟨0, mhigh, Nat.zero_le _, rfl, by simp, fun t ht => ?_, fun _ => by simpa using hge⟩
      obtain rfl := Nat.le_zero.1 ht
      simpa using hlt
    · next hnot =>
      have hbits := (mhigh.high <<< (h.bits - 1) ||| mhigh.low >>> 1).isLt
      obtain ⟨k, r, hk, hrun, hr, hall, hstop⟩ :=
        @ih ⟨mlow.high <<< (h.bits - 1) ||| mlow.low >>> 1, 0⟩
          ⟨mhigh.high <<< (h.bits - 1) ||| mhigh.low >>> 1, 0⟩
          (by rw [DoubleInt.toNat_of_low, DoubleInt.toNat_of_low, hlow, hhigh]; omega)
          (by rw [DoubleInt.toNat_of_low]; omega)
      simp only [DoubleInt.toNat_of_low, hhigh, hlow] at hr hall hstop
      have hdiv : ∀ x t : Nat, x / 2 / 2 ^ t = x / 2 ^ (t + 1) := by
        intro x t
        rw [Nat.div_div_eq_div_mul, Nat.pow_succ']
      refine ⟨k + 1, r, Nat.succ_le_succ hk, ?_, ?_, ?_, ?_⟩
      · rw [hrun, Nat.add_sub_add_right]
      · rw [hr, hdiv]
      · intro t ht
        cases t with
        | zero => simpa using hlt
        | succ t =>
          rw [← hdiv, ← hdiv]
          exact hall t (Nat.le_of_succ_le_succ ht)
      · intro hks
        rw [← hdiv mhigh.toNat (k + 1), ← hdiv mlow.toNat (k + 1)]
        exact hstop (Nat.lt_of_succ_lt_succ hks)

end Reduce

section Quotients

variable {h : Host} {d : BitVec h.bits}

/-- A divisor with its top bit set goes to the division by one word. -/
theorem divAndRoundDouble_le (num : DoubleInt h) (hpos : 0 < d.toNat) :
    (num.divAndRoundDouble d).toNat ≤ num.toNat / d.toNat ∧
      (2 * d.toNat < 2 ^ h.bits ∨ h.ShortRight num.toNat d.toNat →
        (num.divAndRoundDouble d).toNat = num.toNat / d.toNat) := by
  rcases Nat.lt_or_ge (2 * d.toNat) (2 ^ h.bits) with hlt | hge
  · have heq := DoubleInt.divAndRoundDouble_toNat num hpos hlt
    exact ⟨heq.le, fun _ => heq⟩
  · have hne : d ≠ 0 := by
      rintro rfl
      simp at hpos
    have hslt : d.slt (BitVec.ofNat h.bits h.base) = true := by
      rcases DoubleInt.slt_base_cases d with ⟨hs, -⟩ | ⟨-, -, hlt⟩
      · exact hs
      · omega
    obtain ⟨hqlt, hlen, hright, hwrong⟩ :=
      h.shortQuotient_eq rfl num.digits_lt hge d.isLt
    rw [DoubleInt.ofDigits_digits] at hright hwrong
    unfold DoubleInt.divAndRoundDouble
    simp only [if_neg hne, hslt, if_true]
    split
    · next hhigh => simp [DoubleInt.toNat, hhigh]
    · rw [DoubleInt.toNat_ofDigits hlen hqlt]
      by_cases hr : h.ShortRight num.toNat d.toNat
      · exact ⟨(hright hr).le, fun _ => hright hr⟩
      · refine ⟨(hwrong hr).1.le, fun hor => ?_⟩
        rcases hor with hc | hc
        · omega
        · exact absurd hc hr

end Quotients

section Choose

variable {h : Host} {d : BitVec h.bits} {n precision : Nat} {r : Multiplier h}

/-- What is returned when no test aborts. -/
theorem of_chooseMultiplier (hr : chooseMultiplier d n precision = some r) :
    ∃ mlow mhigh num, mlow = (powDouble h (n + ceilLog2 d.toNat)).divAndRoundDouble d ∧
      num = powDoubleOr h (n + ceilLog2 d.toNat) (n + ceilLog2 d.toNat - precision) ∧
      mhigh = num.divAndRoundDouble d ∧ ceilLog2 d.toNat ≤ n ∧
      n + ceilLog2 d.toNat ≠ 2 * h.bits ∧ ¬mhigh.high > 1 ∧ mlow.toNat < mhigh.toNat ∧
      (let red := reduceToLowest (ceilLog2 d.toNat) mlow mhigh
       if n < h.bits then
         some ⟨if red.2.low ≥ h.bit n - 1 then 1 else 0, red.2.low &&& (h.bit n - 1), red.1,
           ceilLog2 d.toNat⟩
       else some ⟨red.2.high, red.2.low, red.1, ceilLog2 d.toNat⟩) = some r := by
  obtain ⟨l, hl⟩ : ∃ l, ceilLog2 d.toNat = l := ⟨_, rfl⟩
  obtain ⟨mlow, hlow⟩ : ∃ x, (powDouble h (n + l)).divAndRoundDouble d = x := ⟨_, rfl⟩
  obtain ⟨num, hnum⟩ : ∃ x, powDoubleOr h (n + l) (n + l - precision) = x := ⟨_, rfl⟩
  obtain ⟨mhigh, hhigh⟩ : ∃ x, num.divAndRoundDouble d = x := ⟨_, rfl⟩
  rw [hl]
  refine ⟨mlow, mhigh, num, hlow.symm, hnum.symm, hhigh.symm, ?_⟩
  unfold powDouble at hlow
  unfold powDoubleOr powDouble at hnum
  unfold chooseMultiplier at hr
  simp only [hl, hlow, hnum, hhigh] at hr
  -- each test that does not abort
  split at hr
  · cases hr
  next hle =>
  split at hr
  · cases hr
  next hpow =>
  split at hr
  · cases hr
  split at hr
  · cases hr
  next hone =>
  split at hr
  · cases hr
  next hlt =>
  exact ⟨Nat.le_of_not_lt hle, hpow, fun hc => hone (.inl hc), DoubleInt.lt_iff.1 (not_not.1 hlt),
    hr⟩

theorem powDoubleOr_self (h : Host) (p : Nat) : powDoubleOr h p p = powDouble h p := by
  unfold powDoubleOr powDouble
  split
  · simp
  · simp

theorem mlow_eq {l : Nat} (hn : n ≤ h.bits) (hd : 0 < d.toNat) (hlt : d.toNat < 2 ^ n)
    (hle : d.toNat ≤ 2 ^ l) (hln : l ≤ n) (hpow : n + l ≠ 2 * h.bits) :
    ((powDouble h (n + l)).divAndRoundDouble d).toNat = lower n d.toNat l := by
  have hnum := powDouble_toNat (h := h) (show n + l < 2 * h.bits by omega)
  rw [lower, ← hnum]
  refine (divAndRoundDouble_le _ hd).2 ?_
  rcases Nat.lt_or_ge (2 * d.toNat) (2 ^ h.bits) with hsmall | hbig
  · exact .inl hsmall
  · -- the divisor is the top bit of a word
    right
    have hwide := h.wide
    have hpow2 : 2 ^ h.bits = 2 * 2 ^ (h.bits - 1) := h.pow_bits
    have hnb : n = h.bits := by
      by_contra hne
      have : 2 ^ (n + 1) ≤ 2 ^ h.bits := Nat.pow_le_pow_right (by decide) (by omega)
      rw [Nat.pow_succ'] at this
      omega
    have hl : l = h.bits - 1 := by
      by_contra hne
      have : 2 ^ (l + 1) ≤ 2 ^ (h.bits - 1) := Nat.pow_le_pow_right (by decide) (by omega)
      rw [Nat.pow_succ'] at this
      omega
    have hdl : d.toNat = 2 ^ l := by
      rw [hl] at hle ⊢
      omega
    have hsq := h.base_sq
    have hpos := h.base_pos
    rw [Host.ShortRight, hnum, hdl, hnb, Nat.pow_add, Nat.mul_comm,
      Nat.mul_div_cancel _ (Nat.two_pow_pos _), Nat.mod_self, ← hsq, ← Nat.mul_assoc,
      Nat.mul_div_cancel _ hpos, Nat.mul_mod_right]
    exact ⟨hpos, hpos⟩

theorem returned_eq {m : DoubleInt h} (hn : n < h.bits) (hm : m.toNat < 2 * 2 ^ n) :
    (if m.low ≥ h.bit n - 1 then (1 : BitVec h.bits) else 0).toNat * 2 ^ n +
        (m.low &&& (h.bit n - 1)).toNat =
      if m.toNat + 1 = 2 ^ n then m.toNat + 2 ^ n else m.toNat := by
  have hbits : 2 * 2 ^ n ≤ 2 ^ h.bits := by
    rw [← Nat.pow_succ']
    exact Nat.pow_le_pow_right (by decide) hn
  have hpos := Nat.two_pow_pos n
  have hlow : m.low.toNat = m.toNat := by
    rw [m.low_eq]
    exact Nat.mod_eq_of_lt (by omega)
  have hmask : (h.bit n - 1).toNat = 2 ^ n - 1 := by
    have hbit := bit_toNat hn
    rw [BitVec.toNat_sub_of_le (by rw [BitVec.le_def, toNat_one, hbit]; omega), hbit, toNat_one]
  have hge : m.low ≥ h.bit n - 1 ↔ 2 ^ n ≤ m.toNat + 1 := by
    rw [ge_iff_le, BitVec.le_def, hmask, hlow]
    omega
  rw [BitVec.toNat_and, hlow, hmask, Nat.and_two_pow_sub_one_eq_mod]
  by_cases hc : 2 ^ n ≤ m.toNat + 1
  · rw [if_pos (hge.2 hc), toNat_one, Nat.one_mul]
    split
    · rw [Nat.mod_eq_of_lt (by omega)]
      omega
    · rw [Nat.mod_eq_sub_mod (by omega), Nat.mod_eq_of_lt (by omega)]
      omega
  · rw [if_neg (fun hf => hc (hge.1 hf)), if_neg (by omega), Nat.mod_eq_of_lt (by omega)]
    simp

/-- What `choose_multiplier` comes to: the candidate `m` at the shift where the loop stops. -/
structure Multiplier.Chosen (r : Multiplier h) (d n e m : Nat) : Prop where
  spare : e < n
  lgup : r.lgup = ceilLog2 d
  shift_le : r.postShift ≤ r.lgup
  room : n + r.lgup < 2 * h.bits
  lower_lt : lower n d r.postShift < m
  mul_le : m * d ≤ 2 ^ (n + r.postShift) + 2 ^ (r.postShift + e)
  returned : r.mh.toNat * 2 ^ n + r.ml.toNat =
    if n < h.bits ∧ m + 1 = 2 ^ n then m + 2 ^ n else m
  upper_eq : n < h.bits → m = upper n e d r.postShift
  differ : n < h.bits → ∀ t, r.postShift ≤ t → t ≤ r.lgup → lower n d t < upper n e d t
  stops : n < h.bits → 0 < r.postShift →
    upper n e d (r.postShift - 1) ≤ lower n d (r.postShift - 1)

section Halved

variable {d e l m mhigh s : Nat}

/-- The candidate that the loop has halved, times the divisor. -/
theorem halved_mul_le (hs : s ≤ l) (hm : m = mhigh / 2 ^ (l - s)) (hupper : mhigh ≤ upper n e d l) :
    m * d ≤ 2 ^ (n + s) + 2 ^ (s + e) := by
  have h1 : m * 2 ^ (l - s) ≤ mhigh := hm ▸ Nat.div_mul_le_self _ _
  have h2 : mhigh * d ≤ 2 ^ (n + l) + 2 ^ (l + e) :=
    (Nat.mul_le_mul_right _ hupper).trans (Nat.div_mul_le_self _ _)
  have h3 : (2 ^ (n + s) + 2 ^ (s + e)) * 2 ^ (l - s) = 2 ^ (n + l) + 2 ^ (l + e) := by
    rw [Nat.add_mul, ← Nat.pow_add, ← Nat.pow_add]
    congr 2 <;> omega
  have hpos : 0 < 2 ^ (l - s) := Nat.two_pow_pos _
  refine Nat.le_of_mul_le_mul_right ?_ hpos
  calc m * d * 2 ^ (l - s) = m * 2 ^ (l - s) * d := by ring
    _ ≤ mhigh * d := Nat.mul_le_mul_right _ h1
    _ ≤ (2 ^ (n + s) + 2 ^ (s + e)) * 2 ^ (l - s) := h3 ▸ h2

/-- After one turn of the loop a candidate has one bit more than the operations at most. -/
theorem lt_of_mul_le (hen : e ≤ n) (hsd : 2 ^ s < d) (hmul : m * d ≤ 2 ^ (n + s) + 2 ^ (s + e)) :
    m < 2 * 2 ^ n := by
  have hpow : 2 ^ e ≤ 2 ^ n := Nat.pow_le_pow_right (by decide) hen
  refine Nat.lt_of_mul_lt_mul_right (a := d) ?_
  calc m * d ≤ 2 ^ (n + s) + 2 ^ (s + e) := hmul
    _ = (2 ^ n + 2 ^ e) * 2 ^ s := by ring
    _ ≤ 2 * 2 ^ n * 2 ^ s := Nat.mul_le_mul_right _ (by omega)
    _ < 2 * 2 ^ n * d := Nat.mul_lt_mul_of_pos_left hsd (by positivity)

/-- With a bit to spare the candidates before the loop differ enough for one turn. -/
theorem halved_of_spare (he : 1 ≤ e) (hd : 0 < d) (hle : d ≤ 2 ^ l) (hsl : s ≤ l)
    (hstop : s = l → upper n e d l / 2 ≤ lower n d l / 2) : s < l := by
  have hgap := lower_add_le_upper (n := n) (e := e) hd hle
  have h2e : 2 ^ 1 ≤ 2 ^ e := Nat.pow_le_pow_right (by decide) he
  by_contra hc
  have h1 := hstop (by omega)
  omega

end Halved

theorem exists_chosen (hn : n ≤ h.bits) (hp : precision ≤ n) (hd : 2 ≤ d.toNat)
    (hlt : d.toNat < 2 ^ n) (hr : chooseMultiplier d n precision = some r) :
    ∃ m, r.Chosen d.toNat n (n - precision) m := by
  obtain ⟨mlow, mhigh, num, hmlow, hnum, hmhigh, hln, hpow, hone, hless, hret⟩ :=
    of_chooseMultiplier hr
  obtain ⟨l, hl⟩ : ∃ l, l = ceilLog2 d.toNat := ⟨_, rfl⟩
  obtain ⟨e, he⟩ : ∃ e, e = n - precision := ⟨_, rfl⟩
  rw [← hl] at hmlow hnum hln hpow hret
  rw [← he]
  have hle : d.toNat ≤ 2 ^ l := hl ▸ le_two_pow_ceilLog2 _
  have hl1 : 1 ≤ l := hl ▸ one_le_ceilLog2 hd
  have hl2 : 2 ^ l < 2 * d.toNat := hl ▸ two_pow_ceilLog2_lt hd
  have hlow : mlow.toNat = lower n d.toNat l :=
    hmlow ▸ mlow_eq hn (by omega) hlt hle hln hpow
  have hspare : e < n := by
    by_contra hc
    have h0 : n + l - precision = n + l := by omega
    rw [h0, powDoubleOr_self] at hnum
    rw [hmhigh, hmlow, hnum] at hless
    exact Nat.lt_irrefl _ hless
  have hnumv : num.toNat = 2 ^ (n + l) + 2 ^ (l + e) := by
    rw [hnum, powDoubleOr_toNat (by omega) (by omega), show n + l - precision = l + e by omega]
  have hupper : mhigh.toNat ≤ upper n e d.toNat l := by
    rw [hmhigh, upper, ← hnumv]
    exact (divAndRoundDouble_le num (by omega)).1
  have hsmall : mhigh.toNat < 2 * 2 ^ h.bits :=
    DoubleInt.toNat_lt_of_high (BitVec.not_lt.1 hone)
  obtain ⟨k, m, hk, hrun, hm, hall, hstop⟩ := reduceToLowest_eq l hless hsmall
  have hlowdiv : ∀ t ≤ l, mlow.toNat / 2 ^ (l - t) = lower n d.toNat t := by
    intro t ht
    rw [hlow, ← lower_div n d.toNat t (l - t), Nat.add_sub_cancel' ht]
  have hexact : n < h.bits → ∀ t ≤ l, mhigh.toNat / 2 ^ (l - t) = upper n e d.toNat t := by
    intro hnb t ht
    have hd2 : 2 * d.toNat < 2 ^ h.bits := by
      have : 2 ^ (n + 1) ≤ 2 ^ h.bits := Nat.pow_le_pow_right (by decide) hnb
      rw [Nat.pow_succ'] at this
      omega
    have heq : mhigh.toNat = upper n e d.toNat l := by
      rw [hmhigh, upper, ← hnumv]
      exact (divAndRoundDouble_le num (by omega)).2 (.inl hd2)
    rw [heq, ← upper_div n e d.toNat t (l - t), Nat.add_sub_cancel' ht]
  obtain ⟨s, hs⟩ : ∃ s, s = l - k := ⟨_, rfl⟩
  have hks : k = l - s := by omega
  rw [hks] at hm hall hstop
  have hlower : lower n d.toNat s < m.toNat := by
    rw [hm, ← hlowdiv s (by omega)]
    exact hall (l - s) (le_refl _)
  have hmul : m.toNat * d.toNat ≤ 2 ^ (n + s) + 2 ^ (s + e) :=
    halved_mul_le (by omega) hm hupper
  have hfit : n < h.bits → m.toNat < 2 * 2 ^ n := by
    intro hnb
    have hmle : m.toNat ≤ upper n e d.toNat l := by
      rw [hm]
      exact (Nat.div_le_self _ _).trans hupper
    rcases Nat.eq_zero_or_pos e with h0 | he1
    · have := upper_lt (n := n) (e := 0) hl1 hln hl2
      rw [h0] at hmle
      rw [Nat.pow_succ'] at this
      omega
    · have hturn : s < l := by
        refine halved_of_spare (n := n) (d := d.toNat) he1 (by omega) hle (by omega) ?_
        rintro rfl
        have h1 := hstop (by omega)
        have h2 := hexact hnb s (le_refl s)
        rw [Nat.sub_self, Nat.pow_zero, Nat.div_one] at h2
        rwa [Nat.sub_self, Nat.zero_add, Nat.pow_one, hlow, h2] at h1
      have hsd : 2 ^ s < d.toNat := by
        have : 2 ^ (s + 1) ≤ 2 ^ l := Nat.pow_le_pow_right (by decide) hturn
        rw [Nat.pow_succ] at this
        omega
      exact lt_of_mul_le hspare.le hsd hmul
  rw [hrun] at hret
  dsimp only at hret
  have hshift : r.postShift = s := by
    split at hret <;> obtain rfl := Option.some.inj hret <;> exact hs.symm
  have hlgup : r.lgup = l := by
    split at hret <;> obtain rfl := Option.some.inj hret <;> rfl
  refine ⟨m.toNat, hspare, hlgup.trans hl, by omega, by rw [hlgup]; omega, by rwa [hshift],
    by rwa [hshift], ?_, fun hnb => ?_, fun hnb t hst htl => ?_, fun hnb hpos => ?_⟩
  · split at hret
    · next hnb =>
      obtain rfl := Option.some.inj hret
      dsimp only
      rw [returned_eq hnb (hfit hnb)]
      simp [hnb]
    · next hnb =>
      obtain rfl := Option.some.inj hret
      obtain rfl : n = h.bits := by omega
      rw [if_neg (fun hc => Nat.lt_irrefl _ hc.1)]
      rfl
  · rw [hshift, hm]
    exact hexact hnb s (by omega)
  · rw [hshift] at hst
    rw [hlgup] at htl
    rw [← hlowdiv t htl, ← hexact hnb t htl]
    exact hall (l - t) (by omega)
  · rw [hshift] at hpos ⊢
    rw [← hlowdiv (s - 1) (by omega), ← hexact hnb (s - 1) (by omega),
      show l - (s - 1) = l - s + 1 by omega]
    exact hstop (by omega)

variable {m : Nat}

/-- A multiplier of all ones in fewer bits than a host word. -/
def AllOnes (h : Host) (d n precision : Nat) : Prop :=
  n < h.bits ∧ (d = 2 ^ (n - 1) + 1 ∧ precision = n ∨ n = 2 ∧ d = 2 ∧ precision = 1)

theorem Multiplier.Chosen.allOnes {d : Nat} (hc : r.Chosen d n (n - precision) m)
    (hp : precision ≤ n) (hd : 2 ≤ d) (hlt : d < 2 ^ n) (hn : n < h.bits) (hm : m + 1 = 2 ^ n) :
    AllOnes h d n precision := by
  have hspare := hc.spare
  have hupper := hc.upper_eq hn
  have hless := hc.differ hn r.postShift (le_refl _) hc.shift_le
  rw [hupper] at hm
  refine ⟨hn, ?_⟩
  rcases Nat.eq_zero_or_pos (n - precision) with h0 | hpos
  · rw [h0] at hless hm
    exact .inl ⟨ones_of_zero hd hlt hless hm, by omega⟩
  · obtain ⟨rfl, rfl, h1⟩ := ones_of_pos hd hlt hspare hpos hless (hc.stops hn) hm
    exact .inr ⟨rfl, rfl, by omega⟩

theorem Multiplier.Chosen.of_allOnes {d : Nat} (hc : r.Chosen d n (n - precision) m) (hd : 2 ≤ d)
    (hlt : d < 2 ^ n) (hones : AllOnes h d n precision) : m + 1 = 2 ^ n := by
  obtain ⟨hn, ⟨rfl, rfl⟩ | ⟨rfl, rfl, rfl⟩⟩ := hones
  · have hupper := hc.upper_eq hn
    have hdiffer := hc.differ hn
    have hstops := hc.stops hn
    have hle := hc.shift_le
    rw [Nat.sub_self] at hupper hdiffer hstops
    have hn2 : 2 ≤ precision := by
      by_contra hlt2
      have : 2 ^ precision ≤ 2 ^ 1 := Nat.pow_le_pow_right (by decide) (by omega)
      omega
    obtain ⟨hnext, hone⟩ := ones_at_half hn2
    have hlgup : r.lgup = precision := by
      refine Nat.le_antisymm (hc.lgup ▸ ceilLog2_le hlt.le) ?_
      have hlog := le_two_pow_ceilLog2 (2 ^ (precision - 1) + 1)
      rw [← hc.lgup] at hlog
      have := (Nat.pow_lt_pow_iff_right (a := 2) (by decide)).1 (Nat.lt_of_succ_le hlog)
      omega
    have hshift : r.postShift = precision - 1 := by
      by_contra hne
      rcases Nat.lt_or_ge r.postShift (precision - 1) with hlow | hhigh
      · -- the halves are equal
        have hhalf := hdiffer (precision - 2) (by omega) (by omega)
        have h1 := lower_half precision (2 ^ (precision - 1) + 1) (precision - 2)
        have h2 := upper_half precision 0 (2 ^ (precision - 1) + 1) (precision - 2)
        have heven : 2 ^ precision = 2 * 2 ^ (precision - 1) := by
          rw [← Nat.pow_succ']
          congr 1
          omega
        rw [show precision - 2 + 1 = precision - 1 by omega] at h1 h2
        omega
      · have hlast := hstops (by omega)
        rw [show r.postShift - 1 = precision - 1 by omega] at hlast
        omega
    rw [hupper, hshift, hone]
  · have hlgup : r.lgup = 1 := hc.lgup
    have hle := hc.shift_le
    have hshift : r.postShift = 0 := by
      by_contra hne
      have hlast := hc.stops hn (by omega)
      rw [show r.postShift - 1 = 0 by omega] at hlast
      revert hlast
      decide
    rw [hc.upper_eq hn, hshift]
    rfl

/-- The numbers divided fit in two words, and the multiplier gives the quotient of every number in
the precision. -/
structure Multiplier.Right (r : Multiplier h) (d n precision : Nat) : Prop where
  low : (powDouble h (n + r.lgup)).toNat = 2 ^ (n + r.lgup)
  high : (powDoubleOr h (n + r.lgup) (n + r.lgup - precision)).toNat =
    2 ^ (n + r.lgup) + 2 ^ (n + r.lgup - precision)
  div_eq : ∀ x < 2 ^ precision,
    x / d = x * (r.mh.toNat * 2 ^ n + r.ml.toNat) / 2 ^ (n + r.postShift)

/-- A bit too many: the number below the divisor has a quotient of one or more. -/
theorem Multiplier.Chosen.not_right {d : Nat} (hc : r.Chosen d n (n - precision) m) (hd : 2 ≤ d)
    (hlt : d < 2 ^ n) (hones : AllOnes h d n precision) : ¬r.Right d n precision := by
  intro hright
  have hm := hc.of_allOnes hd hlt hones
  have hless : 2 ^ (n + r.postShift) < m * d := (Nat.div_lt_iff_lt_mul (by omega)).1 hc.lower_lt
  have hfit : d - 1 < 2 ^ precision := by
    obtain ⟨-, ⟨-, rfl⟩ | ⟨-, rfl, rfl⟩⟩ := hones
    · omega
    · decide
  have hq := hright.div_eq (d - 1) hfit
  rw [hc.returned, if_pos ⟨hones.1, hm⟩, Nat.div_eq_of_lt (by omega), eq_comm,
    Nat.div_eq_zero_iff] at hq
  have hpos := Nat.two_pow_pos (n + r.postShift)
  have hprod : m * d ≤ (d - 1) * (m + 2 ^ n) := by
    obtain ⟨k, rfl⟩ : ∃ k, d = k + 2 := ⟨d - 2, by omega⟩
    rw [← hm, show k + 2 - 1 = k + 1 by omega]
    calc m * (k + 2) ≤ m * (k + 2) + (m * k + k + 1) := Nat.le_add_right _ _
      _ = (k + 1) * (m + (m + 1)) := by ring
  omega

/-- Exactly when `choose_multiplier` is right, where it does not abort. -/
theorem choose_multiplier_right_iff (hn : n ≤ h.bits) (hp : precision ≤ n) (hd : 2 ≤ d.toNat)
    (hlt : d.toNat < 2 ^ n) (hr : chooseMultiplier d n precision = some r) :
    r.Right d.toNat n precision ↔ ¬AllOnes h d.toNat n precision := by
  obtain ⟨m, hc⟩ := exists_chosen hn hp hd hlt hr
  refine ⟨fun hright hones => hc.not_right hd hlt hones hright, fun hnot => ?_⟩
  have hroom := hc.room
  have hspare := hc.spare
  refine ⟨powDouble_toNat hroom, powDoubleOr_toNat hroom (by omega), fun x hx => ?_⟩
  have hrecip := reciprocal_of_le (by omega) hspare.le hc.lower_lt hc.mul_le
  rw [show n - (n - precision) = precision by omega] at hrecip
  rw [hc.returned, if_neg (fun hf => hnot (hc.allOnes hp hd hlt hf.1 hf.2)), Nat.mul_comm x]
  exact (hrecip.div_eq hx).symm

theorem choose_multiplier_ten :
    ∃ r, chooseMultiplier (10 : BitVec host32.bits) 16 16 = some r ∧ r.Right 10 16 16 := by
  have hr : chooseMultiplier (10 : BitVec host32.bits) 16 16 =
      some ⟨0, 52429, 3, 4⟩ := by decide +kernel
  refine ⟨_, hr, (choose_multiplier_right_iff (d := (10 : BitVec host32.bits)) (by decide)
    (by decide) (by decide) (by decide) hr).2 ?_⟩
  unfold AllOnes
  decide

/-- 32768 / 32769 in 16 bits: the multiplier 65535 is returned with the bit above it. -/
theorem choose_multiplier_wrong_ones :
    ∃ r, chooseMultiplier (32769 : BitVec host32.bits) 16 16 = some r ∧
      (32768 : Nat) / 32769 ≠ 32768 * (r.mh.toNat * 2 ^ 16 + r.ml.toNat) / 2 ^ (16 + r.postShift) := by
  have hr : chooseMultiplier (32769 : BitVec host32.bits) 16 16 =
      some ⟨1, 65535, 15, 16⟩ := by decide +kernel
  exact ⟨_, hr, by decide⟩

end Choose

end Z80Gcc
