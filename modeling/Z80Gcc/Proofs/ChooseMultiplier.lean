import Z80Gcc.Lib.InvariantDiv
import Z80Gcc.Proofs.DoubleDiv
import Z80Gcc.Spec.Divmod

/-! `choose_multiplier` never aborts for the divisors that `expand_divmod` gives it, and its
multiplier and shift are a reciprocal of the divisor. -/

namespace Z80Gcc

open Z80Gcc.InvariantDiv

section Words

variable {h : Host}

theorem Host.pow_bits (h : Host) : 2 ^ h.bits = 2 * 2 ^ (h.bits - 1) := by
  have hwide := h.wide
  rw [← Nat.pow_succ']
  congr 1
  omega

namespace DoubleInt

theorem toNat_lt_of_high {x : DoubleInt h} (hx : x.high ≤ 1) : x.toNat < 2 * 2 ^ h.bits := by
  have hwide := h.wide
  have h1 : (1 : BitVec h.bits).toNat = 1 := BitVec.toNat_one (by omega)
  have h2 : x.high.toNat ≤ 1 := h1 ▸ BitVec.le_def.1 hx
  have h3 := Nat.mul_le_mul_right (2 ^ h.bits) h2
  have h4 := x.low.isLt
  unfold toNat
  omega

theorem high_eq (x : DoubleInt h) : x.high.toNat = x.toNat / 2 ^ h.bits := by
  unfold toNat
  rw [Nat.mul_comm, Nat.mul_add_div (Nat.two_pow_pos _), Nat.div_eq_of_lt x.low.isLt, Nat.add_zero]

theorem low_eq (x : DoubleInt h) : x.low.toNat = x.toNat % 2 ^ h.bits := by
  unfold toNat
  rw [Nat.mul_comm, Nat.mul_add_mod, Nat.mod_eq_of_lt x.low.isLt]

theorem toNat_of_low (v : BitVec h.bits) : (⟨v, 0⟩ : DoubleInt h).toNat = v.toNat := by
  simp [toNat]

theorem half_toNat {x : DoubleInt h} (hx : x.toNat < 2 * 2 ^ h.bits) :
    (x.high <<< (h.bits - 1) ||| x.low >>> 1).toNat = x.toNat / 2 := by
  have hpow : 2 ^ h.bits = 2 * 2 ^ (h.bits - 1) := h.pow_bits
  have hhigh : x.high.toNat < 2 := by
    rw [x.high_eq]
    exact Nat.div_lt_of_lt_mul (by omega)
  have hlow : x.low.toNat / 2 < 2 ^ (h.bits - 1) := by
    have h1 := x.low.isLt
    omega
  have hsplit : x.toNat / 2 = 2 ^ (h.bits - 1) * x.high.toNat + x.low.toNat / 2 := by
    unfold toNat
    rcases (by omega : x.high.toNat = 0 ∨ x.high.toNat = 1) with h0 | h1
    · rw [h0]
      omega
    · rw [h1]
      omega
  have hshift : x.high.toNat <<< (h.bits - 1) % 2 ^ h.bits = 2 ^ (h.bits - 1) * x.high.toNat := by
    rw [Nat.shiftLeft_eq, Nat.mul_comm, hpow, Nat.mul_comm 2, Nat.mul_mod_mul_left,
      Nat.mod_eq_of_lt hhigh]
  rw [BitVec.toNat_or, BitVec.toNat_shiftLeft, BitVec.toNat_ushiftRight, Nat.shiftRight_eq_div_pow,
    Nat.pow_one, hsplit, hshift, ← Nat.two_pow_add_eq_or_of_lt hlow]

theorem lt_iff {x y : DoubleInt h} :
    (x.high < y.high ∨ x.high = y.high ∧ x.low < y.low) ↔ x.toNat < y.toNat := by
  have hx := x.low.isLt
  have hy := y.low.isLt
  rw [BitVec.lt_def, BitVec.lt_def, BitVec.toNat_eq]
  unfold toNat
  rcases Nat.lt_trichotomy x.high.toNat y.high.toNat with hlt | heq | hgt
  · have := Nat.mul_le_mul_right (2 ^ h.bits) hlt
    rw [Nat.succ_mul] at this
    omega
  · rw [heq]
    omega
  · have := Nat.mul_le_mul_right (2 ^ h.bits) hgt
    rw [Nat.succ_mul] at this
    omega

end DoubleInt

theorem toNat_one : (1 : BitVec h.bits).toNat = 1 := by
  have hwide := h.wide
  exact BitVec.toNat_one (by omega)

theorem bit_toNat {k : Nat} (hk : k < h.bits) : (h.bit k).toNat = 2 ^ k := by
  rw [Host.bit, BitVec.toNat_shiftLeft, toNat_one, Nat.one_shiftLeft]
  exact Nat.mod_eq_of_lt (Nat.pow_lt_pow_right (by decide) hk)

theorem toNat_zero : (0 : BitVec h.bits).toNat = 0 := rfl

def powDouble (h : Host) (p : Nat) : DoubleInt h :=
  if p ≥ h.bits then ⟨0, h.bit (p - h.bits)⟩ else ⟨h.bit p, 0⟩

theorem powDouble_toNat {p : Nat} (hp : p < 2 * h.bits) : (powDouble h p).toNat = 2 ^ p := by
  unfold powDouble DoubleInt.toNat
  split
  · next hge =>
    simp only [bit_toNat (show p - h.bits < h.bits by omega), toNat_zero, Nat.add_zero,
      ← Nat.pow_add, Nat.sub_add_cancel hge]
  · next hlt =>
    simp only [bit_toNat (Nat.lt_of_not_le hlt), toNat_zero, Nat.zero_mul,
      Nat.zero_add]

theorem two_pow_or {p q : Nat} (hq : q < p) : 2 ^ p ||| 2 ^ q = 2 ^ p + 2 ^ q := by
  have hlt : 2 ^ q < 2 ^ p := Nat.pow_lt_pow_right (by decide) hq
  rw [← Nat.mul_one (2 ^ p), Nat.two_pow_add_eq_or_of_lt hlt]

def powDoubleOr (h : Host) (p q : Nat) : DoubleInt h :=
  if q ≥ h.bits then ⟨(powDouble h p).low, (powDouble h p).high ||| h.bit (q - h.bits)⟩
  else ⟨(powDouble h p).low ||| h.bit q, (powDouble h p).high⟩

theorem powDoubleOr_toNat {p q : Nat} (hp : p < 2 * h.bits) (hq : q < p) :
    (powDoubleOr h p q).toNat = 2 ^ p + 2 ^ q := by
  unfold powDoubleOr powDouble DoubleInt.toNat
  by_cases hge : p ≥ h.bits
  · have hp1 := bit_toNat (h := h) (show p - h.bits < h.bits by omega)
    have hpow : 2 ^ (p - h.bits) * 2 ^ h.bits = 2 ^ p := by
      rw [← Nat.pow_add, Nat.sub_add_cancel hge]
    by_cases hqge : q ≥ h.bits
    · have hq1 := bit_toNat (h := h) (show q - h.bits < h.bits by omega)
      have hqpow : 2 ^ (q - h.bits) * 2 ^ h.bits = 2 ^ q := by
        rw [← Nat.pow_add, Nat.sub_add_cancel hqge]
      simp only [if_pos hge, if_pos hqge, BitVec.toNat_or, hp1, hq1, toNat_zero,
        Nat.add_zero]
      rw [two_pow_or (by omega), Nat.add_mul, hpow, hqpow]
    · have hq1 := bit_toNat (h := h) (Nat.lt_of_not_le hqge)
      simp only [if_pos hge, if_neg hqge, BitVec.toNat_or, hp1, hq1, toNat_zero,
        Nat.zero_or, hpow]
  · have hqge : ¬q ≥ h.bits := by omega
    have hp1 := bit_toNat (h := h) (Nat.lt_of_not_le hge)
    have hq1 := bit_toNat (h := h) (Nat.lt_of_not_le hqge)
    simp only [if_neg hge, if_neg hqge, BitVec.toNat_or, hp1, hq1, toNat_zero, Nat.zero_mul,
      Nat.zero_add]
    exact two_pow_or hq

end Words

section Reduce

variable {h : Host} {n e d l : Nat}

/-- What the loop keeps: both words are the bounds at the current shift. -/
structure Bounds (n e d s : Nat) (mlow mhigh : DoubleInt h) : Prop where
  low : mlow.toNat = lower n d s
  high : mhigh.toNat = upper n e d s
  lt : mlow.toNat < mhigh.toNat
  small : mhigh.toNat < 2 * 2 ^ h.bits

theorem Bounds.half {s : Nat} {mlow mhigh : DoubleInt h} (hb : Bounds n e d (s + 1) mlow mhigh) :
    (mlow.high <<< (h.bits - 1) ||| mlow.low >>> 1).toNat = lower n d s ∧
      (mhigh.high <<< (h.bits - 1) ||| mhigh.low >>> 1).toNat = upper n e d s := by
  rw [DoubleInt.half_toNat (hb.lt.trans hb.small), DoubleInt.half_toNat hb.small, hb.low, hb.high,
    lower_half, upper_half]
  exact ⟨rfl, rfl⟩

theorem Bounds.step {s : Nat} {mlow mhigh : DoubleInt h} (hb : Bounds n e d (s + 1) mlow mhigh)
    (hlt : lower n d s < upper n e d s) :
    Bounds (h := h) n e d s ⟨mlow.high <<< (h.bits - 1) ||| mlow.low >>> 1, 0⟩
      ⟨mhigh.high <<< (h.bits - 1) ||| mhigh.low >>> 1, 0⟩ := by
  obtain ⟨hlow, hhigh⟩ := hb.half
  refine ⟨?_, ?_, ?_, ?_⟩
  · rw [DoubleInt.toNat_of_low, hlow]
  · rw [DoubleInt.toNat_of_low, hhigh]
  · rw [DoubleInt.toNat_of_low, DoubleInt.toNat_of_low, hlow, hhigh]
    exact hlt
  · rw [DoubleInt.toNat_of_low]
    have := (mhigh.high <<< (h.bits - 1) ||| mhigh.low >>> 1).isLt
    omega

/-- The loop ends at a shift where the bounds still differ. -/
theorem reduceToLowest_spec (s : Nat) {mlow mhigh : DoubleInt h} (hb : Bounds n e d s mlow mhigh) :
    ∃ s' ≤ s, ∃ mlow' mhigh', reduceToLowest s mlow mhigh = (s', mhigh') ∧
      Bounds n e d s' mlow' mhigh' ∧ (lower n d s + 2 ≤ upper n e d s → 0 < s → s' < s) := by
  induction s generalizing mlow mhigh with
  | zero => exact ⟨0, le_refl 0, mlow, mhigh, rfl, hb, fun _ hpos => absurd hpos (Nat.lt_irrefl 0)⟩
  | succ s ih =>
    obtain ⟨hlow, hhigh⟩ := hb.half
    unfold reduceToLowest
    simp only [ge_iff_le, BitVec.le_def, hlow, hhigh]
    split
    · next hge =>
      refine ⟨s + 1, le_refl _, mlow, mhigh, rfl, hb, fun hgap _ => ?_⟩
      have h1 := lower_half n d s
      have h2 := upper_half n e d s
      omega
    · next hlt =>
      obtain ⟨s', hle, mlow', mhigh', heq, hb', -⟩ := ih (hb.step (Nat.lt_of_not_le hlt))
      exact ⟨s', Nat.le_succ_of_le hle, mlow', mhigh', heq, hb',
        fun _ _ => Nat.lt_succ_of_le hle⟩

end Reduce

section CeilLog2

variable {x n : Nat}

theorem le_two_pow_ceilLog2 (x : Nat) : x ≤ 2 ^ ceilLog2 x := by
  have := Nat.lt_size_self (x - 1)
  unfold ceilLog2
  omega

theorem two_pow_ceilLog2_lt (hx : 2 ≤ x) : 2 ^ ceilLog2 x < 2 * x := by
  have hpos : 0 < ceilLog2 x := Nat.size_pos.2 (by omega)
  have hle : 2 ^ (ceilLog2 x - 1) ≤ x - 1 := Nat.lt_size.1 (Nat.sub_one_lt_of_lt hpos)
  have hpow : 2 ^ ceilLog2 x = 2 * 2 ^ (ceilLog2 x - 1) := by
    rw [← Nat.pow_succ']
    congr 1
    omega
  omega

theorem ceilLog2_le (hx : x ≤ 2 ^ n) : ceilLog2 x ≤ n := by
  refine Nat.size_le.2 ?_
  have := Nat.two_pow_pos n
  omega

theorem one_le_ceilLog2 (hx : 2 ≤ x) : 1 ≤ ceilLog2 x := Nat.size_pos.2 (by omega)

end CeilLog2

section Choose

variable {h : Host} {d : BitVec h.bits} {n e : Nat}

/-- A multiplier `m` that `choose_multiplier` describes by its low `n` bits and the bit above. -/
structure Multiplier.Describes (r : Multiplier h) (d n e m : Nat) : Prop where
  recip : Reciprocal d (n - e) m (n + r.postShift)
  low : r.ml.toNat = m % 2 ^ n
  high : r.mh ≠ 0 ↔ 2 ^ n ≤ m
  small : m < 2 * 2 ^ n
  fits : 1 ≤ e → m < 2 ^ n
  shifted : 2 ^ n ≤ m → 0 < r.postShift

/-- The value returned when no test aborts. -/
theorem chooseMultiplier_eq {precision l s : Nat} {mlow num mhigh r : DoubleInt h}
    (hl : ceilLog2 d.toNat = l) (hlow : (powDouble h (n + l)).divAndRoundDouble d = mlow)
    (hnum : powDoubleOr h (n + l) (n + l - precision) = num)
    (hhigh : num.divAndRoundDouble d = mhigh) (hr : reduceToLowest l mlow mhigh = (s, r))
    (hle : l ≤ n) (hpow : n + l ≠ 2 * h.bits) (hnh : mhigh.high ≠ 0 → num.high - d < d)
    (hone : ¬(mhigh.high > 1 ∨ mlow.high > 1)) (hlt : mlow.toNat < mhigh.toNat) :
    chooseMultiplier d n precision =
      if n < h.bits then
        some ⟨if r.low ≥ h.bit n - 1 then 1 else 0, r.low &&& (h.bit n - 1), s, l⟩
      else some ⟨r.high, r.low, s, l⟩ := by
  unfold powDouble at hlow
  unfold powDoubleOr powDouble at hnum
  unfold chooseMultiplier
  simp only [hl, hlow, hnum, hhigh, hr]
  rw [if_neg (by omega), if_neg hpow, if_neg (fun hc => absurd (hnh hc.1) (BitVec.not_lt.2 hc.2)),
    if_neg hone, if_neg (fun hc => hc (DoubleInt.lt_iff.2 hlt))]

/-- A divisor with the rounded-up logarithm that `choose_multiplier` takes of it; the multiplier has `e` bits to spare. -/
structure Logarithm (n e l d : Nat) : Prop where
  three : 3 ≤ d
  lt : d < 2 ^ (n - 1)
  pos : 1 ≤ l
  le_pow : d ≤ 2 ^ l
  pow_lt : 2 ^ l < 2 * d
  le : l ≤ n - 1
  fits : l + e ≤ n

theorem logarithm_ceilLog2 {d : Nat} (hd : 3 ≤ d) (hlt : d < 2 ^ (n - 1)) (hfit : ceilLog2 d + e ≤ n) :
    Logarithm n e (ceilLog2 d) d where
  three := hd
  lt := hlt
  pos := one_le_ceilLog2 (by omega)
  le_pow := le_two_pow_ceilLog2 _
  pow_lt := two_pow_ceilLog2_lt (by omega)
  le := ceilLog2_le hlt.le
  fits := hfit

namespace Logarithm

variable {l s : Nat} {mlow mhigh r : DoubleInt h}

theorem three_le {d : Nat} (hl : Logarithm n e l d) : 3 ≤ n := by
  have hd := hl.three
  have hlt := hl.lt
  by_contra hc
  have : 2 ^ (n - 1) ≤ 2 ^ 1 := Nat.pow_le_pow_right (by decide) (by omega)
  omega

theorem two_mul_lt (hl : Logarithm n e l d.toNat) (hn : n ≤ h.bits) : 2 * d.toNat < 2 ^ h.bits := by
  have hthree := hl.three_le
  have hlt := hl.lt
  have hnb : 2 ^ n ≤ 2 ^ h.bits := Nat.pow_le_pow_right (by decide) hn
  have hpow : 2 ^ n = 2 * 2 ^ (n - 1) := by
    rw [← Nat.pow_succ']
    congr 1
    omega
  omega

theorem num_toNat {d : Nat} (hl : Logarithm n e l d) (hn : n ≤ h.bits) :
    (powDoubleOr h (n + l) (n + l - (n - e))).toNat = 2 ^ (n + l) + 2 ^ (l + e) := by
  have hthree := hl.three_le
  have hpos := hl.pos
  have hle := hl.le
  have hfits := hl.fits
  rw [powDoubleOr_toNat (by omega) (by omega), show n + l - (n - e) = l + e by omega]

/-- The two bounds before the loop. -/
theorem bounds (hl : Logarithm n e l d.toNat) (hn : n ≤ h.bits) :
    Bounds n e d.toNat l ((powDouble h (n + l)).divAndRoundDouble d)
      ((powDoubleOr h (n + l) (n + l - (n - e))).divAndRoundDouble d) := by
  have hthree := hl.three_le
  have hle := hl.le
  have hpos : 0 < d.toNat := by have := hl.three; omega
  have hdiv := hl.two_mul_lt hn
  have hlow : ((powDouble h (n + l)).divAndRoundDouble d).toNat = lower n d.toNat l := by
    rw [DoubleInt.divAndRoundDouble_toNat _ hpos hdiv, powDouble_toNat (by omega), lower]
  have hhigh : ((powDoubleOr h (n + l) (n + l - (n - e))).divAndRoundDouble d).toNat =
      upper n e d.toNat l := by
    rw [DoubleInt.divAndRoundDouble_toNat _ hpos hdiv, hl.num_toNat hn, upper]
  have hgap := lower_add_le_upper (n := n) (e := e) hpos hl.le_pow
  have hepos := Nat.two_pow_pos e
  have hnb : 2 ^ n ≤ 2 ^ h.bits := Nat.pow_le_pow_right (by decide) hn
  have huplt := upper_lt hl.pos hl.fits hl.pow_lt
  rw [Nat.pow_succ'] at huplt
  exact ⟨hlow, hhigh, by omega, by omega⟩

/-- With a bit to spare there is a turn of the loop, and then the multiplier fits. -/
theorem add_one_lt {d : Nat} (hl : Logarithm n e l d) (he : 1 ≤ e)
    (hless : lower n d l + 2 ≤ upper n e d l → 0 < l → s < l) : upper n e d s + 1 < 2 ^ n := by
  have hfits := hl.fits
  have hpow := hl.pow_lt
  have h2e : 2 ^ 1 ≤ 2 ^ e := Nat.pow_le_pow_right (by decide) he
  have hgap := lower_add_le_upper (n := n) (e := e) (by have := hl.three; omega) hl.le_pow
  have hsl : s < l := hless (by omega) hl.pos
  have hsd : 2 ^ s < d := by
    have : 2 ^ (s + 1) ≤ 2 ^ l := Nat.pow_le_pow_right (by decide) hsl
    rw [Nat.pow_succ] at this
    omega
  exact upper_add_one_lt (by omega) he hl.three_le hsd

theorem add_one_ne {d : Nat} (hl : Logarithm n e l d) (hs : s ≤ l)
    (hless : lower n d l + 2 ≤ upper n e d l → 0 < l → s < l) (hlt : lower n d s < upper n e d s) :
    upper n e d s + 1 ≠ 2 ^ n := by
  have hthree := hl.three_le
  have hle := hl.le
  rcases Nat.eq_zero_or_pos e with rfl | he
  · exact upper_ne (by omega) (by omega) (by have := hl.three; omega) hl.lt.le hlt
  · exact (hl.add_one_lt he hless).ne

theorem shift_pos {d : Nat} (hl : Logarithm n e l d)
    (hless : lower n d l + 2 ≤ upper n e d l → 0 < l → s < l) (hge : 2 ^ n ≤ upper n e d s) : 0 < s := by
  have hthree := hl.three_le
  by_contra h0
  obtain rfl : s = 0 := by omega
  rcases Nat.eq_zero_or_pos e with rfl | he
  · have := upper_zero_lt (n := n) (show 2 ≤ d by have := hl.three; omega) (by omega)
    omega
  · have := hl.add_one_lt he hless
    omega

/-- The first division does not overflow. -/
theorem num_high_sub_lt (hl : Logarithm n e l d.toNat) (hn : n ≤ h.bits)
    (hne : ((powDoubleOr h (n + l) (n + l - (n - e))).divAndRoundDouble d).high ≠ 0) :
    (powDoubleOr h (n + l) (n + l - (n - e))).high - d < d := by
  have hb := hl.bounds hn
  have hnum := hl.num_toNat hn
  generalize (powDoubleOr h (n + l) (n + l - (n - e))).divAndRoundDouble d = mhigh at hne hb
  generalize powDoubleOr h (n + l) (n + l - (n - e)) = num at hnum ⊢
  have hpos : 0 < d.toNat := by have := hl.three; omega
  have h1 : 0 < mhigh.high.toNat := Nat.pos_of_ne_zero fun hc => hne (BitVec.eq_of_toNat_eq hc)
  rw [mhigh.high_eq, hb.high, Nat.div_pos_iff, upper, ← hnum, Nat.le_div_iff_mul_le hpos] at h1
  have h2 : d.toNat ≤ num.high.toNat := by
    rw [num.high_eq, Nat.le_div_iff_mul_le (Nat.two_pow_pos _), Nat.mul_comm]
    exact h1.2
  have h3 : num.high.toNat < 2 * d.toNat := by
    have hnb : 2 ^ n ≤ 2 ^ h.bits := Nat.pow_le_pow_right (by decide) hn
    have hnumlt := upper_num_lt hl.pos hl.fits hl.pow_lt
    rw [num.high_eq, Nat.div_lt_iff_lt_mul (Nat.two_pow_pos _), hnum]
    have h4 := Nat.mul_le_mul_right (2 * d.toNat) hnb
    rw [Nat.pow_succ', Nat.mul_right_comm, Nat.mul_comm] at hnumlt
    rw [Nat.mul_comm (2 * d.toNat)]
    omega
  rw [BitVec.lt_def, BitVec.toNat_sub_of_le (BitVec.le_def.2 h2)]
  omega

end Logarithm

theorem Bounds.high_le_one {s d : Nat} {mlow mhigh : DoubleInt h} (hb : Bounds n e d s mlow mhigh) :
    ¬(mhigh.high > 1 ∨ mlow.high > 1) := by
  have hhalf : ∀ x : DoubleInt h, x.toNat < 2 * 2 ^ h.bits → ¬x.high > 1 := by
    intro x hx hgt
    have h1 := BitVec.lt_def.1 hgt
    rw [toNat_one, x.high_eq] at h1
    have h2 := (Nat.le_div_iff_mul_le (Nat.two_pow_pos _)).1 (Nat.succ_le_of_lt h1)
    omega
  rintro (hc | hc)
  · exact hhalf _ hb.small hc
  · exact hhalf _ (hb.lt.trans hb.small) hc

section Returned

variable {r : DoubleInt h}

/-- A multiplier in fewer bits than a host word has its top bit in the low word, where it is masked off. -/
theorem masked_toNat (hlt : n < h.bits) (hsmall : r.toNat < 2 * 2 ^ n) :
    (r.low &&& (h.bit n - 1)).toNat = r.toNat % 2 ^ n ∧
      (r.toNat + 1 ≠ 2 ^ n → (r.low ≥ h.bit n - 1 ↔ 2 ^ n ≤ r.toNat)) := by
  have hbits : 2 * 2 ^ n ≤ 2 ^ h.bits := by
    rw [← Nat.pow_succ']
    exact Nat.pow_le_pow_right (by decide) hlt
  have hlow : r.low.toNat = r.toNat := by
    rw [r.low_eq]
    exact Nat.mod_eq_of_lt (by omega)
  have hmask : (h.bit n - 1).toNat = 2 ^ n - 1 := by
    have hbit := bit_toNat hlt
    have := Nat.two_pow_pos n
    rw [BitVec.toNat_sub_of_le (by rw [BitVec.le_def, toNat_one, hbit]; omega), hbit, toNat_one]
  refine ⟨?_, fun hne => ?_⟩
  · rw [BitVec.toNat_and, hlow, hmask, Nat.and_two_pow_sub_one_eq_mod]
  · rw [ge_iff_le, BitVec.le_def, hmask, hlow]
    omega

theorem topBit_ne_zero_iff (p : Prop) [Decidable p] : (if p then 1 else 0 : BitVec h.bits) ≠ 0 ↔ p := by
  have hne : (1 : BitVec h.bits) ≠ 0 := by
    rw [← BitVec.toNat_ne_iff_ne, toNat_one, toNat_zero]
    exact Nat.one_ne_zero
  split
  · next hp => exact iff_of_true hne hp
  · next hp => exact iff_of_false (fun hf => hf rfl) hp

theorem high_ne_zero_iff : r.high ≠ 0 ↔ 2 ^ h.bits ≤ r.toNat := by
  rw [← BitVec.toNat_ne_iff_ne, r.high_eq, toNat_zero, Nat.div_ne_zero_iff]
  have := Nat.two_pow_pos h.bits
  omega

end Returned

theorem chooseMultiplier_spec (hn : n ≤ h.bits) (hd : 3 ≤ d.toNat) (hlt : d.toNat < 2 ^ (n - 1))
    (hfit : ceilLog2 d.toNat + e ≤ n) :
    ∃ r, chooseMultiplier d n (n - e) = some r ∧ ∃ m, r.Describes d.toNat n e m := by
  have hwide := h.wide
  have hl := logarithm_ceilLog2 hd hlt hfit
  have hb := hl.bounds hn
  have hthree := hl.three_le
  have hle := hl.le
  obtain ⟨s, hs, mlow, r, hred, hb', hless⟩ := reduceToLowest_spec _ hb
  -- the multiplier after the loop
  have hsmall : r.toNat < 2 * 2 ^ n := by
    have hmono := upper_mono n e d.toNat hs
    have huplt := upper_lt hl.pos hl.fits hl.pow_lt
    rw [Nat.pow_succ'] at huplt
    rw [hb'.high]
    omega
  have hbelow : lower n d.toNat s < upper n e d.toNat s := by
    rw [← hb'.low, ← hb'.high]
    exact hb'.lt
  have hrecip : Reciprocal d.toNat (n - e) r.toNat (n + s) := by
    rw [hb'.high]
    exact reciprocal_upper (by omega) (by omega) hbelow
  have hfits : 1 ≤ e → r.toNat < 2 ^ n := by
    intro he
    have := hl.add_one_lt he hless
    rw [hb'.high]
    omega
  have hshift : 2 ^ n ≤ r.toNat → 0 < s := by
    rw [hb'.high]
    exact hl.shift_pos hless
  rw [chooseMultiplier_eq rfl rfl rfl rfl hred (by omega) (by omega) (hl.num_high_sub_lt hn)
    hb.high_le_one hb.lt]
  split
  · next hnlt =>
    obtain ⟨hlow, htop⟩ := masked_toNat hnlt hsmall
    have hne : r.toNat + 1 ≠ 2 ^ n := by
      rw [hb'.high]
      exact hl.add_one_ne hs hless hbelow
    exact ⟨_, rfl, r.toNat, hrecip, hlow, (topBit_ne_zero_iff _).trans (htop hne), hsmall, hfits, hshift⟩
  · next hnlt =>
    obtain rfl : n = h.bits := by omega
    exact ⟨_, rfl, r.toNat, hrecip, r.low_eq, high_ne_zero_iff, hsmall, hfits, hshift⟩

end Choose

end Z80Gcc
