import Z80Gcc.Lib.PowerOfTwo
import Z80Gcc.Proofs.ChooseMultiplier

/-! The unsigned sequences of `expand_divmod`: shift, store flag, and multiplication with a
multiplier that fits or takes one bit more. -/

namespace Z80Gcc

open Z80Gcc.InvariantDiv Z80Gcc.PowerOfTwo

section Unsigned

variable {h : Host} {w : Nat}

theorem Expansion.computes_ite {f : BitVec w → BitVec w} {p : Prop} [Decidable p]
    {x y : Expansion w} (hx : p → x.Computes f) (hy : ¬p → y.Computes f) :
    (if p then x else y).Computes f := by
  split
  · next hp => exact hx hp
  · next hp => exact hy hp

theorem finish_computes {rem : Bool} {op0 q op1 : DivExpr w} {f : BitVec w → BitVec w}
    (hf : ∀ n, (if rem then op0.eval n - q.eval n * op1.eval n else q.eval n) = f n) :
    (finishDivmod rem op0 q op1).Computes f := by
  intro n
  rw [← hf n]
  cases rem <;> rfl

theorem umulHighpart_toNat (x y : DivExpr w) (n : BitVec w) :
    ((DivExpr.umulHighpart x y).eval n).toNat =
      (x.eval n).toNat * (y.eval n).toNat / 2 ^ w := by
  simp only [DivExpr.eval, BitVec.toNat_ofNat]
  refine Nat.mod_eq_of_lt (Nat.div_lt_of_lt_mul ?_)
  exact Nat.mul_lt_mul'' (x.eval n).isLt (y.eval n).isLt

theorem lshiftrt_toNat (x : DivExpr w) (k : Nat) (n : BitVec w) :
    ((DivExpr.lshiftrt x k).eval n).toNat = (x.eval n).toNat / 2 ^ k := by
  rw [DivExpr.eval, BitVec.toNat_ushiftRight, Nat.shiftRight_eq_div_pow]

theorem sub_mul_toNat {n c q : BitVec w} (hq : q.toNat = n.toNat / c.toNat) :
    (n - q * c).toNat = n.toNat % c.toNat := by
  have hle : q.toNat * c.toNat ≤ n.toNat := hq ▸ Nat.div_mul_le_self _ _
  have hmul : (q * c).toNat = q.toNat * c.toNat := by
    rw [BitVec.toNat_mul]
    exact Nat.mod_eq_of_lt (hle.trans_lt n.isLt)
  rw [BitVec.toNat_sub_of_le (by rw [BitVec.le_def, hmul]; exact hle), hmul, hq, Nat.mod_eq_sub,
    Nat.mul_comm]

theorem exactPowerOf2OrZero_iff {x : BitVec w} (hx : x ≠ 0) :
    exactPowerOf2OrZero x = true ↔ ∃ k < w, x.toNat = 2 ^ k := by
  rw [exactPowerOf2OrZero, beq_iff_eq, and_sub_one_eq_zero_iff hx]

variable {d : BitVec h.bits}

theorem bit_pred_toNat {k : Nat} (hk : k < h.bits) (hkw : k < w) :
    ((h.bit k - 1).setWidth w).toNat = 2 ^ k - 1 := by
  have hbit := bit_toNat hk
  have hlt : 2 ^ k < 2 ^ w := Nat.pow_lt_pow_right (by decide) hkw
  have hpos := Nat.two_pow_pos k
  rw [BitVec.toNat_setWidth, BitVec.toNat_sub_of_le
    (by rw [BitVec.le_def, toNat_one, hbit]; exact hpos), hbit, toNat_one]
  exact Nat.mod_eq_of_lt (by omega)

theorem not_two_pow (hd : d ≠ 0) (hpow : ¬exactPowerOf2OrZero d = true) (k : Nat) :
    d.toNat ≠ 2 ^ k := by
  intro hk
  have hkb : k < h.bits := (Nat.pow_lt_pow_iff_right (by decide)).1 (hk ▸ d.isLt)
  exact hpow ((exactPowerOf2OrZero_iff hd).2 ⟨k, hkb, hk⟩)

theorem three_le_of_not_pow (hd : d ≠ 0) (hpow : ¬exactPowerOf2OrZero d = true) : 3 ≤ d.toNat := by
  have h0 := not_two_pow hd hpow 0
  have h1 := not_two_pow hd hpow 1
  have h2 : d.toNat ≠ 0 := fun hz => hd (BitVec.eq_of_toNat_eq hz)
  omega

/-- The multiplier and the pre-shift serve the divisor without its low zeros. -/
theorem chooseUnsigned_spec (hw : w ≤ h.bits) (hd : 3 ≤ d.toNat) (hlt : d.toNat < 2 ^ (w - 1))
    (hpow : ∀ k, d.toNat ≠ 2 ^ k) :
    ∃ r preShift, chooseUnsigned w d = some (r, preShift) ∧ (r.mh ≠ 0 → preShift = 0) ∧
      preShift ≤ w ∧ ∃ d' m, d.toNat = 2 ^ preShift * d' ∧ r.Describes d' w preShift m := by
  obtain ⟨r, hr, m, hm⟩ := chooseMultiplier_spec (e := 0) hw hd hlt (ceilLog2_le
    (hlt.le.trans (Nat.pow_le_pow_right (by decide) (Nat.sub_le w 1))))
  rw [Nat.sub_zero] at hr
  unfold chooseUnsigned
  rw [hr, Option.bind_some]
  split
  · next hc =>
    have hd0 : d ≠ 0 := by
      rintro rfl
      simp at hd
    obtain ⟨k, hk1, hkw, hlow, d', hd'⟩ := and_neg_of_even hd0 hc.2
    rw [hlow, floorLog2_two_pow]
    have hkpos := Nat.two_pow_pos k
    have hkw' : k ≤ w - 1 := by
      have h1 : 2 ^ k ≤ d.toNat := Nat.le_of_dvd (by omega) ⟨d', hd'⟩
      exact ((Nat.pow_lt_pow_iff_right (by decide)).1 (h1.trans_lt hlt)).le
    have hshift : (d >>> k).toNat = d' := by
      rw [BitVec.toNat_ushiftRight, Nat.shiftRight_eq_div_pow, hd', Nat.mul_div_cancel_left _ hkpos]
    have hd3 : 3 ≤ d' := by
      by_contra hc3
      have hsmall : d' = 0 ∨ d' = 2 ^ 0 ∨ d' = 2 ^ 1 := by omega
      rcases hsmall with h0 | h1 | h1
      · rw [h0] at hd'
        omega
      · exact hpow (k + 0) (by rw [hd', h1, Nat.pow_add])
      · exact hpow (k + 1) (by rw [hd', h1, Nat.pow_add])
    have hle : d' ≤ d.toNat := by
      rw [hd']
      exact Nat.le_mul_of_pos_left d' hkpos
    have hlt' : d' ≤ 2 ^ (w - 1 - k) := by
      have h1 : 2 ^ k * d' < 2 ^ k * 2 ^ (w - 1 - k) := by
        rw [← hd', ← Nat.pow_add, Nat.add_sub_cancel' hkw']
        exact hlt
      exact (Nat.lt_of_mul_lt_mul_left h1).le
    have hlog := ceilLog2_le hlt'
    obtain ⟨r', hr', m', hm'⟩ := chooseMultiplier_spec (d := d >>> k) (e := k) hw
      (by rw [hshift]; exact hd3) (by rw [hshift]; omega) (by rw [hshift]; omega)
    have hmh : ¬r'.mh ≠ 0 := by
      rw [hm'.high]
      exact Nat.not_le.2 (hm'.fits hk1)
    rw [hshift] at hm'
    refine ⟨r', k, ?_, fun hc => absurd hc hmh, by omega, d', m', hd', hm'⟩
    simp only [hr', Option.bind_some, if_neg hmh]
  · exact ⟨r, 0, rfl, fun _ => rfl, Nat.zero_le w, d.toNat, m, by simp, hm⟩

theorem shift_seq {n d' pre m post : Nat} (hpre : pre ≤ w) (hn : n < 2 ^ w)
    (hrecip : Reciprocal d' (w - pre) m (w + post)) :
    n / 2 ^ pre * m / 2 ^ w / 2 ^ post = n / (2 ^ pre * d') := by
  have hlt : n / 2 ^ pre < 2 ^ (w - pre) := by
    apply Nat.div_lt_of_lt_mul
    rw [← Nat.pow_add, Nat.add_sub_cancel' hpre]
    exact hn
  rw [Nat.div_div_eq_div_mul, ← Nat.pow_add, Nat.mul_comm (n / 2 ^ pre), hrecip.div_eq hlt,
    Nat.div_div_eq_div_mul]

/-- The sequence with the extra addition, for a multiplier of one bit more. -/
theorem add_seq {n d m post : Nat} (hn : n < 2 ^ w) (hge : 2 ^ w ≤ m) (hlt : m < 2 * 2 ^ w)
    (hpost : 0 < post) (hrecip : Reciprocal d w m (w + post)) :
    n * (m % 2 ^ w) / 2 ^ w ≤ n ∧
      (n * (m % 2 ^ w) / 2 ^ w + (n - n * (m % 2 ^ w) / 2 ^ w) / 2) / 2 ^ (post - 1) = n / d := by
  obtain ⟨ml, rfl⟩ := Nat.exists_eq_add_of_le hge
  have hml : (2 ^ w + ml) % 2 ^ w = ml := by
    rw [Nat.add_mod_left]
    exact Nat.mod_eq_of_lt (by omega)
  have hle : n * ml / 2 ^ w ≤ n := by
    apply Nat.div_le_of_le_mul
    rw [Nat.mul_comm]
    exact Nat.mul_le_mul_right n (by omega)
  refine ⟨hml.symm ▸ hle, ?_⟩
  rw [hml]
  have hhalf : n * ml / 2 ^ w + (n - n * ml / 2 ^ w) / 2 = (n + n * ml / 2 ^ w) / 2 := by omega
  have hsum : n + n * ml / 2 ^ w = (2 ^ w + ml) * n / 2 ^ w := by
    rw [Nat.add_mul, Nat.mul_add_div (Nat.two_pow_pos w), Nat.mul_comm ml]
  rw [hhalf, hsum, Nat.div_div_eq_div_mul, Nat.div_div_eq_div_mul, ← hrecip.div_eq hn]
  congr 1
  rw [Nat.pow_add, ← Nat.pow_succ', Nat.succ_eq_add_one, Nat.sub_one_add_one hpost.ne']

/-- The quotient of the mode is what the unsigned sequence must give. -/
theorem udiv_finish {rem : Bool} {n c q : BitVec w} (hq : q.toNat = n.toNat / c.toNat)
    (code : DivCode) :
    (if rem then n - q * c else q) = code.result rem true n c := by
  have hv : q = BitVec.ofInt w (code.quotient true n c) := by
    apply BitVec.eq_of_toNat_eq
    unfold DivCode.quotient
    rw [hq, if_pos rfl, ← Int.natCast_ediv, BitVec.ofInt_natCast, BitVec.toNat_ofNat]
    exact (Nat.mod_eq_of_lt ((Nat.div_le_self _ _).trans_lt n.isLt)).symm
  rw [DivCode.result, ← hv]

theorem IsIntval.setWidth {u : Bool} {c : BitVec w} (hw : w ≤ h.bits) (hop : IsIntval u c d) :
    d.setWidth w = c := by
  rcases hop with rfl | ⟨-, rfl⟩
  · ext i hi
    have hi' : i < h.bits := by omega
    simp [hi, hi', BitVec.getElem_signExtend]
  · rw [BitVec.setWidth_setWidth_of_le c hw, BitVec.setWidth_eq]

/-- An unsigned constant has its value, or it is a large constant that was sign-extended. -/
theorem IsIntval.toNat_cases {c : BitVec w} (hw : w ≤ h.bits) (hop : IsIntval true c d) :
    d.toNat = c.toNat ∨ 2 ^ (w - 1) ≤ c.toNat ∧ 2 ^ (w - 1) ≤ d.toNat := by
  have hle : 2 ^ w ≤ 2 ^ h.bits := Nat.pow_le_pow_right (by decide) hw
  have hzero : (c.setWidth h.bits).toNat = c.toNat := by
    rw [BitVec.toNat_setWidth]
    exact Nat.mod_eq_of_lt (c.isLt.trans_le hle)
  rcases hop with rfl | ⟨-, rfl⟩
  · rw [BitVec.toNat_signExtend, hzero]
    cases hmsb : c.msb with
    | false => exact .inl (by simp)
    | true =>
      have hge := BitVec.toNat_ge_of_msb_true hmsb
      exact .inr ⟨hge, hge.trans (Nat.le_add_right _ _)⟩
  · exact .inl hzero

theorem expandTruncUnsigned_computes (t : DivTarget) (rem : Bool) (code : DivCode)
    (hw : w ≤ h.bits) {c : BitVec w} (hc : c ≠ 0) (hop : IsIntval true c d) :
    (expandTruncUnsigned t rem .dividend d).Computes fun n => code.result rem true n c := by
  have hset := hop.setWidth hw
  have hw0 : 0 < w := by
    by_contra h0
    obtain rfl : w = 0 := by omega
    exact hc (BitVec.eq_of_toNat_eq (by omega))
  have hd0 : d ≠ 0 := by
    rintro rfl
    exact hc (by rw [← hset]; simp)
  unfold expandTruncUnsigned
  simp only [hset]
  split
  · next hpow =>
    obtain ⟨k, hk, hdk⟩ := (exactPowerOf2OrZero_iff hd0).1 hpow
    have hck : c.toNat = 2 ^ k ∧ k < w := by
      have hmod : c.toNat = 2 ^ k % 2 ^ w := by rw [← hset, BitVec.toNat_setWidth, hdk]
      by_cases hkw : k < w
      · exact ⟨hmod.trans (Nat.mod_eq_of_lt (Nat.pow_lt_pow_right (by decide) hkw)), hkw⟩
      · rw [Nat.mod_eq_zero_of_dvd (Nat.pow_dvd_pow 2 (Nat.le_of_not_lt hkw))] at hmod
        exact absurd (BitVec.eq_of_toNat_eq hmod) hc
    obtain ⟨hck, hkw⟩ := hck
    rw [hdk, floorLog2_two_pow]
    split
    · next hrem =>
      intro n
      subst hrem
      have hq : (n / c).toNat = n.toNat / c.toNat := BitVec.toNat_udiv
      have hres : _ = code.result true true n c := udiv_finish hq code
      rw [if_pos rfl] at hres
      refine Eq.trans (BitVec.eq_of_toNat_eq ?_) hres
      rw [sub_mul_toNat hq, hck]
      simp only [DivExpr.eval, BitVec.toNat_and, bit_pred_toNat hk hkw, Nat.and_two_pow_sub_one_eq_mod]
    · next hrem =>
      refine finish_computes fun n => ?_
      refine udiv_finish ?_ code
      simp only [DivExpr.eval, BitVec.toNat_ushiftRight, Nat.shiftRight_eq_div_pow, hck]
  · next hpow =>
    have hnotpow := not_two_pow hd0 hpow
    have hbit : (h.bit (w - 1)).toNat = 2 ^ (w - 1) := bit_toNat (by omega)
    have hw2 : 2 ^ w = 2 * 2 ^ (w - 1) := by
      rw [← Nat.pow_succ', Nat.succ_eq_add_one, Nat.sub_one_add_one hw0.ne']
    split
    · next hge =>
      rw [ge_iff_le, BitVec.le_def, hbit] at hge
      have hcge : 2 ^ (w - 1) ≤ c.toNat := by
        rcases hop.toNat_cases hw with heq | hbig
        · omega
        · exact hbig.1
      split
      · refine finish_computes fun n => ?_
        refine udiv_finish ?_ code
        simp only [DivExpr.eval, BitVec.le_def]
        have hn := n.isLt
        split
        · next hle =>
          have : n.toNat / c.toNat = 1 := Nat.div_eq_of_lt_le (by omega) (by omega)
          rw [this]
          exact BitVec.toNat_one hw0
        · next hlt => rw [Nat.div_eq_of_lt (Nat.lt_of_not_le hlt)]; rfl
      · trivial
    · next hlt =>
      rw [ge_iff_le, BitVec.le_def, hbit, Nat.not_le] at hlt
      have hdc : d.toNat = c.toNat := by
        rcases hop.toNat_cases hw with heq | hbig
        · exact heq
        · omega
      have hd3 := three_le_of_not_pow hd0 hpow
      obtain ⟨r, pre, hr, hmh, hpre, d', m, hd', hm⟩ := chooseUnsigned_spec hw hd3 hlt hnotpow
      simp only [hr]
      have hml : (r.ml.setWidth w).toNat = m % 2 ^ w := by
        rw [BitVec.toNat_setWidth, hm.low, Nat.mod_mod]
      split
      · trivial
      split
      · next hne =>
        refine finish_computes fun n => ?_
        refine udiv_finish ?_ code
        obtain rfl := hmh hne
        have hge := hm.high.1 hne
        rw [Nat.pow_zero, Nat.one_mul] at hd'
        obtain ⟨hle, hq⟩ := add_seq n.isLt hge hm.small (hm.shifted hge) hm.recip
        have ht1 := umulHighpart_toNat .dividend (.const (r.ml.setWidth w)) n
        simp only [DivExpr.eval, hml] at ht1
        rw [lshiftrt_toNat]
        simp only [DivExpr.eval, BitVec.toNat_add, BitVec.toNat_ushiftRight,
          Nat.shiftRight_eq_div_pow, Nat.pow_one, hml]
        rw [BitVec.toNat_sub_of_le (by rw [BitVec.le_def, ht1]; exact hle), ht1,
          Nat.mod_eq_of_lt (by have := n.isLt; omega), hq, ← hdc, hd']
      · next hne =>
        refine finish_computes fun n => ?_
        refine udiv_finish ?_ code
        have hmlt : m < 2 ^ w := by
          by_contra hge
          exact hne (hm.high.2 (Nat.le_of_not_lt hge))
        rw [lshiftrt_toNat, umulHighpart_toNat, lshiftrt_toNat]
        simp only [DivExpr.eval, hml, Nat.mod_eq_of_lt hmlt]
        rw [shift_seq hpre n.isLt hm.recip, ← hd', hdc]

end Unsigned

end Z80Gcc
