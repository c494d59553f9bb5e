import Z80Gcc.Proofs.DivUnsigned

/-! The signed sequences of `expand_divmod` that round towards zero. -/

namespace Z80Gcc

open Z80Gcc.InvariantDiv Z80Gcc.PowerOfTwo

section Signed

variable {h : Host} {w : Nat}

theorem ashiftrt_toInt (x : DivExpr w) (k : Nat) (n : BitVec w) :
    ((DivExpr.ashiftrt x k).eval n).toInt = (x.eval n).toInt / 2 ^ k := by
  rw [DivExpr.eval, BitVec.toInt_sshiftRight, Int.shiftRight_eq_div_pow]
  norm_cast

theorem two_pow_pred (hw : 0 < w) : (2 : Int) ^ w = 2 * 2 ^ (w - 1) := by
  rw [← Int.pow_succ', Nat.sub_one_add_one hw.ne']

theorem toInt_range (x : BitVec w) : -2 ^ (w - 1) ≤ x.toInt ∧ x.toInt < 2 ^ (w - 1) :=
  ⟨BitVec.le_toInt x, BitVec.toInt_lt⟩

theorem toInt_ofInt_of_range (hw : 0 < w) {x : Int} (hlo : -2 ^ (w - 1) ≤ x)
    (hhi : x < 2 ^ (w - 1)) : (BitVec.ofInt w x).toInt = x :=
  BitVec.toInt_ofInt_eq_self hw hlo hhi

theorem sign_toInt (x : DivExpr w) (n : BitVec w) :
    ((DivExpr.ashiftrt x (w - 1)).eval n).toInt = if (x.eval n).toInt < 0 then -1 else 0 := by
  obtain ⟨hlo, hhi⟩ := toInt_range (x.eval n)
  have hpos : (0 : Int) < 2 ^ (w - 1) := by positivity
  rw [ashiftrt_toInt]
  split
  · next hneg => exact Int.ediv_eq_neg_one_of_neg_of_le hneg (by omega)
  · next hneg => exact Int.ediv_eq_zero_of_lt (by omega) hhi

theorem smulHighpart_toInt (hw : 0 < w) (x y : DivExpr w) (n : BitVec w) :
    ((DivExpr.smulHighpart x y).eval n).toInt = (x.eval n).toInt * (y.eval n).toInt / 2 ^ w := by
  obtain ⟨hxlo, hxhi⟩ := toInt_range (x.eval n)
  obtain ⟨hylo, hyhi⟩ := toInt_range (y.eval n)
  have hpos : (0 : Int) < 2 ^ (w - 1) := by positivity
  have hle : |(x.eval n).toInt * (y.eval n).toInt| ≤ 2 ^ (w - 1) * 2 ^ (w - 1) := by
    rw [abs_mul]
    exact mul_le_mul (abs_le.2 ⟨hxlo, hxhi.le⟩) (abs_le.2 ⟨hylo, hyhi.le⟩) (abs_nonneg _) hpos.le
  obtain ⟨hlo, hhi⟩ := abs_le.1 hle
  refine toInt_ofInt_of_range hw ?_ ?_
  · rw [Int.le_ediv_iff_mul_le (by positivity), two_pow_pred hw]
    nlinarith
  · rw [Int.ediv_lt_iff_lt_mul (by positivity), two_pow_pred hw]
    nlinarith

theorem sub_ofInt (x : BitVec w) (v : Int) :
    x - BitVec.ofInt w v = BitVec.ofInt w (x.toInt - v) := by
  rw [Int.sub_eq_add_neg, BitVec.ofInt_add, BitVec.ofInt_neg, BitVec.ofInt_toInt,
    BitVec.sub_eq_add_neg]

theorem sub_eq_ofInt (x y : BitVec w) : x - y = BitVec.ofInt w (x.toInt - y.toInt) := by
  rw [Int.sub_eq_add_neg, BitVec.ofInt_add, BitVec.ofInt_neg, BitVec.ofInt_toInt,
    BitVec.ofInt_toInt, BitVec.sub_eq_add_neg]

/-- A signed quotient by the divisor, or for the remainder by its opposite. -/
theorem signed_finish {rem : Bool} {n c c' q : BitVec w} {d' : Int}
    (hd' : d' = c.toInt ∨ rem = true ∧ d' = -c.toInt) (hc' : c' = BitVec.ofInt w d')
    (hq : q = BitVec.ofInt w (n.toInt.tdiv d')) :
    (if rem then n - q * c' else q) = DivCode.trunc.result rem false n c := by
  have hres : DivCode.trunc.quotient false n c = n.toInt.tdiv c.toInt := rfl
  rw [DivCode.result, hres]
  rcases hd' with rfl | ⟨rfl, rfl⟩
  · rw [hc', hq, BitVec.ofInt_toInt]
  · rw [if_pos rfl, if_pos rfl, hc', hq, Int.tdiv_neg, BitVec.ofInt_neg, BitVec.ofInt_neg,
      BitVec.neg_mul_neg, BitVec.ofInt_toInt]

theorem toNat_eq_of_toInt_neg {x : BitVec w} (hx : x.toInt < 0) : (x.toNat : Int) = x.toInt + 2 ^ w := by
  have := BitVec.toInt_eq_toNat_cond x
  split at this <;> push_cast at this <;> omega

section Divisor

variable {c : BitVec w} {d : BitVec h.bits}

theorem absWord_toNat (d : BitVec h.bits) : (absWord d).toNat = d.toInt.natAbs := by
  unfold absWord
  have hmsb := BitVec.msb_eq_toInt (x := d)
  cases hm : d.msb with
  | false =>
    rw [hm] at hmsb
    have : ¬d.toInt < 0 := by simpa using hmsb.symm
    have hpos := BitVec.toInt_eq_toNat_of_msb hm
    simp only [Bool.false_eq_true, if_false]
    omega
  | true =>
    rw [hm] at hmsb
    have hneg : d.toInt < 0 := by simpa using hmsb.symm
    have heq := toNat_eq_of_toInt_neg hneg
    simp only [if_true]
    have h1 := d.isLt
    have h2 : 0 < d.toNat := by
      have := BitVec.toNat_ge_of_msb_true hm
      have := Nat.two_pow_pos (h.bits - 1)
      omega
    rw [BitVec.toNat_neg, Nat.mod_eq_of_lt (by omega)]
    have h3 : ((2 ^ h.bits : Nat) : Int) = 2 ^ h.bits := by norm_cast
    omega

theorem setWidth_eq_ofInt (hw : w ≤ h.bits) (d : BitVec h.bits) :
    d.setWidth w = BitVec.ofInt w d.toInt := by
  apply BitVec.eq_of_toInt_eq
  rw [BitVec.toInt_setWidth, BitVec.toInt_ofInt, BitVec.toInt_eq_toNat_bmod]
  refine (Int.bmod_bmod_of_dvd ?_).symm
  exact Nat.pow_dvd_pow 2 hw

theorem remDivisor_natAbs (rem : Bool) (d : BitVec h.bits) :
    (remDivisor rem d).toInt.natAbs = d.toInt.natAbs := by
  unfold remDivisor
  split
  · have habs := absWord_toNat d
    obtain ⟨hlo, hhi⟩ := toInt_range d
    have hpow := h.pow_bits
    have hmax : d.toInt.natAbs ≤ 2 ^ (h.bits - 1) := by
      zify
      exact abs_le.2 ⟨hlo, hhi.le⟩
    rw [BitVec.toInt_eq_toNat_cond]
    split <;> omega
  · rfl

theorem remDivisor_toInt (rem : Bool) (hlt : d.toInt.natAbs < 2 ^ (h.bits - 1)) :
    (remDivisor rem d).toInt = d.toInt ∨ rem = true ∧ (remDivisor rem d).toInt = -d.toInt := by
  unfold remDivisor
  split
  · next hc =>
    simp only [Bool.and_eq_true] at hc
    have hneg : d.toInt < 0 := by simpa [hc.2] using (BitVec.msb_eq_toInt (x := d)).symm
    have habs := absWord_toNat d
    refine .inr ⟨hc.1, ?_⟩
    rw [BitVec.toInt_eq_toNat_of_lt (by rw [habs, h.pow_bits]; omega), habs]
    omega
  · exact .inl rfl

end Divisor

section Quotient

variable {op0 : DivExpr w} {l : Nat} {n : BitVec w}

theorem biased_shift {x b : BitVec w} (hl : l < w)
    (hb : b.toInt = if x.toInt < 0 then 2 ^ l - 1 else 0) :
    (x + b).sshiftRight l = BitVec.ofInt w (x.toInt.tdiv (2 ^ l)) := by
  obtain ⟨hlo, hhi⟩ := toInt_range x
  have hle : (2 : Int) ^ l ≤ 2 ^ (w - 1) := by
    exact_mod_cast Nat.pow_le_pow_right (by decide : 0 < 2) (by omega : l ≤ w - 1)
  have hpos : (0 : Int) < 2 ^ l := by positivity
  have hsum : (x + b).toInt = x.toInt + if x.toInt < 0 then 2 ^ l - 1 else 0 := by
    rw [← hb, BitVec.toInt_add, ← BitVec.toInt_ofInt]
    refine toInt_ofInt_of_range (by omega) ?_ ?_ <;> rw [hb] <;> split <;> omega
  rw [← BitVec.ofInt_toInt (x := (x + b).sshiftRight l), BitVec.toInt_sshiftRight,
    Int.shiftRight_eq_div_pow, hsum]
  push_cast
  rw [bias_ediv hpos]

theorem incIfNeg_quotient (hl : l < w) {k : BitVec w} (hk : k.toInt = 2 ^ l - 1) :
    (DivExpr.ashiftrt (.incIfNeg op0 (.const k)) l).eval n =
      BitVec.ofInt w ((op0.eval n).toInt.tdiv (2 ^ l)) := by
  simp only [DivExpr.eval, BitVec.msb_eq_toInt, decide_eq_true_eq]
  split
  · next hneg => exact biased_shift hl (by rw [hk, if_pos hneg])
  · next hneg =>
    have hzero := biased_shift (x := op0.eval n) (b := 0#w) hl
      (by rw [if_neg hneg]; exact BitVec.toInt_zero)
    rwa [BitVec.add_zero] at hzero

theorem sign_toNat (x : DivExpr w) (n : BitVec w) :
    ((DivExpr.ashiftrt x (w - 1)).eval n).toNat =
      if (x.eval n).toInt < 0 then 2 ^ w - 1 else 0 := by
  have hsign := sign_toInt x n
  split at hsign
  · next hneg =>
    have hnat := toNat_eq_of_toInt_neg (hsign ▸ (by decide : (-1 : Int) < 0))
    have hcast : ((2 ^ w : Nat) : Int) = 2 ^ w := by norm_cast
    have := Nat.two_pow_pos w
    rw [if_pos hneg]
    omega
  · next hneg =>
    rw [if_neg hneg, BitVec.eq_of_toInt_eq (hsign.trans BitVec.toInt_zero.symm)]
    exact BitVec.toNat_zero

theorem mask_quotient (hl : l < w) :
    (DivExpr.ashiftrt (.plus op0 (.lshiftrt (.ashiftrt op0 (w - 1)) (w - l))) l).eval n =
      BitVec.ofInt w ((op0.eval n).toInt.tdiv (2 ^ l)) := by
  have hle := Nat.pow_le_pow_right (by decide : 0 < 2) (by omega : l ≤ w - 1)
  have hpos := Nat.two_pow_pos l
  have hw2 : 2 ^ w = 2 * 2 ^ (w - 1) := by
    rw [← Nat.pow_succ', Nat.succ_eq_add_one, Nat.sub_one_add_one (by omega)]
  have hdiv : (2 ^ w - 1) / 2 ^ (w - l) = 2 ^ l - 1 := by
    have hsplit : 2 ^ l * 2 ^ (w - l) = 2 ^ w := by
      rw [← Nat.pow_add, Nat.add_sub_cancel' hl.le]
    have hpos' := Nat.two_pow_pos (w - l)
    apply Nat.div_eq_of_lt_le
    · rw [Nat.sub_one_mul, hsplit]
      omega
    · rw [Nat.sub_add_cancel hpos, hsplit]
      omega
  have hbias : ((DivExpr.lshiftrt (.ashiftrt op0 (w - 1)) (w - l)).eval n).toNat =
      if (op0.eval n).toInt < 0 then 2 ^ l - 1 else 0 := by
    rw [lshiftrt_toNat, sign_toNat]
    split
    · exact hdiv
    · exact Nat.zero_div _
  refine biased_shift hl ?_
  have hlt : ((DivExpr.lshiftrt (.ashiftrt op0 (w - 1)) (w - l)).eval n).toNat < 2 ^ (w - 1) := by
    rw [hbias]
    split <;> omega
  rw [BitVec.toInt_eq_toNat_of_lt (by omega), hbias]
  split
  · rw [Int.natCast_sub hpos]
    norm_cast
  · rfl

variable {m a post : Nat}

/-- The high half of the product with a multiplier below half the range. -/
theorem mult_small (hw : 0 < w) {k : BitVec w} (hk : k.toInt = m) :
    ((DivExpr.ashiftrt (.smulHighpart op0 (.const k)) post).eval n).toInt =
      (op0.eval n).toInt * m / 2 ^ (w + post) := by
  rw [ashiftrt_toInt, smulHighpart_toInt hw, DivExpr.eval, hk, Int.ediv_ediv_of_nonneg (by positivity),
    ← Int.pow_add]

/-- A larger multiplier counts as negative; the dividend is added to make up for it. -/
theorem mult_big (hw : 0 < w) {k : BitVec w} (hm : m < 2 ^ w) (hk : k.toInt = m - 2 ^ w) :
    ((DivExpr.ashiftrt (.plus (.smulHighpart op0 (.const k)) op0) post).eval n).toInt =
      (op0.eval n).toInt * m / 2 ^ (w + post) := by
  have hpos : (0 : Int) < 2 ^ w := by positivity
  have hhigh : ((DivExpr.smulHighpart op0 (.const k)).eval n).toInt =
      (op0.eval n).toInt * m / 2 ^ w - (op0.eval n).toInt := by
    rw [smulHighpart_toInt hw, DivExpr.eval, hk, Int.mul_sub, Int.sub_eq_add_neg,
      ← Int.neg_mul, Int.add_mul_ediv_right _ _ hpos.ne']
    omega
  obtain ⟨hlo, hhi⟩ := toInt_range (op0.eval n)
  have hmz : (m : Int) < 2 ^ w := by exact_mod_cast hm
  have hsum : ((DivExpr.plus (.smulHighpart op0 (.const k)) op0).eval n).toInt =
      (op0.eval n).toInt * m / 2 ^ w := by
    rw [show (DivExpr.plus (.smulHighpart op0 (.const k)) op0).eval n =
      (DivExpr.smulHighpart op0 (.const k)).eval n + op0.eval n from rfl, BitVec.toInt_add, hhigh,
      Int.sub_add_cancel, ← BitVec.toInt_ofInt]
    refine toInt_ofInt_of_range hw ?_ ?_
    · rw [Int.le_ediv_iff_mul_le hpos]
      nlinarith
    · rw [Int.ediv_lt_iff_lt_mul hpos]
      nlinarith
  rw [ashiftrt_toInt, hsum, Int.ediv_ediv_of_nonneg (by positivity), ← Int.pow_add]

end Quotient

section Trunc

variable {c : BitVec w} {d : BitVec h.bits} {op0 : DivExpr w}

theorem IsIntval.toInt_eq (hw : w ≤ h.bits) (hop : IsIntval false c d) : d.toInt = c.toInt := by
  obtain rfl | ⟨hf, -⟩ := hop
  · exact BitVec.toInt_signExtend_of_le hw
  · contradiction

theorem toInt_of_natAbs_min (hmin : c.toInt.natAbs = 2 ^ (w - 1)) : c.toInt = -2 ^ (w - 1) := by
  obtain ⟨-, hhi⟩ := toInt_range c
  zify at hmin
  rcases abs_choice c.toInt with h1 | h1 <;> omega

theorem remDivisor_setWidth_min {rem : Bool} (hw : w ≤ h.bits) (hw0 : 0 < w)
    (hop : IsIntval false c d) (hmin : c.toInt.natAbs = 2 ^ (w - 1)) :
    (remDivisor rem d).setWidth w = c := by
  unfold remDivisor
  split
  · have hval := toInt_of_natAbs_min hmin
    have hpos : (0 : Int) < 2 ^ (w - 1) := by positivity
    have hnat := toNat_eq_of_toInt_neg (x := c) (by omega)
    have hw2 := two_pow_pred hw0
    have hlt : 2 ^ (w - 1) < 2 ^ w := Nat.pow_lt_pow_right (by decide) (by omega)
    apply BitVec.eq_of_toNat_eq
    rw [BitVec.toNat_setWidth, absWord_toNat, hop.toInt_eq hw, hmin, Nat.mod_eq_of_lt hlt]
    zify
    omega
  · exact hop.setWidth hw

/-- A quotient by the most negative constant is one or zero. -/
theorem eq_quotient_min {x : BitVec w} (hmin : c.toInt.natAbs = 2 ^ (w - 1)) :
    (if x = c then 1 else 0) = BitVec.ofInt w (x.toInt.tdiv c.toInt) := by
  obtain ⟨hlo, hhi⟩ := toInt_range x
  have hpos : (0 : Int) < 2 ^ (w - 1) := by positivity
  have hval := toInt_of_natAbs_min hmin
  split
  · next heq => rw [heq, Int.tdiv_self (by omega)]; rfl
  · next hne =>
    have hne' : x.toInt ≠ c.toInt := fun heq => hne (BitVec.eq_of_toInt_eq heq)
    have hzero : x.toInt.tdiv c.toInt = 0 := by
      rw [hval, Int.tdiv_neg, Int.neg_eq_zero]
      rcases lt_or_ge x.toInt 0 with hneg | hnonneg
      · rw [← Int.neg_neg x.toInt, Int.neg_tdiv, Int.tdiv_eq_zero_of_lt (by omega) (by omega)]
        rfl
      · exact Int.tdiv_eq_zero_of_lt hnonneg hhi
    rw [hzero]
    rfl

theorem toInt_one : (1 : BitVec h.bits).toInt = 1 := by
  have hwide := h.wide
  exact BitVec.toInt_one (by omega)

theorem toInt_neg_one {w : Nat} (hw : 0 < w) : (-1 : BitVec w).toInt = -1 := by
  have hall : (-1 : BitVec w) = BitVec.allOnes w := BitVec.neg_one_eq_allOnes
  rw [hall, BitVec.toInt_allOnes, if_pos hw]

/-- A finished sequence for the divisor after "n rem d = n rem -d". -/
theorem finish_signed {rem : Bool} {q : DivExpr w} (hw : w ≤ h.bits)
    (hd : (remDivisor rem d).toInt = c.toInt ∨
      rem = true ∧ (remDivisor rem d).toInt = -c.toInt)
    (hq : ∀ n, q.eval n =
      BitVec.ofInt w ((op0.eval n).toInt.tdiv (remDivisor rem d).toInt)) :
    (finishDivmod rem op0 q (.const ((remDivisor rem d).setWidth w))).Computes fun n =>
      DivCode.trunc.result rem false (op0.eval n) c := by
  refine finish_computes fun n => ?_
  exact signed_finish hd (setWidth_eq_ofInt hw _) (hq n)

theorem truncPow2_eval (t : DivTarget) {absD : BitVec h.bits} {l : Nat} (hl : l + 1 < w)
    (habs : absD.toNat = 2 ^ l) (n : BitVec w) :
    (truncPow2 t op0 absD).eval n = BitVec.ofInt w ((op0.eval n).toInt.tdiv (2 ^ l)) := by
  unfold truncPow2
  simp only [habs, floorLog2_two_pow]
  split
  · refine incIfNeg_quotient (by omega) ?_
    have hpos := Nat.two_pow_pos l
    have hle : 2 ^ (l + 1) < 2 ^ w := Nat.pow_lt_pow_right (by decide) hl
    rw [Nat.pow_succ] at hle
    have hpred : (absD - 1).toNat = 2 ^ l - 1 := by
      rw [BitVec.toNat_sub_of_le (by rw [BitVec.le_def, toNat_one, habs]; exact hpos), habs, toNat_one]
    have hset : ((absD - 1).setWidth w).toNat = 2 ^ l - 1 := by
      rw [BitVec.toNat_setWidth, hpred]
      exact Nat.mod_eq_of_lt (by omega)
    rw [BitVec.toInt_eq_toNat_of_lt (by omega), hset, Int.natCast_sub hpos]
    norm_cast
  · exact mask_quotient (by omega)

/-- `ml |= (~(unsigned HOST_WIDE_INT) 0) << (size - 1)` sets no new bit of the mode. -/
theorem or_allOnes_setWidth (hw : w ≤ h.bits) {ml : BitVec h.bits}
    (hml : 2 ^ (w - 1) ≤ (ml.setWidth w).toNat) :
    (ml ||| BitVec.allOnes h.bits <<< (w - 1)).setWidth w = ml.setWidth w := by
  have hmsb : (ml.setWidth w).msb = true := by
    rw [BitVec.msb_eq_decide]
    exact decide_eq_true hml
  apply BitVec.eq_of_getLsbD_eq
  intro i hi
  have hib : i < h.bits := by omega
  rcases Nat.lt_or_ge i (w - 1) with hlt | hge
  · simp [hlt, - BitVec.getLsbD_eq_getElem]
  · obtain rfl : i = w - 1 := by omega
    have hbit : ml.getLsbD (w - 1) = true := by
      rw [BitVec.msb_eq_getLsbD_last, BitVec.getLsbD_setWidth] at hmsb
      simpa [hi, - BitVec.getLsbD_eq_getElem] using hmsb
    simp [hbit, hi, - BitVec.getLsbD_eq_getElem]

theorem truncMultiply_eval (hw : w ≤ h.bits) (hw0 : 0 < w) {r : Multiplier h} {a m : Nat}
    (hr : r.Describes a w 1 m) (negative : Bool) (n : BitVec w) :
    (truncMultiply op0 negative r).eval n =
      BitVec.ofInt w ((op0.eval n).toInt.tdiv (if negative then -a else a)) := by
  have hm := hr.fits (Nat.le_refl 1)
  have hml : r.ml.toNat = m := hr.low.trans (Nat.mod_eq_of_lt hm)
  have hbit : (h.bit (w - 1)).toNat = 2 ^ (w - 1) := bit_toNat (by omega)
  have hset : (r.ml.setWidth w).toNat = m := by
    rw [BitVec.toNat_setWidth, hml]
    exact Nat.mod_eq_of_lt hm
  have hw2 : 2 ^ w = 2 * 2 ^ (w - 1) := by
    rw [← Nat.pow_succ', Nat.succ_eq_add_one, Nat.sub_one_add_one hw0.ne']
  -- the shifted product
  have ht3 : ∀ t3 : DivExpr w, t3 = (if r.ml < h.bit (w - 1) then
        .ashiftrt (.smulHighpart op0 (.const (r.ml.setWidth w))) r.postShift
      else .ashiftrt (.plus (.smulHighpart op0
        (.const ((r.ml ||| BitVec.allOnes h.bits <<< (w - 1)).setWidth w))) op0) r.postShift) →
      (t3.eval n).toInt = (op0.eval n).toInt * m / 2 ^ (w + r.postShift) := by
    rintro t3 rfl
    split
    · next hlt =>
      rw [BitVec.lt_def, hml, hbit] at hlt
      refine mult_small hw0 ?_
      rw [BitVec.toInt_eq_toNat_of_lt (by omega), hset]
    · next hlt =>
      rw [BitVec.lt_def, hml, hbit] at hlt
      rw [or_allOnes_setWidth hw (by omega)]
      refine mult_big hw0 hm ?_
      rw [BitVec.toInt_eq_toNat_cond, if_neg (by omega), hset]
      norm_cast
  have ht4 := sign_toInt op0 n
  obtain ⟨hlo, hhi⟩ := toInt_range (op0.eval n)
  have hdiv := hr.recip.tdiv_eq hlo hhi
  unfold truncMultiply
  extract_lets t4 ml t1 t3
  replace ht3 := ht3 t3 rfl
  have ht4 : (t4.eval n).toInt = -(if (op0.eval n).toInt < 0 then 1 else 0) := by
    rw [ht4]
    split <;> rfl
  cases negative with
  | false =>
    simp only [Bool.false_eq_true, if_false, DivExpr.eval]
    rw [sub_eq_ofInt, ht3, ht4, Int.sub_neg, hdiv]
  | true =>
    simp only [if_true, DivExpr.eval]
    rw [sub_eq_ofInt, ht3, ht4, Int.tdiv_neg, ← hdiv, Int.neg_add, Int.sub_eq_add_neg,
      Int.add_comm]

theorem expandTruncSigned_computes (t : DivTarget) (rem : Bool) (hw : w ≤ h.bits) (hc : c ≠ 0)
    (hop : IsIntval false c d) :
    (expandTruncSigned t rem op0 d).Computes fun n =>
      DivCode.trunc.result rem false (op0.eval n) c := by
  have hwide := h.wide
  have hw0 : 0 < w := by
    by_contra h0
    obtain rfl : w = 0 := by omega
    exact hc (BitVec.eq_of_toNat_eq (by omega))
  have hdc := hop.toInt_eq hw
  have habs : (absWord d).toNat = c.toInt.natAbs := by rw [absWord_toNat, hdc]
  have hbit : (h.bit (w - 1)).toNat = 2 ^ (w - 1) := bit_toNat (by omega)
  have hrem : d.toInt.natAbs < 2 ^ (h.bits - 1) → (remDivisor rem d).toInt = c.toInt ∨
      rem = true ∧ (remDivisor rem d).toInt = -c.toInt := by
    intro hlt
    rw [← hdc]
    exact remDivisor_toInt rem hlt
  have hrabs := remDivisor_natAbs rem d
  unfold expandTruncSigned
  refine Expansion.computes_ite (fun h1 => ?_) fun h1 => ?_
  · rw [h1, toInt_one] at hrabs
    refine finish_signed hw (hrem ?_) fun n => ?_
    · rw [← hrabs]
      exact Nat.one_lt_two_pow (by omega)
    · rw [h1, toInt_one, Int.tdiv_one, BitVec.ofInt_toInt]
  refine Expansion.computes_ite (fun h2 => ?_) fun h2 => ?_
  · rw [h2, toInt_neg_one (by omega)] at hrabs
    refine finish_signed hw (hrem ?_) fun n => ?_
    · rw [← hrabs]
      exact Nat.one_lt_two_pow (by omega)
    · rw [h2, toInt_neg_one (by omega), Int.tdiv_neg, Int.tdiv_one, BitVec.ofInt_neg, BitVec.ofInt_toInt]
      rfl
  refine Expansion.computes_ite (fun h3 => ?_) fun h3 => ?_
  · rw [h3, hbit] at habs
    refine Expansion.computes_ite (fun _ => ?_) fun _ => trivial
    refine finish_computes fun n => signed_finish (.inl rfl) ?_ ?_
    · exact (remDivisor_setWidth_min hw hw0 hop habs.symm).trans BitVec.ofInt_toInt.symm
    · simp only [DivExpr.eval, remDivisor_setWidth_min hw hw0 hop habs.symm]
      exact eq_quotient_min habs.symm
  -- from here on the divisor is inside the range of the host word
  have hlt : c.toInt.natAbs < 2 ^ (w - 1) := by
    obtain ⟨hlo, hhi⟩ := toInt_range c
    have hmax : c.toInt.natAbs ≤ 2 ^ (w - 1) := by
      zify
      exact abs_le.2 ⟨hlo, hhi.le⟩
    refine Nat.lt_of_le_of_ne hmax fun heq => h3 (BitVec.eq_of_toNat_eq ?_)
    rw [habs, heq, hbit]
  have hlt' : d.toInt.natAbs < 2 ^ (h.bits - 1) := by
    rw [hdc]
    exact hlt.trans_le (Nat.pow_le_pow_right (by decide) (by omega))
  have hpos : 0 < c.toInt.natAbs :=
    Int.natAbs_pos.2 fun h0 => hc (BitVec.eq_of_toInt_eq (h0.trans BitVec.toInt_zero.symm))
  have hne : absWord d ≠ 0 := fun h0 => by
    rw [h0, toNat_zero] at habs
    omega
  rw [hdc] at hrabs
  refine Expansion.computes_ite (fun _ => trivial) fun _ => ?_
  refine Expansion.computes_ite (fun hpow => ?_) fun hpow => ?_
  · obtain ⟨l, -, hl⟩ := (exactPowerOf2OrZero_iff hne).1 hpow
    rw [← habs, hl] at hrabs hlt
    have hlw : l < w - 1 := (Nat.pow_lt_pow_iff_right (by decide)).1 hlt
    refine finish_signed hw (hrem hlt') fun n => ?_
    have heval : (truncPow2 t op0 (absWord d)).eval n = _ :=
      truncPow2_eval t (by omega : l + 1 < w) hl n
    have hmsb := BitVec.msb_eq_toInt (x := remDivisor rem d)
    split
    · next hneg =>
      have hval : (remDivisor rem d).toInt = -2 ^ l := by
        have : (remDivisor rem d).toInt < 0 := by simpa [hneg] using hmsb.symm
        zify at hrabs
        rw [abs_of_neg this] at hrabs
        omega
      rw [DivExpr.eval, heval, hval, Int.tdiv_neg, BitVec.ofInt_neg]
    · next hneg =>
      have hval : (remDivisor rem d).toInt = 2 ^ l := by
        have : ¬(remDivisor rem d).toInt < 0 := by simpa [hneg] using hmsb.symm
        zify at hrabs
        rw [abs_of_nonneg (by omega)] at hrabs
        exact hrabs
      rw [heval, hval]
  refine Expansion.computes_ite (fun hnot => absurd hw hnot) fun _ => ?_
  have h3le := three_le_of_not_pow hne hpow
  rw [← habs] at hlt hrabs
  obtain ⟨r, hr, m, hm⟩ := chooseMultiplier_spec (e := 1) hw h3le hlt (by
    have := ceilLog2_le hlt.le
    omega)
  rw [hr]
  refine Expansion.computes_ite (fun _ => ?_) fun _ => trivial
  refine finish_signed hw (hrem hlt') fun n => ?_
  have hmsb := BitVec.msb_eq_toInt (x := remDivisor rem d)
  rw [truncMultiply_eval hw hw0 hm]
  congr 2
  rw [hmsb]
  simp only [decide_eq_true_eq]
  split <;> omega

end Trunc

end Signed

end Z80Gcc
