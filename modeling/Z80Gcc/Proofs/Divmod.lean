import Z80Gcc.Proofs.DivSigned

/-! The sequence that `expand_divmod` builds for a constant divisor computes the rounded quotient
or the remainder of every dividend. -/

namespace Z80Gcc

open Z80Gcc.InvariantDiv

section Floor

variable {h : Host} {w : Nat}

variable {c : BitVec w} {d : BitVec h.bits}

theorem finish_floor {rem : Bool} {q : DivExpr w} (hset : d.setWidth w = c)
    (hq : ∀ n, q.eval n = BitVec.ofInt w (n.toInt.fdiv c.toInt)) :
    (finishDivmod rem .dividend q (.const (d.setWidth w))).Computes fun n =>
      DivCode.floor.result rem false n c := by
  refine finish_computes fun n => ?_
  simp only [DivExpr.eval, hset, hq]
  rfl

theorem sshiftRight_sign (x : BitVec w) :
    x.sshiftRight (w - 1) = if x.toInt < 0 then BitVec.allOnes w else 0 := by
  apply BitVec.eq_of_toNat_eq
  have hsign := sign_toNat .dividend x
  refine hsign.trans ?_
  by_cases hneg : x.toInt < 0
  · rw [if_pos hneg]
    exact (if_pos hneg).trans BitVec.toNat_allOnes.symm
  · rw [if_neg hneg]
    exact (if_neg hneg).trans BitVec.toNat_zero.symm

theorem xor_zero' (x : BitVec w) : x ^^^ (0 : BitVec w) = x := BitVec.xor_zero

theorem not_ofInt (v : Int) : ~~~BitVec.ofInt w v = BitVec.ofInt w (-v - 1) := by
  have h1 := BitVec.neg_eq_not_add (BitVec.ofInt w v)
  have h2 : 1#w + -1#w = 0#w := BitVec.add_right_neg 1#w
  have h3 : BitVec.ofInt w (-1) = -1#w := by rw [BitVec.ofInt_neg]; rfl
  rw [Int.sub_eq_add_neg, BitVec.ofInt_add, BitVec.ofInt_neg, h1, h3, BitVec.add_assoc, h2,
    BitVec.add_zero]

/-- "t2 = op0 ^ (op0 >> size - 1)" folds the negative dividends over the others. -/
theorem fold_toNat (n : BitVec w) :
    ((DivExpr.xor .dividend (.ashiftrt .dividend (w - 1))).eval n).toNat =
      if n.toInt < 0 then (-n.toInt - 1).toNat else n.toInt.toNat := by
  have hpos := Nat.two_pow_pos w
  simp only [DivExpr.eval, sshiftRight_sign]
  split
  · next hneg =>
    have hnat := toNat_eq_of_toInt_neg hneg
    have hcast : ((2 ^ w : Nat) : Int) = 2 ^ w := by norm_cast
    rw [BitVec.xor_allOnes, BitVec.toNat_not]
    omega
  · next hneg =>
    have hnat := BitVec.toInt_eq_toNat_cond n
    rw [xor_zero']
    split at hnat <;> omega

theorem floor_mask {k : Nat} (hk : k < w - 1) (hck : c.toInt = 2 ^ k) {mask : BitVec w}
    (hmask : mask.toNat = 2 ^ k - 1) (n : BitVec w) :
    n &&& mask = DivCode.floor.result true false n c := by
  have hpos : (0 : Int) < 2 ^ k := by positivity
  have hvalue : DivCode.floor.result true false n c = BitVec.ofInt w (n.toInt % 2 ^ k) := by
    have hc : c = BitVec.ofInt w (2 ^ k) := by rw [← hck, BitVec.ofInt_toInt]
    have hq : DivCode.floor.quotient false n c = n.toInt.fdiv c.toInt := rfl
    have hmul := Int.mul_ediv_add_emod n.toInt (2 ^ k)
    unfold DivCode.result
    rw [if_pos rfl, hq, hck, Int.fdiv_eq_ediv_of_nonneg _ hpos.le, hc, ← BitVec.ofInt_mul,
      sub_ofInt]
    congr 1
    rw [Int.mul_comm (n.toInt / 2 ^ k)]
    omega
  have hmod : n.toInt % 2 ^ k = (n.toNat % 2 ^ k : Nat) := by
    have hdvd : ((2 ^ k : Nat) : Int) ∣ (2 ^ w : Nat) :=
      Int.natCast_dvd_natCast.2 (Nat.pow_dvd_pow 2 (by omega))
    have hcast : ((2 ^ k : Nat) : Int) = 2 ^ k := by norm_cast
    rw [BitVec.toInt_eq_toNat_bmod, Int.natCast_emod, ← hcast, ← Int.emod_emod_of_dvd _ hdvd, Int.bmod_emod, Int.emod_emod_of_dvd _ hdvd]
  apply BitVec.eq_of_toNat_eq
  rw [hvalue, BitVec.toNat_and, hmask, Nat.and_two_pow_sub_one_eq_mod, hmod, BitVec.ofInt_natCast,
    BitVec.toNat_ofNat]
  refine (Nat.mod_eq_of_lt ?_).symm
  exact (Nat.mod_le _ _).trans_lt n.isLt

theorem floor_multiply {m a post : Nat} (hca : c.toInt = a) {k : BitVec w}
    (hk : k.toNat = m) (hrecip : Reciprocal a (w - 1) m (w + post)) (n : BitVec w) :
    (let t1 : DivExpr w := .ashiftrt .dividend (w - 1)
     let t2 := .xor .dividend t1
     let t3 := .umulHighpart t2 (.const k)
     let t4 := .lshiftrt t3 post
     DivExpr.xor t4 t1).eval n = BitVec.ofInt w (n.toInt.fdiv c.toInt) := by
  extract_lets t1 t2 t3 t4
  obtain ⟨hlo, hhi⟩ := toInt_range n
  have ha : 0 < a := Nat.pos_of_mul_pos_left hrecip.pos
  have hfold : (t2.eval n).toNat = if n.toInt < 0 then (-n.toInt - 1).toNat else n.toInt.toNat :=
    fold_toNat n
  have hlt : (t2.eval n).toNat < 2 ^ (w - 1) := by
    zify
    rw [hfold]
    split <;> omega
  have ht4 : (t4.eval n).toNat = (t2.eval n).toNat / a := by
    rw [lshiftrt_toNat, umulHighpart_toNat, DivExpr.eval, hk, Nat.div_div_eq_div_mul, ← Nat.pow_add,
      Nat.mul_comm, hrecip.div_eq hlt]
  have hval : t4.eval n = BitVec.ofInt w ((t2.eval n).toNat / a : Nat) := by
    rw [← ht4, BitVec.ofInt_natCast, BitVec.ofNat_toNat, BitVec.setWidth_eq]
  have ht1 : t1.eval n = if n.toInt < 0 then BitVec.allOnes w else 0 := sshiftRight_sign n
  rw [DivExpr.eval, ht1, hca, hval, hfold]
  split
  · next hneg =>
    rw [BitVec.xor_allOnes, fdiv_complement (by omega) hneg, not_ofInt]
    congr 2
    rw [Int.natCast_ediv, Int.toNat_of_nonneg (by omega)]
  · next hneg =>
    rw [xor_zero', Int.fdiv_eq_ediv_of_nonneg _ (by omega), Int.natCast_ediv, Int.toNat_of_nonneg (by omega)]

theorem pred_toInt (hw0 : 0 < w) {n : BitVec w} (hn : 0 < n.toInt) :
    (n + -1).toInt = n.toInt - 1 := by
  obtain ⟨hlo, hhi⟩ := toInt_range n
  rw [BitVec.toInt_add, toInt_neg_one hw0, ← BitVec.toInt_ofInt]
  exact toInt_ofInt_of_range hw0 (by omega) (by omega)

/-- "t2 = op0 | (op0 - 1)" has the sign bit for the dividends up to zero. -/
theorem or_pred_neg_iff (hw0 : 0 < w) {n : BitVec w} : (n ||| (n + -1)).toInt < 0 ↔ n.toInt ≤ 0 := by
  have hneg : ∀ x : BitVec w, x.toInt < 0 ↔ x.msb = true := by
    intro x
    rw [BitVec.msb_eq_toInt, decide_eq_true_eq]
  rw [hneg, BitVec.msb_or, Bool.or_eq_true, ← hneg, ← hneg]
  rcases lt_trichotomy n.toInt 0 with hlt | heq | hgt
  · exact iff_of_true (.inl hlt) hlt.le
  · obtain rfl : n = 0#w := BitVec.eq_of_toInt_eq (heq.trans BitVec.toInt_zero.symm)
    rw [BitVec.zero_add, toInt_neg_one hw0]
    exact iff_of_true (.inr (by decide)) heq.le
  · rw [pred_toInt hw0 hgt]
    omega

/-- The dividend moved one down above zero, and the sign that tells so. -/
theorem floor_negative (hw0 : 0 < w) (hneg : c.toInt < 0) (n : BitVec w) :
    (let t1 : DivExpr w := .plus .dividend (.const (-1))
     let nsign : DivExpr w := .ashiftrt (.ior .dividend t1) (w - 1)
     BitVec.ofInt w (((DivExpr.minus t1 nsign).eval n).toInt.tdiv c.toInt) +
       ~~~(nsign.eval n)) = BitVec.ofInt w (n.toInt.fdiv c.toInt) := by
  extract_lets t1 nsign
  obtain ⟨hlo, hhi⟩ := toInt_range n
  have hnsign : nsign.eval n = if n.toInt ≤ 0 then BitVec.allOnes w else 0 := by
    have hrfl : nsign.eval n = (n ||| (n + -1)).sshiftRight (w - 1) := rfl
    rw [hrfl, sshiftRight_sign]
    simp only [or_pred_neg_iff hw0]
  have ht1 : t1.eval n = n + -1 := rfl
  have hone : BitVec.allOnes w = -1 := BitVec.neg_one_eq_allOnes.symm
  rw [DivExpr.eval, ht1, hnsign]
  split
  · next hle =>
    rw [fdiv_of_nonpos_of_neg hneg hle, hone, BitVec.add_sub_cancel, ← hone, BitVec.not_allOnes]
    exact BitVec.add_zero _
  · next hgt =>
    rw [fdiv_of_neg_of_pos hneg (by omega), show ∀ x : BitVec w, x - 0 = x from BitVec.sub_zero,
      pred_toInt hw0 (by omega)]
    refine Eq.trans ?_ (BitVec.ofInt_add ((n.toInt - 1).tdiv c.toInt) (-1)).symm
    rw [show ~~~(0 : BitVec w) = BitVec.allOnes w from BitVec.not_zero, hone, BitVec.ofInt_neg]
    rfl

theorem expandFloor_computes (t : DivTarget) (rem : Bool) (hw : w ≤ h.bits) (hc : c ≠ 0)
    (hop : IsIntval false c d) :
    (expandFloor t rem .dividend d).Computes fun n => DivCode.floor.result rem false n c := by
  have hwide := h.wide
  have hw0 : 0 < w := by
    by_contra h0
    obtain rfl : w = 0 := by omega
    exact hc (BitVec.eq_of_toNat_eq (by omega))
  have hdc := hop.toInt_eq hw
  have hset := hop.setWidth hw
  have hmsb := BitVec.msb_eq_toInt (x := d)
  obtain ⟨hclo, hchi⟩ := toInt_range c
  have hc0 : c.toInt ≠ 0 := fun h0 => hc (BitVec.eq_of_toInt_eq (h0.trans BitVec.toInt_zero.symm))
  unfold expandFloor
  refine Expansion.computes_ite (fun hnot => absurd hw hnot) fun _ => ?_
  refine Expansion.computes_ite (fun hp => ?_) fun hn => ?_
  · have hnat : (d.toNat : Int) = c.toInt := by
      rw [← hdc, BitVec.toInt_eq_toNat_of_msb (by simpa using hp)]
    have hpos : 0 < c.toInt := by omega
    have hd0 : d ≠ 0 := by
      rintro rfl
      rw [toNat_zero] at hnat
      omega
    refine Expansion.computes_ite (fun hpow => ?_) fun hpow => ?_
    · obtain ⟨k, hk, hdk⟩ := (exactPowerOf2OrZero_iff hd0).1 hpow
      have hck : c.toInt = 2 ^ k := by
        rw [← hnat, hdk]
        norm_cast
      have hkw : k < w - 1 := by
        rw [hck] at hchi
        exact (Nat.pow_lt_pow_iff_right (by decide : 1 < 2)).1 (by exact_mod_cast hchi)
      simp only [hdk, floorLog2_two_pow]
      refine Expansion.computes_ite (fun hrem n => ?_) fun _ => ?_
      · subst hrem
        exact floor_mask hkw hck (bit_pred_toNat hk (by omega)) n
      · refine finish_floor hset fun n => ?_
        rw [← BitVec.ofInt_toInt (x := DivExpr.eval n _), ashiftrt_toInt, hck,
          Int.fdiv_eq_ediv_of_nonneg _ (by positivity)]
        rfl
    · have hd3 : 3 ≤ d.toNat := three_le_of_not_pow hd0 hpow
      have hlt : d.toNat < 2 ^ (w - 1) := by
        zify
        rw [hnat]
        exact hchi
      obtain ⟨r, hr, m, hm⟩ := chooseMultiplier_spec (e := 1) hw hd3 hlt (by
        have := ceilLog2_le hlt.le
        omega)
      have hfit := hm.fits (Nat.le_refl 1)
      simp only [hr]
      refine Expansion.computes_ite (fun hmh => absurd (hm.high.1 hmh) (Nat.not_le.2 hfit)) fun _ => ?_
      refine Expansion.computes_ite (fun _ => trivial) fun _ => ?_
      have hml : (r.ml.setWidth w).toNat = m := by
        rw [BitVec.toNat_setWidth, hm.low, Nat.mod_mod, Nat.mod_eq_of_lt hfit]
      exact finish_floor hset fun n => floor_multiply hnat.symm hml hm.recip n
  · have hneg : c.toInt < 0 := by
      have : d.msb = true := by simpa using hn
      rw [this] at hmsb
      rw [← hdc]
      simpa using hmsb.symm
    have htrunc : (expandTruncSigned t false (.minus (.plus .dividend (.const (-1)))
        (.ashiftrt (.ior .dividend (.plus .dividend (.const (-1)))) (w - 1))) d).Computes _ :=
      expandTruncSigned_computes t false hw hc hop
    simp only []
    split
    · next habort =>
      rw [habort] at htrunc
      exact htrunc
    · trivial
    · next t4 hseq =>
      rw [hseq] at htrunc
      refine finish_floor hset fun n => ?_
      rw [DivExpr.eval, htrunc n]
      exact floor_negative hw0 hneg n

end Floor

section Main

variable {h : Host} {w : Nat} {c : BitVec w} {op1 : BitVec h.bits}

theorem one_computes (rem unsignedp : Bool) (code : DivCode) (hw : w ≤ h.bits) (hc : c ≠ 0)
    (hop : IsIntval unsignedp c op1) (h1 : op1 = 1) :
    Expansion.Computes (fun n => code.result rem unsignedp n c)
      (.seq (if rem then .const 0 else .dividend)) := by
  intro n
  have hw0 : 0 < w := by
    by_contra h0
    obtain rfl : w = 0 := by omega
    exact hc (BitVec.eq_of_toNat_eq (by omega))
  have hc1 : c.toNat = 1 := by
    rw [← hop.setWidth hw, h1, BitVec.toNat_setWidth, toNat_one]
    exact Nat.mod_eq_of_lt (Nat.one_lt_two_pow hw0.ne')
  have hq : BitVec.ofInt w (code.quotient unsignedp n c) = n := by
    cases unsignedp with
    | true =>
      rw [show code.quotient true n c = n.toNat / c.toNat from rfl, hc1, Nat.cast_one, Int.ediv_one,
        BitVec.ofInt_natCast, BitVec.ofNat_toNat, BitVec.setWidth_eq]
    | false =>
      have hone : c.toInt = 1 := by rw [← hop.toInt_eq hw, h1, toInt_one]
      cases code
      · rw [show DivCode.trunc.quotient false n c = n.toInt.tdiv c.toInt from rfl, hone,
          Int.tdiv_one, BitVec.ofInt_toInt]
      · rw [show DivCode.floor.quotient false n c = n.toInt.fdiv c.toInt from rfl, hone,
          Int.fdiv_one, BitVec.ofInt_toInt]
  have hmul : n * c = n := by
    apply BitVec.eq_of_toNat_eq
    rw [BitVec.toNat_mul, hc1, Nat.mul_one, Nat.mod_eq_of_lt n.isLt]
  simp only [DivCode.result, hq, hmul, BitVec.sub_self]
  cases rem <;> rfl

theorem divmod_computes (t : DivTarget) (rem unsignedp : Bool) (code : DivCode) (hw : w ≤ h.bits)
    (hc : c ≠ 0) (hop : IsIntval unsignedp c op1) :
    (expandDivmod t rem code unsignedp op1).Computes
      fun n => code.result rem unsignedp n c := by
  unfold expandDivmod
  refine Expansion.computes_ite (one_computes rem unsignedp code hw hc hop) fun h1 => ?_
  refine Expansion.computes_ite (fun _ => trivial) fun h0 => ?_
  refine Expansion.computes_ite (fun hu => ?_) fun hu => ?_
  · subst hu
    exact expandTruncUnsigned_computes t rem code hw hc hop
  · obtain rfl : unsignedp = false := by simpa using hu
    have htrunc : (expandTruncSigned t rem .dividend op1).Computes _ :=
      expandTruncSigned_computes t rem hw hc hop
    simp only [DivExpr.eval] at htrunc
    have hfloor := expandFloor_computes t rem hw hc hop
    cases code
    · exact htrunc
    · exact hfloor

end Main

section Built

/-! A target that has the insns, and no cheap division by a power of two, gets a sequence. -/

variable {h : Host} {w : Nat} {t : DivTarget} {rem : Bool}

theorem ite_ne_fail {p : Prop} [Decidable p] {x y : Expansion w} (hx : p → x ≠ .fail)
    (hy : ¬p → y ≠ .fail) : (if p then x else y) ≠ .fail := by
  split
  · next hp => exact hx hp
  · next hp => exact hy hp

theorem finish_ne_fail (op0 q op1 : DivExpr w) : finishDivmod rem op0 q op1 ≠ .fail := by
  simp [finishDivmod]

variable (hmul : t.multHighpart = true) (hflag : t.storeFlag = true)
  (hsdiv : t.sdivPow2Cheap = false) (hsmod : t.smodPow2Cheap = false) (hw : w ≤ h.bits)

include hmul hflag hw in
theorem expandTruncUnsigned_ne_fail (op0 : DivExpr w) (d : BitVec h.bits) :
    expandTruncUnsigned t rem op0 d ≠ .fail := by
  unfold expandTruncUnsigned
  refine ite_ne_fail (fun _ => ?_) fun _ => ?_
  · exact ite_ne_fail (fun _ => by simp) fun _ => finish_ne_fail _ _ _
  refine ite_ne_fail (fun hnot => absurd hw hnot) fun _ => ?_
  refine ite_ne_fail (fun _ => ?_) fun _ => ?_
  · exact ite_ne_fail (fun _ => finish_ne_fail _ _ _) fun hno => absurd hflag hno
  split
  · simp
  · refine ite_ne_fail (fun hno => absurd hmul hno) fun _ => ?_
    exact ite_ne_fail (fun _ => finish_ne_fail _ _ _) fun _ => finish_ne_fail _ _ _

include hmul hflag hsdiv hsmod hw in
theorem expandTruncSigned_ne_fail (op0 : DivExpr w) (d : BitVec h.bits) :
    expandTruncSigned t rem op0 d ≠ .fail := by
  unfold expandTruncSigned
  refine ite_ne_fail (fun _ => finish_ne_fail _ _ _) fun _ => ?_
  refine ite_ne_fail (fun _ => finish_ne_fail _ _ _) fun _ => ?_
  refine ite_ne_fail (fun _ => ?_) fun _ => ?_
  · exact ite_ne_fail (fun _ => finish_ne_fail _ _ _) fun hno => absurd hflag hno
  refine ite_ne_fail (fun hcheap => ?_) fun _ => ?_
  · rw [hsdiv, hsmod, ite_self, Bool.and_false] at hcheap
    contradiction
  refine ite_ne_fail (fun _ => finish_ne_fail _ _ _) fun _ => ?_
  refine ite_ne_fail (fun hnot => absurd hw hnot) fun _ => ?_
  split
  · simp
  · exact ite_ne_fail (fun _ => finish_ne_fail _ _ _) fun hno => absurd hmul hno

include hmul hflag hsdiv hsmod hw in
theorem expandFloor_ne_fail (op0 : DivExpr w) (d : BitVec h.bits) :
    expandFloor t rem op0 d ≠ .fail := by
  unfold expandFloor
  refine ite_ne_fail (fun hnot => absurd hw hnot) fun _ => ?_
  refine ite_ne_fail (fun _ => ?_) fun _ => ?_
  · refine ite_ne_fail (fun _ => ?_) fun _ => ?_
    · exact ite_ne_fail (fun _ => by simp) fun _ => finish_ne_fail _ _ _
    split
    · simp
    · refine ite_ne_fail (fun _ => by simp) fun _ => ?_
      exact ite_ne_fail (fun hno => absurd hmul hno) fun _ => finish_ne_fail _ _ _
  · simp only []
    split
    · simp
    · next hfail => exact absurd hfail (expandTruncSigned_ne_fail hmul hflag hsdiv hsmod hw _ d)
    · exact finish_ne_fail _ _ _

include hmul hflag hsdiv hsmod hw in
theorem expandDivmod_ne_fail (code : DivCode) (unsignedp : Bool) {op1 : BitVec h.bits}
    (h0 : op1 ≠ 0) : (expandDivmod t rem code unsignedp op1 : Expansion w) ≠ .fail := by
  unfold expandDivmod
  refine ite_ne_fail (fun _ => by simp) fun _ => ?_
  refine ite_ne_fail (fun hz => absurd hz h0) fun _ => ?_
  refine ite_ne_fail (fun _ => ?_) fun _ => ?_
  · exact expandTruncUnsigned_ne_fail hmul hflag hw _ op1
  cases code
  · exact expandTruncSigned_ne_fail hmul hflag hsdiv hsmod hw _ op1
  · exact expandFloor_ne_fail hmul hflag hsdiv hsmod hw _ op1

end Built

/-- Division by an invariant constant: no abort is reached, every sequence computes the rounded
quotient or the remainder of every dividend, and a target with the insns for it gets one. -/
theorem divmod_right {h : Host} {w : Nat} {c : BitVec w} {op1 : BitVec h.bits} (t : DivTarget)
    (rem unsignedp : Bool) (code : DivCode) (hw : w ≤ h.bits) (hc : c ≠ 0)
    (hop : IsIntval unsignedp c op1) :
    expandDivmod t rem code unsignedp op1 ≠ (.abort : Expansion w) ∧
      (∀ e : DivExpr w, expandDivmod t rem code unsignedp op1 = .seq e →
        ∀ n, e.eval n = code.result rem unsignedp n c) ∧
      (t.multHighpart = true → t.storeFlag = true → t.sdivPow2Cheap = false →
        t.smodPow2Cheap = false →
        ∃ e : DivExpr w, expandDivmod t rem code unsignedp op1 = .seq e) := by
  have hcomp := divmod_computes t rem unsignedp code hw hc hop
  have h0 : op1 ≠ 0 := by
    rintro rfl
    exact hc (by rw [← hop.setWidth hw]; exact BitVec.setWidth_zero _ _)
  refine ⟨fun habort => ?_, fun e he => ?_, fun hmul hflag hsdiv hsmod => ?_⟩
  · rw [habort] at hcomp
    exact hcomp
  · rw [he] at hcomp
    exact hcomp
  · have hne : (expandDivmod t rem code unsignedp op1 : Expansion w) ≠ .fail :=
      expandDivmod_ne_fail hmul hflag hsdiv hsmod hw code unsignedp h0
    match hx : (expandDivmod t rem code unsignedp op1 : Expansion w) with
    | .abort =>
      rw [hx] at hcomp
      exact hcomp.elim
    | .fail => exact absurd hx hne
    | .seq e => exact ⟨e, rfl⟩

/-- Signed division of a byte by seven, on a host with 32-bit words. -/
theorem divmod_right_seven :
    ∃ e : DivExpr 8, expandDivmod ⟨0, false, false, true, true⟩ false .trunc false
        (7 : BitVec host32.bits) = .seq e ∧
      ∀ n, e.eval n = DivCode.trunc.result false false n (7 : BitVec 8) := by
  obtain ⟨-, hall, hbuilt⟩ := divmod_right
    ⟨0, false, false, true, true⟩ false false .trunc (by decide) (by decide)
    (.inl (by decide) : IsIntval false (7 : BitVec 8) (7 : BitVec host32.bits))
  obtain ⟨e, he⟩ := hbuilt rfl rfl rfl rfl
  exact ⟨e, he, hall e he⟩

end Z80Gcc
