import Z80Gcc.Lib.WrapInt
import Z80Gcc.Proofs.DivSigned
import Z80Gcc.Proofs.MultLimits

/-! `invert_mod2n` inverts odd numbers, and the division without remainder that `expand_divmod`
builds with it and with the multiplication of `expand_mult`. -/

namespace Z80Gcc

open Z80Gcc.PowerOfTwo Z80Gcc.WrapInt

section Invert

variable {h : Host} {n : Nat} {x : BitVec h.bits}

theorem mask_setWidth (hn : n ≤ h.bits) (z : BitVec h.bits) :
    (z &&& (if n = h.bits then ~~~0 else h.bit n - 1)).setWidth n = z.setWidth n := by
  split
  · next heq =>
    have hones : ~~~(0 : BitVec h.bits) = BitVec.allOnes h.bits := BitVec.not_zero
    rw [hones, BitVec.and_allOnes]
  · next hne =>
    have hbit := bit_toNat (h := h) (show n < h.bits by omega)
    have hpos := Nat.two_pow_pos n
    have hmask : (h.bit n - 1).toNat = 2 ^ n - 1 := by
      rw [BitVec.toNat_sub_of_le (by rw [BitVec.le_def, toNat_one, hbit]; omega), hbit, toNat_one]
    apply BitVec.eq_of_toNat_eq
    rw [BitVec.toNat_setWidth, BitVec.toNat_setWidth, BitVec.toNat_and, hmask,
      Nat.and_two_pow_sub_one_eq_mod, Nat.mod_mod]

theorem invertLoop_spec (hn : n ≤ h.bits) {mask : BitVec h.bits}
    (hmask : ∀ z : BitVec h.bits, (z &&& mask).setWidth n = z.setWidth n) {nbit : Nat}
    (hpos : 0 < nbit) {y : BitVec h.bits}
    (hy : InverseTo nbit (x.setWidth n) (y.setWidth n)) :
    x.setWidth n * (invertLoop x mask n nbit hpos y).setWidth n = 1 := by
  induction nbit, hpos, y using invertLoop.induct x mask n with
  | case1 nbit hpos y hlt ih =>
    rw [invertLoop, if_pos hlt]
    refine ih ?_
    have hstep := hy.step
    have htwo : (2 : BitVec h.bits).setWidth n = (2 : BitVec n) := BitVec.setWidth_ofNat_of_le hn 2
    rw [hmask, BitVec.setWidth_mul _ _ hn, BitVec.sub_eq_add_neg, BitVec.setWidth_add _ _ hn,
      BitVec.setWidth_neg_of_le hn, BitVec.setWidth_mul _ _ hn, htwo, ← BitVec.sub_eq_add_neg,
      Nat.mul_comm]
    exact hstep
  | case2 nbit hpos y hge =>
    rw [invertLoop, if_neg hge]
    exact hy.eq_one (InverseTo.two_pow_eq_zero (Nat.le_of_not_lt hge))

theorem invertMod2n_mul (hn1 : 1 ≤ n) (hn : n ≤ h.bits) (hodd : x.toNat % 2 = 1) :
    x.setWidth n * (invertMod2n x n).setWidth n = 1 := by
  refine invertLoop_spec hn (mask_setWidth hn) (by decide) (InverseTo.self_of_bit ?_)
  rw [BitVec.toNat_setWidth, Nat.mod_mod_of_dvd _ (dvd_pow_self 2 (by omega))]
  exact hodd

/-- `invert_mod2n`: the product is one modulo `2 ^ n`. -/
theorem invertMod2n_mod (hn1 : 1 ≤ n) (hn : n ≤ h.bits) (hodd : x.toNat % 2 = 1) :
    x.toNat * (invertMod2n x n).toNat % 2 ^ n = 1 := by
  have hmul := congrArg BitVec.toNat (invertMod2n_mul hn1 hn hodd)
  rw [BitVec.toNat_mul, BitVec.toNat_setWidth, BitVec.toNat_setWidth, ← Nat.mul_mod] at hmul
  rw [hmul]
  exact BitVec.toNat_one (by omega)

theorem invertLoop_lt (hn : n < h.bits) {nbit : Nat} (hpos : 0 < nbit) {y : BitVec h.bits}
    (hy : nbit < n ∨ y.toNat < 2 ^ n) : (invertLoop x (h.bit n - 1) n nbit hpos y).toNat < 2 ^ n := by
  have hbit := bit_toNat (h := h) hn
  have hone := Nat.two_pow_pos n
  have hmask : (h.bit n - 1).toNat = 2 ^ n - 1 := by
    rw [BitVec.toNat_sub_of_le (by rw [BitVec.le_def, toNat_one, hbit]; omega), hbit, toNat_one]
  induction nbit, hpos, y using invertLoop.induct x (h.bit n - 1) n with
  | case1 nbit hpos y hlt ih =>
    rw [invertLoop, if_pos hlt]
    refine ih (.inr ?_)
    rw [BitVec.toNat_and, hmask, Nat.and_two_pow_sub_one_eq_mod]
    exact Nat.mod_lt _ hone
  | case2 nbit hpos y hge =>
    rw [invertLoop, if_neg hge]
    exact hy.resolve_left hge

/-- The inverse of minus one is minus one in `n` bits, not sign-extended. -/
theorem invertMod2n_minusOne (hn : n < h.bits) (hwide : 3 < n) :
    (invertMod2n (-1 : BitVec h.bits) n).toNat = 2 ^ n - 1 := by
  have hones : (-1 : BitVec h.bits) = BitVec.allOnes h.bits := BitVec.neg_one_eq_allOnes
  have hodd : (-1 : BitVec h.bits).toNat % 2 = 1 := by
    obtain ⟨j, hj⟩ : ∃ j, h.bits = j + 1 := ⟨h.bits - 1, by omega⟩
    have hpos := Nat.two_pow_pos j
    rw [hones, BitVec.toNat_allOnes, hj, Nat.pow_succ]
    omega
  have hmul := invertMod2n_mul (by omega) hn.le hodd
  have hone : (1 : BitVec h.bits).setWidth n = 1 := BitVec.setWidth_ofNat_of_le hn.le 1
  have hneg : (-1 : BitVec h.bits).setWidth n = -1 := by
    rw [BitVec.setWidth_neg_of_le hn.le, hone]
  rw [hneg, neg_one_mul, neg_eq_iff_eq_neg] at hmul
  have hlt : (invertMod2n (-1 : BitVec h.bits) n).toNat < 2 ^ n := by
    unfold invertMod2n
    rw [if_neg (by omega)]
    exact invertLoop_lt hn (by decide) (.inl hwide)
  have hval := congrArg BitVec.toNat hmul
  rw [BitVec.toNat_setWidth, Nat.mod_eq_of_lt hlt, show (-1 : BitVec n) = BitVec.allOnes n from
    BitVec.neg_one_eq_allOnes, BitVec.toNat_allOnes] at hval
  exact hval

end Invert

section Divisor

variable {h : Host} {d : BitVec h.bits}

/-- A divisor as the power of two that `post_shift` stands for and an odd number. -/
theorem exists_oddPart (hd : d ≠ 0) :
    ∃ k, floorLog2 (d &&& -d).toNat = k ∧ 2 ^ k ∣ d.toNat ∧
      d.toInt = 2 ^ k * (d.sshiftRight k).toInt ∧ (d.sshiftRight k).toNat % 2 = 1 := by
  obtain ⟨k, hk, hlow⟩ := exists_lowest hd
  have hkb : k < h.bits := BitVec.lt_of_getLsbD hk
  refine ⟨k, ?_, two_pow_dvd hlow, ?_, ?_⟩
  · rw [and_neg_eq_twoPow hk hlow, BitVec.toNat_twoPow_of_lt hkb, floorLog2_two_pow]
  · have hdvd : (2 : Int) ^ k ∣ d.toInt := by
      have hnat : ((2 ^ k : Nat) : Int) ∣ d.toNat := Int.natCast_dvd_natCast.2 (two_pow_dvd hlow)
      have hsize : (2 : Int) ^ k ∣ 2 ^ h.bits := pow_dvd_pow 2 hkb.le
      push_cast at hnat
      rw [BitVec.toInt_eq_toNat_cond]
      split
      · exact hnat
      · push_cast
        exact Int.dvd_sub hnat hsize
    rw [BitVec.toInt_sshiftRight, Int.shiftRight_eq_div_pow]
    push_cast
    exact (Int.mul_ediv_cancel' hdvd).symm
  · have hbit : (d.sshiftRight k).getLsbD 0 = true := by
      rw [BitVec.getLsbD_sshiftRight, Nat.add_zero, if_pos hkb, hk]
      simpa using Nat.ne_zero_of_lt hkb
    rw [BitVec.getLsbD, Nat.testBit_zero] at hbit
    exact of_decide_eq_true hbit

variable {w : Nat} {c n : BitVec w} {k : Nat} {q : Int}

/-- The multiplication takes the odd part out of the dividend. -/
theorem mul_inverse_eq (hw : 1 ≤ w) (hwb : w ≤ h.bits)
    (hd : d.toInt = 2 ^ k * (d.sshiftRight k).toInt) (hodd : (d.sshiftRight k).toNat % 2 = 1)
    (hn : n = BitVec.ofInt w q * d.setWidth w) :
    n * (invertMod2n (d.sshiftRight k) w).setWidth w = BitVec.ofInt w (q * 2 ^ k) := by
  have hinv := invertMod2n_mul hw hwb hodd
  have hset : d.setWidth w = BitVec.ofInt w (2 ^ k) * (d.sshiftRight k).setWidth w := by
    rw [setWidth_eq_ofInt hwb, setWidth_eq_ofInt hwb, ← BitVec.ofInt_mul, ← hd]
  rw [hn, hset, BitVec.ofInt_mul, mul_assoc, mul_assoc, hinv, mul_one]

theorem two_pow_dvd_setWidth (hdvd : 2 ^ k ∣ d.toNat) (hset : d.setWidth w = c) (hc : c ≠ 0) :
    k < w ∧ 2 ^ k ∣ c.toNat := by
  have hval : c.toNat = d.toNat % 2 ^ w := by rw [← hset, BitVec.toNat_setWidth]
  have hkw : k < w := by
    by_contra hge
    have hzero : 2 ^ w ∣ d.toNat := (Nat.pow_dvd_pow 2 (Nat.le_of_not_lt hge)).trans hdvd
    rw [Nat.mod_eq_zero_of_dvd hzero] at hval
    exact hc (BitVec.eq_of_toNat_eq hval)
  refine ⟨hkw, ?_⟩
  rw [hval, Nat.dvd_mod_iff (Nat.pow_dvd_pow 2 hkw.le)]
  exact hdvd

theorem ushiftRight_product {q : Nat} (hfit : q * 2 ^ k < 2 ^ w) :
    BitVec.ofInt w ((q : Int) * 2 ^ k) >>> k = BitVec.ofInt w (q : Int) := by
  have hpos := Nat.two_pow_pos k
  have hcast : (q : Int) * 2 ^ k = ((q * 2 ^ k : Nat) : Int) := by push_cast; rfl
  have hq : q < 2 ^ w := (Nat.le_mul_of_pos_right q hpos).trans_lt hfit
  rw [hcast, BitVec.ofInt_natCast, BitVec.ofInt_natCast]
  apply BitVec.eq_of_toNat_eq
  rw [BitVec.toNat_ushiftRight, BitVec.toNat_ofNat, BitVec.toNat_ofNat, Nat.mod_eq_of_lt hfit,
    Nat.mod_eq_of_lt hq, Nat.shiftRight_eq_div_pow, Nat.mul_div_cancel _ hpos]

theorem quotient_mul_unsigned {n c : BitVec w} (hdvd : c.toNat ∣ n.toNat) :
    n = BitVec.ofInt w ((n.toNat / c.toNat : Nat) : Int) * c := by
  apply BitVec.eq_of_toNat_eq
  rw [BitVec.ofInt_natCast, BitVec.toNat_mul, BitVec.toNat_ofNat, Nat.mod_mul_mod, Nat.div_mul_cancel hdvd,
    Nat.mod_eq_of_lt n.isLt]

theorem quotient_mul_signed {n c : BitVec w} (hdvd : c.toInt ∣ n.toInt) :
    n = BitVec.ofInt w (n.toInt.tdiv c.toInt) * c := by
  rw [← BitVec.ofInt_toInt (x := c), ← BitVec.ofInt_mul, BitVec.ofInt_toInt, Int.tdiv_mul_cancel hdvd,
    BitVec.ofInt_toInt]

theorem sshiftRight_product (hw : 0 < w) (hlo : -2 ^ (w - 1) ≤ q * 2 ^ k)
    (hhi : q * 2 ^ k < 2 ^ (w - 1)) :
    (BitVec.ofInt w (q * 2 ^ k)).sshiftRight k = BitVec.ofInt w q := by
  have hpos : (0 : Int) < 2 ^ k := by positivity
  rw [← BitVec.ofInt_toInt (x := (BitVec.ofInt w (q * 2 ^ k)).sshiftRight k),
    BitVec.toInt_sshiftRight, toInt_ofInt_of_range hw hlo hhi, Int.shiftRight_eq_div_pow]
  push_cast
  rw [Int.mul_ediv_cancel _ hpos.ne']

/-- The product that is just too large changes its sign, and with it the quotient. -/
theorem sshiftRight_wrapped (hk : k < w) (hq : q * 2 ^ k = 2 ^ (w - 1)) :
    (BitVec.ofInt w (q * 2 ^ k)).sshiftRight k = BitVec.ofInt w q ↔ k = 0 := by
  constructor
  · intro heq
    by_contra hk0
    have hpos : (0 : Int) < 2 ^ (w - 1) := by positivity
    have hkpos : (2 : Int) ≤ 2 ^ k := by
      calc (2 : Int) = 2 ^ 1 := rfl
        _ ≤ 2 ^ k := two_pow_le (by omega)
    have hq0 : 0 < q := by
      by_contra hle
      have := mul_nonpos_of_nonpos_of_nonneg (Int.not_lt.1 hle) (show (0 : Int) ≤ 2 ^ k by omega)
      omega
    have hqlt : q < 2 ^ (w - 1) := by
      have := Int.mul_le_mul_of_nonneg_left hkpos hq0.le
      omega
    have hpow : (2 : Int) ^ w = 2 * 2 ^ (w - 1) := two_pow_pred (by omega)
    have hwrap : (BitVec.ofInt w (q * 2 ^ k)).toInt = -2 ^ (w - 1) := by
      have hself : wrap false w (-2 ^ (w - 1)) = -2 ^ (w - 1) := by
        rw [wrap_false, bmod_eq_self_iff]
        omega
      rw [BitVec.toInt_ofInt, hq, ← wrap_false, ← hself]
      refine wrap_eq_of_dvd ⟨1, ?_⟩
      omega
    have hneg := congrArg BitVec.toInt heq
    rw [BitVec.toInt_sshiftRight, hwrap, toInt_ofInt_of_range (by omega) (by omega) hqlt,
      Int.shiftRight_eq_div_pow] at hneg
    have hlt : -2 ^ (w - 1) / ((2 ^ k : Nat) : Int) < 0 :=
      Int.ediv_neg_of_neg_of_pos (by omega) (by exact_mod_cast Nat.two_pow_pos k)
    omega
  · rintro rfl
    rw [pow_zero, mul_one, BitVec.sshiftRight_zero]

end Divisor

section Exact

variable {h : Host} {w : Nat} {c n : BitVec w} {op1 : BitVec h.bits} {unsignedp : Bool}

variable {costs : MultCosts} {stack : BitVec h.bits → Int → Algorithm × Algorithm} {alg alg2 : Algorithm}
  {hostBitsPerInt cost : Nat}

theorem exactInverse_mul (hw : w ≤ h.bits) (hc : c ≠ 0) (hop : IsIntval unsignedp c op1) :
    ∃ k, floorLog2 (op1 &&& -op1).toNat = k ∧ k < w ∧ 2 ^ k ∣ c.toNat ∧
      op1.toInt = 2 ^ k * (op1.sshiftRight k).toInt ∧ (op1.sshiftRight k).toInt % 2 = 1 ∧
      ∀ q n, n = BitVec.ofInt w q * c → n * (exactInverse w op1).setWidth w = BitVec.ofInt w (q * 2 ^ k) := by
  have hset := hop.setWidth hw
  have hop0 : op1 ≠ 0 := by
    rintro rfl
    exact hc (hset.symm.trans (BitVec.setWidth_zero w h.bits))
  obtain ⟨k, hlog, hdvd, hd, hodd⟩ := exists_oddPart hop0
  obtain ⟨hkw, hck⟩ := two_pow_dvd_setWidth hdvd hset hc
  have hx : (op1.sshiftRight k).toInt % 2 = 1 := by
    rw [BitVec.toInt_eq_toNat_cond]
    have hwide := h.wide
    have heven : (2 : Int) ∣ ((2 ^ h.bits : Nat) : Int) := by
      exact_mod_cast dvd_pow_self 2 (show h.bits ≠ 0 by omega)
    split <;> omega
  refine ⟨k, hlog, hkw, hck, hd, hx, fun q n hn => ?_⟩
  unfold exactInverse
  dsimp only
  rw [hlog]
  exact mul_inverse_eq (by omega) hw hd hodd (hset.symm ▸ hn)

theorem expandExactDiv_product (hw : w ≤ h.bits) {p : BitVec w} {k : Nat}
    (hlog : floorLog2 (op1 &&& -op1).toNat = k) (hk : k < w)
    (hp : (expandMult costs stack alg alg2 hostBitsPerInt n (exactInverse w op1) cost).product n
      ((exactInverse w op1).setWidth w) = some p) :
    expandExactDiv costs stack alg alg2 hostBitsPerInt cost unsignedp n op1 =
      .quotient (if unsignedp then p >>> k else p.sshiftRight k) := by
  unfold expandExactDiv
  rw [if_pos hw]
  dsimp only
  rw [hp, hlog, truncatedCount_of_lt hk]

theorem product_of_right (hw : w ≤ h.bits) {val : BitVec h.bits}
    (hright : ExpandRight costs stack alg alg2 hostBitsPerInt n val cost) :
    (expandMult costs stack alg alg2 hostBitsPerInt n val cost).product n (val.setWidth w) =
      some (n * val.setWidth w) := by
  obtain hinsn | hseq := hright
  · rw [hinsn, MultExpansion.product]
  · rw [hseq, MultExpansion.product, ← setWidth_eq_ofInt hw, mul_comm]

theorem exact_unsigned_eval (hw : w ≤ h.bits) (hc : c ≠ 0) (hop : IsIntval true c op1)
    (hdvd : c.toNat ∣ n.toNat)
    (hright : ExpandRight costs stack alg alg2 hostBitsPerInt n (exactInverse w op1) cost) :
    expandExactDiv costs stack alg alg2 hostBitsPerInt cost true n op1 =
      .quotient (BitVec.ofInt w ((n.toNat / c.toNat : Nat) : Int)) := by
  obtain ⟨k, hlog, hk, hck, -, -, hmul⟩ := exactInverse_mul hw hc hop
  have hpos : 0 < c.toNat := Nat.pos_of_ne_zero fun h0 => hc (BitVec.eq_of_toNat_eq h0)
  have hq : n.toNat / c.toNat * c.toNat = n.toNat := Nat.div_mul_cancel hdvd
  have hfit : n.toNat / c.toNat * 2 ^ k < 2 ^ w :=
    (Nat.mul_le_mul_left _ (Nat.le_of_dvd hpos hck)).trans_lt (hq.symm ▸ n.isLt)
  rw [expandExactDiv_product hw hlog hk (product_of_right hw hright), if_pos rfl,
    hmul _ _ (quotient_mul_unsigned hdvd), ushiftRight_product hfit]

/-- The quotient times the power of two stays in the range, unless the most negative number is
divided by the opposite of that power. -/
theorem product_cases {N C q x : Int} {k m : Nat} (hN : N = q * C) (hC : C = 2 ^ k * x)
    (hx : x % 2 = 1) (hlo : -2 ^ m ≤ N) (hhi : N < 2 ^ m) :
    -2 ^ m ≤ q * 2 ^ k ∧ q * 2 ^ k < 2 ^ m ∧ ¬(N = -2 ^ m ∧ x = -1) ∨
      N = -2 ^ m ∧ x = -1 ∧ q * 2 ^ k = 2 ^ m := by
  obtain ⟨P, hP⟩ : ∃ P, P = q * 2 ^ k := ⟨_, rfl⟩
  have hprod : N = P * x := by
    rw [hN, hC, hP]
    ring
  have hpos : (0 : Int) < 2 ^ m := by positivity
  rw [← hP]
  rcases (by omega : x = -1 ∨ 1 ≤ x ∨ x ≤ -3) with rfl | h1 | h3
  · omega
  · refine .inl ⟨?_, ?_, fun hc => by omega⟩
    · by_contra hlt
      have := mul_le_mul_of_nonpos_left h1 (show P ≤ 0 by omega)
      omega
    · by_contra hge
      have := Int.mul_le_mul_of_nonneg_left h1 (show 0 ≤ P by omega)
      omega
  · refine .inl ⟨?_, ?_, fun hc => by omega⟩
    · by_contra hlt
      have := mul_le_mul_of_nonpos_left h3 (show P ≤ 0 by omega)
      omega
    · by_contra hge
      have := Int.mul_le_mul_of_nonneg_left h3 (show 0 ≤ P by omega)
      omega

theorem odd_of_two_pow {k j : Nat} {x : Int} (hx : x % 2 = 1) (heq : 2 ^ k * x = -2 ^ j) :
    k = j ∧ x = -1 := by
  rcases Nat.lt_trichotomy k j with hlt | rfl | hgt
  · obtain ⟨i, rfl⟩ := Nat.exists_eq_add_of_lt hlt
    have hx2 : x = 2 * -2 ^ i := by
      refine mul_left_cancel₀ (show (2 : Int) ^ k ≠ 0 by positivity) ?_
      rw [heq]
      ring
    omega
  · refine ⟨rfl, mul_left_cancel₀ (show (2 : Int) ^ k ≠ 0 by positivity) ?_⟩
    rw [heq]
    ring
  · obtain ⟨i, rfl⟩ := Nat.exists_eq_add_of_lt hgt
    have hodd : 2 * (2 ^ i * x) = -1 := by
      refine mul_left_cancel₀ (show (2 : Int) ^ j ≠ 0 by positivity) ?_
      calc 2 ^ j * (2 * (2 ^ i * x)) = 2 ^ (j + i + 1) * x := by ring
        _ = 2 ^ j * -1 := by
          rw [heq]
          ring
    omega

theorem exact_signed_eval (hw : w ≤ h.bits) (hc : c ≠ 0) (hop : IsIntval false c op1)
    (hdvd : c.toInt ∣ n.toInt)
    (hright : ExpandRight costs stack alg alg2 hostBitsPerInt n (exactInverse w op1) cost) :
    expandExactDiv costs stack alg alg2 hostBitsPerInt cost false n op1 =
        .quotient (BitVec.ofInt w (n.toInt.tdiv c.toInt)) ↔
      ¬(n.toInt = -2 ^ (w - 1) ∧ ∃ k, 1 ≤ k ∧ c.toInt = -2 ^ k) := by
  obtain ⟨k, hlog, hkw, -, hd, hx, hmul⟩ := exactInverse_mul hw hc hop
  rw [hop.toInt_eq hw] at hd
  generalize (op1.sshiftRight k).toInt = x at hd hx
  obtain ⟨hlo, hhi⟩ := toInt_range n
  have hq : n.toInt = n.toInt.tdiv c.toInt * c.toInt := (Int.tdiv_mul_cancel hdvd).symm
  rw [expandExactDiv_product hw hlog hkw (product_of_right hw hright), if_neg (by decide),
    hmul _ _ (quotient_mul_signed hdvd), ExactExpansion.quotient.injEq]
  rcases product_cases hq hd hx hlo hhi with ⟨h1, h2, hnot⟩ | ⟨hmin, rfl, hprod⟩
  · refine iff_of_true (sshiftRight_product (by omega) h1 h2) ?_
    rintro ⟨hmin, j, -, hj⟩
    exact hnot ⟨hmin, (odd_of_two_pow hx (hd.symm.trans hj)).2⟩
  · rw [sshiftRight_wrapped hkw hprod]
    constructor
    · rintro rfl ⟨-, j, hj1, hj⟩
      have hj0 := (odd_of_two_pow hx (hd.symm.trans hj)).1
      omega
    · intro hnot
      by_contra hk0
      exact hnot ⟨hmin, k, by omega, by rw [hd]; ring⟩

theorem quotient_mul (hdvd : ExactMultiple unsignedp n c) :
    n = BitVec.ofInt w (DivCode.trunc.quotient unsignedp n c) * c := by
  cases unsignedp with
  | true =>
    refine (quotient_mul_unsigned hdvd).trans ?_
    rw [Int.natCast_div]
    rfl
  | false => exact quotient_mul_signed hdvd

/-- What the sequence gives for a dividend without remainder. -/
def ExactRight (costs : MultCosts) (stack : BitVec h.bits → Int → Algorithm × Algorithm) (alg alg2 : Algorithm)
    (hostBitsPerInt cost : Nat) (unsignedp : Bool) (n c : BitVec w) (op1 : BitVec h.bits) : Prop :=
  expandExactDiv costs stack alg alg2 hostBitsPerInt cost unsignedp n op1 =
    .quotient (BitVec.ofInt w (DivCode.trunc.quotient unsignedp n c))

theorem exactRight_iff (hw : w ≤ h.bits) (hc : c ≠ 0) (hop : IsIntval unsignedp c op1)
    (hdvd : ExactMultiple unsignedp n c)
    (hright : ExpandRight costs stack alg alg2 hostBitsPerInt n (exactInverse w op1) cost) :
    ExactRight costs stack alg alg2 hostBitsPerInt cost unsignedp n c op1 ↔
      ¬(unsignedp = false ∧ n.toInt = -2 ^ (w - 1) ∧ ∃ k, 1 ≤ k ∧ c.toInt = -2 ^ k) := by
  unfold ExactRight
  cases unsignedp with
  | true =>
    have heval := exact_unsigned_eval hw hc hop hdvd hright
    refine iff_of_true ?_ (fun hf => absurd hf.1 (by decide))
    rw [heval, Int.natCast_div]
    rfl
  | false =>
    rw [and_iff_right rfl, ← exact_signed_eval hw hc hop hdvd hright]
    rfl

theorem exactInverse_minusPower (hw : w < h.bits) (hwide : 3 < w) (hc : c ≠ 0) (hop : IsIntval unsignedp c op1)
    (hpow : ∃ k, op1.toInt = -2 ^ k) : (exactInverse w op1).toNat = 2 ^ w - 1 := by
  obtain ⟨k, hlog, -, -, hd, hx, -⟩ := exactInverse_mul hw.le hc hop
  obtain ⟨j, hj⟩ := hpow
  have hones : (-1 : BitVec h.bits) = BitVec.allOnes h.bits := BitVec.neg_one_eq_allOnes
  have hneg : op1.sshiftRight k = -1 := by
    apply BitVec.eq_of_toInt_eq
    rw [(odd_of_two_pow hx (hd.symm.trans hj)).2, hones, BitVec.toInt_allOnes, if_pos (by omega)]
  unfold exactInverse
  dsimp only
  rw [hlog, hneg]
  exact invertMod2n_minusOne hw hwide

theorem expandExactDiv_zero (hw : w ≤ h.bits) (hc : c ≠ 0) (hop : IsIntval unsignedp c op1)
    (hp : (expandMult costs stack alg alg2 hostBitsPerInt n (exactInverse w op1) cost).product n
      ((exactInverse w op1).setWidth w) = some 0) :
    expandExactDiv costs stack alg alg2 hostBitsPerInt cost unsignedp n op1 = .quotient 0 := by
  obtain ⟨k, hlog, hk, -⟩ := exactInverse_mul hw hc hop
  rw [expandExactDiv_product hw hlog hk hp]
  cases unsignedp <;> simp

theorem expandExactDiv_minusPower (hw : w < h.bits) (hwide : 3 < w) (hc : c ≠ 0) (hop : IsIntval unsignedp c op1)
    (hpow : ∃ k, op1.toInt = -2 ^ k) (hcost : 1 ≤ cost) (hshort : cost ≤ 32767) :
    expandExactDiv (freeCosts w cost) stack alg alg2 hostBitsPerInt cost unsignedp n op1 = .quotient 0 := by
  refine expandExactDiv_zero hw.le hc hop ?_
  rw [expandMult_ones_wrong hw (by omega) (exactInverse_minusPower hw hwide hc hop hpow) hcost hshort,
    MultExpansion.product]

/-- The divisors whose odd part is minus one, in a mode narrower than a host word. -/
theorem exactRight_minusPower (hw : w < h.bits) (hwide : 3 < w) (hc : c ≠ 0) (hop : IsIntval unsignedp c op1)
    (hdvd : ExactMultiple unsignedp n c) (hpow : ∃ k, op1.toInt = -2 ^ k) (hcost : 1 ≤ cost) :
    (∀ costs stack alg alg2, ExactRight costs stack alg alg2 hostBitsPerInt cost unsignedp n c op1) ↔
      n = 0 ∧ cost ≤ 32767 := by
  constructor
  · intro hall
    by_cases hshort : cost ≤ 32767
    · have hwrong := hall (freeCosts w cost) (fun _ _ => (uninitialised, uninitialised)) uninitialised uninitialised
      rw [ExactRight, expandExactDiv_minusPower hw hwide hc hop hpow hcost hshort,
        ExactExpansion.quotient.injEq] at hwrong
      refine ⟨?_, hshort⟩
      rw [quotient_mul hdvd, ← hwrong, zero_mul]
    · have hinv := exactInverse_minusPower hw hwide hc hop hpow
      have hhalf : (2 : Nat) ^ w * 2 ≤ 2 ^ h.bits := by
        rw [← Nat.pow_succ]
        exact Nat.pow_le_pow_right (by decide) hw
      have hfour : 4 ≤ 2 ^ w := Nat.pow_le_pow_right (by decide : 0 < 2) (by omega : 2 ≤ w)
      have hone : exactInverse w op1 ≠ 1 := by
        intro heq
        rw [heq, toNat_one] at hinv
        omega
      have hnonneg : ¬(hostBitsPerInt < w ∧ (exactInverse w op1).toInt < 0) := by
        rw [BitVec.toInt_eq_toNat_cond, if_pos (by omega)]
        omega
      have hwrong := hall dearCosts (fun _ _ => (uninitialised, uninitialised)) uninitialised uninitialised
      rw [ExactRight, expandExactDiv, if_pos hw.le] at hwrong
      dsimp only at hwrong
      rw [expandMult_abort n (by omega) hone hnonneg] at hwrong
      cases hwrong
  · rintro ⟨rfl, hshort⟩ costs stack alg alg2
    have hq : DivCode.trunc.quotient unsignedp (0 : BitVec w) c = 0 := by
      cases unsignedp <;> simp [DivCode.quotient]
    rw [ExactRight, hq, expandExactDiv_zero hw.le hc hop]
    · simp
    · obtain hinsn | ⟨-, variant, v, -, hseq⟩ :=
        @expandMult_made h costs stack alg alg2 hostBitsPerInt w cost (exactInverse w op1) (.inl (by omega))
      · rw [hinsn, MultExpansion.product, zero_mul]
      · rw [hseq, MultExpansion.product, mul_zero]

end Exact

end Z80Gcc
