import Z80Gcc.Proofs.FitType

/-! The shifts and rotations of fold-const.c on two words, for a type of any precision. -/

namespace Z80Gcc

open Z80Gcc.Rotate

variable {h : Host}

namespace DoubleInt

section Bits

variable (x : DoubleInt h)

theorem bv_lshiftDouble {count : Nat} {prec : Nat} (arith : Bool) :
    (x.lshiftDouble count prec arith).bv = x.bv <<< (count % prec) := by
  have hneg : ¬(count : Int) < 0 := by omega
  apply BitVec.eq_of_getLsbD_eq
  intro i hi
  rw [lshiftDouble, if_neg hneg, Int.toNat_natCast]
  dsimp only
  generalize count % prec = c
  rw [BitVec.getLsbD_shiftLeft, getLsbD_bv]
  by_cases hc : c ≥ h.bits
  · rw [if_pos hc, getLsbD_bv]
    by_cases hlow : i < h.bits
    · simp [hlow, show i < c by omega]
    · by_cases hic : i < c
      · simp [hlow, hic, show i - h.bits < c - h.bits by omega]
      · simp [hlow, hic, show ¬i - h.bits < c - h.bits by omega, show i - h.bits < h.bits by omega,
          show i - c < h.bits by omega, show i - h.bits - (c - h.bits) = i - c by omega, hi]
  · rw [if_neg hc, getLsbD_bv]
    by_cases hlow : i < h.bits
    · by_cases hic : i < c
      · simp [hlow, hic]
      · simp [hlow, hic, hi, show i - c < h.bits by omega]
    · by_cases hic : i - h.bits < c
      · simp [hlow, hic, hi, show ¬i < c by omega, show i - c < h.bits by omega,
          show h.bits - c - 1 + (1 + (i - h.bits)) = i - c by omega]
      · simp [hlow, hic, hi, show ¬i < c by omega, show ¬i - c < h.bits by omega,
          show i - h.bits < h.bits by omega, show i - c - h.bits = i - h.bits - c by omega,
          BitVec.getLsbD_of_ge x.low (h.bits - c - 1 + (1 + (i - h.bits))) (by omega),
          - BitVec.getLsbD_eq_getElem]

theorem signmask_eq {w : Nat} (y : BitVec w) (hw : 0 < w) :
    -(y >>> (w - 1)) = if y.msb then BitVec.allOnes w else 0#w := by
  have hone : y >>> (w - 1) = if y.msb then 1#w else 0#w := by
    apply BitVec.eq_of_toNat_eq
    have hlt := y.isLt
    have hpow : 2 ^ w = 2 * 2 ^ (w - 1) := by
      rw [← pow_succ']
      congr 1
      omega
    have hone : 1 % 2 ^ w = 1 := Nat.mod_eq_of_lt (Nat.one_lt_two_pow (by omega))
    rw [BitVec.toNat_ushiftRight, Nat.shiftRight_eq_div_pow, BitVec.msb_eq_decide]
    by_cases hm : 2 ^ (w - 1) ≤ y.toNat
    · simp only [hm, decide_true, if_true, BitVec.toNat_ofNat, hone]
      exact Nat.div_eq_of_lt_le (by omega) (by omega)
    · simp only [hm, decide_false, Bool.false_eq_true, if_false, BitVec.toNat_ofNat, Nat.zero_mod]
      exact Nat.div_eq_of_lt (by omega)
  rw [hone]
  split <;> simp [BitVec.neg_one_eq_allOnes]

/-- `rshift_double` shifts the two words as one, but for an arithmetic shift by nothing. -/
theorem bv_rshiftDouble {count : Nat} {prec : Nat} (hprec : 0 < prec) (hfit : prec ≤ 2 * h.bits)
    {arith : Bool} (hzero : arith = false ∨ count % prec ≠ 0) :
    (x.rshiftDouble count prec arith).bv =
      if arith then x.bv.sshiftRight (count % prec) else x.bv >>> (count % prec) := by
  have hc2 : count % prec < 2 * h.bits := (Nat.mod_lt _ hprec).trans_le hfit
  have hmask : ∀ j, (if arith then -(x.high >>> (h.bits - 1)) else 0 : BitVec h.bits).getLsbD j =
      (decide (j < h.bits) && (arith && x.high.msb)) := by
    intro j
    rw [signmask_eq _ h.bits_pos]
    cases arith <;> cases x.high.msb <;> simp
  have hshift : ∀ i, (if arith then x.bv.sshiftRight (count % prec) else
      x.bv >>> (count % prec)).getLsbD i = (decide (i < h.bits + h.bits) &&
        if count % prec + i < h.bits + h.bits then x.bv.getLsbD (count % prec + i)
        else arith && x.high.msb) := by
    intro i
    cases arith with
    | false =>
      rw [if_neg (by decide), BitVec.getLsbD_ushiftRight]
      by_cases hin : count % prec + i < h.bits + h.bits
      · simp [hin, show i < h.bits + h.bits by omega]
      · simp [hin, BitVec.getLsbD_of_ge x.bv _ (Nat.not_lt.1 hin)]
    | true =>
      rw [if_pos rfl, BitVec.getLsbD_sshiftRight, msb_bv]
      by_cases hi : i < h.bits + h.bits
      · simp [hi, show ¬h.bits + h.bits ≤ i by omega]
      · simp [hi, show h.bits + h.bits ≤ i by omega]
  apply BitVec.eq_of_getLsbD_eq
  intro i hi
  have hshl : h.shl (if arith then -(x.high >>> (h.bits - 1)) else 0) (h.bits - count % prec) =
      (if arith then -(x.high >>> (h.bits - 1)) else 0) <<< (h.bits - count % prec) := by
    rw [Host.shl]
    split
    · rfl
    · obtain rfl := hzero.resolve_right (by omega)
      rw [if_neg Bool.false_ne_true, h.shiftByWord_zero]
      exact (BitVec.zero_shiftLeft _).symm
  rw [hshift, rshiftDouble, hshl]
  generalize count % prec = c at *
  generalize (if arith then -(x.high >>> (h.bits - 1)) else 0 : BitVec h.bits) = mask at *
  rw [getLsbD_bv x]
  by_cases hc : c ≥ h.bits
  · rw [if_pos hc, getLsbD_bv]
    by_cases hlow : i < h.bits
    · by_cases hin : c + i < h.bits + h.bits
      · have hidx : c - h.bits + i = c + i - h.bits := by omega
        have hbefore : i < 1 ∨ i - 1 < 2 * h.bits - c - 1 := by omega
        rcases hbefore with hb | hb <;>
          simp [hlow, hi, hin, hidx, hb, show ¬c + i < h.bits by omega,
            - BitVec.getLsbD_eq_getElem]
      · simp [hlow, hi, hin, hmask, show ¬i < 1 by omega, show i - 1 < h.bits by omega,
          show ¬i - 1 < 2 * h.bits - c - 1 by omega,
          show i - 1 - (2 * h.bits - c - 1) < h.bits by omega,
          BitVec.getLsbD_of_ge x.high (c - h.bits + i) (by omega), - BitVec.getLsbD_eq_getElem]
    · simp [hlow, hi, hmask, show ¬c + i < h.bits + h.bits by omega,
        show i - h.bits < h.bits by omega, - BitVec.getLsbD_eq_getElem]
  · rw [if_neg hc, getLsbD_bv]
    by_cases hlow : i < h.bits
    · have hin : c + i < h.bits + h.bits := by omega
      by_cases hword : c + i < h.bits
      · have hbefore : i < 1 ∨ i - 1 < h.bits - c - 1 := by omega
        rcases hbefore with hb | hb <;>
          simp [hlow, hi, hin, hword, hb, - BitVec.getLsbD_eq_getElem]
      · have hidx : i - 1 - (h.bits - c - 1) = c + i - h.bits := by omega
        simp [hlow, hi, hin, hword, hidx, show ¬i < 1 by omega, show i - 1 < h.bits by omega,
          show ¬i - 1 < h.bits - c - 1 by omega, BitVec.getLsbD_of_ge x.low (c + i) (by omega),
          - BitVec.getLsbD_eq_getElem]
    · by_cases hin : c + i < h.bits + h.bits
      · have hidx : c + (i - h.bits) = c + i - h.bits := by omega
        simp [hlow, hi, hin, hidx, show ¬c + i < h.bits by omega,
          show i - h.bits < h.bits - c by omega, - BitVec.getLsbD_eq_getElem]
      · simp [hlow, hi, hin, hmask, show ¬i - h.bits < h.bits - c by omega,
          show i - h.bits < h.bits by omega, show i - h.bits - (h.bits - c) < h.bits by omega,
          BitVec.getLsbD_of_ge x.high (c + (i - h.bits)) (by omega), - BitVec.getLsbD_eq_getElem]

/-- An arithmetic shift by nothing takes in what the host's shift leaves of the sign. -/
theorem rshiftDouble_zero (prec : Nat) :
    x.rshiftDouble 0 prec true = ⟨x.low, (if x.high.msb then h.shiftByWord (BitVec.allOnes h.bits) else 0) ||| x.high⟩ := by
  have hpos := h.bits_pos
  have hlow : x.low ||| x.high <<< (h.bits - 0 - 1) <<< 1 = x.low := by
    rw [← BitVec.shiftLeft_add, BitVec.shiftLeft_eq_zero (by omega)]
    exact BitVec.or_zero
  have hhigh : h.shl (-(x.high >>> (h.bits - 1))) (h.bits - 0) =
      if x.high.msb then h.shiftByWord (BitVec.allOnes h.bits) else 0 := by
    rw [Host.shl, if_neg (by omega), signmask_eq _ hpos]
    split
    · rfl
    · exact h.shiftByWord_zero
  rw [rshiftDouble]
  simp only [Nat.zero_mod, if_true, hhigh, BitVec.ushiftRight_zero]
  rw [if_neg (by omega), hlow]

end Bits

end DoubleInt

open DoubleInt

section Rotate

variable (t : IntType h) (x : BitVec t.precision)

theorem rotateCount_eq (count : Int) {prec : Nat} (hpos : 0 < prec) :
    rotateCount count prec = count % prec := by
  have hmod := Int.emod_nonneg count (b := prec) (by omega)
  have hlt := Int.emod_lt_of_pos count (b := prec) (by omega)
  rw [rotateCount, Int.tmod_eq_emod, Int.natAbs_natCast]
  split
  · rw [if_neg (by omega)]
    omega
  · rw [if_pos (by omega)]
    omega

/-- When a rotation by a shift to the right of `s` places is right: the sign bits above the
precision do not come in, or meet ones. -/
def RotatesRight (s : Nat) : Prop :=
  t.unsigned = true ∨ x.msb = false ∨
    ∀ k, k < s → t.precision + k < 2 * h.bits → x.getLsbD k = true

variable {t x} {n : Int} {c s : Nat}

/-- The two counts of a rotation add up to the precision, or there is nothing to do. -/
theorem counts_cases (hc : (c : Int) = n % t.precision) (hs : (s : Int) = -n % t.precision) :
    c < t.precision ∧ s < t.precision ∧ (c + s = t.precision ∨ c = 0 ∧ s = 0) := by
  have hpos := t.pos
  have hclt := Int.emod_lt_of_pos n (b := t.precision) (by omega)
  have hslt := Int.emod_lt_of_pos (-n) (b := t.precision) (by omega)
  have hsum : (t.precision : Int) ∣ c + s := by
    rw [hc, hs, Int.dvd_iff_emod_eq_zero, ← Int.add_emod, Int.add_right_neg, Int.zero_emod]
  obtain ⟨k, hk⟩ := Int.natCast_dvd_natCast.1 (by exact_mod_cast hsum)
  refine ⟨by omega, by omega, ?_⟩
  rcases k with _ | _ | k
  · exact .inr ⟨by omega, by omega⟩
  · exact .inl (by omega)
  · have : t.precision * 2 ≤ t.precision * (k + 1 + 1) := Nat.mul_le_mul_left _ (by omega)
    omega

theorem getLsbD_rotl_of_counts (hc : (c : Int) = n % t.precision)
    (hs : (s : Int) = -n % t.precision) {i : Nat} (hi : i < t.precision) :
    (rotl x n).getLsbD i = if i < c then x.getLsbD (s + i) else x.getLsbD (i - c) := by
  obtain ⟨hclt, -, hsum⟩ := counts_cases hc hs
  have hidx : ((i : Int) - n) % t.precision = ((i : Int) - c) % t.precision := by
    rw [hc, Int.sub_emod, Int.sub_emod i (n % t.precision), Int.emod_emod]
  rw [getLsbD_rotl x n hi, hidx]
  split
  · rw [← Int.add_emod_right, Int.emod_eq_of_lt (by omega) (by omega)]
    congr 1
    omega
  · rw [Int.emod_eq_of_lt (by omega) (by omega)]
    congr 1
    omega

theorem setWidth_eq_rotl_iff (hc : (c : Int) = n % t.precision) (hs : (s : Int) = -n % t.precision)
    {y : DoubleInt h} (hy : y.bv = (t.represent x).bv <<< c ||| (t.represent x).bv >>> s) :
    y.bv.setWidth t.precision = rotl x n ↔ RotatesRight t x s := by
  have hfit := t.fits
  obtain ⟨hclt, hslt, hsum⟩ := counts_cases hc hs
  have hbit : ∀ i, i < t.precision → (y.bv.setWidth t.precision).getLsbD i =
      (if i < c then x.getLsbD (s + i) else x.getLsbD (i - c) ||
        (decide (t.precision ≤ s + i ∧ s + i < 2 * h.bits) && (!t.unsigned && x.msb))) := by
    intro i hi
    rw [BitVec.getLsbD_setWidth, hy, BitVec.getLsbD_or, BitVec.getLsbD_shiftLeft,
      BitVec.getLsbD_ushiftRight, getLsbD_represent, getLsbD_represent]
    by_cases hic : i < c
    · simp [hi, hic, show s + i < t.precision by omega, - BitVec.getLsbD_eq_getElem]
    · rcases hsum with hsum | ⟨rfl, rfl⟩
      · simp [hi, hic, show i - c < t.precision by omega, show ¬s + i < t.precision by omega,
          show i < h.bits + h.bits by omega, show t.precision ≤ s + i by omega,
          - BitVec.getLsbD_eq_getElem]
      · simp [hi, show i < h.bits + h.bits by omega, show ¬t.precision ≤ i by omega,
          - BitVec.getLsbD_eq_getElem]
  constructor
  · intro heq
    by_cases hu : t.unsigned = true
    · exact .inl hu
    by_cases hm : x.msb = true
    · refine .inr (.inr fun k hk hk2 => ?_)
      have hki := congrArg (BitVec.getLsbD · (k + c)) heq
      simp only [hbit _ (show k + c < t.precision by omega),
        getLsbD_rotl_of_counts hc hs (show k + c < t.precision by omega)] at hki
      have hin : t.precision ≤ s + (k + c) ∧ s + (k + c) < 2 * h.bits := by omega
      rw [if_neg (by omega), if_neg (by omega), Nat.add_sub_cancel, decide_eq_true hin,
        Bool.eq_false_iff.2 hu, hm] at hki
      simpa using hki.symm
    · exact .inr (.inl (Bool.eq_false_iff.2 hm))
  · intro hright
    apply BitVec.eq_of_getLsbD_eq
    intro i hi
    rw [hbit i hi, getLsbD_rotl_of_counts hc hs hi]
    split
    · rfl
    · rcases hright with hu | hm | hones
      · simp [hu]
      · simp [hm]
      · by_cases hin : t.precision ≤ s + i ∧ s + i < 2 * h.bits
        · rw [hones (i - c) (by omega) (by omega), Bool.true_or]
        · rw [decide_eq_false hin, Bool.false_and, Bool.or_false]

theorem bv_orWords (a b : DoubleInt h) : (orWords a b).bv = a.bv ||| b.bv := by
  apply BitVec.eq_of_getLsbD_eq
  intro i hi
  rw [BitVec.getLsbD_or, getLsbD_bv, getLsbD_bv, getLsbD_bv]
  split <;> rw [orWords, BitVec.getLsbD_or]

theorem shift_counts (n : Int) :
    n % t.precision = ((n % t.precision).toNat : Int) ∧
      (n % t.precision).toNat % t.precision = (n % t.precision).toNat ∧
      ((t.precision : Int) - n % t.precision).toNat % t.precision = (-n % t.precision).toNat := by
  have hpos := t.pos
  have hmod := Int.emod_nonneg n (b := t.precision) (by omega)
  have hlt := Int.emod_lt_of_pos n (b := t.precision) (by omega)
  refine ⟨by omega, Nat.mod_eq_of_lt (by omega), ?_⟩
  have hneg : (t.precision : Int) - n % t.precision =
      -n + t.precision * (n / t.precision + 1) := by
    have hsplit := Int.mul_ediv_add_emod n t.precision
    linear_combination -hsplit
  have hcong : ((t.precision : Int) - n % t.precision) % t.precision = -n % t.precision := by
    rw [hneg, Int.add_mul_emod_self_left]
  rw [← hcong, Int.toNat_emod (by omega) (by omega), Int.toNat_natCast]

theorem lrotate_iff (n : Int) :
    ((t.represent x).lrotateDouble n t.precision).bv.setWidth t.precision = rotl x n ↔
      RotatesRight t x (-n % t.precision).toNat := by
  have hpos := t.pos
  obtain ⟨hcount, hc, hs⟩ := shift_counts (t := t) n
  have hmod := Int.emod_nonneg (-n) (b := t.precision) (by omega)
  refine setWidth_eq_rotl_iff hcount.symm (by omega) ?_
  rw [lrotateDouble, rotateCount_eq n t.pos, bv_orWords, hcount, bv_lshiftDouble,
    bv_rshiftDouble _ t.pos t.fits (.inl rfl), ← hcount, hc, hs]
  rfl

theorem rrotate_iff (n : Int) :
    ((t.represent x).rrotateDouble n t.precision).bv.setWidth t.precision = rotl x (-n) ↔
      RotatesRight t x (n % t.precision).toNat := by
  have hpos := t.pos
  obtain ⟨hcount, hc, hs⟩ := shift_counts (t := t) n
  have hlt := Int.emod_lt_of_pos n (b := t.precision) (by omega)
  have hmod := Int.emod_nonneg (-n) (b := t.precision) (by omega)
  have hback : (t.precision : Int) - n % t.precision =
      (((t.precision : Int) - n % t.precision).toNat : Int) := by
    omega
  refine setWidth_eq_rotl_iff (c := (-n % t.precision).toNat) (by omega) ?_ ?_
  · rw [Int.neg_neg]
    exact hcount.symm
  · rw [rrotateDouble, rotateCount_eq n t.pos, bv_orWords, hback, bv_lshiftDouble,
      bv_rshiftDouble _ t.pos t.fits (.inl rfl), hc, hs, BitVec.or_comm]
    rfl

end Rotate

section Shift

variable {t : IntType h} {x : BitVec t.precision} {c : Nat}

theorem setWidth_lshift (hc : c < t.precision) (arith : Bool) :
    ((t.represent x).lshiftDouble c t.precision arith).bv.setWidth t.precision = x <<< c := by
  have hfit := t.fits
  apply BitVec.eq_of_getLsbD_eq
  intro i hi
  rw [bv_lshiftDouble, Nat.mod_eq_of_lt hc, BitVec.getLsbD_setWidth, BitVec.getLsbD_shiftLeft,
    BitVec.getLsbD_shiftLeft, getLsbD_represent, if_pos (by omega)]
  simp [hi, show i < h.bits + h.bits by omega]

theorem msb_represent (hu : t.unsigned = false) : (t.represent x).bv.msb = x.msb := by
  have hpos := t.pos
  have hfit := t.fits
  rw [BitVec.msb_eq_getLsbD_last, getLsbD_represent, hu]
  split
  · rw [BitVec.msb_eq_getLsbD_last]
    congr 1
    omega
  · simp [show h.bits + h.bits - 1 < 2 * h.bits by omega]

/-- When a right shift is right: one of a negative value by nothing takes in no ones that are not there. -/
def RightShiftRight (t : IntType h) (x : BitVec t.precision) (count : Int) : Prop :=
  t.unsigned = true ∨ x.msb = false ∨ count ≠ 0 ∨ ∀ k, h.bits ≤ k → k < t.precision →
    (h.shiftByWord (BitVec.allOnes h.bits)).getLsbD (k - h.bits) = true → x.getLsbD k = true

/-- The right shift by the signedness of the type, by some places or of an unsigned type. -/
theorem setWidth_rshift (hc : c < t.precision) (hzero : t.unsigned = true ∨ c ≠ 0) :
    ((t.represent x).rshiftDouble c t.precision (!t.unsigned)).bv.setWidth t.precision =
      if t.unsigned then x >>> c else x.sshiftRight c := by
  have hfit := t.fits
  apply BitVec.eq_of_getLsbD_eq
  intro i hi
  have hzero : (!t.unsigned) = false ∨ c % t.precision ≠ 0 := by
    rw [Nat.mod_eq_of_lt hc]
    exact hzero.imp (fun hu => by rw [hu, Bool.not_true]) id
  rw [bv_rshiftDouble _ t.pos t.fits hzero, Nat.mod_eq_of_lt hc, BitVec.getLsbD_setWidth]
  have hrep := getLsbD_represent t x (c + i)
  cases hu : t.unsigned with
  | true =>
    rw [if_pos rfl, Bool.not_true, if_neg (by decide), BitVec.getLsbD_ushiftRight,
      BitVec.getLsbD_ushiftRight, hrep, hu]
    by_cases hin : c + i < t.precision
    · simp [hi, hin]
    · simp [hin, BitVec.getLsbD_of_ge x (c + i) (by omega)]
  | false =>
    simp only [Bool.not_false, if_true, Bool.false_eq_true, if_false]
    rw [BitVec.getLsbD_sshiftRight, BitVec.getLsbD_sshiftRight, hrep, msb_represent hu, hu]
    have h1 : ¬h.bits + h.bits ≤ i := by omega
    have h2 : ¬t.precision ≤ i := by omega
    by_cases hin : c + i < t.precision
    · simp [hi, h1, h2, hin, show c + i < h.bits + h.bits by omega]
    · by_cases hin2 : c + i < h.bits + h.bits
      · simp [hi, h1, h2, hin, hin2, show c + i < 2 * h.bits by omega]
      · simp [hi, h1, h2, hin, hin2]

/-- The right shift of a value of a signed type by nothing. -/
theorem setWidth_rshift_zero_iff (hu : t.unsigned = false) :
    ((t.represent x).rshiftDouble 0 t.precision true).bv.setWidth t.precision = x ↔ RightShiftRight t x 0 := by
  have hfit := t.fits
  have hpos := h.bits_pos
  have hmsb : (t.represent x).high.msb = x.msb := by rw [← msb_bv, msb_represent hu]
  have hbit : ∀ i, i < t.precision →
      (((t.represent x).rshiftDouble 0 t.precision true).bv.setWidth t.precision).getLsbD i =
        ((decide (h.bits ≤ i) && (x.msb && (h.shiftByWord (BitVec.allOnes h.bits)).getLsbD (i - h.bits))) ||
          x.getLsbD i) := by
    intro i hi
    have hrep := getLsbD_represent t x i
    rw [getLsbD_bv, if_pos hi] at hrep
    rw [BitVec.getLsbD_setWidth, getLsbD_bv, rshiftDouble_zero, hmsb, ← hrep]
    by_cases hlow : i < h.bits
    · simp [hi, hlow, show ¬h.bits ≤ i by omega, - BitVec.getLsbD_eq_getElem]
    · cases x.msb <;> simp [hi, hlow, show h.bits ≤ i by omega, - BitVec.getLsbD_eq_getElem]
  constructor
  · intro heq
    by_cases hm : x.msb = true
    · refine .inr (.inr (.inr fun k hk hkp hone => ?_))
      have hk' := congrArg (BitVec.getLsbD · k) heq
      simpa only [hbit k hkp, decide_eq_true hk, hm, hone, Bool.and_self, Bool.true_or, eq_comm] using hk'
    · exact .inr (.inl (Bool.eq_false_iff.2 hm))
  · intro hright
    apply BitVec.eq_of_getLsbD_eq
    intro i hi
    rw [hbit i hi]
    rcases hright with hu' | hm | hne | hones
    · rw [hu] at hu'
      exact Bool.noConfusion hu'
    · rw [hm, Bool.false_and, Bool.and_false, Bool.false_or]
    · exact absurd rfl hne
    · by_cases hone : h.bits ≤ i ∧ (h.shiftByWord (BitVec.allOnes h.bits)).getLsbD (i - h.bits) = true
      · rw [hones i hone.1 hi hone.2, Bool.or_true]
      · rw [not_and, Bool.not_eq_true] at hone
        by_cases hin : h.bits ≤ i
        · rw [hone hin, Bool.and_false, Bool.and_false, Bool.false_or]
        · rw [decide_eq_false hin, Bool.false_and, Bool.false_or]

theorem rshift_iff {count : Int} (h0 : 0 ≤ count) (hlt : count < t.precision) :
    ((t.represent x).rshiftDouble count.toNat t.precision (!t.unsigned)).bv.setWidth t.precision =
        (if t.unsigned then x >>> count.toNat else x.sshiftRight count.toNat) ↔ RightShiftRight t x count := by
  lift count to Nat using h0
  rw [Int.toNat_natCast]
  by_cases hzero : t.unsigned = true ∨ count ≠ 0
  · refine iff_of_true (setWidth_rshift (by exact_mod_cast hlt) hzero) ?_
    exact hzero.imp id fun hne => .inr (.inl (by exact_mod_cast hne))
  · rw [not_or, Bool.not_eq_true, not_not] at hzero
    obtain ⟨hu, rfl⟩ := hzero
    rw [hu, Bool.not_false, if_neg Bool.false_ne_true, BitVec.sshiftRight_zero]
    exact setWidth_rshift_zero_iff hu

end Shift

section Undo

variable {t : IntType h} {x : BitVec t.precision} {n : Int}

theorem lrotate_undone_iff (hleft : RotatesRight t x (-n % t.precision).toNat) :
    ((forceFitType t ((t.represent x).lrotateDouble n t.precision) false).1.rrotateDouble n
        t.precision).bv.setWidth t.precision = x ↔
      RotatesRight t (rotl x n) (n % t.precision).toNat := by
  have hback : rotl (rotl x n) (-n) = x := by rw [rotl_rotl, Int.add_right_neg, rotl_zero]
  rw [forceFitType_words, (lrotate_iff n).2 hleft, ← rrotate_iff, hback]

theorem rrotate_undone_iff (hright : RotatesRight t x (n % t.precision).toNat) :
    ((forceFitType t ((t.represent x).rrotateDouble n t.precision) false).1.lrotateDouble n
        t.precision).bv.setWidth t.precision = x ↔
      RotatesRight t (rotl x (-n)) (-n % t.precision).toNat := by
  have hback : rotl (rotl x (-n)) n = x := by rw [rotl_rotl, Int.add_left_neg, rotl_zero]
  rw [forceFitType_words, (rrotate_iff n).2 hright, ← lrotate_iff, hback]

end Undo

/-- Exactly when the shifts and rotations of a constant are right: the rotations where no sign bit from above the
precision comes in, for the constant and for what each rotation makes of it, and the right shift where none comes in
that the host's shift by a whole word leaves. -/
theorem two_word_shifts_iff (t : IntType h) (x : BitVec t.precision) (count : Int) :
    ShiftsRight t x count ↔
      RotatesRight t x (-count % t.precision).toNat ∧
        RotatesRight t x (count % t.precision).toNat ∧
        RotatesRight t (rotl x count) (count % t.precision).toNat ∧
        RotatesRight t (rotl x (-count)) (-count % t.precision).toNat ∧ RightShiftRight t x count := by
  have hpos := t.pos
  constructor
  · intro hs
    have hleft := (lrotate_iff count).1 hs.lrotate
    have hright := (rrotate_iff count).1 hs.rrotate
    refine ⟨hleft, hright, (lrotate_undone_iff hleft).1 hs.lrotate_undone,
      (rrotate_undone_iff hright).1 hs.rrotate_undone, ?_⟩
    by_cases hcount : count = 0
    · subst hcount
      exact (rshift_iff le_rfl (by omega)).1 (hs.rshift le_rfl (by omega))
    · exact .inr (.inr (.inl hcount))
  · rintro ⟨hleft, hright, hundoLeft, hundoRight, hzero⟩
    refine ⟨(lrotate_iff count).2 hleft, (rrotate_iff count).2 hright,
      (lrotate_undone_iff hleft).2 hundoLeft, (rrotate_undone_iff hright).2 hundoRight, ?_, ?_⟩
    · intro h0 hlt arith
      lift count to Nat using h0
      exact setWidth_lshift (by exact_mod_cast hlt) arith
    · exact fun h0 hlt => (rshift_iff h0 hlt).2 hzero

def schar : IntType host32 := ⟨8, false, by decide, by decide⟩

/-- -128 as a `signed char`, rotated left by one place: the constant's upper bits come in, too. -/
theorem two_word_rotate_wrong_signed : ¬ShiftsRight schar 0x80 1 := by
  intro hs
  have hrot := hs.lrotate
  revert hrot
  decide

def slonglong : IntType host32 := ⟨64, false, by decide, by decide⟩

-- -2^33 shifted to the right by nothing becomes -2^32
example : ¬ShiftsRight slonglong 0xFFFFFFFE00000000 0 := by
  intro hs
  have hshift := hs.rshift (by decide) (by decide)
  revert hshift
  decide

end Z80Gcc
