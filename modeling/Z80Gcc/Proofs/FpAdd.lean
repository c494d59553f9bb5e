import Z80Gcc.Proofs.FpPack
import Z80Gcc.Spec.FpArith

/-! Addition and subtraction: the fraction that is shifted down keeps a sticky bit, and their sum or difference stands for the exact
one until it is packed. -/

namespace Z80Gcc.FpBit

open BinaryFloat StickyBit

section Shift

variable {f : Format} {fraction : Nat}

theorem lshift_eq_jam (fraction : Nat) : lshift fraction = jam fraction := by
  rw [lshift, jam, Nat.and_one_is_mod, Nat.shiftRight_eq_div_pow, Nat.pow_one]
  obtain heven | hodd := Nat.mod_two_eq_zero_or_one fraction
  · rw [heven, Nat.zero_or, if_neg (by omega), Nat.add_zero]
  · rw [hodd, Nat.or_comm]
    obtain h | h := Nat.mod_two_eq_zero_or_one (fraction / 2)
    · have hor := Nat.two_pow_add_eq_or_of_lt (i := 1) (b := 1) (by decide) (fraction / 4)
      rw [show 2 ^ 1 * (fraction / 4) = fraction / 2 by omega] at hor
      rw [← hor, if_pos (by omega)]
    · have hor := Nat.two_pow_add_eq_or_of_lt (i := 1) (b := 1) (by decide) (fraction / 4)
      rw [show 2 ^ 1 * (fraction / 4) = fraction / 2 - 1 by omega] at hor
      have hself : fraction / 2 ||| 1 = (fraction / 2 - 1 + 1) ||| 1 := by rw [Nat.sub_add_cancel (by omega)]
      rw [hself, hor, Nat.or_assoc, Nat.or_self, ← hor, if_neg (by omega)]
      omega

theorem alignTo_le {exp target : Int} (h : target ≤ exp) : alignTo fraction exp target = (fraction, exp) := by
  rw [alignTo, if_neg (by omega)]

theorem alignTo_add (fraction : Nat) (exp : Int) (n : Nat) : alignTo fraction exp (exp + n) = (jam^[n] fraction, exp + n) := by
  induction n generalizing fraction exp with
  | zero => simpa using alignTo_le le_rfl
  | succ n ih =>
    rw [alignTo, if_pos (by omega), show exp + ((n + 1 : Nat) : Int) = exp + 1 + n by push_cast; ring, ih, lshift_eq_jam,
      Function.iterate_succ_apply]

theorem jam_le (fraction : Nat) : jam fraction ≤ fraction := by
  rw [jam]
  split <;> omega

theorem iterate_jam_le (fraction n : Nat) : jam^[n] fraction ≤ fraction := by
  induction n with
  | zero => exact le_rfl
  | succ n ih =>
    rw [Function.iterate_succ_apply']
    exact (jam_le _).trans ih

end Shift

section Aligned

/-- Two fractions for one scale, one of them shifted down: their sum and their distance stand for those of the magnitudes. Where the
distance is not exact, it is at most one bit short. -/
structure Aligned (f : Format) (x y scale m n : Nat) : Prop where
  high : m < 2 * 2 ^ (f.fracBits + f.nGards)
  high' : n < 2 * 2 ^ (f.fracBits + f.nGards)
  large : 2 ^ (f.fracBits + f.nGards) ≤ m ∨ 2 ^ (f.fracBits + f.nGards) ≤ n
  sum : Stands 0 (m + n) ((x + y) * 2 ^ (f.fracBits + f.nGards)) (2 ^ scale)
  lt : m < n ↔ x < y
  gt : n < m ↔ y < x
  dist : Stands 0 (m - n + (n - m)) ((x - y + (y - x)) * 2 ^ (f.fracBits + f.nGards)) (2 ^ scale)
  short : (x - y + (y - x)) * 2 ^ (f.fracBits + f.nGards) = (m - n + (n - m)) * 2 ^ scale ∨
    2 ^ (f.fracBits + f.nGards) ≤ 2 * (m - n + (n - m))

variable {f : Format} {x y scale m n : Nat}

theorem Aligned.symm (h : Aligned f x y scale m n) : Aligned f y x scale n m where
  high := h.high'
  high' := h.high
  large := h.large.symm
  sum := by
    rw [Nat.add_comm n, Nat.add_comm y]
    exact h.sum
  lt := h.gt
  gt := h.lt
  dist := by
    rw [Nat.add_comm (n - m), Nat.add_comm (y - x)]
    exact h.dist
  short := by
    rw [Nat.add_comm (n - m), Nat.add_comm (y - x)]
    exact h.short

variable {a b : f.Raw} {i : Nat}

/-- The number with the greater exponent is even, and the other is shifted to it. -/
theorem Unpacked.aligned (ha : Unpacked a (i + scale) m) (hb : Unpacked b i n) :
    Aligned f (magnitude a) (magnitude b) (i + scale) m (jam^[scale] n) := by
  have hgards := f.gards_ge
  have hroom := f.fracBits_pos
  have hhigh' := (iterate_jam_le n scale).trans_lt hb.high
  have heven : m % 2 = 0 := Nat.mod_eq_zero_of_dvd ((Nat.dvd_of_pow_dvd (by omega) ha.guards : 2 ^ 1 ∣ m))
  have hunit : 0 < 2 ^ (i + scale) := Nat.two_pow_pos _
  have hstart : Stands 0 n (n * 2 ^ i) (2 ^ i) := .inl rfl
  have hstands := hstart.iterate_jam (Nat.two_pow_pos i) scale
  rw [← hb.value, ← Nat.pow_add, Nat.add_comm scale] at hstands
  have hsum := hstands.add heven
  obtain ⟨hlt, hgt, hdist⟩ := hstands.dist hunit heven
  have hp : 0 < 2 ^ (f.fracBits + f.nGards) := Nat.two_pow_pos _
  rw [← ha.value, ← Nat.add_mul] at hsum
  rw [← ha.value, ← Nat.sub_mul, ← Nat.sub_mul, ← Nat.add_mul] at hdist
  rw [← ha.value, Nat.mul_lt_mul_right hp] at hlt hgt
  refine ⟨ha.high, hhigh', .inl ha.low, hsum, hgt, hlt, hdist, ?_⟩
  by_cases hfew : scale ≤ f.nGards
  · -- only guard bits are shifted out
    left
    have hdvd : 2 ^ 0 * 2 ^ (i + scale) ∣ magnitude b * 2 ^ (f.fracBits + f.nGards) := by
      rw [Nat.pow_zero, Nat.one_mul, hb.value, Nat.mul_comm n, Nat.pow_add]
      exact Nat.mul_dvd_mul_left _ ((Nat.pow_dvd_pow 2 hfew).trans hb.guards)
    have hexact := hstands.exact hdvd
    rw [Nat.add_mul, Nat.sub_mul, Nat.sub_mul, hexact, ha.value, ← Nat.sub_mul, ← Nat.sub_mul, ← Nat.add_mul]
  · -- what is shifted is less than a half of the other
    right
    obtain ⟨k, hk⟩ := Nat.exists_eq_add_of_le (show 2 ≤ f.fracBits + f.nGards by omega)
    have hquarter : 2 ^ (f.fracBits + f.nGards) = 2 * 2 ^ (k + 1) := by rw [hk]; ring
    have hsmall : jam^[scale] n < 2 ^ (k + 1) := by
      by_contra hle
      have hmul := hstands.mul_le (Nat.pow_dvd_pow 2 (by omega)) (Nat.le_of_not_lt hle)
      have hle' : 2 ^ (k + 1) * 2 ^ scale ≤ n := by
        refine Nat.le_of_mul_le_mul_right (c := 2 ^ i) ?_ (Nat.two_pow_pos i)
        calc 2 ^ (k + 1) * 2 ^ scale * 2 ^ i = 2 ^ (k + 1) * 2 ^ (i + scale) := by ring
          _ ≤ magnitude b * 2 ^ (f.fracBits + f.nGards) := hmul
          _ = n * 2 ^ i := hb.value
      have hfour : 2 ^ (k + 1) * 2 ^ 2 ≤ 2 ^ (k + 1) * 2 ^ scale := Nat.mul_le_mul_left _ (Nat.pow_le_pow_right (by decide) (by omega))
      have hhigh := hb.high
      omega
    have hlow := ha.low
    omega

/-- A fraction that stands for a value is shifted up; where it is not exact, once at most. -/
theorem normalize_stands {v F : Nat} (hpos : 0 < F) (hhigh : F < 2 * 2 ^ (f.fracBits + f.nGards))
    (h : Stands 0 F (v * 2 ^ (f.fracBits + f.nGards)) (2 ^ scale))
    (hshort : v * 2 ^ (f.fracBits + f.nGards) = F * 2 ^ scale ∨ 2 ^ (f.fracBits + f.nGards) ≤ 2 * F) (sign : Bool) :
    (normalize f F (scale - f.quantum)).1 < f.implicit2 ∧ IsRounded sign v 1 (packD f ⟨.number, sign,
      (normalize f F (scale - f.quantum)).2, (normalize f F (scale - f.quantum)).1⟩) := by
  have hgards := f.gards_ge
  have hp : 0 < 2 ^ (f.fracBits + f.nGards) := Nat.two_pow_pos _
  obtain ⟨k, hk, hlow, hhigh'⟩ := normalize_spec f hpos hhigh (scale - f.quantum)
  rw [hk, f.implicit2_eq]
  refine ⟨hhigh', ?_⟩
  by_cases hexact : v * 2 ^ (f.fracBits + f.nGards) = F * 2 ^ scale
  · -- the value is whole, so that the scale is not passed
    have hle : k ≤ scale := by
      have hv : 0 < v := by
        have hmul : 0 < v * 2 ^ (f.fracBits + f.nGards) := by
          rw [hexact]
          exact Nat.mul_pos hpos (Nat.two_pow_pos _)
        exact Nat.pos_of_mul_pos_right hmul
      apply shift_le hv
      refine Nat.lt_of_mul_lt_mul_right (a := 2 ^ (f.fracBits + f.nGards)) ?_
      calc v * 2 ^ k * 2 ^ (f.fracBits + f.nGards) = v * 2 ^ (f.fracBits + f.nGards) * 2 ^ k := by ring
        _ = F * 2 ^ k * 2 ^ scale := by rw [hexact]; ring
        _ < 2 * 2 ^ (f.fracBits + f.nGards) * 2 ^ scale := Nat.mul_lt_mul_of_pos_right hhigh' (Nat.two_pow_pos _)
        _ = 2 * 2 ^ scale * 2 ^ (f.fracBits + f.nGards) := by ring
    obtain ⟨s, rfl⟩ := Nat.exists_eq_add_of_le hle
    have hstands : Stands 0 (F * 2 ^ k) (v * 2 ^ (f.fracBits + f.nGards)) (2 ^ s) := by
      left
      rw [hexact]
      ring
    have hround := packD_stands sign hlow hhigh' (by omega) hstands
    rwa [show ((k + s : Nat) : Int) - f.quantum - k = s - f.quantum by omega]
  · have hone := hshort.resolve_left hexact
    have hk1 : k ≤ 1 := by
      by_contra hk2
      have hmul : F * 2 ^ 2 ≤ F * 2 ^ k := Nat.mul_le_mul_left _ (Nat.pow_le_pow_right (by decide) (by omega))
      omega
    obtain rfl | rfl : k = 0 ∨ k = 1 := by omega
    · rw [Nat.pow_zero, Nat.mul_one] at hlow ⊢
      rw [Int.natCast_zero, Int.sub_zero]
      exact packD_stands sign hlow hhigh (by omega) h
    · have hscale : scale ≠ 0 := by
        intro hzero
        apply hexact
        apply h.exact
        rw [hzero]
        exact one_dvd _
      obtain ⟨s, rfl⟩ := Nat.exists_eq_add_one_of_ne_zero hscale
      rw [Nat.pow_succ, Nat.mul_comm _ 2] at h
      have hdouble := h.double
      rw [Nat.pow_one] at hlow hhigh' ⊢
      rw [Nat.mul_comm F] at hlow hhigh' ⊢
      have hround := packD_stands sign hlow hhigh' (by omega) hdouble
      rwa [show ((s + 1 : Nat) : Int) - f.quantum - ((1 : Nat) : Int) = s - f.quantum by omega]

/-- Fractions of one sign are added, and shifted down when the sum is too long. -/
theorem Aligned.sum_rounded (h : Aligned f x y scale m n) (sign : Bool) :
    IsRounded sign (x + y) 1 (packD f (renormalize f ⟨.number, sign, scale - f.quantum, f.word (m + n)⟩)) := by
  have hgards := f.gards_ge
  have hroom := f.implicit2_lt
  have hhigh := h.high
  have hhigh' := h.high'
  have hlarge := h.large
  have hword : f.word (m + n) = m + n := Nat.mod_eq_of_lt (by omega)
  rw [renormalize, hword, f.implicit2_eq]
  split
  · next hlong =>
    rw [lshift_eq_jam]
    have hlong : 2 * 2 ^ (f.fracBits + f.nGards) ≤ m + n := hlong
    have hjam := h.sum.jam (Nat.two_pow_pos scale)
    rw [← Nat.pow_succ'] at hjam
    have hround := packD_stands sign (by rw [jam]; omega) (by rw [jam]; split <;> omega) (by omega) hjam
    rwa [show ((scale + 1 : Nat) : Int) - f.quantum = scale - f.quantum + 1 by omega] at hround
  · next hshort =>
    have hshort : ¬ 2 * 2 ^ (f.fracBits + f.nGards) ≤ m + n := hshort
    exact packD_stands sign (by omega) (by omega) (by omega) h.sum

/-- Of fractions of different signs the difference is taken, which has the sign of the greater; an exact 0 is positive. -/
theorem Aligned.difference_rounded (h : Aligned f x y scale m n) (sign : Bool) :
    let r := packD f (renormalize f (addFractions f sign (!sign) m n (scale - f.quantum)))
    (x = y → r = pattern f false 0) ∧ (x ≠ y → IsRounded (if sign then decide (y < x) else decide (x < y)) (x - y + (y - x)) 1 r) := by
  have hroom := f.implicit2_lt
  have hhigh := h.high
  have hhigh' := h.high'
  have hlt := h.lt
  have hgt := h.gt
  have hintfrac : f.intfrac (if sign then -(m : Int) + n else m - n) = if sign then -(m : Int) + n else m - n := by
    rw [Format.intfrac]
    apply Int.bmod_eq_of_le
    · split <;> omega
    · split <;> omega
  have habs : f.word (if sign then -(m : Int) + n else m - n).natAbs = m - n + (n - m) := by
    rw [Format.word, Nat.mod_eq_of_lt]
    · split <;> omega
    · split <;> omega
  have hsign : (!decide ((if sign then -(m : Int) + n else m - n) ≥ 0)) = if sign then decide (y < x) else decide (x < y) := by
    rw [← decide_not]
    split
    · exact decide_eq_decide.mpr (by omega)
    · exact decide_eq_decide.mpr (by omega)
  have hne : sign ≠ !sign := by simp
  rw [addFractions, if_pos hne, hintfrac]
  dsimp only
  rw [habs, hsign]
  constructor
  · intro hxy
    have hzero : m - n + (n - m) = 0 := by omega
    have hnorm : normalize f 0 (scale - f.quantum) = (0, (scale : Int) - f.quantum) := by
      rw [normalize, if_neg (by omega)]
    have hs : (if sign then decide (y < x) else decide (x < y)) = false := by
      subst hxy
      simp
    have hpos : 0 < 2 ^ (f.fracBits + f.nGards) := Nat.two_pow_pos _
    rw [hzero, hnorm, hs, renormalize, if_neg (by dsimp only; rw [f.implicit2_eq]; omega), packD, if_neg (by simp [FpNumber.isnan]),
      if_neg (by simp [FpNumber.isinf]), if_neg (by simp [FpNumber.iszero]), if_pos rfl, assemble_eq _ (Nat.two_pow_pos _), Nat.zero_mod,
      Nat.zero_mul]
  · intro hxy
    obtain ⟨hfit, hround⟩ := normalize_stands (f := f) (by omega) (by omega) h.dist h.short (if sign then decide (y < x) else decide (x < y))
    simp only [renormalize, ge_iff_le, Nat.not_le.mpr hfit, if_false]
    exact hround

end Aligned

section Numbers

variable {f : Format} {a b : f.Raw} {i j m n : Nat}

theorem alignParts_near (ha : Unpacked a i m) (hb : Unpacked b j n) (hnear : ((i : Int) - j).natAbs < f.fracNbits) : ∃ scale r t : Nat,
    alignParts f (unpackD f a) (unpackD f b) = (r, t, (scale : Int) - f.quantum) ∧ Aligned f (magnitude a) (magnitude b) scale r t := by
  rw [ha.unpack, hb.unpack, alignParts, if_pos (by dsimp only; omega)]
  obtain hlt | hle := Nat.lt_or_ge i j
  · obtain ⟨k, rfl⟩ := Nat.exists_eq_add_of_le hlt.le
    have hshift := alignTo_add m ((i : Int) - f.quantum) k
    have hexp : ((i + k : Nat) : Int) - f.quantum = (i : Int) - f.quantum + k := by omega
    have hkeep : alignTo n ((i : Int) - f.quantum + k) (i - f.quantum) = (n, (i : Int) - f.quantum + k) := alignTo_le (by omega)
    refine ⟨i + k, jam^[k] m, n, ?_, (hb.aligned ha).symm⟩
    dsimp only
    rw [hexp, hkeep, hshift]
  · obtain ⟨k, rfl⟩ := Nat.exists_eq_add_of_le hle
    have hshift := alignTo_add n ((j : Int) - f.quantum) k
    have hexp : ((j + k : Nat) : Int) - f.quantum = (j : Int) - f.quantum + k := by omega
    refine ⟨j + k, m, jam^[k] n, ?_, ha.aligned hb⟩
    dsimp only
    rw [hexp, hshift, alignTo_le le_rfl]

/-- A fraction to which a dropped one is added stays as it is. -/
theorem addFractions_zero {fraction : Nat} (hlow : 2 ^ (f.fracBits + f.nGards) ≤ fraction)
    (hhigh : fraction < 2 * 2 ^ (f.fracBits + f.nGards)) (sign sign' : Bool) (exp : Int) :
    renormalize f (addFractions f sign sign' fraction 0 exp) = ⟨.number, sign, exp, fraction⟩ ∧
      renormalize f (addFractions f sign sign' 0 fraction exp) = ⟨.number, sign', exp, fraction⟩ := by
  have hroom := f.implicit2_lt
  have hkeep (s : Bool) : renormalize f ⟨.number, s, exp, fraction⟩ = ⟨.number, s, exp, fraction⟩ := by
    simp only [renormalize, ge_iff_le, f.implicit2_eq, Nat.not_le.mpr hhigh, if_false]
  have hnorm : normalize f fraction exp = (fraction, exp) := by
    rw [normalize, f.implicit1_eq, if_neg (by omega)]
  have hword : f.word fraction = fraction := Nat.mod_eq_of_lt (by omega)
  have hpos : f.intfrac fraction = fraction := Int.bmod_eq_of_le (by omega) (by omega)
  have hneg : f.intfrac (-fraction) = -fraction := Int.bmod_eq_of_le (by omega) (by omega)
  have hlow' : 0 < 2 ^ (f.fracBits + f.nGards) := Nat.two_pow_pos _
  rw [addFractions, addFractions]
  cases sign <;> cases sign' <;>
    simp [hkeep, hnorm, hword, hpos, hneg, -BitVec.ofNat_eq_ofNat] <;> omega

/-- A number whose exponent is greater by a word is the rounded sum and the rounded difference. -/
theorem far_rounded (ha : Unpacked a i m) (hb : Unpacked b j n) (hfar : j + f.fracNbits ≤ i) (hfinite : IsFinite a) {v : Nat}
    (hle : v ≤ magnitude a + magnitude b) (hge : magnitude a ≤ v + magnitude b) : IsRounded (neg a) v 1 a := by
  have hp : 0 < 2 ^ (f.fracBits + f.nGards) := Nat.two_pow_pos _
  have hroom := f.room
  have hgards := f.gards_ge
  obtain ⟨e, rfl⟩ := Nat.exists_eq_add_of_le (show f.fracBits ≤ i by omega)
  obtain ⟨c, rfl⟩ := ha.guards
  have hsplit := f.implicit1_split
  have hgpos : 0 < 2 ^ f.nGards := Nat.two_pow_pos _
  have hvalue : magnitude a = c * (1 * 2 ^ e) := by
    refine Nat.eq_of_mul_eq_mul_right hp ?_
    rw [ha.value]
    ring
  have hlow : 2 ^ f.fracBits ≤ c := by
    refine Nat.le_of_mul_le_mul_left ?_ hgpos
    rw [Nat.mul_comm, ← hsplit]
    exact ha.low
  have hhigh : c < 2 ^ (f.fracBits + 1) := by
    refine Nat.lt_of_mul_lt_mul_left (a := 2 ^ f.nGards) ?_
    calc 2 ^ f.nGards * c < 2 * 2 ^ (f.fracBits + f.nGards) := ha.high
      _ = 2 ^ f.nGards * 2 ^ (f.fracBits + 1) := by ring
  have hsmall : 4 * magnitude b < 1 * 2 ^ e := by
    refine Nat.lt_of_mul_lt_mul_right (a := 2 ^ (f.fracBits + f.nGards)) ?_
    calc 4 * magnitude b * 2 ^ (f.fracBits + f.nGards) = 4 * (n * 2 ^ j) := by rw [← hb.value]; ring
      _ < 4 * (2 * 2 ^ (f.fracBits + f.nGards) * 2 ^ j) :=
        Nat.mul_lt_mul_of_pos_left (Nat.mul_lt_mul_of_pos_right hb.high (Nat.two_pow_pos j)) (by decide)
      _ = 2 ^ (j + 3) * 2 ^ (f.fracBits + f.nGards) := by ring
      _ ≤ 2 ^ e * 2 ^ (f.fracBits + f.nGards) := Nat.mul_le_mul_right _ (Nat.pow_le_pow_right (by decide) (by omega))
      _ = 1 * 2 ^ e * 2 ^ (f.fracBits + f.nGards) := by rw [Nat.one_mul]
  have hround := roundMagnitude_of_close (n := v) (e := e) Nat.one_pos hlow hhigh (by omega) (by omega)
  have hself := roundMagnitude_of_close (n := magnitude a) (e := e) Nat.one_pos hlow hhigh (by omega) (by omega)
  rw [isRounded_iff Nat.one_pos, hround, ← hself, ← bits_eq_round, Nat.min_eq_left (Nat.le_of_lt hfinite), pattern_self]

theorem add_numbers (ha : Unpacked a i m) (hb : Unpacked b j n) : add f a b = packD f (renormalize f (addFractions f (neg a) (neg b)
    (alignParts f (unpackD f a) (unpackD f b)).1 (alignParts f (unpackD f a) (unpackD f b)).2.1
    (alignParts f (unpackD f a) (unpackD f b)).2.2)) := by
  rw [add, ha.unpack, hb.unpack]
  rfl

/-- Of two numbers that are far from each other the greater is the result. -/
theorem add_far (ha : Unpacked a i m) (hb : Unpacked b j n) (hfa : IsFinite a) (hfb : IsFinite b) :
    (j + f.fracNbits ≤ i → add f a b = a) ∧ (i + f.fracNbits ≤ j → add f a b = b) := by
  rw [add_numbers ha hb, ha.unpack, hb.unpack, alignParts]
  constructor
  · intro hfar
    rw [if_neg (by dsimp only; omega), if_pos (by dsimp only; have := f.room; omega)]
    dsimp only
    rw [(addFractions_zero ha.low ha.high _ _ _).1, ← ha.unpack, packD_unpackD hfa.not_nan]
  · intro hfar
    rw [if_neg (by dsimp only; omega), if_neg (by dsimp only; omega)]
    dsimp only
    rw [(addFractions_zero hb.low hb.high _ _ _).2, ← hb.unpack, packD_unpackD hfb.not_nan]

theorem add_same (ha : Unpacked a i m) (hb : Unpacked b j n) (hfa : IsFinite a) (hfb : IsFinite b) (hsign : neg b = neg a) :
    IsRounded (neg a) (magnitude a + magnitude b) 1 (add f a b) := by
  obtain ⟨hleft, hright⟩ := add_far ha hb hfa hfb
  by_cases hnear : ((i : Int) - j).natAbs < f.fracNbits
  · obtain ⟨scale, r, t, hparts, haligned⟩ := alignParts_near ha hb hnear
    have hsame : ¬ neg a ≠ neg b := by simp [hsign]
    rw [add_numbers ha hb, hparts, addFractions, if_neg hsame]
    exact haligned.sum_rounded (neg a)
  · obtain hfar | hfar : j + f.fracNbits ≤ i ∨ i + f.fracNbits ≤ j := by omega
    · rw [hleft hfar]
      exact far_rounded ha hb hfar hfa le_rfl (by omega)
    · rw [hright hfar, ← hsign]
      exact far_rounded hb ha hfar hfb (by omega) (by omega)

theorem add_opposite (ha : Unpacked a i m) (hb : Unpacked b j n) (hfa : IsFinite a) (hfb : IsFinite b) (hsign : neg b = !neg a) :
    (magnitude a = magnitude b → add f a b = pattern f false 0) ∧
      (magnitude a ≠ magnitude b → IsRounded (if neg a then decide (magnitude b < magnitude a) else decide (magnitude a < magnitude b))
        (magnitude a - magnitude b + (magnitude b - magnitude a)) 1 (add f a b)) := by
  obtain ⟨hleft, hright⟩ := add_far ha hb hfa hfb
  by_cases hnear : ((i : Int) - j).natAbs < f.fracNbits
  · obtain ⟨scale, r, t, hparts, haligned⟩ := alignParts_near ha hb hnear
    rw [add_numbers ha hb, hparts, hsign]
    exact haligned.difference_rounded (neg a)
  · have hroom := f.room
    have hlt := ha.lt_iff hb
    have hgt := hb.lt_iff ha
    obtain hfar | hfar : j + f.fracNbits ≤ i ∨ i + f.fracNbits ≤ j := by omega
    · have hless : magnitude b < magnitude a := hgt.mpr (.inl (by omega))
      have hs : (if neg a then decide (magnitude b < magnitude a) else decide (magnitude a < magnitude b)) = neg a := by
        rw [decide_eq_true hless, decide_eq_false (by omega)]
        cases neg a <;> rfl
      rw [hleft hfar, hs]
      exact ⟨fun heq => absurd heq hless.ne', fun _ => far_rounded ha hb hfar hfa (by omega) (by omega)⟩
    · have hless : magnitude a < magnitude b := hlt.mpr (.inl (by omega))
      have hs : (if neg a then decide (magnitude b < magnitude a) else decide (magnitude a < magnitude b)) = neg b := by
        rw [decide_eq_true hless, decide_eq_false (by omega), hsign]
        cases neg a <;> rfl
      rw [hright hfar, hs]
      exact ⟨fun heq => absurd heq hless.ne, fun _ => far_rounded hb ha hfar hfb (by omega) (by omega)⟩

end Numbers

section Sum

variable {f : Format} {a b : f.Raw}

theorem IsFinite.isRounded_value (h : IsFinite a) (hne : value a ≠ 0) : IsRounded (decide (value a < 0)) (value a).natAbs 1 a := by
  have hround := h.isRounded
  obtain hsign | hsign := Bool.eq_false_or_eq_true (neg a)
  · rw [value_neg hsign] at hne ⊢
    rw [decide_eq_true (by omega), ← hsign]
    simpa using hround
  · rw [value_pos hsign, decide_eq_false (by omega), ← hsign]
    simpa using hround

/-- The sum of two numbers that are neither 0 nor an infinity. -/
theorem add_numbers_isSum {i j m n : Nat} (ha : Unpacked a i m) (hb : Unpacked b j n) (hfa : IsFinite a) (hfb : IsFinite b) :
    if value a + value b = 0 then add f a b = pattern f (neg a && neg b) 0
    else IsRounded (decide (value a + value b < 0)) (value a + value b).natAbs 1 (add f a b) := by
  have hposa := ha.magnitude_pos
  have hposb := hb.magnitude_pos
  obtain hna | hna := Bool.eq_false_or_eq_true (neg a) <;> obtain hnb | hnb := Bool.eq_false_or_eq_true (neg b)
  · have hround := add_same ha hb hfa hfb (hnb.trans hna.symm)
    rw [value_neg hna, value_neg hnb, if_neg (by omega), decide_eq_true (by omega), ← hna]
    rwa [show (-(magnitude a : Int) + -magnitude b).natAbs = magnitude a + magnitude b by omega]
  · obtain ⟨hzero, hround⟩ := add_opposite ha hb hfa hfb (by rw [hna, hnb]; rfl)
    rw [hna] at hround
    rw [value_neg hna, value_pos hnb, hnb, Bool.and_false]
    split
    · next h => exact hzero (by omega)
    · next h =>
      have hr := hround (by omega)
      rwa [if_pos rfl, ← decide_eq_decide.mpr (show -(magnitude a : Int) + magnitude b < 0 ↔ magnitude b < magnitude a by omega),
        show magnitude a - magnitude b + (magnitude b - magnitude a) = (-(magnitude a : Int) + magnitude b).natAbs by omega] at hr
  · obtain ⟨hzero, hround⟩ := add_opposite ha hb hfa hfb (by rw [hna, hnb]; rfl)
    rw [hna] at hround
    rw [value_pos hna, value_neg hnb, hna, Bool.false_and]
    split
    · next h => exact hzero (by omega)
    · next h =>
      have hr := hround (by omega)
      rwa [if_neg Bool.false_ne_true, ← decide_eq_decide.mpr (show (magnitude a : Int) + -magnitude b < 0 ↔ magnitude a < magnitude b by omega),
        show magnitude a - magnitude b + (magnitude b - magnitude a) = ((magnitude a : Int) + -magnitude b).natAbs by omega] at hr
  · have hround := add_same ha hb hfa hfb (hnb.trans hna.symm)
    rw [value_pos hna, value_pos hnb, if_neg (by omega), decide_eq_false (by omega), ← hna]
    rwa [show ((magnitude a : Int) + magnitude b).natAbs = magnitude a + magnitude b by omega]

theorem add_left (ha : ¬ IsNan a) (h : fpaddParts f (unpackD f a) (unpackD f b) = unpackD f a) : add f a b = a := by
  rw [add, h, packD_unpackD ha]

theorem add_right (hb : ¬ IsNan b) (h : fpaddParts f (unpackD f a) (unpackD f b) = unpackD f b) : add f a b = b := by
  rw [add, h, packD_unpackD hb]

theorem value_ne_zero {i m : Nat} (h : Unpacked a i m) : value a ≠ 0 := by
  have hpos := h.magnitude_pos
  rw [value]
  split <;> omega

theorem value_zero (hzero : bits a = 0) : value a = 0 := by
  rw [value, magnitude_zero hzero]
  simp

theorem add_isSum (ha : ¬ IsNan a) (hb : ¬ IsNan b) : IsSum a b (add f a b) := by
  rw [IsSum]
  obtain hza | hia | ⟨hfa, i, m, hna⟩ := number_cases ha <;> obtain hzb | hib | ⟨hfb, j, n, hnb⟩ := number_cases hb
  · rw [if_neg (fun h => not_inf_of_zero hza h.1), if_neg (not_inf_of_zero hza), if_neg (not_inf_of_zero hzb), value_zero hza,
      value_zero hzb, if_pos (Int.add_zero 0), add, unpackD_zero hza, unpackD_zero hzb]
    exact packD_zero _ _ _
  · rw [if_neg (fun h => not_inf_of_zero hza h.1), if_neg (not_inf_of_zero hza), if_pos hib]
    exact add_right hb (by rw [unpackD_zero hza, unpackD_inf hib]; rfl)
  · have hne := value_ne_zero hnb
    rw [if_neg (fun h => not_inf_of_zero hza h.1), if_neg (not_inf_of_zero hza), if_neg hfb.not_inf, value_zero hza, Int.zero_add,
      if_neg hne, add_right hb (by rw [unpackD_zero hza, hnb.unpack]; rfl)]
    exact hfb.isRounded_value hne
  · rw [if_neg (fun h => not_inf_of_zero hzb h.2.1), if_pos hia]
    exact add_left ha (by rw [unpackD_zero hzb, unpackD_inf hia]; rfl)
  · split
    · next h =>
      rw [add, unpackD_inf hia, unpackD_inf hib, fpaddParts]
      simp [FpNumber.isnan, FpNumber.isinf, h.2.2, packD_nan_isNan]
    · next h =>
      have hsign : neg a = neg b := by
        by_contra hne
        exact h ⟨hia, hib, hne⟩
      refine add_left ha ?_
      rw [unpackD_inf hia, unpackD_inf hib, fpaddParts]
      simp [FpNumber.isnan, FpNumber.isinf, hsign]
  · rw [if_neg (fun h => hfb.not_inf h.2.1), if_pos hia]
    exact add_left ha (by rw [hnb.unpack, unpackD_inf hia]; rfl)
  · have hne := value_ne_zero hna
    rw [if_neg (fun h => hfa.not_inf h.1), if_neg hfa.not_inf, if_neg (not_inf_of_zero hzb), value_zero hzb, Int.add_zero,
      if_neg hne, add_left ha (by rw [unpackD_zero hzb, hna.unpack]; rfl)]
    exact hfa.isRounded_value hne
  · rw [if_neg (fun h => hfa.not_inf h.1), if_neg hfa.not_inf, if_pos hib]
    exact add_right hb (by rw [unpackD_inf hib, hna.unpack]; rfl)
  · rw [if_neg (fun h => hfa.not_inf h.1), if_neg hfa.not_inf, if_neg hfb.not_inf]
    exact add_numbers_isSum hna hnb hfa hfb

theorem unpackD_opposite (b : f.Raw) : unpackD f (opposite b) = { unpackD f b with sign := !(unpackD f b).sign } := by
  have hbits : bits (opposite b) = bits b := bits_pattern _ (bits_lt b)
  have hneg : neg (opposite b) = !neg b := neg_pattern _ (bits_lt b)
  rw [unpackD, unpackD, unpackD_fraction, unpackD_exp, unpackD_sign, unpackD_fraction, unpackD_exp, unpackD_sign, hbits, hneg]
  dsimp only
  split_ifs <;> rfl

theorem sub_eq_add (a b : f.Raw) : sub f a b = add f a (opposite b) := by
  rw [sub, add, unpackD_opposite]

theorem opposite_not_nan (hb : ¬ IsNan b) : ¬ IsNan (opposite b) := by
  rwa [IsNan, opposite, bits_pattern _ (bits_lt b)]

end Sum

/-- `add` and `sub` round the exact sum and difference to nearest, ties to even, and overflow to an infinity; the zeros and the
infinities are as their rules say. -/
theorem add_sub_isSum (f : Format) (a b : f.Raw) (ha : ¬ IsNan a) (hb : ¬ IsNan b) :
    IsSum a b (add f a b) ∧ IsSum a (opposite b) (sub f a b) := by
  rw [sub_eq_add]
  exact ⟨add_isSum ha hb, add_isSum ha (opposite_not_nan hb)⟩

/-- The smallest subnormal doubled, and subtracted from itself. -/
theorem add_sub_subnormal : IsSum (f := float) 1 1 (add float 1 1) ∧ IsSum (f := float) 1 (opposite 1) (sub float 1 1) :=
  add_sub_isSum float 1 1 (by decide) (by decide)

end Z80Gcc.FpBit
