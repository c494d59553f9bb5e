import Z80Gcc.Spec.FpBit
import Z80Gcc.Lib.StickyBit
import Mathlib.Data.Nat.Bitwise
import Mathlib.Tactic.Ring

/-! What `pack_d` makes of a fraction, and what `unpack_d` finds in a number. A fraction of `unpack_d` has `fracBits + nGards` bits
under its point; its exponent is counted from `quantum` below, where it is not negative. -/

namespace Z80Gcc.FpBit

open BinaryFloat StickyBit

section Constants

variable (f : Format)

theorem Format.fracBits_pos : 0 < f.fracBits := by
  have hpos := f.quiet_pos
  have hlt := f.quiet_lt
  by_contra hzero
  rw [Nat.eq_zero_of_not_pos hzero] at hlt
  omega

theorem Format.expBias_pos : 0 < f.expBias := by
  have hlong := f.long_exp
  have hroom := f.room
  omega

theorem Format.implicit1_eq : f.implicit1 = 2 ^ (f.fracBits + f.nGards) := by
  rw [Format.implicit1, Nat.one_shiftLeft]

theorem Format.implicit2_eq : f.implicit2 = 2 * 2 ^ (f.fracBits + f.nGards) := by
  rw [Format.implicit2, Nat.one_shiftLeft, show f.fracBits + 1 + f.nGards = f.fracBits + f.nGards + 1 by omega, Nat.pow_succ, Nat.mul_comm]

theorem Format.implicit1_split : 2 ^ (f.fracBits + f.nGards) = 2 ^ f.fracBits * 2 ^ f.nGards := Nat.pow_add _ _ _

theorem Format.guard_split : 2 ^ f.nGards = 2 * f.gardMsb := by
  have hge := f.gards_ge
  rw [f.gardMsb_eq, Nat.mul_comm, ← Nat.pow_succ, Nat.succ_eq_add_one, Nat.sub_add_cancel (by omega)]

theorem Format.implicit2_lt : 2 * (2 * 2 ^ (f.fracBits + f.nGards)) ≤ 2 ^ f.fracNbits := by
  calc 2 * (2 * 2 ^ (f.fracBits + f.nGards)) = 2 ^ (f.fracBits + f.nGards + 2) := by ring
    _ ≤ 2 ^ f.fracNbits := Nat.pow_le_pow_right (by decide) f.room

theorem Format.expMax_succ : f.expMax + 1 = 2 ^ f.expBits := by
  have hpos : 0 < 2 ^ f.expBits := Nat.two_pow_pos _
  have hmax := f.expMax_eq
  omega

theorem Format.infBits_eq : f.infBits + 2 ^ f.fracBits = 2 ^ (f.fracBits + f.expBits) := by
  rw [Format.infBits, ← Nat.succ_mul, Nat.succ_eq_add_one, f.expMax_succ, Nat.pow_add, Nat.mul_comm]

theorem Format.infBits_lt : f.infBits < 2 ^ (f.fracBits + f.expBits) := by
  have hpos : 0 < 2 ^ f.fracBits := Nat.two_pow_pos _
  have hinf := f.infBits_eq
  omega

end Constants

section Fields

variable {f : Format} {sign : Bool} {b : Nat}

theorem bits_lt (x : f.Raw) : bits x < 2 ^ (f.fracBits + f.expBits) := Nat.mod_lt _ (Nat.two_pow_pos _)

theorem pattern_toNat (sign : Bool) (hb : b < 2 ^ (f.fracBits + f.expBits)) :
    (pattern f sign b).toNat = b + sign.toNat * 2 ^ (f.fracBits + f.expBits) := by
  have hwidth : 2 ^ f.fracNbits = 2 * 2 ^ (f.fracBits + f.expBits) := by
    rw [← f.width_eq, Nat.pow_succ, Nat.mul_comm]
  rw [pattern, BitVec.toNat_ofNat, hwidth]
  apply Nat.mod_eq_of_lt
  cases sign
  · rw [Bool.toNat_false]
    omega
  · rw [Bool.toNat_true]
    omega

theorem bits_pattern (sign : Bool) (hb : b < 2 ^ (f.fracBits + f.expBits)) : bits (pattern f sign b) = b := by
  rw [bits, pattern_toNat sign hb, Nat.add_mul_mod_self_right, Nat.mod_eq_of_lt hb]

/-- Above the bits there is only the sign. -/
theorem sign_lt (x : f.Raw) : x.toNat / 2 ^ (f.fracBits + f.expBits) < 2 := by
  rw [Nat.div_lt_iff_lt_mul (Nat.two_pow_pos _), ← Nat.pow_succ', Nat.succ_eq_add_one, f.width_eq]
  exact x.isLt

theorem pattern_inj {b' : Nat} (sign : Bool) (hb : b < 2 ^ (f.fracBits + f.expBits)) (hb' : b' < 2 ^ (f.fracBits + f.expBits)) :
    pattern f sign b = pattern f sign b' ↔ b = b' := by
  constructor
  · intro h
    rw [← bits_pattern sign hb, h, bits_pattern sign hb']
  · exact congrArg _

theorem neg_eq (x : f.Raw) : neg x = decide (x.toNat / 2 ^ (f.fracBits + f.expBits) = 1) := by
  have hwidth : f.fracNbits - 1 = f.fracBits + f.expBits := by
    rw [← f.width_eq, Nat.add_sub_cancel]
  have hdiv := sign_lt x
  rw [neg, BitVec.msb_eq_decide, decide_eq_decide, hwidth, ← Nat.one_le_div_iff (Nat.two_pow_pos _)]
  omega

theorem neg_pattern (sign : Bool) (hb : b < 2 ^ (f.fracBits + f.expBits)) : neg (pattern f sign b) = sign := by
  rw [neg_eq, pattern_toNat sign hb, Nat.add_mul_div_right _ _ (Nat.two_pow_pos _), Nat.div_eq_of_lt hb]
  cases sign <;> rfl

theorem pattern_self (x : f.Raw) : pattern f (neg x) (bits x) = x := by
  apply BitVec.eq_of_toNat_eq
  have hdiv := sign_lt x
  have hsplit := Nat.mod_add_div x.toNat (2 ^ (f.fracBits + f.expBits))
  rw [pattern_toNat _ (bits_lt x), neg_eq, bits]
  obtain hzero | hone := Nat.le_one_iff_eq_zero_or_eq_one.mp (Nat.le_of_lt_succ hdiv)
  · rw [hzero, Nat.mul_zero] at hsplit
    rw [hzero]
    simpa using hsplit
  · rw [hone, Nat.mul_one] at hsplit
    rw [hone]
    simpa using hsplit

/-- The fields put together; a fraction may have its implicit bit, which is not stored. -/
theorem assemble_eq (sign : Bool) {exp : Nat} (hexp : exp < 2 ^ f.expBits) (fraction : Nat) :
    assemble f sign exp fraction = pattern f sign (exp * 2 ^ f.fracBits + fraction % 2 ^ f.fracBits) := by
  have hfrac : fraction % 2 ^ f.fracBits < 2 ^ f.fracBits := Nat.mod_lt _ (Nat.two_pow_pos _)
  have hfields : 2 ^ f.fracBits * exp + fraction % 2 ^ f.fracBits < 2 ^ (f.fracBits + f.expBits) := by
    have hmul : 2 ^ f.fracBits * (exp + 1) ≤ 2 ^ f.fracBits * 2 ^ f.expBits := Nat.mul_le_mul_left _ hexp
    rw [← Nat.pow_add, Nat.mul_succ] at hmul
    omega
  rw [assemble, pattern, Nat.one_shiftLeft, Nat.one_shiftLeft, Nat.and_two_pow_sub_one_eq_mod, Nat.and_two_pow_sub_one_eq_mod,
    Nat.mod_eq_of_lt hexp, f.sign_offset, Nat.shiftLeft_eq, Nat.shiftLeft_eq, Nat.mul_comm exp, Nat.mul_comm sign.toNat, Nat.or_comm (_ % _),
    ← Nat.two_pow_add_eq_or_of_lt hfrac, Nat.or_comm, ← Nat.two_pow_add_eq_or_of_lt hfields, Nat.add_comm]

end Fields

section Round

variable {f : Format} {sign : Bool} {n d : Nat}

theorem isRounded_iff (hd : 0 < d) (r : f.Raw) :
    IsRounded sign n d r ↔ r = pattern f sign (min (roundMagnitude f.fracBits n d) f.infBits) := by
  constructor
  · intro h
    obtain ⟨b, hb, rfl⟩ := h
    rw [(isNearest_iff f.fracBits_pos hd b).mp hb]
  · intro h
    exact ⟨_, roundMagnitude_nearest f.fracBits_pos hd, h⟩

theorem roundEven_zero (hd : 0 < d) : roundEven 0 d = 0 := by
  have hnear := nearest_exact 0 hd
  rw [Nat.zero_mul] at hnear
  exact hnear.roundEven_eq hd

theorem zero_isRounded (hd : 0 < d) (sign : Bool) : IsRounded sign 0 d (pattern f sign 0) := by
  have hnear := nearest_exact 0 (Nat.mul_pos hd (Nat.two_pow_pos 0))
  rw [Nat.zero_mul] at hnear
  have hround := roundMagnitude_eq (t := f.fracBits) hd (.inl rfl) (Nat.mul_pos (Nat.two_pow_pos _) (Nat.mul_pos hd (Nat.two_pow_pos 0))) hnear
  rw [isRounded_iff hd, hround, Nat.zero_mul, Nat.zero_add, Nat.zero_min]

theorem guardBit (fraction : Nat) : fraction &&& (1 <<< f.nGards) ≠ 0 ↔ fraction / 2 ^ f.nGards % 2 = 1 := by
  rw [Nat.one_shiftLeft, Nat.and_two_pow, Nat.testBit_eq_decide_div_mod_eq]
  obtain h | h := Nat.mod_two_eq_zero_or_one (fraction / 2 ^ f.nGards)
  · rw [h]
    simp
  · rw [h]
    simp

/-- `pack_d`'s rounding: half way to the even number, else by adding just under a half. -/
theorem roundGuards {fraction : Nat} (hroom : fraction + f.gardMsb < 2 ^ f.fracNbits) :
    (if fraction &&& f.gardMask = f.gardMsb then
        if fraction &&& (1 <<< f.nGards) ≠ 0 then f.word (fraction + (f.gardRound + 1)) else fraction
      else f.word (fraction + f.gardRound)) / 2 ^ f.nGards = roundEven fraction (2 ^ f.nGards) := by
  have hguard := f.guard_split
  have hround := f.gardRound_eq
  have hsplit := Nat.div_add_mod fraction (2 ^ f.nGards)
  have hmod := Nat.mod_lt fraction (Nat.two_pow_pos f.nGards)
  have hpos : 0 < 2 ^ f.nGards := Nat.two_pow_pos _
  simp only [f.gardMask_eq, Nat.and_two_pow_sub_one_eq_mod, guardBit, Format.word]
  have hfloor {k : Nat} (hk : fraction % 2 ^ f.nGards + k < 2 ^ f.nGards) : (fraction + k) / 2 ^ f.nGards = fraction / 2 ^ f.nGards := by
    apply Nat.div_eq_of_lt_le
    · rw [Nat.mul_comm]
      omega
    · rw [Nat.succ_mul, Nat.mul_comm]
      omega
  have hceil {k : Nat} (hk : 2 ^ f.nGards ≤ fraction % 2 ^ f.nGards + k) (hk' : fraction % 2 ^ f.nGards + k < 2 * 2 ^ f.nGards) :
      (fraction + k) / 2 ^ f.nGards = fraction / 2 ^ f.nGards + 1 := by
    apply Nat.div_eq_of_lt_le
    · rw [Nat.succ_mul, Nat.mul_comm]
      omega
    · rw [Nat.succ_mul, Nat.succ_mul, Nat.mul_comm]
      omega
  rw [roundEven]
  by_cases hhalf : fraction % 2 ^ f.nGards = f.gardMsb
  · rw [if_pos hhalf]
    by_cases hodd : fraction / 2 ^ f.nGards % 2 = 1
    · rw [if_pos hodd, if_neg (by omega), Nat.mod_eq_of_lt (by omega), hceil (by omega) (by omega)]
    · rw [if_neg hodd, if_pos (by omega)]
  · rw [if_neg hhalf, Nat.mod_eq_of_lt (by omega)]
    by_cases hlow : fraction % 2 ^ f.nGards < f.gardMsb
    · rw [hfloor (by omega), if_pos (by omega)]
    · rw [hceil (by omega) (by omega), if_neg (by omega)]

end Round

section Pack

variable {f : Format} {fraction : Nat}

theorem packD_number (sign : Bool) (exp : Int) (hfrac : fraction ≠ 0) : packD f ⟨.number, sign, exp, fraction⟩ =
    assemble f sign (packNumber f exp fraction).1 (packNumber f exp fraction).2 := by
  rw [packD, if_neg (by simp [FpNumber.isnan]), if_neg (by simp [FpNumber.isinf]), if_neg (by simp [FpNumber.iszero]), if_neg hfrac]

/-- A number that is not below the normal range: the bits are the exponent field, less one, over the rounded fraction with its
implicit bit. A carry into the next power of two is one into the exponent field. -/
theorem packD_normal (sign : Bool) {e : Nat} (hlow : 2 ^ (f.fracBits + f.nGards) ≤ fraction)
    (hhigh : fraction ≤ 2 * 2 ^ (f.fracBits + f.nGards)) (he : e < 2 * f.expBias) :
    packD f ⟨.number, sign, e - f.expBias + 1, fraction⟩ = pattern f sign (e * 2 ^ f.fracBits + roundEven fraction (2 ^ f.nGards)) := by
  have hpos : 0 < 2 ^ (f.fracBits + f.nGards) := Nat.two_pow_pos _
  have hgpos : 0 < 2 ^ f.nGards := Nat.two_pow_pos _
  have hroom := f.implicit2_lt
  have hguard := f.guard_split
  have hsplit := f.implicit1_split
  have hmax := f.expMax_succ
  have hbias := f.expBias_eq
  have hmsb : f.gardMsb < 2 ^ (f.fracBits + f.nGards) := by
    have hmul : 2 ^ f.nGards ≤ 2 ^ f.fracBits * 2 ^ f.nGards := Nat.le_mul_of_pos_left _ (Nat.two_pow_pos _)
    omega
  have hnear := roundEven_nearest (n := fraction) hgpos
  have hmlow : 2 ^ f.fracBits ≤ roundEven fraction (2 ^ f.nGards) := hnear.pow_le hgpos (by rwa [← hsplit])
  have hmhigh : roundEven fraction (2 ^ f.nGards) ≤ 2 * 2 ^ f.fracBits := by
    refine hnear.le_pow hgpos ?_
    rw [Nat.mul_assoc, ← hsplit]
    exact hhigh
  have hround := roundGuards (f := f) (show fraction + f.gardMsb < 2 ^ f.fracNbits by omega)
  rw [packD_number sign _ (by omega), packNumber, if_neg (by rw [Format.normalExpMin]; omega), if_neg (by omega),
    show (((e : Int) - f.expBias + 1) + f.expBias).toNat = e + 1 by omega]
  generalize (if fraction &&& f.gardMask = f.gardMsb then
    if fraction &&& (1 <<< f.nGards) ≠ 0 then f.word (fraction + (f.gardRound + 1)) else fraction
    else f.word (fraction + f.gardRound)) = rounded at hround ⊢
  have hcarry : f.implicit2 ≤ rounded ↔ 2 * 2 ^ f.fracBits ≤ roundEven fraction (2 ^ f.nGards) := by
    rw [← hround, Nat.le_div_iff_mul_le hgpos, Nat.mul_assoc, ← hsplit, f.implicit2_eq]
  dsimp only
  by_cases hfull : f.implicit2 ≤ rounded
  · rw [if_pos hfull]
    have hm := hcarry.mp hfull
    have hhalf : rounded >>> 1 >>> f.nGards = 2 ^ f.fracBits := by
      rw [Nat.shiftRight_eq_div_pow, Nat.shiftRight_eq_div_pow, Nat.div_div_eq_div_mul, Nat.mul_comm, ← Nat.div_div_eq_div_mul, hround,
        Nat.pow_one]
      omega
    rw [assemble_eq sign (by omega), hhalf, Nat.mod_self]
    congr 1
    rw [Nat.add_mul, Nat.add_mul]
    omega
  · rw [if_neg hfull]
    have hm := hcarry.not.mp hfull
    rw [assemble_eq sign (by omega), Nat.shiftRight_eq_div_pow, hround, Nat.mod_eq_sub_mod hmlow, Nat.mod_eq_of_lt (by omega), Nat.succ_mul]
    congr 1
    omega

theorem packD_overflow (sign : Bool) {exp : Int} (hfrac : fraction ≠ 0) (hexp : f.expBias < exp) :
    packD f ⟨.number, sign, exp, fraction⟩ = pattern f sign f.infBits := by
  have hmax := f.expMax_succ
  rw [packD_number sign _ hfrac, packNumber, if_neg (by rw [Format.normalExpMin]; omega), if_pos hexp, assemble_eq sign (by omega),
    Nat.zero_mod, Nat.add_zero, Format.infBits]

/-- Below the normal range the fraction is cut off, without rounding; where the guards have carried into the implicit bit, it is lost. -/
theorem packD_subnormal (sign : Bool) {h : Nat} (hh : 0 < h) (hfrac : fraction ≠ 0) (hhigh : fraction ≤ 2 * 2 ^ (f.fracBits + f.nGards)) :
    packD f ⟨.number, sign, 1 - f.expBias - h, fraction⟩ = pattern f sign (fraction / 2 ^ (f.nGards + h) % 2 ^ f.fracBits) := by
  have hroom := f.room
  have hgards := f.gards_ge
  rw [packD_number sign _ hfrac, packNumber, if_pos (by rw [Format.normalExpMin]; omega)]
  dsimp only
  rw [assemble_eq sign (Nat.two_pow_pos _), Nat.zero_mul, Nat.zero_add, Format.normalExpMin,
    show -(f.expBias : Int) + 1 - (1 - f.expBias - h) = h by omega]
  congr 2
  by_cases hfar : (h : Int) > f.fracNbits - f.nGards
  · have hlt : fraction < 2 ^ (f.nGards + h) := by
      calc fraction ≤ 2 * 2 ^ (f.fracBits + f.nGards) := hhigh
        _ = 2 ^ (f.fracBits + f.nGards + 1) := by ring
        _ < 2 ^ (f.nGards + h) := Nat.pow_lt_pow_right (by decide) (by omega)
    rw [if_pos hfar, Nat.zero_shiftRight, Nat.div_eq_of_lt hlt]
  · rw [if_neg hfar, Int.toNat_natCast, Nat.shiftRight_eq_div_pow, Nat.shiftRight_eq_div_pow, Nat.div_div_eq_div_mul, ← Nat.pow_add,
      Nat.add_comm]

theorem packD_infinity (sign : Bool) (exp : Int) (fraction : Nat) :
    packD f ⟨.infinity, sign, exp, fraction⟩ = pattern f sign f.infBits := by
  have hmax := f.expMax_succ
  rw [packD, if_neg (by simp [FpNumber.isnan]), if_pos (by simp [FpNumber.isinf]), assemble_eq sign (by omega), Nat.zero_mod, Nat.add_zero,
    Format.infBits]

theorem packD_zero (sign : Bool) (exp : Int) (fraction : Nat) : packD f ⟨.zero, sign, exp, fraction⟩ = pattern f sign 0 := by
  rw [packD, if_neg (by simp [FpNumber.isnan]), if_neg (by simp [FpNumber.isinf]), if_pos (by simp [FpNumber.iszero]),
    assemble_eq sign (Nat.two_pow_pos _), Nat.zero_mod, Nat.zero_mul]

theorem packD_fraction_zero (sign : Bool) (exp : Int) : packD f ⟨.number, sign, exp, 0⟩ = pattern f sign 0 := by
  rw [packD, if_neg (by simp [FpNumber.isnan]), if_neg (by simp [FpNumber.isinf]), if_neg (by simp [FpNumber.iszero]), if_pos rfl,
    assemble_eq sign (Nat.two_pow_pos _), Nat.zero_mod, Nat.zero_mul]

/-- The bits of a number that is rounded as its fraction is. -/
theorem packD_isRounded (sign : Bool) {e n d : Nat} (hd : 0 < d) (hlow : 2 ^ (f.fracBits + f.nGards) ≤ fraction)
    (hhigh : fraction ≤ 2 * 2 ^ (f.fracBits + f.nGards)) (hsize : 2 ^ f.fracBits * (d * 2 ^ e) ≤ n)
    (hsize' : n < 2 ^ (f.fracBits + 1) * (d * 2 ^ e)) (hnear : Nearest (roundEven fraction (2 ^ f.nGards)) n (d * 2 ^ e)) :
    IsRounded sign n d (packD f ⟨.number, sign, e - f.expBias + 1, fraction⟩) := by
  have hpos : 0 < 2 ^ (f.fracBits + f.nGards) := Nat.two_pow_pos _
  have hD : 0 < d * 2 ^ e := Nat.mul_pos hd (Nat.two_pow_pos e)
  have hmlow := hnear.pow_le hD hsize
  have hmhigh := hnear.le_pow hD hsize'.le
  have hbias := f.expBias_eq
  rw [Nat.pow_succ] at hmhigh
  rw [isRounded_iff hd, roundMagnitude_eq hd (.inr hsize) hsize' hnear]
  by_cases he : e < 2 * f.expBias
  · have hinf : e * 2 ^ f.fracBits + roundEven fraction (2 ^ f.nGards) ≤ f.infBits := by
      have hmul : (e + 2) * 2 ^ f.fracBits ≤ f.expMax * 2 ^ f.fracBits := Nat.mul_le_mul_right _ (by omega)
      rw [Nat.add_mul, ← Format.infBits] at hmul
      omega
    rw [packD_normal sign hlow hhigh he, Nat.min_eq_left hinf]
  · have hinf : f.infBits ≤ e * 2 ^ f.fracBits + roundEven fraction (2 ^ f.nGards) := by
      have hmul : f.expMax * 2 ^ f.fracBits ≤ (e + 1) * 2 ^ f.fracBits := Nat.mul_le_mul_right _ (by omega)
      rw [Nat.succ_mul, ← Format.infBits] at hmul
      omega
    rw [packD_overflow sign (by omega) (by omega), Nat.min_eq_right hinf]

/-- A fraction that stands for a number of quanta is packed into its rounding: a number that is below the normal range is exact, and
nothing is cut off. -/
theorem packD_stands (sign : Bool) {low scale n : Nat} (hlow : 2 ^ (f.fracBits + f.nGards) ≤ fraction)
    (hhigh : fraction < 2 * 2 ^ (f.fracBits + f.nGards)) (hbit : low + 2 ≤ f.nGards)
    (h : Stands low fraction (n * 2 ^ (f.fracBits + f.nGards)) (2 ^ scale)) :
    IsRounded sign n 1 (packD f ⟨.number, sign, scale - f.quantum, fraction⟩) := by
  have hscale : 0 < 2 ^ scale := Nat.two_pow_pos scale
  have hp : 0 < 2 ^ (f.fracBits + f.nGards) := Nat.two_pow_pos _
  have hbias := f.expBias_pos
  by_cases hnormal : f.fracBits ≤ scale
  · obtain ⟨e, rfl⟩ := Nat.exists_eq_add_of_le hnormal
    have hdvd {k : Nat} : 2 ^ (low + 1) ∣ 2 ^ (f.fracBits + f.nGards + k) := Nat.pow_dvd_pow 2 (by omega)
    have hle := h.mul_le (hdvd (k := 0)) hlow
    have hlt := h.lt_mul hscale (c := 2 ^ (f.fracBits + f.nGards + 1)) hdvd (by rwa [Nat.pow_succ, Nat.mul_comm])
    have hnear := h.nearest hscale hbit
    rw [show 2 ^ f.nGards * 2 ^ (f.fracBits + e) = 1 * 2 ^ e * 2 ^ (f.fracBits + f.nGards) by ring, nearest_scale hp] at hnear
    rw [show ((f.fracBits + e : Nat) : Int) - f.quantum = e - f.expBias + 1 by rw [Format.quantum]; omega]
    refine packD_isRounded sign Nat.one_pos hlow hhigh.le ?_ ?_ hnear
    · refine Nat.le_of_mul_le_mul_right (c := 2 ^ (f.fracBits + f.nGards)) ?_ hp
      calc 2 ^ f.fracBits * (1 * 2 ^ e) * 2 ^ (f.fracBits + f.nGards) = 2 ^ (f.fracBits + f.nGards + 0) * 2 ^ (f.fracBits + e) := by ring
        _ ≤ n * 2 ^ (f.fracBits + f.nGards) := hle
    · refine Nat.lt_of_mul_lt_mul_right (a := 2 ^ (f.fracBits + f.nGards)) ?_
      calc n * 2 ^ (f.fracBits + f.nGards) < 2 ^ (f.fracBits + f.nGards + 1) * 2 ^ (f.fracBits + e) := hlt
        _ = 2 ^ (f.fracBits + 1) * (1 * 2 ^ e) * 2 ^ (f.fracBits + f.nGards) := by ring
  · obtain ⟨k, hk⟩ := Nat.exists_eq_add_of_lt (Nat.lt_of_not_le hnormal)
    have hexact : n * 2 ^ (f.fracBits + f.nGards) = fraction * 2 ^ scale := by
      refine h.exact (dvd_mul_of_dvd_right ?_ n)
      rw [← Nat.pow_add]
      exact Nat.pow_dvd_pow 2 (by omega)
    have hfraction : fraction = n * 2 ^ (f.nGards + (k + 1)) := by
      refine Nat.eq_of_mul_eq_mul_right hscale ?_
      rw [← hexact, hk]
      ring
    have hsmall : n < 2 ^ f.fracBits := by
      refine Nat.lt_of_mul_lt_mul_right (a := 2 ^ (f.fracBits + f.nGards)) ?_
      calc n * 2 ^ (f.fracBits + f.nGards) = fraction * 2 ^ scale := hexact
        _ < 2 * 2 ^ (f.fracBits + f.nGards) * 2 ^ scale := Nat.mul_lt_mul_of_pos_right hhigh hscale
        _ = 2 ^ (scale + 1) * 2 ^ (f.fracBits + f.nGards) := by ring
        _ ≤ 2 ^ f.fracBits * 2 ^ (f.fracBits + f.nGards) := Nat.mul_le_mul_right _ (Nat.pow_le_pow_right (by decide) (by omega))
    have hinf : n ≤ f.infBits := by
      have hbias' := f.expBias_eq
      have hmul : 1 * 2 ^ f.fracBits ≤ f.expMax * 2 ^ f.fracBits := Nat.mul_le_mul_right _ (by omega)
      rw [← Format.infBits] at hmul
      omega
    have hnear : Nearest n n (1 * 2 ^ 0) := by simpa using nearest_exact n (d := 1) Nat.one_pos
    have hround := roundMagnitude_eq (t := f.fracBits) Nat.one_pos (.inl rfl) (by rw [Nat.pow_succ]; omega) hnear
    rw [isRounded_iff Nat.one_pos, hround, Nat.zero_mul, Nat.zero_add, Nat.min_eq_left hinf,
      show (scale : Int) - f.quantum = 1 - f.expBias - (k + 1 : Nat) by rw [Format.quantum]; omega,
      packD_subnormal sign k.succ_pos (by omega) hhigh.le]
    rw [hfraction, Nat.mul_div_cancel _ (Nat.two_pow_pos _), Nat.mod_eq_of_lt hsmall]

end Pack

section Normalize

variable (f : Format)

/-- A number that is not 0 is not shifted up by more bits than there is room for. -/
theorem shift_le {m k n : Nat} (hpos : 0 < m) (h : m * 2 ^ k < 2 * 2 ^ n) : k ≤ n := by
  have hpow : 2 ^ k < 2 ^ (n + 1) := by
    calc 2 ^ k ≤ m * 2 ^ k := Nat.le_mul_of_pos_left _ hpos
      _ < 2 * 2 ^ n := h
      _ = 2 ^ (n + 1) := by ring
  exact Nat.le_of_lt_succ ((Nat.pow_lt_pow_iff_right (by decide)).mp hpow)

/-- The loop finds the power of two that brings a fraction to its place. -/
theorem normalize_spec {fraction : Nat} (hpos : 0 < fraction) (hhigh : fraction < 2 * 2 ^ (f.fracBits + f.nGards)) (exp : Int) :
    ∃ n : Nat, normalize f fraction exp = (fraction * 2 ^ n, exp - n) ∧ 2 ^ (f.fracBits + f.nGards) ≤ fraction * 2 ^ n ∧
      fraction * 2 ^ n < 2 * 2 ^ (f.fracBits + f.nGards) := by
  rw [normalize, f.implicit1_eq]
  split
  · next hlow =>
    rw [Nat.shiftLeft_eq, Nat.pow_one]
    obtain ⟨n, hn, hlow', hhigh'⟩ := normalize_spec (show 0 < fraction * 2 by omega) (by omega) (exp - 1)
    refine ⟨n + 1, ?_, ?_, ?_⟩
    · rw [hn]
      congr 1
      · ring
      · push_cast
        ring
    · calc 2 ^ (f.fracBits + f.nGards) ≤ fraction * 2 * 2 ^ n := hlow'
        _ = fraction * 2 ^ (n + 1) := by ring
    · calc fraction * 2 ^ (n + 1) = fraction * 2 * 2 ^ n := by ring
        _ < 2 * 2 ^ (f.fracBits + f.nGards) := hhigh'
  · next hlow => exact ⟨0, by simp, by simp; omega, by simpa using hhigh⟩
termination_by 2 ^ (f.fracBits + f.nGards) - fraction

end Normalize

section Unpack

variable {f : Format} (x : f.Raw)

theorem unpackD_fraction : x.toNat &&& ((1 <<< f.fracBits) - 1) = bits x % 2 ^ f.fracBits := by
  rw [Nat.one_shiftLeft, Nat.and_two_pow_sub_one_eq_mod, bits, Nat.pow_add, Nat.mod_mul_right_mod]

theorem unpackD_exp : (x.toNat >>> f.fracBits) &&& ((1 <<< f.expBits) - 1) = bits x / 2 ^ f.fracBits := by
  rw [Nat.one_shiftLeft, Nat.and_two_pow_sub_one_eq_mod, Nat.shiftRight_eq_div_pow, bits, Nat.pow_add, Nat.mod_mul_right_div_self]

theorem unpackD_sign : decide ((x.toNat >>> (f.fracBits + f.expBits)) &&& 1 = 1) = neg x := by
  have hlt := sign_lt x
  rw [neg_eq, Nat.and_one_is_mod, Nat.shiftRight_eq_div_pow, Nat.mod_eq_of_lt hlt]

variable {x}

theorem unpackD_zero (hzero : bits x = 0) : unpackD f x = ⟨.zero, neg x, 0, 0⟩ := by
  rw [unpackD, unpackD_fraction, unpackD_exp, unpackD_sign, hzero]
  simp

theorem unpackD_inf (hinf : IsInf x) : unpackD f x = ⟨.infinity, neg x, 0, 0⟩ := by
  have hmax := f.expMax_succ
  have hbias := f.expBias_eq
  rw [unpackD, unpackD_fraction, unpackD_exp, unpackD_sign, hinf, Format.infBits, Nat.mul_div_cancel _ (Nat.two_pow_pos _), Nat.mul_mod_left]
  dsimp only
  rw [if_neg (by omega), if_pos rfl, if_pos rfl]

theorem unpackD_nan (hnan : IsNan x) : (unpackD f x).isnan = true := by
  have hbits := bits_lt x
  have hmax := f.expMax_succ
  have hbias := f.expBias_eq
  have hinf := f.infBits_eq
  rw [IsNan] at hnan
  have hexp : bits x / 2 ^ f.fracBits = f.expMax := by
    apply Nat.div_eq_of_lt_le
    · rw [← Format.infBits]
      omega
    · rw [Nat.succ_mul, ← Format.infBits]
      omega
  have hfrac : bits x % 2 ^ f.fracBits ≠ 0 := by
    have hsplit := Nat.div_add_mod (bits x) (2 ^ f.fracBits)
    rw [hexp, Nat.mul_comm, ← Format.infBits] at hsplit
    omega
  rw [unpackD, unpackD_fraction, unpackD_exp, hexp]
  dsimp only
  rw [if_neg (by omega), if_pos rfl, if_neg hfrac]
  split <;> rfl

/-- A number with the fraction and the exponent that `unpack_d` finds, the exponent as a scale above the quantum. -/
structure Unpacked (x : f.Raw) (scale fraction : Nat) : Prop where
  unpack : unpackD f x = ⟨.number, neg x, scale - f.quantum, fraction⟩
  low : 2 ^ (f.fracBits + f.nGards) ≤ fraction
  high : fraction < 2 * 2 ^ (f.fracBits + f.nGards)
  value : magnitude x * 2 ^ (f.fracBits + f.nGards) = fraction * 2 ^ scale
  guards : 2 ^ f.nGards ∣ fraction

/-- A subnormal is a whole number of quanta, and is shifted up to its place. -/
theorem unpacked_of_subnormal (hexp : bits x / 2 ^ f.fracBits = 0) (hne : bits x ≠ 0) : ∃ scale fraction, Unpacked x scale fraction := by
  have hgpos : 0 < 2 ^ f.nGards := Nat.two_pow_pos _
  have hsplit := f.implicit1_split
  have hbias := f.expBias_pos
  have hlt : bits x < 2 ^ f.fracBits := (Nat.div_eq_zero_iff_lt (Nat.two_pow_pos _)).mp hexp
  have hpos : 0 < bits x := Nat.pos_of_ne_zero hne
  have hhigh : bits x * 2 ^ f.nGards < 2 ^ (f.fracBits + f.nGards) := by
    rw [hsplit]
    exact Nat.mul_lt_mul_of_pos_right hlt hgpos
  obtain ⟨n, hn, hlow, hhigh'⟩ := normalize_spec f (Nat.mul_pos hpos hgpos) (by omega) (((0 : Nat) : Int) - f.expBias + 1)
  have hle : f.nGards + n ≤ f.fracBits + f.nGards := by
    apply shift_le hpos
    rw [Nat.pow_add, ← Nat.mul_assoc]
    exact hhigh'
  obtain ⟨k, hk⟩ := Nat.exists_eq_add_of_le (show n ≤ f.fracBits by omega)
  refine ⟨k, bits x * 2 ^ f.nGards * 2 ^ n, ?_, hlow, hhigh', ?_, ?_⟩
  · rw [unpackD, unpackD_fraction, unpackD_exp, unpackD_sign, hexp, Nat.mod_eq_of_lt hlt]
    dsimp only
    rw [if_pos rfl, if_neg hne, Nat.shiftLeft_eq, hn]
    congr 1
    rw [Format.quantum]
    omega
  · rw [magnitude, BinaryFloat.magnitude, if_pos hexp, Nat.mod_eq_of_lt hlt, hk]
    ring
  · exact dvd_mul_of_dvd_left (Nat.dvd_mul_left _ _) _

/-- A number that is not 0 has a normalized fraction, and its value is that of the fraction. -/
theorem exists_unpacked (hfinite : IsFinite x) (hne : bits x ≠ 0) : ∃ scale fraction, Unpacked x scale fraction := by
  have hgpos : 0 < 2 ^ f.nGards := Nat.two_pow_pos _
  have hsplit := f.implicit1_split
  have hbias := f.expBias_pos
  have hmod := Nat.mod_lt (bits x) (Nat.two_pow_pos f.fracBits)
  by_cases hexp : bits x / 2 ^ f.fracBits = 0
  · exact unpacked_of_subnormal hexp hne
  have hmax : bits x / 2 ^ f.fracBits ≠ f.expMax := by
    intro h
    have hdiv := Nat.div_add_mod (bits x) (2 ^ f.fracBits)
    rw [h, Nat.mul_comm, ← Format.infBits] at hdiv
    rw [IsFinite] at hfinite
    omega
  have hor : (bits x % 2 ^ f.fracBits) <<< f.nGards ||| f.implicit1 = (2 ^ f.fracBits + bits x % 2 ^ f.fracBits) * 2 ^ f.nGards := by
    have hlt : bits x % 2 ^ f.fracBits * 2 ^ f.nGards < 2 ^ (f.fracBits + f.nGards) := by
      rw [hsplit]
      exact Nat.mul_lt_mul_of_pos_right hmod hgpos
    have hadd := Nat.two_pow_add_eq_or_of_lt hlt 1
    rw [Nat.mul_one] at hadd
    rw [Nat.shiftLeft_eq, f.implicit1_eq, Nat.or_comm, ← hadd, hsplit, Nat.add_mul]
  obtain ⟨e, he⟩ := Nat.exists_eq_add_one_of_ne_zero hexp
  refine ⟨e + f.fracBits, (2 ^ f.fracBits + bits x % 2 ^ f.fracBits) * 2 ^ f.nGards, ?_, ?_, ?_, ?_, Nat.dvd_mul_left _ _⟩
  · rw [unpackD, unpackD_fraction, unpackD_exp, unpackD_sign]
    dsimp only
    rw [if_neg hexp, if_neg hmax, hor, he]
    congr 1
    rw [Format.quantum]
    omega
  · rw [hsplit]
    exact Nat.mul_le_mul_right _ (Nat.le_add_right _ _)
  · rw [hsplit, ← Nat.mul_assoc]
    exact Nat.mul_lt_mul_of_pos_right (by omega) hgpos
  · rw [magnitude, BinaryFloat.magnitude, if_neg hexp, he, Nat.add_sub_cancel]
    ring

end Unpack

section Value

variable {f : Format} {x : f.Raw}

theorem magnitude_zero (hzero : bits x = 0) : magnitude x = 0 := by
  rw [magnitude, hzero, BinaryFloat.magnitude, Nat.zero_div, if_pos rfl, Nat.zero_mod]

theorem magnitude_pos (hne : bits x ≠ 0) : 0 < magnitude x := by
  have hlt : magnitude (pattern f false 0) < magnitude x := by
    apply magnitude_strictMono
    rw [bits_pattern _ (Nat.two_pow_pos _)]
    exact Nat.pos_of_ne_zero hne
  exact Nat.zero_lt_of_lt hlt

theorem magnitude_lt_inf {y : f.Raw} (hx : IsFinite x) (hy : IsInf y) : magnitude x < magnitude y := by
  apply magnitude_strictMono
  rw [hy]
  exact hx

theorem inf_ne_zero (hx : IsInf x) : bits x ≠ 0 := by
  have hbias := f.expBias_eq
  rw [hx, Format.infBits]
  exact (Nat.mul_pos (by omega) (Nat.two_pow_pos _)).ne'

theorem magnitude_inf {y : f.Raw} (hx : IsInf x) (hy : IsInf y) : magnitude x = magnitude y := by
  rw [magnitude, magnitude, hx, hy]

theorem number_cases (hnan : ¬ IsNan x) : bits x = 0 ∨ IsInf x ∨ IsFinite x ∧ ∃ scale fraction, Unpacked x scale fraction := by
  rw [IsNan, Nat.not_lt] at hnan
  by_cases hzero : bits x = 0
  · exact .inl hzero
  · obtain hlt | heq := Nat.lt_or_eq_of_le hnan
    · exact .inr (.inr ⟨hlt, exists_unpacked hlt hzero⟩)
    · exact .inr (.inl heq)

theorem bits_eq_round (x : f.Raw) : bits x = roundMagnitude f.fracBits (magnitude x) 1 := by
  rw [← isNearest_iff f.fracBits_pos Nat.one_pos]
  have hzero : distance f.fracBits (magnitude x) 1 (bits x) = 0 := by simp [distance, magnitude]
  refine ⟨fun other => by omega, fun other hne heq => absurd ?_ hne⟩
  rw [hzero, distance] at heq
  have hinj : Function.Injective (BinaryFloat.magnitude f.fracBits) := magnitude_strictMono.injective
  apply hinj
  rw [magnitude] at heq
  omega

theorem value_pos (h : neg x = false) : value x = magnitude x := by rw [value, h, if_neg Bool.false_ne_true]
theorem value_neg (h : neg x = true) : value x = -magnitude x := by rw [value, if_pos h]

theorem Unpacked.magnitude_pos {scale fraction : Nat} (h : Unpacked x scale fraction) : 0 < magnitude x := by
  have hpos : 0 < fraction * 2 ^ scale :=
    Nat.mul_pos ((Nat.two_pow_pos (f.fracBits + f.nGards)).trans_le h.low) (Nat.two_pow_pos _)
  rw [← h.value] at hpos
  exact Nat.pos_of_mul_pos_right hpos

theorem Unpacked.lt_iff {a b : f.Raw} {i j m n : Nat} (ha : Unpacked a i m) (hb : Unpacked b j n) :
    magnitude a < magnitude b ↔ i < j ∨ i = j ∧ m < n := by
  have hp : 0 < 2 ^ (f.fracBits + f.nGards) := Nat.two_pow_pos _
  have hscale {x y : f.Raw} {i j m n : Nat} (hx : Unpacked x i m) (hy : Unpacked y j n) (hlt : i < j) : magnitude x < magnitude y := by
    refine Nat.lt_of_mul_lt_mul_right (a := 2 ^ (f.fracBits + f.nGards)) ?_
    rw [hx.value, hy.value]
    calc m * 2 ^ i < 2 * 2 ^ (f.fracBits + f.nGards) * 2 ^ i := Nat.mul_lt_mul_of_pos_right hx.high (Nat.two_pow_pos i)
      _ = 2 ^ (f.fracBits + f.nGards) * 2 ^ (i + 1) := by ring
      _ ≤ 2 ^ (f.fracBits + f.nGards) * 2 ^ j := Nat.mul_le_mul_left _ (Nat.pow_le_pow_right (by decide) hlt)
      _ ≤ n * 2 ^ j := Nat.mul_le_mul_right _ hy.low
  obtain hlt | rfl | hgt := Nat.lt_trichotomy i j
  · have h := hscale ha hb hlt
    omega
  · rw [← Nat.mul_lt_mul_right hp, ha.value, hb.value, Nat.mul_lt_mul_right (Nat.two_pow_pos i)]
    omega
  · have h := hscale hb ha hgt
    omega

theorem not_inf_of_zero (hzero : bits x = 0) : ¬ IsInf x := fun h => inf_ne_zero h hzero

theorem IsFinite.not_inf (h : IsFinite x) : ¬ IsInf x := Nat.ne_of_lt h

theorem IsFinite.not_nan (h : IsFinite x) : ¬ IsNan x := Nat.lt_asymm h

theorem IsFinite.isRounded (h : IsFinite x) : IsRounded (neg x) (magnitude x) 1 x := by
  rw [isRounded_iff Nat.one_pos, ← bits_eq_round, Nat.min_eq_left (Nat.le_of_lt h), pattern_self]

theorem packD_nan_isNan : IsNan (packD f nan) := by
  have hmax := f.expMax_succ
  have hinf := f.infBits_eq
  have hquiet := f.quiet_lt
  have hpos := f.quiet_pos
  rw [packD, if_pos (by simp [nan, FpNumber.isnan]), assemble_eq _ (by omega), ← Format.infBits, nan]
  dsimp only
  rw [Nat.zero_or, Nat.mod_eq_of_lt hquiet, IsNan, bits_pattern _ (by omega)]
  omega

/-- What is packed after it was unpacked is the same number. -/
theorem packD_unpackD (hnan : ¬ IsNan x) : packD f (unpackD f x) = x := by
  conv_rhs => rw [← pattern_self x]
  obtain hzero | hinf | ⟨hfinite, i, m, h⟩ := number_cases hnan
  · rw [unpackD_zero hzero, packD_zero, hzero]
  · rw [unpackD_inf hinf, packD_infinity, hinf]
  · have hexact : Stands 0 m (magnitude x * 2 ^ (f.fracBits + f.nGards)) (2 ^ i) := .inl h.value
    have hround := packD_stands (neg x) h.low h.high (by have := f.gards_ge; omega) hexact
    rw [← h.unpack, isRounded_iff Nat.one_pos, ← bits_eq_round] at hround
    rw [hround, Nat.min_eq_left (Nat.le_of_lt hfinite)]

end Value

end Z80Gcc.FpBit
