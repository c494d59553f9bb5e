import Z80Gcc.Proofs.FpPack
import Z80Gcc.Spec.FpArith

/-! The rounding of products and quotients, of which a half is done before they are packed. In the normal range the two are one
rounding; below it the packing only cuts off, and the first rounding is seen only where it carries through all the kept bits. -/

namespace Z80Gcc.FpBit

open BinaryFloat

section Halfway

variable {f : Format} {fraction rest : Nat}

theorem roundHalfway_eq (hroom : fraction + f.gardMsb < 2 ^ f.fracNbits) : roundHalfway f fraction rest =
    if fraction % 2 ^ f.nGards = f.gardMsb ∧ (fraction / 2 ^ f.nGards % 2 = 1 ∨ rest ≠ 0) then fraction + f.gardMsb else fraction := by
  have hround := f.gardRound_eq
  have hword : f.word (fraction + (f.gardRound + 1)) = fraction + f.gardMsb := by
    rw [Format.word, hround, Nat.mod_eq_of_lt hroom]
  rw [roundHalfway, hword]
  simp only [f.gardMask_eq, Nat.and_two_pow_sub_one_eq_mod, guardBit]
  split_ifs <;> grind

variable {P U : Nat}

theorem roundHalfway_nearest (hU : 0 < U) (hrest : rest = 0 ↔ P % U = 0) (hroom : P / U + f.gardMsb < 2 ^ f.fracNbits) :
    Nearest (roundEven (roundHalfway f (P / U) rest) (2 ^ f.nGards)) P (2 ^ f.nGards * U) := by
  have hguard := f.guard_split
  have hgpos : 0 < 2 ^ f.nGards := Nat.two_pow_pos _
  obtain ⟨c, hc⟩ : ∃ c, c = P / U / 2 ^ f.nGards := ⟨_, rfl⟩
  obtain ⟨r, hr⟩ : ∃ r, r = P / U % 2 ^ f.nGards := ⟨_, rfl⟩
  have hrlt := Nat.mod_lt (P / U) hgpos
  have hsplit := Nat.div_add_mod (P / U) (2 ^ f.nGards)
  have hrem := Nat.mod_lt P hU
  have hP := Nat.div_add_mod P U
  rw [← hc, ← hr] at hsplit
  rw [← hr] at hrlt
  -- the quotient and its remainder in halves of the unit
  have hD : 2 ^ f.nGards * U = 2 * (f.gardMsb * U) := by rw [hguard]; ring
  have hPsplit : P = c * (2 ^ f.nGards * U) + r * U + P % U := by
    calc P = U * (2 ^ f.nGards * c + r) + P % U := by rw [hsplit, hP]
      _ = c * (2 ^ f.nGards * U) + r * U + P % U := by ring
  have hsucc : (c + 1) * (2 ^ f.nGards * U) = c * (2 ^ f.nGards * U) + 2 ^ f.nGards * U := Nat.succ_mul _ _
  have hUle : f.gardMsb * U + U = (f.gardMsb + 1) * U := (Nat.succ_mul _ _).symm
  have hunit : U ≤ f.gardMsb * U := Nat.le_mul_of_pos_left U (by omega)
  have hrU : r * U + U = (r + 1) * U := (Nat.succ_mul _ _).symm
  rw [roundHalfway_eq hroom, ← hr, ← hc]
  by_cases hhalf : r = f.gardMsb
  · rw [hhalf] at hPsplit
    by_cases hup : c % 2 = 1 ∨ rest ≠ 0
    · -- half way or more, and rounded here
      have hexact : P / U + f.gardMsb = (c + 1) * 2 ^ f.nGards := by
        rw [← hsplit, hhalf, Nat.succ_mul, Nat.mul_comm c]
        omega
      rw [if_pos ⟨hhalf, hup⟩, hexact, (nearest_exact (c + 1) hgpos).roundEven_eq hgpos]
      exact ⟨by omega, by omega, fun htie => by omega⟩
    · rw [if_neg (fun h => hup h.2), roundEven, ← hr, ← hc, if_pos (by omega)]
      exact ⟨by omega, by omega, fun htie => by omega⟩
  · rw [if_neg (fun h => hhalf h.1), roundEven, ← hr, ← hc]
    by_cases hlow : r < f.gardMsb
    · have hmul : (r + 1) * U ≤ f.gardMsb * U := Nat.mul_le_mul_right U hlow
      rw [if_pos (by omega)]
      exact ⟨by omega, by omega, fun htie => by omega⟩
    · have hmul : (f.gardMsb + 1) * U ≤ r * U := Nat.mul_le_mul_right U (by omega)
      have hmul' : (r + 1) * U ≤ 2 ^ f.nGards * U := Nat.mul_le_mul_right U hrlt
      rw [if_neg (by omega)]
      exact ⟨by omega, by omega, fun htie => by omega⟩

theorem roundHalfway_bounds (hlow : 2 ^ (f.fracBits + f.nGards) ≤ fraction) (hhigh : fraction < 2 * 2 ^ (f.fracBits + f.nGards)) :
    2 ^ (f.fracBits + f.nGards) ≤ roundHalfway f fraction rest ∧ roundHalfway f fraction rest ≤ 2 * 2 ^ (f.fracBits + f.nGards) := by
  have hguard := f.guard_split
  have hsplit := f.implicit1_split
  have hroom := f.implicit2_lt
  have hgpos : 0 < 2 ^ f.nGards := Nat.two_pow_pos _
  have hmsb : 2 ^ f.nGards ≤ 2 ^ (f.fracBits + f.nGards) := Nat.pow_le_pow_right (by decide) (by omega)
  rw [roundHalfway_eq (by omega)]
  split
  · next h =>
    refine ⟨by omega, ?_⟩
    have hdiv := Nat.div_add_mod fraction (2 ^ f.nGards)
    have hlt : fraction / 2 ^ f.nGards < 2 * 2 ^ f.fracBits := by
      rw [Nat.div_lt_iff_lt_mul hgpos, Nat.mul_assoc, ← hsplit]
      exact hhigh
    have hmul : 2 ^ f.nGards * (fraction / 2 ^ f.nGards + 1) ≤ 2 ^ f.nGards * (2 * 2 ^ f.fracBits) := Nat.mul_le_mul_left _ hlt
    rw [Nat.mul_succ, Nat.mul_left_comm, Nat.mul_comm (2 ^ f.nGards) (2 ^ f.fracBits), ← hsplit] at hmul
    omega
  · exact ⟨hlow, hhigh.le⟩

end Halfway

section Quotient

/-- A quotient of the length of a fraction, and the number `n / d` of quanta that it is, but for a power of two. -/
structure IsFraction (f : Format) (n d P U x y : Nat) : Prop where
  d_pos : 0 < d
  U_pos : 0 < U
  low : 2 ^ (f.fracBits + f.nGards) * U ≤ P
  high : P < 2 * 2 ^ (f.fracBits + f.nGards) * U
  value : n * U * 2 ^ x = P * d * 2 ^ y

variable {f : Format} {n d P U x y rest : Nat}

theorem IsFraction.bounds (h : IsFraction f n d P U x y) :
    2 ^ (f.fracBits + f.nGards) ≤ P / U ∧ P / U < 2 * 2 ^ (f.fracBits + f.nGards) :=
  ⟨(Nat.le_div_iff_mul_le h.U_pos).mpr h.low, (Nat.div_lt_iff_lt_mul h.U_pos).mpr h.high⟩

theorem IsFraction.room (h : IsFraction f n d P U x y) : P / U + f.gardMsb < 2 ^ f.fracNbits := by
  have hguard := f.guard_split
  have hroom := f.implicit2_lt
  have hmsb : 2 ^ f.nGards ≤ 2 ^ (f.fracBits + f.nGards) := Nat.pow_le_pow_right (by decide) (by omega)
  have hbounds := h.bounds
  have hgpos : 0 < 2 ^ f.nGards := Nat.two_pow_pos _
  omega

theorem IsFraction.normal (h : IsFraction f n d P U x y) (hrest : rest = 0 ↔ P % U = 0) (hxy : x ≤ f.nGards + y) (sign : Bool) :
    2 ^ f.fracBits * d ≤ n ∧ IsRounded sign n d
      (packD f ⟨.number, sign, (f.fracBits : Int) + f.nGards + y - x - f.quantum, roundHalfway f (P / U) rest⟩) := by
  obtain ⟨e, he⟩ := Nat.exists_eq_add_of_le hxy
  obtain ⟨hlow, hhigh⟩ := h.bounds
  obtain ⟨hlow', hhigh'⟩ := roundHalfway_bounds hlow hhigh
  have hgU : 0 < 2 ^ f.nGards * U := Nat.mul_pos (Nat.two_pow_pos _) h.U_pos
  have hD : 0 < d * 2 ^ e := Nat.mul_pos h.d_pos (Nat.two_pow_pos e)
  have hvalue : n * (2 ^ f.nGards * U) = P * (d * 2 ^ e) := by
    refine Nat.eq_of_mul_eq_mul_right (Nat.two_pow_pos x) ?_
    calc n * (2 ^ f.nGards * U) * 2 ^ x = n * U * 2 ^ x * 2 ^ f.nGards := by ring
      _ = P * d * 2 ^ (f.nGards + y) := by rw [h.value]; ring
      _ = P * (d * 2 ^ e) * 2 ^ x := by rw [he]; ring
  have hsize : 2 ^ f.fracBits * (d * 2 ^ e) ≤ n := by
    refine Nat.le_of_mul_le_mul_right (c := 2 ^ f.nGards * U) ?_ hgU
    calc 2 ^ f.fracBits * (d * 2 ^ e) * (2 ^ f.nGards * U) = 2 ^ (f.fracBits + f.nGards) * U * (d * 2 ^ e) := by ring
      _ ≤ P * (d * 2 ^ e) := Nat.mul_le_mul_right _ h.low
      _ = n * (2 ^ f.nGards * U) := hvalue.symm
  have hsize' : n < 2 ^ (f.fracBits + 1) * (d * 2 ^ e) := by
    refine Nat.lt_of_mul_lt_mul_right (a := 2 ^ f.nGards * U) ?_
    calc n * (2 ^ f.nGards * U) = P * (d * 2 ^ e) := hvalue
      _ < 2 * 2 ^ (f.fracBits + f.nGards) * U * (d * 2 ^ e) := Nat.mul_lt_mul_of_pos_right h.high hD
      _ = 2 ^ (f.fracBits + 1) * (d * 2 ^ e) * (2 ^ f.nGards * U) := by ring
  have hnear := roundHalfway_nearest h.U_pos hrest h.room
  rw [← nearest_scale hD, ← hvalue, Nat.mul_comm (2 ^ f.nGards * U), nearest_scale hgU] at hnear
  have hround := packD_isRounded sign h.d_pos hlow' hhigh' hsize hsize' hnear
  have hbias := f.expBias_pos
  rw [show (f.fracBits : Int) + f.nGards + y - x - f.quantum = e - f.expBias + 1 by rw [Format.quantum]; omega]
  refine ⟨?_, hround⟩
  calc 2 ^ f.fracBits * d ≤ 2 ^ f.fracBits * (d * 2 ^ e) := Nat.mul_le_mul_left _ (Nat.le_mul_of_pos_right _ (Nat.two_pow_pos e))
    _ ≤ n := hsize

/-- Where the rounding before the packing carries through `k` kept bits, they are all set and the guards half way. -/
theorem halfway_of_dvd {fraction k : Nat} (hk : 0 < k) (hdvd : 2 ^ (f.nGards + k) ∣ fraction + f.gardMsb) :
    fraction % 2 ^ f.nGards = f.gardMsb ∧ fraction / 2 ^ f.nGards % 2 = 1 := by
  have hguard := f.guard_split
  have hgpos : 0 < 2 ^ f.nGards := Nat.two_pow_pos _
  obtain ⟨j, rfl⟩ := Nat.exists_eq_add_one_of_ne_zero hk.ne'
  obtain ⟨w, hw⟩ := hdvd
  obtain ⟨u, hu⟩ : ∃ u, u = 2 ^ j * w := ⟨_, rfl⟩
  have hfraction : fraction + f.gardMsb = 2 ^ f.nGards * (2 * u) := by
    rw [hw, hu]
    ring
  have hupos : u ≠ 0 := by
    intro hzero
    rw [hzero] at hfraction
    omega
  obtain ⟨v, rfl⟩ := Nat.exists_eq_add_one_of_ne_zero hupos
  have hform : fraction = 2 ^ f.nGards * (2 * v + 1) + f.gardMsb := by
    have hexp : 2 ^ f.nGards * (2 * (v + 1)) = 2 ^ f.nGards * (2 * v + 1) + 2 ^ f.nGards := by ring
    omega
  have hlt : f.gardMsb < 2 ^ f.nGards := by omega
  rw [hform, Nat.mul_add_mod, Nat.mod_eq_of_lt hlt, Nat.mul_add_div hgpos, Nat.div_eq_of_lt hlt]
  omega

theorem add_gardMsb_eq {fraction k : Nat} (hdvd : 2 ^ (f.nGards + k) ∣ fraction + f.gardMsb) :
    fraction + f.gardMsb = 2 ^ (f.nGards + k) * (fraction / 2 ^ (f.nGards + k) + 1) := by
  have hguard := f.guard_split
  have hgpos : 0 < 2 ^ f.nGards := Nat.two_pow_pos _
  have hpow : 2 ^ f.nGards ≤ 2 ^ (f.nGards + k) := Nat.pow_le_pow_right (by decide) (Nat.le_add_right _ _)
  have hsplit := Nat.div_add_mod fraction (2 ^ (f.nGards + k))
  have hmod := Nat.mod_lt fraction (Nat.two_pow_pos (f.nGards + k))
  obtain ⟨w, hw⟩ := hdvd
  have hle : w ≤ fraction / 2 ^ (f.nGards + k) + 1 := by
    by_contra hlt
    have hmul : 2 ^ (f.nGards + k) * (fraction / 2 ^ (f.nGards + k) + 2) ≤ 2 ^ (f.nGards + k) * w := Nat.mul_le_mul_left _ (by omega)
    rw [Nat.mul_add] at hmul
    omega
  have hge : fraction / 2 ^ (f.nGards + k) < w := by
    rw [Nat.div_lt_iff_lt_mul (Nat.two_pow_pos _), Nat.mul_comm, ← hw]
    omega
  rw [hw, Nat.le_antisymm hle hge]

theorem div_of_not_dvd {fraction k : Nat} (hhalf : fraction % 2 ^ f.nGards = f.gardMsb)
    (hdvd : ¬ 2 ^ (f.nGards + k) ∣ fraction + f.gardMsb) : (fraction + f.gardMsb) / 2 ^ (f.nGards + k) = fraction / 2 ^ (f.nGards + k) := by
  have hguard := f.guard_split
  have hsplit := Nat.div_add_mod fraction (2 ^ (f.nGards + k))
  have hless : fraction % 2 ^ (f.nGards + k) + f.gardMsb < 2 ^ (f.nGards + k) := by
    have hmod := Nat.mod_lt fraction (Nat.two_pow_pos (f.nGards + k))
    obtain ⟨s, hs⟩ : ∃ s, s = fraction % 2 ^ (f.nGards + k) := ⟨_, rfl⟩
    rw [← hs] at hsplit hmod ⊢
    have hsmod : s % 2 ^ f.nGards = f.gardMsb := by
      rw [hs, Nat.mod_mod_of_dvd _ (Nat.pow_dvd_pow 2 (Nat.le_add_right _ _)), hhalf]
    have hlt : s / 2 ^ f.nGards < 2 ^ k := by
      rwa [Nat.div_lt_iff_lt_mul (Nat.two_pow_pos _), Nat.mul_comm, ← Nat.pow_add]
    have hmul : 2 ^ f.nGards * (s / 2 ^ f.nGards + 1) ≤ 2 ^ f.nGards * 2 ^ k := Nat.mul_le_mul_left _ hlt
    have hs' := Nat.div_add_mod s (2 ^ f.nGards)
    rw [← Nat.pow_add, Nat.mul_succ] at hmul
    refine Nat.lt_of_le_of_ne (by omega) fun heq => hdvd ?_
    rw [← hsplit, Nat.add_assoc, heq, ← Nat.mul_succ]
    exact Nat.dvd_mul_right _ _
  apply Nat.div_eq_of_lt_le
  · rw [Nat.mul_comm]
    omega
  · rw [Nat.mul_comm, Nat.mul_succ]
    omega

theorem roundHalfway_div {fraction k : Nat} (hk : 0 < k) (hroom : fraction + f.gardMsb < 2 ^ f.fracNbits) :
    roundHalfway f fraction rest / 2 ^ (f.nGards + k) =
      if 2 ^ (f.nGards + k) ∣ fraction + f.gardMsb then fraction / 2 ^ (f.nGards + k) + 1 else fraction / 2 ^ (f.nGards + k) := by
  rw [roundHalfway_eq hroom]
  by_cases hdvd : 2 ^ (f.nGards + k) ∣ fraction + f.gardMsb
  · obtain ⟨hhalf, hodd⟩ := halfway_of_dvd hk hdvd
    rw [if_pos ⟨hhalf, .inl hodd⟩, if_pos hdvd, add_gardMsb_eq hdvd, Nat.mul_div_cancel_left _ (Nat.two_pow_pos _)]
  · rw [if_neg hdvd]
    split
    · next h => exact div_of_not_dvd h.1 hdvd
    · rfl

theorem IsFraction.subnormal {k : Nat} (h : IsFraction f n d P U x y) (hk : 0 < k) (hx : x = f.nGards + y + k) (sign : Bool) :
    (2 ^ f.fracBits * d ≤ n * 2 ^ k ∧ n * 2 ^ k < 2 ^ (f.fracBits + 1) * d) ∧ (IsRounded sign n d
      (packD f ⟨.number, sign, (f.fracBits : Int) + f.nGards + y - x - f.quantum, roundHalfway f (P / U) rest⟩) ↔
        roundEven n d = n / d ∨ 2 ^ (f.nGards + k) ∣ n * 2 ^ (f.nGards + k) / d + f.gardMsb ∧ n / d + 1 < 2 ^ f.fracBits) := by
  have hd := h.d_pos
  have hU := h.U_pos
  have hguard := f.guard_split
  have hgpos : 0 < 2 ^ f.nGards := Nat.two_pow_pos _
  have hgU : 0 < 2 ^ f.nGards * U := Nat.mul_pos hgpos hU
  have hKpos : 0 < 2 ^ (f.nGards + k) := Nat.two_pow_pos _
  obtain ⟨hlow, hhigh⟩ := h.bounds
  obtain ⟨hlow', hhigh'⟩ := roundHalfway_bounds hlow hhigh
  have hvalue : n * U * 2 ^ (f.nGards + k) = P * d := by
    refine Nat.eq_of_mul_eq_mul_right (Nat.two_pow_pos y) ?_
    rw [← h.value, hx]
    ring
  have hsize : 2 ^ f.fracBits * d ≤ n * 2 ^ k := by
    refine Nat.le_of_mul_le_mul_right (c := 2 ^ f.nGards * U) ?_ hgU
    calc 2 ^ f.fracBits * d * (2 ^ f.nGards * U) = 2 ^ (f.fracBits + f.nGards) * U * d := by ring
      _ ≤ P * d := Nat.mul_le_mul_right _ h.low
      _ = n * 2 ^ k * (2 ^ f.nGards * U) := by rw [← hvalue]; ring
  have hsize' : n * 2 ^ k < 2 ^ (f.fracBits + 1) * d := by
    refine Nat.lt_of_mul_lt_mul_right (a := 2 ^ f.nGards * U) ?_
    calc n * 2 ^ k * (2 ^ f.nGards * U) = P * d := by rw [← hvalue]; ring
      _ < 2 * 2 ^ (f.fracBits + f.nGards) * U * d := Nat.mul_lt_mul_of_pos_right h.high hd
      _ = 2 ^ (f.fracBits + 1) * d * (2 ^ f.nGards * U) := by ring
  have hsmall : n < 2 ^ f.fracBits * d := by
    obtain ⟨j, rfl⟩ := Nat.exists_eq_add_one_of_ne_zero hk.ne'
    refine Nat.lt_of_mul_lt_mul_right (a := 2) ?_
    calc n * 2 ≤ n * 2 ^ (j + 1) := Nat.mul_le_mul_left _ (by rw [Nat.pow_succ]; have := Nat.two_pow_pos j; omega)
      _ < 2 ^ (f.fracBits + 1) * d := hsize'
      _ = 2 ^ f.fracBits * d * 2 := by ring
  have hfraction : P / U = n * 2 ^ (f.nGards + k) / d := by
    rw [← Nat.mul_div_mul_right P U hd, ← hvalue, show n * U * 2 ^ (f.nGards + k) = n * 2 ^ (f.nGards + k) * U by ring, Nat.mul_comm U d,
      Nat.mul_div_mul_right _ _ hU]
  have hfloor : P / U / 2 ^ (f.nGards + k) = n / d := by
    rw [hfraction, Nat.div_div_eq_div_mul, Nat.mul_div_mul_right _ _ hKpos]
  have hT : n / d < 2 ^ f.fracBits := (Nat.div_lt_iff_lt_mul hd).mpr hsmall
  refine ⟨⟨hsize, hsize'⟩, ?_⟩
  -- both sides are bits below the normal range, or the first of it
  have hnear := roundEven_nearest (n := n) hd
  have hle := hnear.le_pow hd hsmall.le
  have hround : roundMagnitude f.fracBits n d = roundEven n d := by
    have hexact := roundMagnitude_eq (t := f.fracBits) (e := 0) hd (.inl rfl)
      (by rw [Nat.pow_zero, Nat.mul_one]; exact hsmall.trans_le (Nat.mul_le_mul_right _ (Nat.pow_le_pow_right (by decide) (Nat.le_succ _))))
      (by rwa [Nat.pow_zero, Nat.mul_one])
    rw [hexact, Nat.zero_mul, Nat.zero_add]
  have hinf : 2 ^ f.fracBits ≤ f.infBits := by
    have hbias := f.expBias_eq
    rw [Format.infBits]
    exact Nat.le_mul_of_pos_left _ (by omega)
  have hbits := f.infBits_lt
  have hmod : roundHalfway f (P / U) rest / 2 ^ (f.nGards + k) % 2 ^ f.fracBits < 2 ^ f.fracBits := Nat.mod_lt _ (Nat.two_pow_pos _)
  have hbias := f.expBias_pos
  rw [show (f.fracBits : Int) + f.nGards + y - x - f.quantum = 1 - f.expBias - k by rw [Format.quantum]; omega,
    packD_subnormal sign hk (by have := Nat.two_pow_pos (f.fracBits + f.nGards); omega) hhigh', isRounded_iff hd, hround,
    Nat.min_eq_left (by omega), pattern_inj sign (by omega) (by omega), roundHalfway_div hk h.room, hfloor, ← hfraction]
  by_cases hdvd : 2 ^ (f.nGards + k) ∣ P / U + f.gardMsb
  · -- the quotient is nearly the next number
    have hup : roundEven n d = n / d + 1 := by
      have hmul : P / U * d ≤ n * 2 ^ (f.nGards + k) := by
        rw [hfraction]
        exact Nat.div_mul_le_self _ _
      have hadd := add_gardMsb_eq hdvd
      have hsplit := Nat.div_add_mod n d
      rw [hfloor] at hadd
      have hquarter : 4 * f.gardMsb ≤ 2 ^ (f.nGards + k) := by
        calc 4 * f.gardMsb = 2 ^ f.nGards * 2 ^ 1 := by rw [hguard]; ring
          _ ≤ 2 ^ f.nGards * 2 ^ k := Nat.mul_le_mul_left _ (Nat.pow_le_pow_right (by decide) hk)
          _ = 2 ^ (f.nGards + k) := (Nat.pow_add _ _ _).symm
      have hthree : 3 * d ≤ 4 * (n % d) := by
        refine Nat.le_of_mul_le_mul_right (c := 2 ^ (f.nGards + k)) ?_ hKpos
        have hle1 : 2 ^ (f.nGards + k) * (n / d + 1) * d ≤ (d * (n / d) + n % d) * 2 ^ (f.nGards + k) + f.gardMsb * d := by
          rw [hsplit, ← hadd, Nat.add_mul]
          omega
        have hle2 : 4 * f.gardMsb * d ≤ 2 ^ (f.nGards + k) * d := Nat.mul_le_mul_right d hquarter
        have hexp : 2 ^ (f.nGards + k) * (n / d + 1) * d = d * (n / d) * 2 ^ (f.nGards + k) + 2 ^ (f.nGards + k) * d := by ring
        have hexp' : 4 * f.gardMsb * d = 4 * (f.gardMsb * d) := Nat.mul_assoc _ _ _
        have hexp'' : 3 * d * 2 ^ (f.nGards + k) = 3 * (2 ^ (f.nGards + k) * d) := by ring
        have hexp''' : 4 * (n % d) * 2 ^ (f.nGards + k) = 4 * (n % d * 2 ^ (f.nGards + k)) := by ring
        rw [Nat.add_mul] at hle1
        omega
      rw [roundEven, if_neg (by omega)]
    rw [if_pos hdvd, hup]
    constructor
    · intro heq
      refine .inr ⟨hdvd, ?_⟩
      rw [← heq]
      exact Nat.mod_lt _ (Nat.two_pow_pos _)
    · intro hor
      obtain heq | ⟨-, hlt⟩ := hor
      · omega
      · exact Nat.mod_eq_of_lt hlt
  · rw [if_neg hdvd, Nat.mod_eq_of_lt hT]
    exact ⟨fun heq => .inl heq.symm, fun hor => (hor.resolve_right fun h => hdvd h.1).symm⟩

/-- A power of two that brings a number into a binade is the only one. -/
theorem binade_unique {c j k : Nat} (hlow : c ≤ n * 2 ^ j) (hhigh : n * 2 ^ k < 2 * c) : k ≤ j := by
  by_contra hlt
  have hmul : n * 2 ^ (j + 1) ≤ n * 2 ^ k := Nat.mul_le_mul_left _ (Nat.pow_le_pow_right (by decide) (by omega))
  have hexp : n * 2 ^ (j + 1) = 2 * (n * 2 ^ j) := by ring
  omega

theorem IsFraction.rounded_iff (h : IsFraction f n d P U x y) (hrest : rest = 0 ↔ P % U = 0) (sign : Bool) : IsRounded sign n d
    (packD f ⟨.number, sign, (f.fracBits : Int) + f.nGards + y - x - f.quantum, roundHalfway f (P / U) rest⟩) ↔ Rounds f n d := by
  obtain hxy | hxy := Nat.lt_or_ge (f.nGards + y) x
  · obtain ⟨j, hj⟩ := Nat.exists_eq_add_of_lt hxy
    obtain ⟨⟨hlow, hhigh⟩, hiff⟩ := h.subnormal (show 0 < j + 1 by omega) (show x = f.nGards + y + (j + 1) by omega) sign
    have hdouble : 2 ^ (f.fracBits + 1) * d = 2 * (2 ^ f.fracBits * d) := by ring
    rw [hiff, Rounds]
    constructor
    · intro hor
      exact .inr (hor.imp id fun hcarry => ⟨j + 1, j.succ_pos, ⟨hlow, hhigh⟩, hcarry.1, hcarry.2⟩)
    · intro hor
      obtain hnormal | heven | ⟨k, hk, ⟨hlow', hhigh'⟩, hdvd, hlt⟩ := hor
      · have hexp : n * 2 ^ (j + 1) = 2 * (n * 2 ^ j) := by ring
        have hle : n ≤ n * 2 ^ j := Nat.le_mul_of_pos_right _ (Nat.two_pow_pos j)
        omega
      · exact .inl heven
      · obtain rfl : k = j + 1 := Nat.le_antisymm (binade_unique hlow (hdouble ▸ hhigh')) (binade_unique hlow' (hdouble ▸ hhigh))
        exact .inr ⟨hdvd, hlt⟩
  · obtain ⟨hnormal, hround⟩ := h.normal hrest hxy sign
    exact ⟨fun _ => .inl hnormal, fun _ => hround⟩

end Quotient

end Z80Gcc.FpBit
