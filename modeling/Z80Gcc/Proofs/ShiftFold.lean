import Z80Gcc.Proofs.Shift

/-! The emitted variable shifts against the constant folder. Both start from the same value and
count; the folder takes the count modulo the width, the loop takes it modulo 256. -/

namespace Z80Gcc

open Z80Gcc.Halves

/-- The shift code of a tree shift, by direction and signedness of the type. -/
def shiftCodeOf (right unsigned : Bool) : ShiftCode :=
  if right then (if unsigned then .lshiftrt else .ashiftrt) else .ashift

section Fold

variable {w : Nat} (h : Host) (x : BitVec w)

theorem fold_left (unsigned : Bool) {k : Nat} (hw : w ≤ 32) :
    (((DoubleInt.ofBits unsigned x : DoubleInt h).low <<< k).setWidth w) = x <<< k := by
  have hh := h.wide
  apply BitVec.eq_of_getLsbD_eq
  intro i hi
  have hi' : i < h.bits := by omega
  have hik : i - k < h.bits := by omega
  have hik' : i - k < w := by omega
  cases unsigned <;>
    simp [DoubleInt.ofBits, BitVec.getLsbD_signExtend, hi, hi', hik, hik', - BitVec.getLsbD_eq_getElem]

theorem fold_right_unsigned {k : Nat} (hw : w ≤ 32) (hk : k < w) :
    ((DoubleInt.ofBits true x : DoubleInt h).rshiftDouble k w false).toBits w = x >>> k := by
  have hh := h.wide
  have hlt : ¬k ≥ h.bits := by omega
  apply BitVec.eq_of_getLsbD_eq
  intro i hi
  have hik : k + i < w ∨ w ≤ k + i := by omega
  simp only [DoubleInt.rshiftDouble, DoubleInt.ofBits, DoubleInt.toBits, Nat.mod_eq_of_lt hk, hlt,
    if_true, if_false, BitVec.getLsbD_setWidth, hi, BitVec.getLsbD_or, BitVec.getLsbD_ushiftRight,
    BitVec.getLsbD_shiftLeft, decide_true, Bool.true_and]
  rcases hik with hik | hik
  · simp [show k + i < h.bits by omega]
  · simp [BitVec.getLsbD_of_ge x (k + i) hik]

/-- The sign that the shift brings in comes from the low word's extension, or from the high word
where the low word ends. -/
theorem fold_right_signed {k : Nat} (hw : w ≤ 32) (hk : k < w) :
    ((DoubleInt.ofBits false x : DoubleInt h).rshiftDouble k w true).toBits w =
      x.sshiftRight k := by
  have hh := h.wide
  have hlt : ¬k ≥ h.bits := by omega
  have hhigh : ∀ j, (if x.msb then -1 else 0 : BitVec h.bits).getLsbD j =
      (decide (j < h.bits) && x.msb) := by
    intro j
    cases x.msb <;> simp [BitVec.neg_one_eq_allOnes]
  apply BitVec.eq_of_getLsbD_eq
  intro i hi
  simp only [DoubleInt.rshiftDouble, DoubleInt.ofBits, DoubleInt.toBits, Nat.mod_eq_of_lt hk, hlt,
    if_false, BitVec.getLsbD_setWidth, hi, BitVec.getLsbD_or, BitVec.getLsbD_ushiftRight,
    BitVec.getLsbD_shiftLeft, BitVec.getLsbD_signExtend, BitVec.getLsbD_sshiftRight, decide_true,
    Bool.true_and, Bool.false_eq_true, hhigh]
  by_cases hin : k + i < h.bits
  · have hbelow : i < 1 ∨ i - 1 < h.bits - k - 1 := by omega
    rcases hbelow with hb | hb <;>
      by_cases hkw : k + i < w <;> simp [hin, hb, hkw, show ¬w ≤ i by omega]
  · have h1 : ¬i < 1 := by omega
    have h2 : ¬i - 1 < h.bits - k - 1 := by omega
    have h3 : i - 1 - (h.bits - k - 1) < h.bits := by omega
    simp [hin, h1, h2, h3, show i < h.bits by omega, show i - 1 < h.bits by omega,
      show ¬w ≤ i by omega, show ¬k + i < w by omega]

theorem intConstShift_eq (hw : 0 < w) (hw32 : w ≤ 32) (right unsigned : Bool) (n : BitVec 16) :
    intConstShift h right unsigned x n =
      (shiftCodeOf right unsigned).apply x (n.toNat % w) := by
  have hh := h.wide
  have hk : n.toNat % w < w := Nat.mod_lt _ hw
  cases right with
  | false =>
    have hneg : ¬((n.toNat : Int) < 0) := by omega
    have hbig : ¬n.toNat % w ≥ h.bits := by omega
    simp only [intConstShift, DoubleInt.lshiftDouble, Bool.false_eq_true, if_false, hneg,
      Int.toNat_natCast, hbig, shiftCodeOf, ShiftCode.apply]
    exact fold_left h x unsigned hw32
  | true =>
    by_cases h0 : n.toNat = 0
    · have hzero : (shiftCodeOf true unsigned).apply x 0 = x := by
        cases unsigned <;> simp [shiftCodeOf, ShiftCode.apply]
      have hleft := fold_left h x unsigned (k := 0) hw32
      simp only [BitVec.shiftLeft_zero] at hleft
      simp [intConstShift, DoubleInt.lshiftDouble, DoubleInt.toBits, h0, hzero, hleft,
        show ¬h.bits ≤ 0 by omega]
    · have hfold : ((DoubleInt.ofBits unsigned x : DoubleInt h).rshiftDouble (n.toNat % w) w
          (!unsigned)).toBits w = (shiftCodeOf true unsigned).apply x (n.toNat % w) := by
        cases unsigned with
        | false => exact fold_right_signed h x hw32 hk
        | true => exact fold_right_unsigned h x hw32 hk
      have hneg : -(n.toNat : Int) < 0 := by omega
      rw [← hfold, intConstShift]
      simp only [if_true, DoubleInt.lshiftDouble, hneg, Int.neg_neg, Int.toNat_natCast,
        DoubleInt.rshiftDouble, Nat.mod_mod]

end Fold

section Exact

variable {w : Nat} (x : BitVec w)

/-- When shifting by the count modulo 256 is shifting by it modulo the width: the count is in
range, or the value is one whose shift has already left the sign or zeros only. -/
def ShiftExact (code : ShiftCode) (x : BitVec w) (n : Nat) : Prop :=
  n % 256 < w ∨
    match code with
    | .ashift => 2 ^ (w - n % w) ∣ x.toNat
    | .lshiftrt => x.toNat < 2 ^ (n % w)
    | .ashiftrt => -2 ^ (n % w) ≤ x.toInt ∧ x.toInt < 2 ^ (n % w)

theorem shiftLeft_eq_zero_iff {r : Nat} (hr : r ≤ w) :
    x <<< r = 0 ↔ 2 ^ (w - r) ∣ x.toNat := by
  rw [← BitVec.toNat_inj, BitVec.toNat_shiftLeft, Nat.shiftLeft_eq]
  have hp : 2 ^ w = 2 ^ (w - r) * 2 ^ r := by rw [← pow_add, Nat.sub_add_cancel hr]
  change x.toNat * 2 ^ r % 2 ^ w = (0#w).toNat ↔ _
  rw [BitVec.toNat_zero, ← Nat.dvd_iff_mod_eq_zero, hp, Nat.mul_dvd_mul_iff_right (by positivity)]

theorem ushiftRight_eq_zero_iff (r : Nat) : x >>> r = 0 ↔ x.toNat < 2 ^ r := by
  rw [← BitVec.toNat_inj, BitVec.toNat_ushiftRight, Nat.shiftRight_eq_div_pow]
  change x.toNat / 2 ^ r = (0#w).toNat ↔ _
  rw [BitVec.toNat_zero, Nat.div_eq_zero_iff_lt (by positivity)]

theorem ediv_eq_sign_iff (v : Int) (r : Nat) :
    v / 2 ^ r = (if v < 0 then -1 else 0) ↔ -2 ^ r ≤ v ∧ v < 2 ^ r := by
  have hp : (0 : Int) < 2 ^ r := by positivity
  split
  · constructor
    · intro h
      have h1 := Int.mul_ediv_add_emod v (2 ^ r)
      have h2 := Int.emod_nonneg v hp.ne'
      rw [h] at h1
      omega
    · rintro ⟨h1, -⟩
      exact Int.ediv_eq_neg_one_of_neg_of_le (by omega) (by omega)
  · constructor
    · intro h
      have h1 := Int.mul_ediv_add_emod v (2 ^ r)
      have h2 := Int.emod_lt_of_pos v hp
      rw [h] at h1
      omega
    · rintro ⟨-, h2⟩
      exact Int.ediv_eq_zero_of_lt (by omega) h2

theorem toInt_sshiftRight_of_ge {k : Nat} (hk : w ≤ k) :
    (x.sshiftRight k).toInt = if x.toInt < 0 then -1 else 0 := by
  rw [BitVec.toInt_sshiftRight, Int.shiftRight_eq_div_pow]
  push_cast
  rw [ediv_eq_sign_iff]
  have h1 := x.toInt_lt
  have h2 := x.le_toInt
  have h3 : (2 : Int) ^ (w - 1) ≤ 2 ^ k := pow_le_pow_right₀ (by decide) (by omega)
  omega

/-- The loop's count and the folder's count shift the same value alike exactly under
`ShiftExact`. -/
theorem apply_mod_eq_iff (code : ShiftCode) (hw : 0 < w) (hdvd : w ∣ 256) (n : Nat) :
    code.apply x (n % 256) = code.apply x (n % w) ↔ ShiftExact code x n := by
  have hr : n % w < w := Nat.mod_lt _ hw
  by_cases hk : n % 256 < w
  · have heq : n % 256 = n % w := by
      rw [← Nat.mod_mod_of_dvd n hdvd, Nat.mod_eq_of_lt hk]
    exact ⟨fun _ => .inl hk, fun _ => by rw [heq]⟩
  · have hge : w ≤ n % 256 := by omega
    simp only [ShiftExact, hk, false_or]
    cases code with
    | ashift =>
      rw [← shiftLeft_eq_zero_iff x hr.le]
      simp only [ShiftCode.apply, BitVec.shiftLeft_eq_zero hge]
      exact eq_comm
    | lshiftrt =>
      rw [← ushiftRight_eq_zero_iff x]
      simp only [ShiftCode.apply, BitVec.ushiftRight_eq_zero hge]
      exact eq_comm
    | ashiftrt =>
      simp only [ShiftCode.apply]
      rw [← ediv_eq_sign_iff, ← BitVec.toInt_inj, toInt_sshiftRight_of_ge x hge,
        BitVec.toInt_sshiftRight, Int.shiftRight_eq_div_pow]
      push_cast
      exact eq_comm

end Exact

theorem ShiftDest.width_cases {w : Nat} (dest : ShiftDest w) : w = 8 ∨ w = 16 ∨ w = 32 := by
  cases dest <;> simp

/-- The emitted shift of a value by a count and the folder's shift of the same value by the same
count agree exactly where the count's low byte is below the width, or the value is such that it
makes no difference. -/
theorem variable_shift_folds_iff (h : Host) {w : Nat} (right unsigned : Bool) (dest : ShiftDest w)
    (hd : dest.Apart) {l0 l1 : Nat} (hl : l0 ≠ l1) {listing : Listing}
    (hs : variableShift (shiftCodeOf right unsigned) dest l0 l1 = some listing) (m : Machine) :
    (∃ t, z80.Runs listing m ⟨none, t⟩ ∧
        dest.value t = intConstShift h right unsigned (dest.value m) (m.pair .bc)) ↔
      ShiftExact (shiftCodeOf right unsigned) (dest.value m) (m.pair .bc).toNat := by
  have hw := dest.width_cases
  have hpos : 0 < w := by omega
  have h32 : w ≤ 32 := by omega
  have hdvd : w ∣ 256 := by rcases hw with rfl | rfl | rfl <;> decide
  obtain ⟨t, hr, hv⟩ := variableShift_runs _ dest hd hl hs m
  have hlo : (lo8 (m.pair .bc)).toNat = (m.pair .bc).toNat % 256 := by simp [lo8]
  rw [← apply_mod_eq_iff _ _ hpos hdvd, intConstShift_eq h _ hpos h32, ← hlo, ← hv]
  constructor
  · rintro ⟨t', hr', hv'⟩
    have htt := hr.det hr'
    simp only [Asm.Flow.mk.injEq, true_and] at htt
    rw [htt, hv']
  · intro he
    exact ⟨t, hr, he⟩

theorem variable_shift_folds_three :
    ∃ t, z80.Runs (ashlhi3 0 1 .hl) (Machine.ofRegs 0 5 0 3 0 0 0) ⟨none, t⟩ ∧
      t.pair .hl = intConstShift host32 false false (5 : BitVec 16) 3 :=
  (variable_shift_folds_iff host32 false false (.hi .hl) (by simp [ShiftDest.Apart])
    (show 0 ≠ 1 by decide) rfl (Machine.ofRegs 0 5 0 3 0 0 0)).mpr (.inl (by decide))

/-- `1 << 16` in a word: the loop shifts the bit out, the folder does not shift at all. -/
theorem variable_shift_wrong_sixteen :
    ¬∃ t, z80.Runs (ashlhi3 0 1 .hl) (Machine.ofRegs 0 1 0 16 0 0 0) ⟨none, t⟩ ∧
      t.pair .hl = intConstShift host32 false false (1 : BitVec 16) 16 := by
  rintro ⟨t, hr, hv⟩
  obtain ⟨t', hr', hv'⟩ := variableShift_runs .ashift (.hi .hl)
    (by simp [ShiftDest.Apart]) (show 0 ≠ 1 by decide) rfl (Machine.ofRegs 0 1 0 16 0 0 0)
  have htt := hr.det hr'
  simp only [Asm.Flow.mk.injEq, true_and] at htt
  rw [htt] at hv
  have h0 := hv'.symm.trans hv
  exact absurd h0 (by decide)

end Z80Gcc
