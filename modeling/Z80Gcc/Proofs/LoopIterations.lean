import Mathlib.Tactic.SplitIfs
import Z80Gcc.Lib.WordReading
import Z80Gcc.Lib.WrapInt
import Z80Gcc.Spec.LoopIterations

/-! The iteration counts of `loop_iterations` against the runs of the loop. -/

namespace Z80Gcc.LoopIterations

open WordReading

variable {h : Host}

section Words

variable {initial comparison increment : BitVec h.bits} {code : Code} {vtop : Bool}

theorem iterationCount_spec (diff : BitVec h.bits) {inc : BitVec h.bits} (hinc : inc ≠ 0) :
    diff.toNat ≤ (iterationCount diff inc).toNat * inc.toNat ∧
      (iterationCount diff inc).toNat * inc.toNat < diff.toNat + inc.toNat := by
  have hpos : 0 < inc.toNat := by
    have hne : inc.toNat ≠ 0 := fun hzero => hinc (BitVec.eq_of_toNat_eq hzero)
    omega
  have hdiv := Nat.div_add_mod diff.toNat inc.toNat
  have hmod := Nat.mod_lt diff.toNat hpos
  have hdiff := diff.isLt
  have hone : (1 : BitVec h.bits).toNat = 1 := BitVec.toNat_one (by have := h.wide; omega)
  unfold iterationCount
  by_cases hrem : diff % inc = 0
  · have hzero : diff.toNat % inc.toNat = 0 := by
      rw [← BitVec.toNat_umod, hrem]
      rfl
    rw [if_neg (not_not_intro hrem), add_zero, BitVec.toNat_udiv, Nat.mul_comm]
    omega
  · have hnonzero : diff.toNat % inc.toNat ≠ 0 := by
      rw [← BitVec.toNat_umod]
      exact fun hzero => hrem (BitVec.eq_of_toNat_eq hzero)
    -- an increment of one leaves no remainder, so that the sum stays in the word
    have htwo : 2 ≤ inc.toNat := by
      by_contra hlt
      obtain heq : inc.toNat = 1 := by omega
      rw [heq, Nat.mod_one] at hnonzero
      exact hnonzero rfl
    have hhalf : diff.toNat / inc.toNat * 2 ≤ diff.toNat := by
      refine le_trans (Nat.mul_le_mul_left _ htwo) (Nat.div_mul_le_self _ _)
    rw [if_pos hrem, BitVec.toNat_add, BitVec.toNat_udiv, hone, Nat.mod_eq_of_lt (by omega), Nat.add_mul,
      Nat.one_mul, Nat.mul_comm]
    omega

theorem toNat_zero : (0 : BitVec h.bits).toNat = 0 := by simp

theorem iterationCount_eq_zero_iff {diff inc : BitVec h.bits} (hinc : inc ≠ 0) :
    iterationCount diff inc = 0 ↔ diff = 0 := by
  obtain ⟨hle, hlt⟩ := iterationCount_spec diff hinc
  constructor
  · intro hzero
    rw [hzero, toNat_zero, Nat.zero_mul] at hle
    exact BitVec.eq_of_toNat_eq (by rw [toNat_zero]; omega)
  · rintro rfl
    rw [toNat_zero, Nat.zero_add] at hlt
    have hcount : (iterationCount 0 inc).toNat = 0 := by
      by_contra hne
      have := Nat.mul_le_mul_right inc.toNat (Nat.one_le_iff_ne_zero.2 hne)
      omega
    exact BitVec.eq_of_toNat_eq (by rw [hcount, toNat_zero])

theorem zero_slt_iff {x : BitVec h.bits} : (0 : BitVec h.bits).slt x = true ↔ 0 < x.toInt := by
  simp [BitVec.slt_iff_toInt_lt]

theorem nIterations_up (hinc : 0 < increment.toInt) :
    let flags := compareFlags code
    let final := finalOf code comparison
    (loopIterations code vtop initial comparison increment).nIterations =
      if code ≠ .eq ∧ finalLarger flags.unsignedP initial final = 1 ∧
        (flags.compareDir = 1 ∨ flags.compareDir = 0 ∧ (final - initial) % increment = 0)
      then iterationCount (final - initial) increment else 0 := by
  have hpos := zero_slt_iff.2 hinc
  intro flags final
  unfold loopIterations incrementDir absDiff absInc
  simp only [hpos, if_true]
  split_ifs <;> grind

theorem nIterations_down (hinc : increment.toInt < 0) :
    let flags := compareFlags code
    let final := finalOf code comparison
    (loopIterations code vtop initial comparison increment).nIterations =
      if code ≠ .eq ∧ finalLarger flags.unsignedP initial final = -1 ∧
        (flags.compareDir = -1 ∨ flags.compareDir = 0 ∧ (initial - final) % -increment = 0)
      then iterationCount (initial - final) (-increment) else 0 := by
  have hpos : ¬(0 : BitVec h.bits).slt increment = true := by
    rw [zero_slt_iff]
    omega
  have hne : increment ≠ 0 := by
    rintro rfl
    simp at hinc
  intro flags final
  unfold loopIterations incrementDir absDiff absInc
  simp only [hpos, if_neg hne]
  split_ifs <;> grind

variable {a b : BitVec h.bits}

theorem finalLarger_signed :
    (finalLarger false a b = 1 ↔ a.toInt < b.toInt) ∧ (finalLarger false a b = -1 ↔ b.toInt < a.toInt) := by
  unfold finalLarger
  rw [← BitVec.slt_iff_toInt_lt, ← BitVec.slt_iff_toInt_lt]
  have hasymm : a.slt b = true → b.slt a = true → False := by
    rw [BitVec.slt_iff_toInt_lt, BitVec.slt_iff_toInt_lt]
    omega
  cases hab : a.slt b <;> cases hba : b.slt a <;> simp_all

theorem finalLarger_unsigned :
    (finalLarger true a b = 1 ↔ a.toNat < b.toNat) ∧ (finalLarger true a b = -1 ↔ b.toNat < a.toNat) := by
  unfold finalLarger
  rw [← BitVec.ult_iff_toNat_lt, ← BitVec.ult_iff_toNat_lt]
  have hasymm : a.ult b = true → b.ult a = true → False := by
    rw [BitVec.ult_iff_toNat_lt, BitVec.ult_iff_toNat_lt]
    omega
  cases hab : a.ult b <;> cases hba : b.ult a <;> simp_all

end Words

section Counts

variable {w : Nat} {code : Code} {vtop : Bool} {initial final increment : BitVec w}

def countOf (h : Host) (code : Code) (vtop : Bool) (initial final increment : BitVec w) : BitVec h.bits :=
  (loopIterations (h := h) code vtop (initial.signExtend h.bits) (final.signExtend h.bits)
    (increment.signExtend h.bits)).nIterations

theorem toInt_ext (hw : w ≤ h.bits) (x : BitVec w) : (x.signExtend h.bits).toInt = x.toInt :=
  BitVec.toInt_signExtend_of_le hw

/-- An unsigned value in the host's word: the upper half of the mode is moved to the top. -/
theorem toNat_ext (hw : w ≤ h.bits) (x : BitVec w) :
    0 ≤ x.toInt ∧ ((x.signExtend h.bits).toNat : Int) = x.toInt ∨
      x.toInt < 0 ∧ ((x.signExtend h.bits).toNat : Int) = x.toInt + 2 ^ h.bits := by
  have hread := toInt_cases (x.signExtend h.bits)
  have hb := toNat_bounds (x.signExtend h.bits)
  rw [toInt_ext hw] at hread
  omega

theorem umod_eq_zero_iff {x y : BitVec h.bits} {d : Int} (hd : (y.toNat : Int) = d) :
    x % y = 0 ↔ d ∣ x.toNat := by
  rw [← hd, Int.natCast_dvd_natCast, Nat.dvd_iff_mod_eq_zero, ← BitVec.toNat_umod, ← BitVec.toNat_inj, toNat_zero]

theorem countOf_up_ne_zero_iff (hw : w ≤ h.bits) (hinc : 0 < increment.toInt) :
    let flags := compareFlags code
    let diff := finalOf code (final.signExtend h.bits) - initial.signExtend h.bits
    countOf h code vtop initial final increment ≠ 0 ↔ code ≠ .eq ∧
      finalLarger flags.unsignedP (initial.signExtend h.bits) (finalOf code (final.signExtend h.bits)) = 1 ∧
        (flags.compareDir = 1 ∨ flags.compareDir = 0 ∧ increment.toInt ∣ diff.toNat) := by
  intro flags diff
  have hext : 0 < (increment.signExtend h.bits).toInt := by rw [toInt_ext hw]; exact hinc
  have hread := toNat_of_toInt_pos hext
  rw [toInt_ext hw] at hread
  have hne : increment.signExtend h.bits ≠ 0 := by
    intro hzero
    rw [hzero] at hext
    simp at hext
  unfold countOf
  rw [nIterations_up hext, ← umod_eq_zero_iff hread]
  refine ⟨fun hcount => ?_, fun hnormal => ?_⟩
  · by_contra hno
    rw [if_neg hno] at hcount
    exact hcount rfl
  · rw [if_pos hnormal]
    intro hzero
    rw [iterationCount_eq_zero_iff hne, sub_eq_zero] at hzero
    have hlarger := hnormal.2.1
    rw [hzero] at hlarger
    simp [finalLarger] at hlarger

theorem countOf_up (hw : w ≤ h.bits) (hinc : 0 < increment.toInt)
    (hcount : countOf h code vtop initial final increment ≠ 0) :
    let diff := finalOf code (final.signExtend h.bits) - initial.signExtend h.bits
    (diff.toNat : Int) ≤ (countOf h code vtop initial final increment).toNat * increment.toInt ∧
      (countOf h code vtop initial final increment).toNat * increment.toInt < diff.toNat + increment.toInt := by
  intro diff
  have hext : 0 < (increment.signExtend h.bits).toInt := by rw [toInt_ext hw]; exact hinc
  have hread := toNat_of_toInt_pos hext
  rw [toInt_ext hw] at hread
  have hne : increment.signExtend h.bits ≠ 0 := by
    intro hzero
    rw [hzero] at hext
    simp at hext
  have hn : countOf h code vtop initial final increment = iterationCount diff (increment.signExtend h.bits) := by
    unfold countOf at hcount ⊢
    rw [nIterations_up hext] at hcount ⊢
    split_ifs at hcount ⊢ with hnormal
    · rfl
    · exact absurd rfl hcount
  obtain ⟨hle, hlt⟩ := iterationCount_spec diff hne
  rw [← hn] at hle hlt
  rw [← hread]
  exact ⟨by exact_mod_cast hle, by exact_mod_cast hlt⟩

theorem countOf_down_ne_zero_iff (hw : w ≤ h.bits) (hinc : increment.toInt < 0) :
    let flags := compareFlags code
    let diff := initial.signExtend h.bits - finalOf code (final.signExtend h.bits)
    countOf h code vtop initial final increment ≠ 0 ↔ code ≠ .eq ∧
      finalLarger flags.unsignedP (initial.signExtend h.bits) (finalOf code (final.signExtend h.bits)) = -1 ∧
        (flags.compareDir = -1 ∨ flags.compareDir = 0 ∧ increment.toInt ∣ diff.toNat) := by
  intro flags diff
  have hext : (increment.signExtend h.bits).toInt < 0 := by rw [toInt_ext hw]; exact hinc
  have hread := toNat_neg_of_toInt_neg hext
  rw [toInt_ext hw] at hread
  have hne : -increment.signExtend h.bits ≠ 0 := by
    intro hzero
    rw [hzero] at hread
    simp at hread
    omega
  unfold countOf
  rw [nIterations_down hext, ← Int.neg_dvd, ← umod_eq_zero_iff hread]
  refine ⟨fun hcount => ?_, fun hnormal => ?_⟩
  · by_contra hno
    rw [if_neg hno] at hcount
    exact hcount rfl
  · rw [if_pos hnormal]
    intro hzero
    rw [iterationCount_eq_zero_iff hne, sub_eq_zero] at hzero
    have hlarger := hnormal.2.1
    rw [hzero] at hlarger
    simp [finalLarger] at hlarger

theorem countOf_down (hw : w ≤ h.bits) (hinc : increment.toInt < 0)
    (hcount : countOf h code vtop initial final increment ≠ 0) :
    let diff := initial.signExtend h.bits - finalOf code (final.signExtend h.bits)
    (diff.toNat : Int) ≤ (countOf h code vtop initial final increment).toNat * -increment.toInt ∧
      (countOf h code vtop initial final increment).toNat * -increment.toInt < diff.toNat + -increment.toInt := by
  intro diff
  have hext : (increment.signExtend h.bits).toInt < 0 := by rw [toInt_ext hw]; exact hinc
  have hread := toNat_neg_of_toInt_neg hext
  rw [toInt_ext hw] at hread
  have hne : -increment.signExtend h.bits ≠ 0 := by
    intro hzero
    rw [hzero] at hread
    simp at hread
    omega
  have hn : countOf h code vtop initial final increment = iterationCount diff (-increment.signExtend h.bits) := by
    unfold countOf at hcount ⊢
    rw [nIterations_down hext] at hcount ⊢
    split_ifs at hcount ⊢ with hnormal
    · rfl
    · exact absurd rfl hcount
  obtain ⟨hle, hlt⟩ := iterationCount_spec diff hne
  rw [← hn] at hle hlt
  rw [← hread]
  exact ⟨by exact_mod_cast hle, by exact_mod_cast hlt⟩

/-- One more or one less, in both readings; it wraps around at the end of the host's word. -/
theorem add_one_cases (x : BitVec h.bits) {off : Int} (hoff : off = -1 ∨ off = 0 ∨ off = 1) :
    ((x + BitVec.ofInt h.bits off).toInt = x.toInt + off ∨
        off = 1 ∧ 2 * (x + BitVec.ofInt h.bits off).toInt = -2 ^ h.bits ∨
        off = -1 ∧ 2 * (x + BitVec.ofInt h.bits off).toInt = 2 ^ h.bits - 2) ∧
      (((x + BitVec.ofInt h.bits off).toNat : Int) = x.toNat + off ∨
        off = 1 ∧ (x.toNat : Int) = 2 ^ h.bits - 1 ∧ (x + BitVec.ofInt h.bits off).toNat = 0 ∨
        off = -1 ∧ x.toNat = 0 ∧ ((x + BitVec.ofInt h.bits off).toNat : Int) = 2 ^ h.bits - 1) := by
  have hsum := toNat_add_cases x (BitVec.ofInt h.bits off)
  have hx := toInt_cases x
  have hxb := toNat_bounds x
  have hf := toInt_cases (x + BitVec.ofInt h.bits off)
  have hfb := toNat_bounds (x + BitVec.ofInt h.bits off)
  have hwide := h.wide
  have hhalf : (2 : Int) ^ h.bits = 2 * 2 ^ (h.bits - 1) := by
    rw [← pow_succ', Nat.sub_add_cancel (by omega)]
  have hlarge : (2 : Int) ≤ 2 ^ h.bits := by
    have hpow : (0 : Int) < 2 ^ (h.bits - 1) := by positivity
    omega
  have hzero : ((BitVec.ofInt h.bits 0).toNat : Int) = 0 := by simp
  have hone : ((BitVec.ofInt h.bits 1).toNat : Int) = 1 := by
    rw [BitVec.toNat_ofInt, Int.emod_eq_of_lt (by decide) (by push_cast; omega)]
    rfl
  have hneg : ((BitVec.ofInt h.bits (-1)).toNat : Int) = 2 ^ h.bits - 1 := by
    have hmod : (-1 : Int) % 2 ^ h.bits = 2 ^ h.bits - 1 := by
      rw [← Int.add_emod_right, Int.emod_eq_of_lt (by omega) (by omega)]
      ring
    rw [BitVec.toNat_ofInt]
    push_cast
    rw [hmod, Int.toNat_of_nonneg (by omega)]
  obtain rfl | rfl | rfl := hoff
  · omega
  · omega
  · omega

theorem finalOf_cases (code : Code) (x : BitVec h.bits) :
    let off := (compareFlags code).offByOne
    ((finalOf code x).toInt = x.toInt + off ∨ off = 1 ∧ 2 * (finalOf code x).toInt = -2 ^ h.bits ∨
        off = -1 ∧ 2 * (finalOf code x).toInt = 2 ^ h.bits - 2) ∧
      (((finalOf code x).toNat : Int) = x.toNat + off ∨
        off = 1 ∧ (x.toNat : Int) = 2 ^ h.bits - 1 ∧ (finalOf code x).toNat = 0 ∨
        off = -1 ∧ x.toNat = 0 ∧ ((finalOf code x).toNat : Int) = 2 ^ h.bits - 1) :=
  add_one_cases x (by cases code <;> decide)

end Counts

section Mode

variable {w : Nat} {code : Code} {vtop : Bool} {initial final increment : BitVec w}

theorem iterate_period (x : BitVec w) : (loopOf code vtop initial final increment).next^[2 ^ w] x = x :=
  iterate_add_period x increment

theorem runsBody_signed_up {limit : Int} {n : Nat} (hinc : 0 < increment.toInt)
    (hno : NoOverflow (loopOf code vtop initial final increment) increment)
    (hagain : ∀ x, code.holds x final = true ↔ x.toInt < limit) (hfirst : initial.toInt < limit)
    (hle : limit ≤ initial.toInt + n * increment.toInt)
    (hlt : initial.toInt + n * increment.toInt < limit + increment.toInt) :
    (loopOf code vtop initial final increment).RunsBody n :=
  @DoWhile.runsBody_up _ _ BitVec.toInt _ limit n hinc (fun x _ => hagain x) hfirst
    (fun k x hx _ _ => hno k x hx) hle hlt

theorem runsBody_signed_down {limit : Int} {n : Nat} (hinc : increment.toInt < 0)
    (hno : NoOverflow (loopOf code vtop initial final increment) increment)
    (hagain : ∀ x, code.holds x final = true ↔ limit < x.toInt) (hfirst : limit < initial.toInt)
    (hle : initial.toInt + n * increment.toInt ≤ limit)
    (hlt : limit + increment.toInt < initial.toInt + n * increment.toInt) :
    (loopOf code vtop initial final increment).RunsBody n :=
  @DoWhile.runsBody_down _ _ BitVec.toInt _ limit n hinc (fun x _ => hagain x) hfirst
    (fun k x hx _ _ => hno k x hx) hle hlt

/-- An unsigned loop that counts up: the count is right if the variable leaves the loop before it wraps around. -/
theorem runsBody_unsigned_up_iff {limit : Int} {n : Nat} (hinc : 0 < increment.toInt)
    (hagain : ∀ x, code.holds x final = true ↔ x.toNat < limit) (hfirst : initial.toNat < limit)
    (hlimit : limit ≤ 2 ^ w) (hle : limit ≤ initial.toNat + n * increment.toInt)
    (hlt : initial.toNat + n * increment.toInt < limit + increment.toInt) :
    (loopOf code vtop initial final increment).RunsBody n ↔ valueAbove initial.toNat limit increment.toInt < 2 ^ w := by
  have hinchi := BitVec.two_mul_toInt_lt (x := increment)
  have hlast : valueAbove initial.toNat limit increment.toInt = initial.toNat + n * increment.toInt := by
    have hmod : (initial.toNat - limit) % increment.toInt = initial.toNat + n * increment.toInt - limit := by
      rw [← Int.add_mul_emod_self_right _ n, Int.emod_eq_of_lt (by linarith) (by linarith)]
      ring
    unfold valueAbove
    rw [hmod]
    ring
  rw [hlast]
  constructor
  · intro hruns
    by_contra hwrap
    obtain ⟨m, rfl⟩ : ∃ m, n = m + 1 := by
      refine Nat.exists_eq_succ_of_ne_zero ?_
      rintro rfl
      simp only [Nat.cast_zero, zero_mul, add_zero] at hle
      linarith
    -- the variable has wrapped around and is below the limit again
    obtain ⟨-, -, hend⟩ := DoWhile.runsBody_succ_iff.1 hruns
    obtain ⟨q, hq⟩ := exists_toNat_iterate initial increment (m + 1)
    have hb := toNat_bounds ((fun z => z + increment)^[m + 1] initial)
    have hq1 : q + 1 = 0 := by
      refine eq_zero_of_range hb (b := initial.toNat + (m + 1 : Nat) * increment.toInt - 2 ^ w) ?_ ?_
      · constructor <;> linarith
      · rw [hq]
        ring
    refine hend ((hagain _).2 ?_)
    change (((fun z => z + increment)^[m + 1] initial).toNat : Int) < limit
    rw [hq, (by omega : q = -1)]
    linarith
  · intro hend
    refine @DoWhile.runsBody_up _ _ (fun x : BitVec w => (x.toNat : Int)) _ limit n hinc (fun x _ => hagain x) hfirst
      (fun k x _ hval hbelow => toNat_add_of_range ?_ ?_) hle hlt
    · have hb := toNat_bounds x
      omega
    · have hk : (k : Int) < n := by
        by_contra hge
        have hmul := Int.mul_le_mul_of_nonneg_right (not_lt.1 hge) (le_of_lt hinc)
        change (x.toNat : Int) = initial.toNat + k * increment.toInt at hval
        linarith
      have hmul := Int.mul_le_mul_of_nonneg_right (Int.add_one_le_of_lt hk) (le_of_lt hinc)
      change (x.toNat : Int) = initial.toNat + k * increment.toInt at hval
      linarith

theorem runsBody_unsigned_down_iff {limit : Int} {n : Nat} (hinc : increment.toInt < 0)
    (hagain : ∀ x, code.holds x final = true ↔ limit < x.toNat) (hfirst : limit < initial.toNat)
    (hlimit : 0 ≤ limit) (hle : initial.toNat + n * increment.toInt ≤ limit)
    (hlt : limit + increment.toInt < initial.toNat + n * increment.toInt) :
    (loopOf code vtop initial final increment).RunsBody n ↔
      0 ≤ valueBelow initial.toNat limit increment.toInt := by
  have hinclo := BitVec.le_two_mul_toInt (x := increment)
  have hlast : valueBelow initial.toNat limit increment.toInt = initial.toNat + n * increment.toInt := by
    have hmod : (limit - initial.toNat) % increment.toInt = limit - initial.toNat - n * increment.toInt := by
      have hadd : limit - initial.toNat - n * increment.toInt =
          limit - initial.toNat + n * -increment.toInt := by ring
      rw [hadd, ← Int.emod_neg, ← Int.add_mul_emod_self_right _ n, Int.emod_eq_of_lt (by linarith) (by linarith)]
    unfold valueBelow
    rw [hmod]
    ring
  rw [hlast]
  constructor
  · intro hruns
    by_contra hwrap
    obtain ⟨m, rfl⟩ : ∃ m, n = m + 1 := by
      refine Nat.exists_eq_succ_of_ne_zero ?_
      rintro rfl
      simp only [Nat.cast_zero, zero_mul, add_zero] at hle
      linarith
    -- the variable has wrapped around and is above the limit again
    obtain ⟨-, -, hend⟩ := DoWhile.runsBody_succ_iff.1 hruns
    obtain ⟨q, hq⟩ := exists_toNat_iterate initial increment (m + 1)
    have hb := toNat_bounds ((fun z => z + increment)^[m + 1] initial)
    have hpow : (0 : Int) < 2 ^ w := by positivity
    have hq1 : q - 1 = 0 := by
      refine eq_zero_of_range hb (b := initial.toNat + (m + 1 : Nat) * increment.toInt + 2 ^ w) ?_ ?_
      · constructor <;> linarith
      · rw [hq]
        ring
    refine hend ((hagain _).2 ?_)
    change limit < (((fun z => z + increment)^[m + 1] initial).toNat : Int)
    rw [hq, (by omega : q = 1)]
    linarith
  · intro hend
    refine @DoWhile.runsBody_down _ _ (fun x : BitVec w => (x.toNat : Int)) _ limit n hinc (fun x _ => hagain x)
      hfirst (fun k x _ hval hbelow => toNat_add_of_range ?_ ?_) hle hlt
    · have hk : (k : Int) < n := by
        by_contra hge
        have hmul := Int.mul_le_mul_of_nonneg_right (not_lt.1 hge) (by omega : 0 ≤ -increment.toInt)
        change (x.toNat : Int) = initial.toNat + k * increment.toInt at hval
        linarith
      have hmul := Int.mul_le_mul_of_nonneg_right (Int.add_one_le_of_lt hk) (by omega : 0 ≤ -increment.toInt)
      change (x.toNat : Int) = initial.toNat + k * increment.toInt at hval
      linarith
    · have hb := toNat_bounds x
      omega

/-- A count above the number of values of the mode is wrong. -/
theorem not_runsBody_of_lt {n : Nat} (hn : 2 ^ w < n) : ¬(loopOf code vtop initial final increment).RunsBody n := by
  intro hruns
  have hle := hruns.le_of_period iterate_period (Nat.two_pow_pos w)
  omega

theorem runsBody_immediate (hfirst : ¬code.holds initial final = true)
    (hnext : ¬code.holds (initial + increment) final = true) :
    (loopOf code vtop initial final increment).RunsBody (if vtop then 0 else 1) := by
  cases vtop with
  | true => exact DoWhile.runsBody_zero rfl hfirst
  | false =>
    exact DoWhile.runsBody_succ_iff.2 ⟨fun htop => absurd htop Bool.false_ne_true, fun k hk => absurd hk (by omega),
      hnext⟩

theorem runsBody_count_up {off : Int} (hw : w ≤ h.bits) (hinc : 0 < increment.toInt)
    (hsigned : (compareFlags code).unsignedP = false) (hflag : (compareFlags code).offByOne = off) (hoff : 0 ≤ off)
    (hno : NoOverflow (loopOf code vtop initial final increment) increment)
    (hagain : ∀ x, code.holds x final = true ↔ x.toInt < final.toInt + off)
    (hcount : countOf h code vtop initial final increment ≠ 0) :
    (loopOf code vtop initial final increment).RunsBody (countOf h code vtop initial final increment).toNat := by
  have hlarger := ((countOf_up_ne_zero_iff hw hinc).1 hcount).2.1
  rw [hsigned, finalLarger_signed.1] at hlarger
  have hfinal : (finalOf code (final.signExtend h.bits)).toInt = final.toInt + off := by
    have hcases := (finalOf_cases code (final.signExtend h.bits)).1
    have hlo := BitVec.le_two_mul_toInt (x := initial.signExtend h.bits)
    rw [toInt_ext hw, hflag] at hcases
    omega
  obtain ⟨hle, hlt⟩ := countOf_up hw hinc hcount
  rw [toNat_sub_of_toInt_lt hlarger, hfinal, toInt_ext hw] at hle hlt
  rw [hfinal, toInt_ext hw] at hlarger
  exact runsBody_signed_up hinc hno hagain hlarger (by linarith) (by linarith)

theorem runsBody_count_down {off : Int} (hw : w ≤ h.bits) (hinc : increment.toInt < 0)
    (hsigned : (compareFlags code).unsignedP = false) (hflag : (compareFlags code).offByOne = off) (hoff : off ≤ 0)
    (hno : NoOverflow (loopOf code vtop initial final increment) increment)
    (hagain : ∀ x, code.holds x final = true ↔ final.toInt + off < x.toInt)
    (hcount : countOf h code vtop initial final increment ≠ 0) :
    (loopOf code vtop initial final increment).RunsBody (countOf h code vtop initial final increment).toNat := by
  have hlarger := ((countOf_down_ne_zero_iff hw hinc).1 hcount).2.1
  rw [hsigned, finalLarger_signed.2] at hlarger
  have hfinal : (finalOf code (final.signExtend h.bits)).toInt = final.toInt + off := by
    have hcases := (finalOf_cases code (final.signExtend h.bits)).1
    have hhi := BitVec.two_mul_toInt_lt (x := initial.signExtend h.bits)
    rw [toInt_ext hw, hflag] at hcases
    omega
  obtain ⟨hle, hlt⟩ := countOf_down hw hinc hcount
  rw [toNat_sub_of_toInt_lt hlarger, hfinal, toInt_ext hw] at hle hlt
  rw [hfinal, toInt_ext hw] at hlarger
  exact runsBody_signed_down hinc hno hagain hlarger (by linarith) (by linarith)

theorem holds_lt {x y : BitVec w} : Code.lt.holds x y = true ↔ x.toInt < y.toInt := BitVec.slt_iff_toInt_lt

theorem holds_le {x y : BitVec w} : Code.le.holds x y = true ↔ x.toInt ≤ y.toInt := BitVec.sle_iff_toInt_le

theorem holds_ltu {x y : BitVec w} : Code.ltu.holds x y = true ↔ x.toNat < y.toNat := BitVec.ult_iff_toNat_lt

theorem holds_leu {x y : BitVec w} : Code.leu.holds x y = true ↔ x.toNat ≤ y.toNat := BitVec.ule_iff_toNat_le

/-- The direction of `LT` and `LE` is up, that of `GE` is down. -/
theorem countRight_signed (hw : w ≤ h.bits) (hne : increment ≠ 0) (hcode : code = .lt ∨ code = .le ∨ code = .ge) :
    CountRight h code vtop initial final increment := by
  intro hcount hno
  change countOf h code vtop initial final increment ≠ 0 at hcount
  obtain hneg | hpos := toInt_neg_or_pos hne
  · have hdir := ((countOf_down_ne_zero_iff hw hneg).1 hcount).2.2
    obtain rfl | rfl | rfl := hcode
    · exact absurd hdir (by simp [compareFlags])
    · exact absurd hdir (by simp [compareFlags])
    · refine @runsBody_count_down _ _ .ge _ _ _ _ (-1) hw hneg rfl rfl (by decide) (hno rfl) (fun x => ?_) hcount
      have hge : Code.ge.holds x final = true ↔ final.toInt ≤ x.toInt := holds_le
      rw [hge]
      omega
  · have hdir := ((countOf_up_ne_zero_iff hw hpos).1 hcount).2.2
    obtain rfl | rfl | rfl := hcode
    · refine @runsBody_count_up _ _ .lt _ _ _ _ 0 hw hpos rfl rfl (by decide) (hno rfl) (fun x => ?_) hcount
      rw [holds_lt, add_zero]
    · refine @runsBody_count_up _ _ .le _ _ _ _ 1 hw hpos rfl rfl (by decide) (hno rfl) (fun x => ?_) hcount
      rw [holds_le]
      omega
    · exact absurd hdir (by simp [compareFlags])

theorem mul_eq_of_dvd {a d n : Int} (hdvd : d ∣ a) (hle : a ≤ n * d) (hlt : n * d < a + d) :
    n * d = a := by
  have hdiff : d ∣ n * d - a := Int.dvd_sub (Int.dvd_mul_left n d) hdvd
  have hmod := Int.emod_eq_zero_of_dvd hdiff
  rw [Int.emod_eq_of_lt (by linarith) (by linarith)] at hmod
  linarith

theorem finalOf_toInt (final : BitVec w) (hw : w ≤ h.bits) (hoff : (compareFlags code).offByOne = 0) :
    (finalOf code (final.signExtend h.bits)).toInt = final.toInt := by
  have hcases := (finalOf_cases code (final.signExtend h.bits)).1
  rw [hoff, toInt_ext hw] at hcases
  omega

/-- A loop that ends when the variable has the final value. -/
theorem countRight_ne (hw : w ≤ h.bits) (hne : increment ≠ 0) :
    CountRight h .ne vtop initial final increment := by
  intro hcount _
  change countOf h .ne vtop initial final increment ≠ 0 at hcount
  change (loopOf .ne vtop initial final increment).RunsBody (countOf h .ne vtop initial final increment).toNat
  have hagain : ∀ x : BitVec w, Code.ne.holds x final = true ↔ x.toInt ≠ final.toInt := by
    intro x
    rw [Ne, BitVec.toInt_inj]
    exact bne_iff_ne
  have hlo := BitVec.le_two_mul_toInt (x := initial)
  have hhi := BitVec.two_mul_toInt_lt (x := initial)
  have hflo := BitVec.le_two_mul_toInt (x := final)
  have hfhi := BitVec.two_mul_toInt_lt (x := final)
  have hfinal := finalOf_toInt (h := h) final hw (rfl : (compareFlags .ne).offByOne = 0)
  obtain hneg | hpos := toInt_neg_or_pos hne
  · obtain ⟨-, hlarger, hdvd⟩ := (countOf_down_ne_zero_iff hw hneg).1 hcount
    have hless := finalLarger_signed.2.1 hlarger
    obtain ⟨hle, hlt⟩ := countOf_down hw hneg hcount
    replace hdvd := (hdvd.resolve_left (by decide)).2
    rw [toNat_sub_of_toInt_lt hless, hfinal, toInt_ext hw] at hdvd hle hlt
    rw [hfinal, toInt_ext hw] at hless
    have hexact := mul_eq_of_dvd (Int.neg_dvd.2 hdvd) hle hlt
    refine @DoWhile.runsBody_down _ _ BitVec.toInt _ final.toInt _ hneg (fun x hx => ?_) hless
      (fun k x _ hval hbelow => ?_) ?_ ?_
    · change initial.toInt + _ * increment.toInt ≤ x.toInt at hx
      have hge : final.toInt ≤ x.toInt := by linarith
      refine (hagain x).trans ?_
      omega
    · change x.toInt = initial.toInt + k * increment.toInt at hval
      have hstep : -increment.toInt ≤ x.toInt - final.toInt := by
        refine Int.le_of_dvd (by omega) (Int.neg_dvd.2 ?_)
        rw [hval, add_sub_right_comm]
        exact Int.dvd_add hdvd (Int.dvd_mul_left _ _)
      have hmul := Int.mul_nonneg (Int.natCast_nonneg k) (by omega : 0 ≤ -increment.toInt)
      rw [mul_neg] at hmul
      exact toInt_add_of_range (by omega) (by omega)
    · change initial.toInt + _ ≤ final.toInt
      linarith
    · change _ < initial.toInt + _
      linarith
  · obtain ⟨-, hlarger, hdvd⟩ := (countOf_up_ne_zero_iff hw hpos).1 hcount
    have hless := finalLarger_signed.1.1 hlarger
    obtain ⟨hle, hlt⟩ := countOf_up hw hpos hcount
    replace hdvd := (hdvd.resolve_left (by decide)).2
    rw [toNat_sub_of_toInt_lt hless, hfinal, toInt_ext hw] at hdvd hle hlt
    rw [hfinal, toInt_ext hw] at hless
    have hexact := mul_eq_of_dvd hdvd hle hlt
    refine @DoWhile.runsBody_up _ _ BitVec.toInt _ final.toInt _ hpos (fun x hx => ?_) hless
      (fun k x _ hval hbelow => ?_) ?_ ?_
    · change x.toInt ≤ initial.toInt + _ * increment.toInt at hx
      refine (hagain x).trans ?_
      omega
    · change x.toInt = initial.toInt + k * increment.toInt at hval
      have hstep : increment.toInt ≤ final.toInt - x.toInt := by
        refine Int.le_of_dvd (by omega) ?_
        rw [hval, ← sub_sub]
        exact Int.dvd_sub hdvd (Int.dvd_mul_left _ _)
      have hmul := Int.mul_nonneg (Int.natCast_nonneg k) (le_of_lt hpos)
      exact toInt_add_of_range (by omega) (by omega)
    · change final.toInt ≤ initial.toInt + _
      linarith
    · change initial.toInt + _ < _
      linarith

/-- A signed loop with `GT` that counts up is left at once. -/
theorem runsBody_gt_up (vtop : Bool) (hfirst : initial.toInt < final.toInt) (hpos : 0 < increment.toInt)
    (hle : increment.toInt ≤ final.toInt - initial.toInt) :
    (loopOf .gt vtop initial final increment).RunsBody (if vtop then 0 else 1) ∧
      NoOverflow (loopOf .gt vtop initial final increment) increment := by
  have hlo := BitVec.le_two_mul_toInt (x := initial)
  have hfhi := BitVec.two_mul_toInt_lt (x := final)
  have hadd : (initial + increment).toInt = initial.toInt + increment.toInt :=
    toInt_add_of_range (by omega) (by omega)
  have hgt : ∀ x, Code.gt.holds x final = true ↔ final.toInt < x.toInt := fun x => holds_lt
  have hruns : (loopOf .gt vtop initial final increment).RunsBody (if vtop then 0 else 1) :=
    runsBody_immediate (by rw [hgt]; omega) (by rw [hgt]; omega)
  refine ⟨hruns, fun k x hx => ?_⟩
  obtain rfl : k = 0 := by
    have hlt := (hruns k).1 ⟨x, hx⟩
    split_ifs at hlt
    · omega
    · omega
  obtain rfl : x = initial := hx.eq_iterate
  exact hadd

theorem countRight_gt_iff (hw : w ≤ h.bits) (hne : increment ≠ 0) :
    CountRight h .gt vtop initial final increment ↔ CountExact h .gt vtop initial final increment := by
  have hfinal := finalOf_toInt (h := h) final hw (rfl : (compareFlags .gt).offByOne = 0)
  obtain hneg | hpos := toInt_neg_or_pos hne
  · refine iff_of_true (fun hcount hno => ?_) (fun _ hpos => absurd hpos (by omega))
    refine @runsBody_count_down _ _ .gt _ _ _ _ 0 hw hneg rfl rfl (le_refl 0) (hno rfl) (fun x => ?_) hcount
    have hgt : Code.gt.holds x final = true ↔ final.toInt < x.toInt := holds_lt
    rw [hgt, add_zero]
  have hiff : countOf h .gt vtop initial final increment ≠ 0 ↔
      initial.toInt < final.toInt ∧ increment.toInt ∣ final.toInt - initial.toInt := by
    refine (countOf_up_ne_zero_iff hw hpos).trans ⟨?_, ?_⟩
    · rintro ⟨-, hlarger, hdvd⟩
      have hless := finalLarger_signed.1.1 hlarger
      replace hdvd := (hdvd.resolve_left (by decide)).2
      rw [toNat_sub_of_toInt_lt hless, hfinal, toInt_ext hw] at hdvd
      rw [hfinal, toInt_ext hw] at hless
      exact ⟨hless, hdvd⟩
    · rintro ⟨hless, hdvd⟩
      rw [← hfinal, ← toInt_ext hw initial] at hless hdvd
      rw [← toNat_sub_of_toInt_lt hless] at hdvd
      exact ⟨by decide, finalLarger_signed.1.2 hless, .inr ⟨rfl, hdvd⟩⟩
  have hexact : countOf h .gt vtop initial final increment ≠ 0 →
      (countOf h .gt vtop initial final increment).toNat * increment.toInt = final.toInt - initial.toInt := by
    intro hcount
    obtain ⟨hless, hdvd⟩ := hiff.1 hcount
    obtain ⟨hle, hlt⟩ := countOf_up hw hpos hcount
    rw [← hfinal, ← toInt_ext hw initial] at hless
    rw [toNat_sub_of_toInt_lt hless, hfinal, toInt_ext hw] at hle hlt
    exact mul_eq_of_dvd hdvd hle hlt
  constructor
  · intro hright hfirst _ hdvd
    have hle : increment.toInt ≤ final.toInt - initial.toInt := Int.le_of_dvd (by omega) hdvd
    obtain ⟨hruns, hno⟩ := runsBody_gt_up vtop hfirst hpos hle
    have hcount := hiff.2 ⟨hfirst, hdvd⟩
    have heq : (countOf h .gt vtop initial final increment).toNat = if vtop then 0 else 1 :=
      DoWhile.runsBody_unique (hright hcount fun _ => hno) hruns
    have hmul := hexact hcount
    rw [heq] at hmul
    cases vtop with
    | true =>
      rw [if_pos rfl, Nat.cast_zero, zero_mul] at hmul
      omega
    | false =>
      rw [if_neg Bool.false_ne_true, Nat.cast_one, one_mul] at hmul
      exact ⟨rfl, hmul.symm⟩
  · intro hright hcount _
    obtain ⟨hfirst, hdvd⟩ := hiff.1 hcount
    obtain ⟨rfl, hone⟩ := hright hfirst hpos hdvd
    have hmul := hexact hcount
    rw [hone] at hmul
    have hn : (countOf h .gt false initial final increment).toNat = 1 := by
      have hcancel := Int.eq_one_of_mul_eq_self_left (by omega) hmul
      exact_mod_cast hcancel
    change (loopOf .gt false initial final increment).RunsBody (countOf h .gt false initial final increment).toNat
    rw [hn]
    exact (runsBody_gt_up false hfirst hpos (by omega)).1

/-- How far the unsigned values are apart in the host's word: the two halves of the mode lie at its ends. -/
def hostDistance (h : Host) (x y : BitVec w) (base : Int) : Int :=
  base + if x.toInt < 0 ↔ y.toInt < 0 then 0 else 2 ^ h.bits - 2 ^ w

theorem sameDistance_iff : SameDistance h initial final ↔
    w = h.bits ∨ (initial.toInt < 0 ↔ final.toInt < 0) := by
  unfold SameDistance
  rw [BitVec.msb_eq_toInt, BitVec.msb_eq_toInt, decide_eq_decide]

theorem hostDistance_of_same (hsame : SameDistance h initial final) (base : Int) :
    hostDistance h initial final base = base := by
  unfold hostDistance
  obtain heq | hsign := sameDistance_iff.1 hsame
  · have hpow : (2 : Int) ^ w = 2 ^ h.bits := congrArg (fun n => (2 : Int) ^ n) heq
    rw [hpow, sub_self, ite_self, add_zero]
  · rw [if_pos hsign, add_zero]

/-- The comparison of an upper limit with the initial value in the host's word. -/
theorem less_up_iff (initial final : BitVec w) {off : Int} {limit : BitVec h.bits} (hpos : 0 < w) (hw : w ≤ h.bits)
    (hflag : (compareFlags code).offByOne = off) (hoff : off = 0 ∨ off = 1)
    (hlimit : finalOf code (final.signExtend h.bits) = limit) :
    ((initial.signExtend h.bits).toNat < limit.toNat ↔
        (initial.toNat : Int) < final.toNat + off ∧ final.toNat + off < 2 ^ w) ∧
      ((initial.signExtend h.bits).toNat < limit.toNat →
        (limit.toNat : Int) - (initial.signExtend h.bits).toNat =
          hostDistance h initial final (final.toNat + off - initial.toNat)) := by
  have hcases := (finalOf_cases code (final.signExtend h.bits)).2
  rw [hflag, hlimit] at hcases
  have hi := toNat_ext hw initial
  have hf := toNat_ext hw final
  have hri := toInt_cases initial
  have hrf := toInt_cases final
  have hbi := toNat_bounds initial
  have hbf := toNat_bounds final
  have hbl := toNat_bounds limit
  have hpow := WrapInt.two_pow_le hw
  have hhalf : (2 : Int) ^ w = 2 * 2 ^ (w - 1) := by rw [← pow_succ', Nat.sub_add_cancel hpos]
  unfold hostDistance
  refine ⟨⟨fun hless => ?_, fun hless => ?_⟩, fun hless => ?_⟩
  · omega
  · omega
  · split_ifs <;> omega

theorem less_down_iff (initial final : BitVec w) {off : Int} {limit : BitVec h.bits} (hpos : 0 < w) (hw : w ≤ h.bits)
    (hflag : (compareFlags code).offByOne = off) (hoff : off = 0 ∨ off = -1)
    (hlimit : finalOf code (final.signExtend h.bits) = limit) :
    (limit.toNat < (initial.signExtend h.bits).toNat ↔
        (final.toNat : Int) + off < initial.toNat ∧ 0 ≤ final.toNat + off) ∧
      (limit.toNat < (initial.signExtend h.bits).toNat →
        ((initial.signExtend h.bits).toNat : Int) - limit.toNat =
          hostDistance h initial final (initial.toNat - (final.toNat + off))) := by
  have hcases := (finalOf_cases code (final.signExtend h.bits)).2
  rw [hflag, hlimit] at hcases
  have hi := toNat_ext hw initial
  have hf := toNat_ext hw final
  have hri := toInt_cases initial
  have hrf := toInt_cases final
  have hbi := toNat_bounds initial
  have hbf := toNat_bounds final
  have hbl := toNat_bounds limit
  have hpow := WrapInt.two_pow_le hw
  have hhalf : (2 : Int) ^ w = 2 * 2 ^ (w - 1) := by rw [← pow_succ', Nat.sub_add_cancel hpos]
  unfold hostDistance
  refine ⟨⟨fun hless => ?_, fun hless => ?_⟩, fun hless => ?_⟩
  · omega
  · omega
  · split_ifs <;> omega

/-- A count over both halves is more than the mode has values. -/
theorem lt_count_of_not_same {n : Nat} {base d : Int} (hwords : w = h.bits ∨ 2 * w ≤ h.bits)
    (hsame : ¬SameDistance h initial final) (hbase : 0 < base) (hd : 2 * d ≤ 2 ^ w)
    (hle : hostDistance h initial final base ≤ n * d) : 2 ^ w < n := by
  rw [sameDistance_iff, not_or] at hsame
  obtain ⟨hne, hsign⟩ := hsame
  have hwords := hwords.resolve_left hne
  have hwide := h.wide
  unfold hostDistance at hle
  rw [if_neg hsign] at hle
  by_contra hge
  have hn : (n : Int) ≤ 2 ^ w := by
    have hcast : ((2 ^ w : Nat) : Int) = 2 ^ w := by push_cast; rfl
    omega
  have hmul : n * (2 * d) ≤ 2 ^ w * 2 ^ w :=
    le_trans (Int.mul_le_mul_of_nonneg_left hd (Int.natCast_nonneg n))
      (Int.mul_le_mul_of_nonneg_right hn (by positivity))
  have hsquare : (2 : Int) ^ w * 2 ^ w ≤ 2 ^ h.bits := by
    rw [← pow_add]
    exact WrapInt.two_pow_le (by omega)
  have hdouble : 2 * (2 : Int) ^ w ≤ 2 ^ h.bits := by
    rw [← pow_succ']
    exact WrapInt.two_pow_le (by omega)
  linarith

theorem runsBody_count_unsigned_up {off : Int} (hpos : 0 < w) (hw : w ≤ h.bits) (hinc : 0 < increment.toInt)
    (hunsigned : (compareFlags code).unsignedP = true) (hoffset : (compareFlags code).offByOne = off)
    (hoff : off = 0 ∨ off = 1)
    (hagain : ∀ x : BitVec w, code.holds x final = true ↔ (x.toNat : Int) < final.toNat + off)
    (hcount : countOf h code vtop initial final increment ≠ 0) :
    (SameDistance h initial final →
      ((loopOf code vtop initial final increment).RunsBody (countOf h code vtop initial final increment).toNat ↔
        valueAbove initial.toNat (final.toNat + off) increment.toInt < 2 ^ w)) ∧
    (w = h.bits ∨ 2 * w ≤ h.bits → ¬SameDistance h initial final →
      ¬(loopOf code vtop initial final increment).RunsBody
        (countOf h code vtop initial final increment).toNat) := by
  obtain ⟨hless, hdistance⟩ := less_up_iff initial final hpos hw hoffset hoff rfl
  have hlarger := ((countOf_up_ne_zero_iff hw hinc).1 hcount).2.1
  rw [hunsigned, finalLarger_unsigned.1] at hlarger
  obtain ⟨hfirst, hlimit⟩ := hless.1 hlarger
  obtain ⟨hle, hlt⟩ := countOf_up hw hinc hcount
  rw [toNat_sub_of_toNat_lt hlarger, hdistance hlarger] at hle hlt
  refine ⟨fun hsame => ?_, fun hwords hsame => ?_⟩
  · rw [hostDistance_of_same hsame] at hle hlt
    exact runsBody_unsigned_up_iff hinc hagain hfirst (le_of_lt hlimit) (by linarith) (by linarith)
  · exact not_runsBody_of_lt
      (lt_count_of_not_same hwords hsame (by omega) (le_of_lt BitVec.two_mul_toInt_lt) hle)

theorem runsBody_count_unsigned_down {off : Int} (hpos : 0 < w) (hw : w ≤ h.bits) (hinc : increment.toInt < 0)
    (hunsigned : (compareFlags code).unsignedP = true) (hoffset : (compareFlags code).offByOne = off)
    (hoff : off = 0 ∨ off = -1)
    (hagain : ∀ x : BitVec w, code.holds x final = true ↔ (final.toNat : Int) + off < x.toNat)
    (hcount : countOf h code vtop initial final increment ≠ 0) :
    (SameDistance h initial final →
      ((loopOf code vtop initial final increment).RunsBody (countOf h code vtop initial final increment).toNat ↔
        0 ≤ valueBelow initial.toNat (final.toNat + off) increment.toInt)) ∧
    (w = h.bits ∨ 2 * w ≤ h.bits → ¬SameDistance h initial final →
      ¬(loopOf code vtop initial final increment).RunsBody
        (countOf h code vtop initial final increment).toNat) := by
  obtain ⟨hless, hdistance⟩ := less_down_iff initial final hpos hw hoffset hoff rfl
  have hlarger := ((countOf_down_ne_zero_iff hw hinc).1 hcount).2.1
  rw [hunsigned, finalLarger_unsigned.2] at hlarger
  obtain ⟨hfirst, hlimit⟩ := hless.1 hlarger
  obtain ⟨hle, hlt⟩ := countOf_down hw hinc hcount
  rw [toNat_sub_of_toNat_lt hlarger, hdistance hlarger] at hle hlt
  refine ⟨fun hsame => ?_, fun hwords hsame => ?_⟩
  · rw [hostDistance_of_same hsame] at hle hlt
    exact runsBody_unsigned_down_iff hinc hagain hfirst hlimit (by linarith) (by linarith)
  · have hinclo := BitVec.le_two_mul_toInt (x := increment)
    exact not_runsBody_of_lt (lt_count_of_not_same hwords hsame (by omega) (by omega) hle)

theorem countRight_unsigned_up (vtop : Bool) (initial : BitVec w) {off : Int} (hpos : 0 < w) (hw : w ≤ h.bits)
    (hne : increment ≠ 0) (hflags : compareFlags code = ⟨true, 1, off⟩) (hoff : off = 0 ∨ off = 1) (hcode : code ≠ .eq)
    (hsigned : signedCode code = false)
    (hagain : ∀ x : BitVec w, code.holds x final = true ↔ (x.toNat : Int) < final.toNat + off) :
    let exact := (initial.toNat : Int) < final.toNat + off → final.toNat + off < 2 ^ w → 0 < increment.toInt →
      SameDistance h initial final ∧ valueAbove initial.toNat (final.toNat + off) increment.toInt < 2 ^ w
    (exact → CountRight h code vtop initial final increment) ∧
      (w = h.bits ∨ 2 * w ≤ h.bits → CountRight h code vtop initial final increment → exact) := by
  have hunsigned : (compareFlags code).unsignedP = true := by rw [hflags]
  have hoffset : (compareFlags code).offByOne = off := by rw [hflags]
  have hcount : countOf h code vtop initial final increment ≠ 0 ↔ 0 < increment.toInt ∧
      (initial.toNat : Int) < final.toNat + off ∧ final.toNat + off < 2 ^ w := by
    obtain hneg | hinc := toInt_neg_or_pos hne
    · refine iff_of_false (fun hcount => ?_) (fun hup => absurd hup.1 (by omega))
      have hdir := ((countOf_down_ne_zero_iff hw hneg).1 hcount).2.2
      rw [hflags] at hdir
      exact absurd hdir (by simp)
    · refine (countOf_up_ne_zero_iff hw hinc).trans ?_
      rw [hflags, finalLarger_unsigned.1, (less_up_iff initial final hpos hw hoffset hoff rfl).1]
      exact ⟨fun hnormal => ⟨hinc, hnormal.2.1⟩, fun hup => ⟨hcode, hup.2, .inl rfl⟩⟩
  intro exact
  constructor
  · intro hexact hne _
    obtain ⟨hinc, hfirst, hlimit⟩ := hcount.1 hne
    obtain ⟨hsame, hlast⟩ := hexact hfirst hlimit hinc
    exact ((runsBody_count_unsigned_up hpos hw hinc hunsigned hoffset hoff hagain hne).1 hsame).2 hlast
  · intro hwords hright hfirst hlimit hinc
    have hne := hcount.2 ⟨hinc, hfirst, hlimit⟩
    have hbody := hright hne fun hs => absurd hs (by rw [hsigned]; decide)
    obtain ⟨hiff, hnot⟩ := runsBody_count_unsigned_up hpos hw hinc hunsigned hoffset hoff hagain hne
    have hsame : SameDistance h initial final := by
      by_contra hno
      exact hnot hwords hno hbody
    exact ⟨hsame, (hiff hsame).1 hbody⟩

theorem countRight_geu (hpos : 0 < w) (hw : w ≤ h.bits) (hne : increment ≠ 0) :
    (CountExact h .geu vtop initial final increment → CountRight h .geu vtop initial final increment) ∧
      (w = h.bits ∨ 2 * w ≤ h.bits → CountRight h .geu vtop initial final increment →
        CountExact h .geu vtop initial final increment) := by
  have hagain : ∀ x : BitVec w, Code.geu.holds x final = true ↔ (final.toNat : Int) + -1 < x.toNat := by
    intro x
    have hge : Code.geu.holds x final = true ↔ final.toNat ≤ x.toNat := holds_leu
    rw [hge]
    omega
  have hcount : countOf h .geu vtop initial final increment ≠ 0 ↔ increment.toInt < 0 ∧
      final.toNat ≤ initial.toNat ∧ 0 < final.toNat := by
    obtain hinc | hpos' := toInt_neg_or_pos hne
    · refine (countOf_down_ne_zero_iff hw hinc).trans ?_
      have hoffset : (compareFlags Code.geu).offByOne = -1 := rfl
      have hless := (less_down_iff initial final hpos hw hoffset (.inr rfl) rfl).1
      have hlarger : finalLarger true (initial.signExtend h.bits) (finalOf .geu (final.signExtend h.bits)) = -1 ↔
          final.toNat ≤ initial.toNat ∧ 0 < final.toNat := by
        rw [finalLarger_unsigned.2, hless]
        omega
      exact ⟨fun hnormal => ⟨hinc, hlarger.1 hnormal.2.1⟩,
        fun hdown => ⟨by decide, hlarger.2 hdown.2, .inl rfl⟩⟩
    · refine iff_of_false (fun hcount => ?_) (fun hdown => absurd hdown.1 (by omega))
      have hdir := ((countOf_up_ne_zero_iff hw hpos').1 hcount).2.2
      exact absurd hdir (by simp [compareFlags])
  constructor
  · intro hexact hne _
    obtain ⟨hinc, hfirst, hlimit⟩ := hcount.1 hne
    obtain ⟨hsame, hlast⟩ := hexact hfirst hlimit hinc
    exact ((runsBody_count_unsigned_down hpos hw hinc rfl rfl (.inr rfl) hagain hne).1 hsame).2 hlast
  · intro hwords hright hfirst hlimit hinc
    have hne := hcount.2 ⟨hinc, hfirst, hlimit⟩
    have hbody := hright hne fun hs => absurd hs (by decide)
    obtain ⟨hiff, hnot⟩ := runsBody_count_unsigned_down hpos hw hinc rfl rfl (.inr rfl) hagain hne
    have hsame : SameDistance h initial final := by
      by_contra hno
      exact hnot hwords hno hbody
    exact ⟨hsame, (hiff hsame).1 hbody⟩

/-- The distance in the host's word, as the code computes it. -/
theorem hostDistance_eq_emod (hw : w ≤ h.bits) (hless : initial.toNat < final.toNat) :
    hostDistance h initial final (final.toNat - initial.toNat) = (final.toInt - initial.toInt) % 2 ^ h.bits ∧
      hostDistance h final initial (final.toNat - initial.toNat) = (final.toInt - initial.toInt) % 2 ^ h.bits := by
  have hri := toInt_cases initial
  have hrf := toInt_cases final
  have hbi := toNat_bounds initial
  have hbf := toNat_bounds final
  have hpow := WrapInt.two_pow_le hw
  have hmod : hostDistance h initial final (final.toNat - initial.toNat) =
      (final.toInt - initial.toInt) % 2 ^ h.bits := by
    unfold hostDistance
    split_ifs with hsign
    · rw [Int.emod_eq_of_lt (by omega) (by omega)]
      omega
    · rw [← Int.add_emod_right, Int.emod_eq_of_lt (by omega) (by omega)]
      omega
  refine ⟨hmod, ?_⟩
  rw [← hmod]
  exact congrArg _ (if_congr iff_comm rfl rfl)

/-- An unsigned loop with `GTU` that counts up is left at once. -/
theorem runsBody_gtu_up (vtop : Bool) (hfirst : initial.toNat < final.toNat) (hinc : 0 < increment.toInt)
    (hle : increment.toInt ≤ (final.toNat : Int) - initial.toNat) :
    (loopOf .gtu vtop initial final increment).RunsBody (if vtop then 0 else 1) := by
  have hbf := toNat_bounds final
  have hadd : ((initial + increment).toNat : Int) = initial.toNat + increment.toInt :=
    toNat_add_of_range (by omega) (by omega)
  have hgtu : ∀ x, Code.gtu.holds x final = true ↔ final.toNat < x.toNat := fun x => holds_ltu
  exact runsBody_immediate (by rw [hgtu]; omega) (by rw [hgtu]; omega)

theorem countRight_gtu_down (vtop : Bool) (initial final : BitVec w) (hpos : 0 < w) (hw : w ≤ h.bits)
    (hinc : increment.toInt < 0) :
    let exact := final.toNat < initial.toNat → increment.toInt ∣ (initial.toInt - final.toInt) % 2 ^ h.bits →
      SameDistance h initial final
    (exact → CountRight h .gtu vtop initial final increment) ∧
      (w = h.bits ∨ 2 * w ≤ h.bits → CountRight h .gtu vtop initial final increment → exact) := by
  have hoffset : (compareFlags Code.gtu).offByOne = 0 := rfl
  have hagain : ∀ x : BitVec w, Code.gtu.holds x final = true ↔ (final.toNat : Int) + 0 < x.toNat := by
    intro x
    have hgtu : Code.gtu.holds x final = true ↔ final.toNat < x.toNat := holds_ltu
    rw [hgtu]
    omega
  obtain ⟨hless, hdistance⟩ := less_down_iff initial final hpos hw hoffset (.inl rfl) rfl
  rw [add_zero] at hless hdistance
  have hcount : countOf h .gtu vtop initial final increment ≠ 0 ↔
      final.toNat < initial.toNat ∧ increment.toInt ∣ (initial.toInt - final.toInt) % 2 ^ h.bits := by
    refine (countOf_down_ne_zero_iff hw hinc).trans ⟨?_, ?_⟩
    · rintro ⟨-, hlarger, hdvd⟩
      have hhost := finalLarger_unsigned.2.1 hlarger
      have hlt : final.toNat < initial.toNat := by
        have := (hless.1 hhost).1
        omega
      replace hdvd := (hdvd.resolve_left (by decide)).2
      rw [toNat_sub_of_toNat_lt hhost, hdistance hhost, (hostDistance_eq_emod hw hlt).2] at hdvd
      exact ⟨hlt, hdvd⟩
    · rintro ⟨hlt, hdvd⟩
      have hhost := hless.2 ⟨by omega, Int.natCast_nonneg _⟩
      refine ⟨by decide, finalLarger_unsigned.2.2 hhost, .inr ⟨rfl, ?_⟩⟩
      rw [toNat_sub_of_toNat_lt hhost, hdistance hhost, (hostDistance_eq_emod hw hlt).2]
      exact hdvd
  intro exact
  constructor
  · intro hexact hne _
    obtain ⟨hlt, hdvd⟩ := hcount.1 hne
    have hsame := hexact hlt hdvd
    refine ((runsBody_count_unsigned_down hpos hw hinc rfl hoffset (.inl rfl) hagain hne).1 hsame).2 ?_
    rw [← (hostDistance_eq_emod hw hlt).2, hostDistance_of_same hsame] at hdvd
    have hzero : (final.toNat - initial.toNat : Int) % increment.toInt = 0 := by
      rw [← neg_sub]
      exact Int.emod_eq_zero_of_dvd (Int.dvd_neg.2 hdvd)
    unfold valueBelow
    rw [add_zero, hzero, sub_zero]
    exact Int.natCast_nonneg _
  · intro hwords hright hlt hdvd
    have hne := hcount.2 ⟨hlt, hdvd⟩
    have hbody := hright hne fun hs => absurd hs (by decide)
    by_contra hno
    exact (runsBody_count_unsigned_down hpos hw hinc rfl hoffset (.inl rfl) hagain hne).2 hwords hno hbody

theorem countRight_gtu_up (vtop : Bool) (initial final : BitVec w) (hpos : 0 < w) (hw : w ≤ h.bits)
    (hinc : 0 < increment.toInt) :
    let exact := initial.toNat < final.toNat → increment.toInt ∣ (final.toInt - initial.toInt) % 2 ^ h.bits →
      vtop = false ∧ SameDistance h initial final ∧ (final.toNat : Int) - initial.toNat = increment.toInt
    (exact → CountRight h .gtu vtop initial final increment) ∧
      (w = h.bits ∨ 2 * w ≤ h.bits → CountRight h .gtu vtop initial final increment → exact) := by
  have hoffset : (compareFlags Code.gtu).offByOne = 0 := rfl
  obtain ⟨hless, hdistance⟩ := less_up_iff initial final hpos hw hoffset (.inl rfl) rfl
  rw [add_zero] at hless hdistance
  have hbf := toNat_bounds final
  have hcount : countOf h .gtu vtop initial final increment ≠ 0 ↔
      initial.toNat < final.toNat ∧ increment.toInt ∣ (final.toInt - initial.toInt) % 2 ^ h.bits := by
    refine (countOf_up_ne_zero_iff hw hinc).trans ⟨?_, ?_⟩
    · rintro ⟨-, hlarger, hdvd⟩
      have hhost := finalLarger_unsigned.1.1 hlarger
      have hlt : initial.toNat < final.toNat := by
        have := (hless.1 hhost).1
        omega
      replace hdvd := (hdvd.resolve_left (by decide)).2
      rw [toNat_sub_of_toNat_lt hhost, hdistance hhost, (hostDistance_eq_emod hw hlt).1] at hdvd
      exact ⟨hlt, hdvd⟩
    · rintro ⟨hlt, hdvd⟩
      have hhost := hless.2 ⟨by omega, hbf.2⟩
      refine ⟨by decide, finalLarger_unsigned.1.2 hhost, .inr ⟨rfl, ?_⟩⟩
      rw [toNat_sub_of_toNat_lt hhost, hdistance hhost, (hostDistance_eq_emod hw hlt).1]
      exact hdvd
  have hvalue : initial.toNat < final.toNat → countOf h .gtu vtop initial final increment ≠ 0 →
      hostDistance h initial final (final.toNat - initial.toNat) ≤
        (countOf h .gtu vtop initial final increment).toNat * increment.toInt ∧
      (SameDistance h initial final → increment.toInt ∣ (final.toNat : Int) - initial.toNat ∧
        (countOf h .gtu vtop initial final increment).toNat * increment.toInt =
          final.toNat - initial.toNat) := by
    intro hlt hne
    have hhost := hless.2 ⟨by omega, hbf.2⟩
    obtain ⟨hle, hup⟩ := countOf_up hw hinc hne
    rw [toNat_sub_of_toNat_lt hhost, hdistance hhost] at hle hup
    refine ⟨hle, fun hsame => ?_⟩
    have hdvd := (hcount.1 hne).2
    rw [← (hostDistance_eq_emod hw hlt).1] at hdvd
    rw [hostDistance_of_same hsame] at hle hup hdvd
    exact ⟨hdvd, mul_eq_of_dvd hdvd hle hup⟩
  intro exact
  constructor
  · intro hexact hne _
    obtain ⟨hlt, hdvd⟩ := hcount.1 hne
    obtain ⟨rfl, hsame, hone⟩ := hexact hlt hdvd
    have hmul := ((hvalue hlt hne).2 hsame).2
    rw [hone] at hmul
    have hn : (countOf h .gtu false initial final increment).toNat = 1 := by
      have hcancel := Int.eq_one_of_mul_eq_self_left (by omega) hmul
      exact_mod_cast hcancel
    change (loopOf .gtu false initial final increment).RunsBody
      (countOf h .gtu false initial final increment).toNat
    rw [hn]
    exact runsBody_gtu_up false hlt hinc (by omega)
  · intro hwords hright hlt hdvd
    have hne := hcount.2 ⟨hlt, hdvd⟩
    have hbody := hright hne fun hs => absurd hs (by decide)
    obtain ⟨hle, hexact⟩ := hvalue hlt hne
    have hsame : SameDistance h initial final := by
      by_contra hno
      exact not_runsBody_of_lt
        (lt_count_of_not_same hwords hno (by omega) (le_of_lt BitVec.two_mul_toInt_lt) hle) hbody
    obtain ⟨hdvd, hmul⟩ := hexact hsame
    have hruns := runsBody_gtu_up vtop hlt hinc (Int.le_of_dvd (by omega) hdvd)
    have heq : (countOf h .gtu vtop initial final increment).toNat = if vtop then 0 else 1 :=
      DoWhile.runsBody_unique hbody hruns
    rw [heq] at hmul
    cases vtop with
    | true =>
      rw [if_pos rfl, Nat.cast_zero, zero_mul] at hmul
      omega
    | false =>
      rw [if_neg Bool.false_ne_true, Nat.cast_one, one_mul] at hmul
      exact ⟨rfl, hsame, hmul.symm⟩

/-- The codes `LTU` and `LEU`, in the words of the condition. -/
theorem countRight_ltu (hpos : 0 < w) (hw : w ≤ h.bits) (hne : increment ≠ 0) :
    (CountExact h .ltu vtop initial final increment → CountRight h .ltu vtop initial final increment) ∧
      (w = h.bits ∨ 2 * w ≤ h.bits → CountRight h .ltu vtop initial final increment →
        CountExact h .ltu vtop initial final increment) := by
  have hagain : ∀ x : BitVec w, Code.ltu.holds x final = true ↔ (x.toNat : Int) < final.toNat + 0 := by
    intro x
    rw [holds_ltu]
    omega
  have hbf := toNat_bounds final
  obtain ⟨hif, honly⟩ := countRight_unsigned_up (h := h) vtop initial hpos hw hne rfl
    (.inl rfl) (by decide) rfl hagain
  rw [add_zero] at hif honly
  refine ⟨fun hexact => hif fun hfirst _ hinc => hexact (by omega) hinc, fun hwords hright hfirst hinc => ?_⟩
  exact honly hwords hright (by omega) hbf.2 hinc

theorem countRight_leu (hpos : 0 < w) (hw : w ≤ h.bits) (hne : increment ≠ 0) :
    (CountExact h .leu vtop initial final increment → CountRight h .leu vtop initial final increment) ∧
      (w = h.bits ∨ 2 * w ≤ h.bits → CountRight h .leu vtop initial final increment →
        CountExact h .leu vtop initial final increment) := by
  have hagain : ∀ x : BitVec w, Code.leu.holds x final = true ↔ (x.toNat : Int) < final.toNat + 1 := by
    intro x
    rw [holds_leu]
    omega
  have hcast : ((2 ^ w : Nat) : Int) = 2 ^ w := by push_cast; rfl
  obtain ⟨hif, honly⟩ := countRight_unsigned_up (h := h) vtop initial hpos hw hne rfl
    (.inr rfl) (by decide) rfl hagain
  refine ⟨fun hexact => hif fun hfirst hlimit hinc => hexact (by omega) (by omega) hinc,
    fun hwords hright hfirst hlimit hinc => ?_⟩
  exact honly hwords hright (by omega) (by omega) hinc

/-- The count is right exactly under the condition. A mode that is narrower than the host's word is at most half
as wide. -/
theorem countRight_iff (hpos : 0 < w) (hw : w ≤ h.bits) (hne : increment ≠ 0) :
    (CountExact h code vtop initial final increment → CountRight h code vtop initial final increment) ∧
      (w = h.bits ∨ 2 * w ≤ h.bits → CountRight h code vtop initial final increment →
        CountExact h code vtop initial final increment) := by
  cases code with
  | eq => exact ⟨fun _ hcount => absurd rfl hcount, fun _ _ => trivial⟩
  | ne => exact ⟨fun _ => countRight_ne hw hne, fun _ _ => trivial⟩
  | lt => exact ⟨fun _ => countRight_signed hw hne (.inl rfl), fun _ _ => trivial⟩
  | le => exact ⟨fun _ => countRight_signed hw hne (.inr (.inl rfl)), fun _ _ => trivial⟩
  | ge => exact ⟨fun _ => countRight_signed hw hne (.inr (.inr rfl)), fun _ _ => trivial⟩
  | gt => exact ⟨(countRight_gt_iff hw hne).2, fun _ => (countRight_gt_iff hw hne).1⟩
  | geu => exact countRight_geu hpos hw hne
  | ltu => exact countRight_ltu hpos hw hne
  | leu => exact countRight_leu hpos hw hne
  | gtu =>
    obtain hinc | hinc := toInt_neg_or_pos hne
    · obtain ⟨hif, honly⟩ := countRight_gtu_down vtop initial final hpos hw hinc
      refine ⟨fun hexact => hif fun hless hdvd => hexact.2 hless hinc hdvd, fun hwords hright => ⟨?_, ?_⟩⟩
      · exact fun _ hup => absurd hup (by omega)
      · exact fun hless _ hdvd => honly hwords hright hless hdvd
    · obtain ⟨hif, honly⟩ := countRight_gtu_up vtop initial final hpos hw hinc
      refine ⟨fun hexact => hif fun hless hdvd => hexact.1 hless hinc hdvd, fun hwords hright => ⟨?_, ?_⟩⟩
      · exact fun hless _ hdvd => honly hwords hright hless hdvd
      · exact fun _ hdown => absurd hdown (by omega)

/-- `for (i = 0; i < 30000u; i += 3)` with a 16-bit variable. -/
theorem countRight_iff_ltu : CountRight host32 .ltu true (0 : BitVec 16) 30000 3 :=
  (countRight_iff (by decide) (by decide) (by decide)).1 fun _ _ => ⟨.inr rfl, by decide⟩

/-- `do { i++; } while (i > 10)` has one turn, not ten, and `for (i = 0; i < 40000u; i++)` has not
4294941760. -/
theorem countRight_fails :
    ¬CountRight host32 .gt false (0 : BitVec 16) 10 1 ∧ ¬CountRight host32 .ltu true (0 : BitVec 16) 40000 1 := by
  constructor
  · intro hright
    have hexact := (countRight_gt_iff (by decide) (by decide)).1 hright (by decide) (by decide) (by decide)
    exact absurd hexact.2 (by decide)
  · intro hright
    have hexact := (countRight_ltu (by decide) (by decide) (by decide)).2 (.inr (by decide)) hright (by decide)
      (by decide)
    exact absurd hexact.1 (by unfold SameDistance; decide)

end Mode

end Z80Gcc.LoopIterations
