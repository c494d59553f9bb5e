import Mathlib
import Z80Gcc.Spec.RangeTest
import Z80Gcc.Proofs.ConstDivide
import Z80Gcc.Proofs.FitType

/-! `merge_ranges`: the range for two tests of one value, and when it is right. -/

namespace Z80Gcc

open Z80Gcc.WrapInt
open DoubleInt

variable {h : Host}

section Compare

variable {arg0 arg1 : IntCst h}

theorem compareWords_eq (code : CompareCode) (ht : arg0.type = arg1.type) :
    compareWords code arg0 arg1 = code.holds arg0.value arg1.value := by
  have heq : (arg0.words == arg1.words) = decide (arg0.value = arg1.value) := by
    rw [Bool.eq_iff_iff, beq_iff_eq, decide_eq_true_iff, IntCst.value, IntCst.value, ← ht]
    exact words_eq_iff _ _ _
  have hlt : less arg0.type.unsigned arg0.words arg1.words = decide (arg0.value < arg1.value) := by
    rw [less_eq, IntCst.value, IntCst.value, ← ht]
  have hgt : less arg1.type.unsigned arg1.words arg0.words = decide (arg1.value < arg0.value) := by
    rw [less_eq, IntCst.value, IntCst.value, ← ht]
  cases code <;> simp only [compareWords, CompareCode.holds, heq, hlt, hgt] <;> grind

theorem value_of_zero (c : IntCst h) (hc : c.words = ⟨0, 0⟩) : c.value = 0 := by
  have hbv : c.words.bv = BitVec.ofInt _ 0 := by
    rw [hc, bv_mk]
    simp
  rw [IntCst.value, value_of_bv c.type.unsigned hbv]
  cases c.type.unsigned <;> simp

theorem value_foldConvert (t : IntType h) (c : IntCst h) :
    (foldConvert t c).value = wrap t.unsigned t.precision c.value :=
  value_forceFit t (ofInt_value c.type.unsigned c.words).symm _

theorem value_largestSigned (hl : largestSigned arg1 = true) :
    arg1.type.unsigned = true ∧ arg1.value = 2 ^ (arg1.type.precision - 1) - 1 := by
  simp only [largestSigned, Bool.and_eq_true, beq_iff_eq, decide_eq_true_iff] at hl
  obtain ⟨⟨⟨⟨-, hprec⟩, hlow⟩, hhigh⟩, huns⟩ := hl
  have hpos := arg1.type.pos
  have hshift : ((1 : BitVec h.bits) <<< (arg1.type.precision - 1)).toNat =
      2 ^ (arg1.type.precision - 1) := by
    rw [show (1 : BitVec h.bits) <<< (arg1.type.precision - 1) =
      BitVec.twoPow h.bits (arg1.type.precision - 1) from (BitVec.twoPow_eq _ _).symm,
      BitVec.toNat_twoPow_of_lt (by omega)]
  have hone : (1 : BitVec h.bits).toNat = 1 := BitVec.toNat_one h.bits_pos
  have hge := Nat.one_le_two_pow (n := arg1.type.precision - 1)
  refine ⟨huns, ?_⟩
  rw [IntCst.value, huns, value_true, toNat_of_high_eq_zero hhigh, hlow,
    BitVec.toNat_sub_of_le (by rw [BitVec.le_def, hone, hshift]; exact hge), hone, hshift]
  push_cast [hge]
  rfl

/-- An unsigned number is not above the largest signed one just when it is not negative as a signed
number. -/
theorem signed_nonneg_iff {n : Nat} {v : Int} (hn : 0 < n) (hv : wrap true n v = v) :
    0 ≤ wrap false n v ↔ v ≤ 2 ^ (n - 1) - 1 := by
  have hpow : (2 : Int) ^ n = 2 * 2 ^ (n - 1) := by
    rw [← pow_succ']
    congr 1
    omega
  rw [wrap_true, emod_eq_self_iff] at hv
  rw [wrap_false]
  rcases bmod_cases (n := n) (v := v) (by omega) hv.2 with ⟨hr, hin⟩ | ⟨hr, hin⟩ | ⟨hr, hin⟩ <;>
    rw [hr] <;> omega

/-- `fold` of a comparison of constants compares their values. -/
theorem foldCompare_eq (code : CompareCode) (ht : arg0.type = arg1.type) (h0 : arg0.Valid) :
    foldCompare code arg0 arg1 = code.holds arg0.value arg1.value := by
  have hwords := fun code => compareWords_eq code ht
  have hval := h0.wrap_value
  unfold foldCompare
  split
  · next heq =>
    simp only [operandEqual, Bool.and_eq_true, beq_iff_eq] at heq
    have hv : arg0.value = arg1.value := by rw [IntCst.value, IntCst.value, heq.2, ht]
    cases code <;> simp [CompareCode.holds, hv]
  · split
    · next hzero =>
      -- an unsigned number is not below zero
      rw [ht, hzero.1, wrap_true, emod_eq_self_iff] at hval
      have hv := value_of_zero arg1 hzero.2
      cases code <;> simp only [hwords, CompareCode.holds, hv] <;> grind
    · split
      · next hl =>
        obtain ⟨huns, hv⟩ := value_largestSigned hl
        rw [ht, huns] at hval
        have hsigned := signed_nonneg_iff arg1.type.pos hval
        have hzero : (⟨arg1.type.signedType, ⟨0, 0⟩, false, false⟩ : IntCst h).value = 0 :=
          value_of_zero _ rfl
        have harg0 : (foldConvert arg0.type.signedType arg0).value =
            wrap false arg1.type.precision arg0.value := by
          rw [value_foldConvert, ht]
          rfl
        have htypes : (foldConvert arg0.type.signedType arg0).type =
            (⟨arg1.type.signedType, ⟨0, 0⟩, false, false⟩ : IntCst h).type := by
          rw [← ht]
          rfl
        have hcmp := fun code => compareWords_eq code htypes
        cases code <;> simp only [hwords, hcmp, CompareCode.holds, hv, hzero, harg0] <;> grind
      · exact hwords code

end Compare

section Bounds

variable {t : IntType h}

theorem IntType.value_iff (t : IntType h) (v : Int) :
    t.Value v ↔ t.minValue ≤ v ∧ v ≤ t.maxValue := by
  have hpos := t.pos
  have hpow : (2 : Int) ^ t.precision = 2 * 2 ^ (t.precision - 1) := by
    rw [← pow_succ']
    congr 1
    omega
  unfold IntType.Value IntType.minValue IntType.maxValue
  cases t.unsigned with
  | true =>
    rw [wrap_true, emod_eq_self_iff, if_pos rfl, if_pos rfl]
    omega
  | false =>
    rw [wrap_false, bmod_eq_self_iff, if_neg (by decide), if_neg (by decide)]
    omega

theorem IntType.min_le_max (t : IntType h) : t.minValue ≤ t.maxValue := by
  have hpos : (0 : Int) < 2 ^ t.precision := by positivity
  have hpos' : (0 : Int) < 2 ^ (t.precision - 1) := by positivity
  unfold IntType.minValue IntType.maxValue
  split <;> omega

/-- The two ends of a type are one step apart when the numbers go round. -/
theorem IntType.dvd_size (t : IntType h) :
    (2 : Int) ^ t.precision ∣ t.maxValue + 1 - t.minValue := by
  have hpos := t.pos
  have hpow : (2 : Int) ^ t.precision = 2 * 2 ^ (t.precision - 1) := by
    rw [← pow_succ']
    congr 1
    omega
  unfold IntType.minValue IntType.maxValue
  split
  · exact ⟨1, by omega⟩
  · exact ⟨1, by omega⟩

theorem value_of_typed {c : IntCst h} (hc : c.type = t ∧ c.Valid) :
    t.minValue ≤ c.value ∧ c.value ≤ t.maxValue := by
  rw [← t.value_iff, ← hc.1]
  exact hc.2.wrap_value

/-- A bound as a number; an omitted one lies beyond the numbers of the type. -/
def boundInt (t : IntType h) (upper : Bool) (c : Option (IntCst h)) : Int :=
  match c with
  | none => if upper then t.maxValue + 1 else t.minValue - 1
  | some c => c.value

theorem rangeCompare_eq (code : CompareCode) {arg0 arg1 : Option (IntCst h)} (upper0 upper1 : Bool)
    (h0 : ∀ c ∈ arg0, c.type = t ∧ c.Valid) (h1 : ∀ c ∈ arg1, c.type = t ∧ c.Valid) :
    rangeCompare code arg0 upper0 arg1 upper1 =
      code.holds (boundInt t upper0 arg0) (boundInt t upper1 arg1) := by
  have hle := t.min_le_max
  cases arg0 with
  | none =>
    cases arg1 with
    | none => cases upper0 <;> cases upper1 <;> cases code <;>
        simp [rangeCompare, boundSgn, boundInt, CompareCode.holds] <;> omega
    | some c =>
      have hc := value_of_typed (h1 c rfl)
      cases upper0 <;> cases code <;>
        simp [rangeCompare, boundSgn, boundInt, CompareCode.holds] <;> omega
  | some c =>
    have hc := value_of_typed (h0 c rfl)
    cases arg1 with
    | none => cases upper1 <;> cases code <;>
        simp [rangeCompare, boundSgn, boundInt, CompareCode.holds] <;> omega
    | some d =>
      have hd := (h1 d rfl).2.wrap_value
      have hconv : (foldConvert c.type d).value = d.value := by
        rw [value_foldConvert, (h0 c rfl).1, ← (h1 d rfl).1, hd]
      have htypes : c.type = (foldConvert c.type d).type := rfl
      rw [rangeCompare, foldCompare_eq code htypes (h0 c rfl).2, hconv]
      rfl

def nextInt (t : IntType h) (v : Int) : Int :=
  if v = t.maxValue then t.minValue else if v = t.maxValue + 1 then t.minValue - 1 else v + 1

def prevInt (t : IntType h) (v : Int) : Int :=
  if v = t.minValue then t.maxValue else if v = t.minValue - 1 then t.maxValue + 1 else v - 1

theorem wraps_type (t : IntType h) :
    IntRange.Wraps t.minValue t.maxValue (nextInt t) (prevInt t) := by
  refine ⟨fun v hv => ?_, ?_, fun v hv hle => ?_, ?_⟩
  · rw [nextInt, if_neg (by omega), if_neg (by omega)]
  · rw [nextInt, if_pos rfl]
  · rw [prevInt, if_neg (by omega), if_neg (by omega)]
  · rw [prevInt, if_pos rfl]

end Bounds

section Step

variable {t : IntType h}

theorem value_plusExpr (arg0 arg1 : IntCst h) (forsize : Bool) :
    (intConstBinop .plusExpr arg0 arg1 false forsize).value =
      wrap arg0.type.unsigned arg0.type.precision (arg0.value + arg1.value) := by
  refine value_forceFit arg0.type ?_ _
  rw [BitVec.ofInt_add, IntCst.value, IntCst.value, ofInt_value, ofInt_value]
  exact bv_addDouble _ _

theorem value_minusExpr (arg0 arg1 : IntCst h) (forsize : Bool) :
    (intConstBinop .minusExpr arg0 arg1 false forsize).value =
      wrap arg0.type.unsigned arg0.type.precision (arg0.value - arg1.value) := by
  refine value_forceFit arg0.type ?_ _
  rw [Int.sub_eq_add_neg, BitVec.ofInt_add, BitVec.ofInt_neg, IntCst.value, IntCst.value,
    ofInt_value, ofInt_value, ← bv_negDouble]
  exact bv_addDouble _ _

/-- One more than a value: the next one of the type. -/
theorem wrap_succ_eq_next {v : Int} (hlo : t.minValue ≤ v) (hhi : v ≤ t.maxValue) :
    wrap t.unsigned t.precision (v + wrap t.unsigned t.precision 1) = nextInt t v := by
  have hone : (2 : Int) ^ t.precision ∣ wrap t.unsigned t.precision 1 - 1 := dvd_wrap_sub
  unfold nextInt
  split
  · next hlast =>
    have hmin : wrap t.unsigned t.precision t.minValue = t.minValue :=
      (t.value_iff _).2 ⟨le_rfl, t.min_le_max⟩
    rw [← hmin]
    refine wrap_eq_of_dvd ?_
    have := (t.dvd_size).add hone
    rwa [show v + wrap t.unsigned t.precision 1 - t.minValue =
      t.maxValue + 1 - t.minValue + (wrap t.unsigned t.precision 1 - 1) by omega]
  · rw [if_neg (by omega)]
    have hself : wrap t.unsigned t.precision (v + 1) = v + 1 :=
      (t.value_iff _).2 ⟨by omega, by omega⟩
    rw [← hself]
    exact wrap_eq_of_dvd (by rwa [show v + wrap t.unsigned t.precision 1 - (v + 1) =
      wrap t.unsigned t.precision 1 - 1 by omega])

theorem wrap_pred_eq_prev {v : Int} (hlo : t.minValue ≤ v) (hhi : v ≤ t.maxValue) :
    wrap t.unsigned t.precision (v - wrap t.unsigned t.precision 1) = prevInt t v := by
  have hone : (2 : Int) ^ t.precision ∣ wrap t.unsigned t.precision 1 - 1 := dvd_wrap_sub
  unfold prevInt
  split
  · next hfirst =>
    have hmax : wrap t.unsigned t.precision t.maxValue = t.maxValue :=
      (t.value_iff _).2 ⟨t.min_le_max, le_rfl⟩
    rw [← hmax]
    refine wrap_eq_of_dvd ?_
    have := (dvd_neg.2 t.dvd_size).sub hone
    rwa [show v - wrap t.unsigned t.precision 1 - t.maxValue =
      -(t.maxValue + 1 - t.minValue) - (wrap t.unsigned t.precision 1 - 1) by omega]
  · rw [if_neg (by omega)]
    have hself : wrap t.unsigned t.precision (v - 1) = v - 1 :=
      (t.value_iff _).2 ⟨by omega, by omega⟩
    rw [← hself]
    exact wrap_eq_of_dvd (by rwa [show v - wrap t.unsigned t.precision 1 - (v - 1) =
      -(wrap t.unsigned t.precision 1 - 1) by omega, dvd_neg])

theorem value_foldConvert_one (t : IntType h) :
    (foldConvert t (integerOneNode h)).value = wrap t.unsigned t.precision 1 := by
  have hnat : (integerOneNode h).words.toNat = 1 := DoubleInt.toNat_one
  have hone : (integerOneNode h).value = 1 := by
    rw [IntCst.value, value_of_toNat_lt (by rw [hnat]; exact two_lt_two_pow), hnat]
    rfl
  rw [value_foldConvert, hone]

/-- A bound with an operation done on it is a bound of the same type. -/
theorem rangeBinop_typed (code : BinopCode) {arg0 : Option (IntCst h)} (arg1 : Option (IntCst h))
    (h0 : ∀ c ∈ arg0, c.type = t ∧ c.Valid) :
    ∀ c ∈ rangeBinop code arg0 arg1, c.type = t ∧ c.Valid := by
  intro c hc
  cases arg0 with
  | none => cases hc
  | some d =>
    cases arg1 with
    | none => cases hc
    | some e =>
      obtain rfl := Option.some.inj hc
      exact ⟨(h0 d rfl).1, forceFitType_fixed d.type _ _ false⟩

theorem boundInt_succ {c : Option (IntCst h)} (hc : ∀ d ∈ c, d.type = t ∧ d.Valid) :
    boundInt t false (rangeBinop .plusExpr c (some (integerOneNode h))) =
      nextInt t (boundInt t true c) := by
  cases c with
  | none =>
    have hle := t.min_le_max
    show t.minValue - 1 = nextInt t (t.maxValue + 1)
    rw [nextInt, if_neg (by omega), if_pos rfl]
  | some d =>
    have htype := (hc d rfl).1
    obtain ⟨hlo, hhi⟩ := value_of_typed (hc d rfl)
    have hstep := value_plusExpr d (foldConvert d.type (integerOneNode h)) false
    rw [value_foldConvert_one, htype, wrap_succ_eq_next hlo hhi, ← htype] at hstep
    rw [← htype]
    exact hstep

theorem boundInt_pred {c : Option (IntCst h)} (hc : ∀ d ∈ c, d.type = t ∧ d.Valid) :
    boundInt t true (rangeBinop .minusExpr c (some (integerOneNode h))) =
      prevInt t (boundInt t false c) := by
  cases c with
  | none =>
    have hle := t.min_le_max
    show t.maxValue + 1 = prevInt t (t.minValue - 1)
    rw [prevInt, if_neg (by omega), if_pos rfl]
  | some d =>
    have htype := (hc d rfl).1
    obtain ⟨hlo, hhi⟩ := value_of_typed (hc d rfl)
    have hstep := value_minusExpr d (foldConvert d.type (integerOneNode h)) false
    rw [value_foldConvert_one, htype, wrap_pred_eq_prev hlo hhi, ← htype] at hstep
    rw [← htype]
    exact hstep

end Step

section Merge

variable {t : IntType h} {r0 r1 : Range h}

def Range.ints (t : IntType h) (r : Range h) : IntRange :=
  ⟨r.inP, boundInt t false r.low, boundInt t true r.high⟩

theorem Range.Over.bounded {r : Range h} (hr : r.Over t) :
    IntRange.Bounded t.minValue t.maxValue (r.ints t) := by
  obtain ⟨hlow, hhigh, hord⟩ := hr
  have hle := t.min_le_max
  unfold Range.ints
  cases hl : r.low with
  | none =>
    cases hh : r.high with
    | none =>
      show IntRange.Bounded _ _ ⟨_, t.minValue - 1, t.maxValue + 1⟩
      constructor <;> dsimp only <;> omega
    | some d =>
      have hd := value_of_typed (hhigh d hh)
      show IntRange.Bounded _ _ ⟨_, t.minValue - 1, d.value⟩
      constructor <;> dsimp only <;> omega
  | some c =>
    have hc := value_of_typed (hlow c hl)
    cases hh : r.high with
    | none =>
      show IntRange.Bounded _ _ ⟨_, c.value, t.maxValue + 1⟩
      constructor <;> dsimp only <;> omega
    | some d =>
      have hd := value_of_typed (hhigh d hh)
      have hcd := hord c hl d hh
      show IntRange.Bounded _ _ ⟨_, c.value, d.value⟩
      constructor <;> dsimp only <;> omega

theorem Range.mem_ints (r : Range h) {v : Int} (hv : t.Value v) :
    (r.ints t).Mem v ↔ r.Mem v := by
  obtain ⟨hlo, hhi⟩ := (t.value_iff v).1 hv
  have hlow : boundInt t false r.low ≤ v ↔ ∀ c ∈ r.low, c.value ≤ v := by
    cases hl : r.low with
    | none => simp [boundInt]; omega
    | some c => simp [boundInt]
  have hhigh : v ≤ boundInt t true r.high ↔ ∀ c ∈ r.high, v ≤ c.value := by
    cases hh : r.high with
    | none => simp [boundInt]; omega
    | some c => simp [boundInt]
  rw [IntRange.Mem, Range.Mem, Range.ints, hlow, hhigh]

theorem mergeOrderedRanges_ints (h0 : r0.Over t) (h1 : r1.Over t) {lowequal highequal : Bool}
    (hlowequal : lowequal = decide (boundInt t false r0.low = boundInt t false r1.low))
    (hhighequal : highequal = decide (boundInt t true r0.high = boundInt t true r1.high)) :
    (mergeOrderedRanges lowequal highequal r0 r1).map (Range.ints t) =
      IntRange.mergeOrdered (nextInt t) (prevInt t)
        (IntRange.everything t.minValue t.maxValue) (r0.ints t) (r1.ints t) := by
  have hdisj := rangeCompare_eq .ltExpr true false h0.high h1.low
  have hsub := rangeCompare_eq .leExpr true true h1.high h0.high
  have hnext0 := boundInt_succ h0.high
  have hnext1 := boundInt_succ h1.high
  have hprev := boundInt_pred h1.low
  -- the ends of the merged range are checked case by case
  have hall : Range.ints t ⟨false, none, none⟩ = IntRange.everything t.minValue t.maxValue := rfl
  unfold mergeOrderedRanges IntRange.mergeOrdered
  rw [hdisj, hsub, hlowequal, hhighequal]
  cases hin0 : r0.inP <;> cases hin1 : r1.inP <;>
    simp only [Range.ints, hin0, hin1, CompareCode.holds, decide_eq_true_iff, Bool.and_eq_true,
      Bool.or_eq_true, Bool.not_eq_true', decide_eq_false_iff_not]
  case false.false =>
    by_cases hd : boundInt t true r0.high < boundInt t false r1.low
    · -- the upper bound below a lower bound is a constant
      have heq := rangeCompare_eq .eqExpr true false
        (rangeBinop_typed .plusExpr (some (integerOneNode h)) h0.high) h1.low
      have hsome : boundInt t true (rangeBinop .plusExpr r0.high (some (integerOneNode h))) =
          nextInt t (boundInt t true r0.high) := by
        rw [← hnext0]
        cases hhigh : r0.high with
        | some c => rfl
        | none =>
          have hle := (h1.bounded).low_le
          rw [hhigh] at hd
          simp only [boundInt, Range.ints, if_true] at hd hle
          omega
      rw [heq, hsome, if_pos hd, if_pos hd]
      simp only [CompareCode.holds, decide_eq_true_iff]
      split <;> rfl
    · rw [if_neg hd, if_neg hd]
      split <;> rfl
  case false.true =>
    rw [← hnext0]
    split_ifs <;> rfl
  case true.false =>
    rw [← hnext1, ← hprev]
    split_ifs <;> rfl
  case true.true =>
    split_ifs <;> rfl

theorem boundInt_eq_iff (upper : Bool) {c d : Option (IntCst h)}
    (hc : ∀ e ∈ c, e.type = t ∧ e.Valid) (hd : ∀ e ∈ d, e.type = t ∧ e.Valid) :
    (c.isNone && d.isNone || rangeCompare .eqExpr c upper d upper) =
      decide (boundInt t upper c = boundInt t upper d) := by
  rw [rangeCompare_eq .eqExpr upper upper hc hd]
  cases c with
  | none =>
    cases d with
    | none => simp [boundInt]
    | some d => simp [CompareCode.holds]
  | some c => simp [CompareCode.holds]

theorem mergeRanges_ints (h0 : r0.Over t) (h1 : r1.Over t) :
    (mergeRanges r0 r1).map (Range.ints t) =
      IntRange.merge (nextInt t) (prevInt t) (IntRange.everything t.minValue t.maxValue)
        (r0.ints t) (r1.ints t) := by
  have hlow := boundInt_eq_iff false h0.low h1.low
  have hhigh := boundInt_eq_iff true h0.high h1.high
  have hfirst := rangeCompare_eq .gtExpr false false h0.low h1.low
  have hlast := rangeCompare_eq .gtExpr true true h1.high h0.high
  unfold mergeRanges IntRange.merge
  rw [hlow, hhigh, hfirst, hlast]
  by_cases hf : IntRange.First (r0.ints t) (r1.ints t)
  · rw [if_pos hf, if_neg, mergeOrderedRanges_ints h0 h1 rfl rfl]
    simpa [IntRange.First, Range.ints, CompareCode.holds] using hf
  · rw [if_neg hf, if_pos, mergeOrderedRanges_ints h1 h0]
    · simp [eq_comm]
    · simp [eq_comm]
    · have hlater := not_not.1 hf
      simpa [Range.ints, CompareCode.holds] using hlater

/-- The excluded range ends where the type does and covers the included one, which has no bound
there. -/
def Covers (t : IntType h) (incl excl : Range h) : Prop :=
  incl.inP = true ∧ excl.inP = false ∧
    (incl.high = none ∧ (∃ c ∈ excl.high, c.value = t.maxValue) ∧
        (∀ e ∈ excl.low, ∃ c ∈ incl.low, e.value ≤ c.value) ∨
      incl.low = none ∧ (∃ c ∈ excl.low, c.value = t.minValue) ∧
        ∀ e ∈ excl.high, ∃ c ∈ incl.high, c.value ≤ e.value)

section Ends

variable {c d : Option (IntCst h)}

theorem boundInt_upper_eq_iff (hc : ∀ e ∈ c, e.type = t ∧ e.Valid) :
    boundInt t true c = t.maxValue + 1 ↔ c = none := by
  cases c with
  | none => simp [boundInt]
  | some e =>
    have he := value_of_typed (hc e rfl)
    simp only [boundInt, reduceCtorEq, iff_false]
    omega

theorem boundInt_lower_eq_iff (hc : ∀ e ∈ c, e.type = t ∧ e.Valid) :
    boundInt t false c = t.minValue - 1 ↔ c = none := by
  cases c with
  | none => simp [boundInt]
  | some e =>
    have he := value_of_typed (hc e rfl)
    simp only [boundInt, reduceCtorEq, iff_false]
    omega

theorem boundInt_eq_max_iff : boundInt t true c = t.maxValue ↔ ∃ e ∈ c, e.value = t.maxValue := by
  cases c with
  | none => simp [boundInt]
  | some e => simp [boundInt]

theorem boundInt_eq_min_iff : boundInt t false c = t.minValue ↔ ∃ e ∈ c, e.value = t.minValue := by
  cases c with
  | none => simp [boundInt]
  | some e => simp [boundInt]

theorem boundInt_lower_le_iff (hc : ∀ e ∈ c, e.type = t ∧ e.Valid)
    (hd : ∀ e ∈ d, e.type = t ∧ e.Valid) :
    boundInt t false c ≤ boundInt t false d ↔ ∀ e ∈ c, ∃ f ∈ d, e.value ≤ f.value := by
  cases c with
  | none =>
    cases d with
    | none => simp [boundInt]
    | some f =>
      have hf := value_of_typed (hd f rfl)
      simp [boundInt]
      omega
  | some e =>
    cases d with
    | none =>
      have he := value_of_typed (hc e rfl)
      simp [boundInt]
      omega
    | some f => simp [boundInt]

theorem boundInt_upper_le_iff (hc : ∀ e ∈ c, e.type = t ∧ e.Valid)
    (hd : ∀ e ∈ d, e.type = t ∧ e.Valid) :
    boundInt t true c ≤ boundInt t true d ↔ ∀ f ∈ d, ∃ e ∈ c, e.value ≤ f.value := by
  cases d with
  | none =>
    cases c with
    | none => simp [boundInt]
    | some e =>
      have he := value_of_typed (hc e rfl)
      simp [boundInt]
      omega
  | some f =>
    cases c with
    | none =>
      have hf := value_of_typed (hd f rfl)
      simp [boundInt]
      omega
    | some e => simp [boundInt]

end Ends

theorem goesRound_iff (h0 : r0.Over t) (h1 : r1.Over t) :
    IntRange.GoesRound t.minValue t.maxValue (r0.ints t) (r1.ints t) ↔ Covers t r0 r1 := by
  unfold IntRange.GoesRound Covers Range.ints
  dsimp only
  rw [boundInt_upper_eq_iff h0.high, boundInt_lower_eq_iff h0.low, boundInt_eq_max_iff,
    boundInt_eq_min_iff, boundInt_lower_le_iff h1.low h0.low, boundInt_upper_le_iff h0.high h1.high]

/-- Exactly when a merged range is the test for both: one test does not exclude the values up to an
end of the type, the other one's included. -/
theorem merge_ranges_right_iff (h0 : r0.Over t) (h1 : r1.Over t) :
    (∀ r, mergeRanges r0 r1 = some r → ∀ v, t.Value v → (r.Mem v ↔ r0.Mem v ∧ r1.Mem v)) ↔
      ¬(Covers t r0 r1 ∨ Covers t r1 r0) := by
  have hmerge := IntRange.merge_right_iff t.min_le_max (wraps_type t) h0.bounded h1.bounded
  rw [goesRound_iff h0 h1, goesRound_iff h1 h0, ← mergeRanges_ints h0 h1] at hmerge
  rw [← hmerge]
  constructor
  · intro hall r hr v hlo hhi
    have hv : t.Value v := (t.value_iff v).2 ⟨hlo, hhi⟩
    obtain ⟨s, hs, rfl⟩ := Option.map_eq_some_iff.1 hr
    rw [s.mem_ints hv, r0.mem_ints hv, r1.mem_ints hv]
    exact hall s hs v hv
  · intro hall r hr v hv
    obtain ⟨hlo, hhi⟩ := (t.value_iff v).1 hv
    rw [← r.mem_ints hv, ← r0.mem_ints hv, ← r1.mem_ints hv]
    exact hall _ (by rw [hr]; rfl) v hlo hhi

theorem int16_pos : 1 ≤ 16 := by decide

theorem int16_fits : 16 ≤ 2 * host32.bits := by decide

def int16 : IntType host32 := ⟨16, false, int16_pos, int16_fits⟩

def intCst (low : BitVec 32) : IntCst host32 := ⟨int16, ⟨low, 0⟩, false, false⟩

def fromFive : Range host32 := ⟨true, some (intCst 5), none⟩

def notFiveTo (high : BitVec 32) : Range host32 := ⟨false, some (intCst 5), some (intCst high)⟩

theorem fromFive_over : fromFive.Over int16 := by
  refine ⟨?_, ?_, ?_⟩
  · rintro c ⟨⟩
    exact ⟨rfl, by unfold IntCst.Valid; decide⟩
  · rintro c ⟨⟩
  · rintro low - high ⟨⟩

theorem notFiveTo_over {high : BitVec 32} (hvalid : (intCst high).Valid)
    (hle : (intCst 5).value ≤ (intCst high).value) : (notFiveTo high).Over int16 := by
  refine ⟨?_, ?_, ?_⟩
  · rintro c ⟨⟩
    exact ⟨rfl, by unfold IntCst.Valid; decide⟩
  · rintro c ⟨⟩
    exact ⟨rfl, hvalid⟩
  · rintro low ⟨⟩ high ⟨⟩
    exact hle

theorem merge_ranges_right_five :
    (mergeRanges fromFive (notFiveTo 9)).isSome ∧ ∀ r, mergeRanges fromFive (notFiveTo 9) = some r →
      ∀ v, int16.Value v → (r.Mem v ↔ fromFive.Mem v ∧ (notFiveTo 9).Mem v) := by
  refine ⟨rfl, (merge_ranges_right_iff fromFive_over
    (notFiveTo_over (by unfold IntCst.Valid; decide) (by decide))).2 ?_⟩
  unfold Covers
  decide

/-- From 5 on, but not from 5 to 32767: the lower bound goes round and no `int` is left out. -/
theorem merge_ranges_wrong_covered :
    fromFive.Over int16 ∧ (notFiveTo 32767).Over int16 ∧ int16.Value 0 ∧
      ∃ r, mergeRanges fromFive (notFiveTo 32767) = some r ∧
        r.Mem 0 ∧ ¬(fromFive.Mem 0 ∧ (notFiveTo 32767).Mem 0) := by
  refine ⟨fromFive_over, notFiveTo_over (by unfold IntCst.Valid; decide) (by decide),
    by unfold IntType.Value; decide, _, rfl, ?_, ?_⟩
  · unfold Range.Mem
    decide
  · unfold Range.Mem
    decide

end Merge

end Z80Gcc
