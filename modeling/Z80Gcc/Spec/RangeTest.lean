import Z80Gcc.Lib.IntRange
import Z80Gcc.Lib.WrapInt
import Z80Gcc.Spec.ConstBinop

/-! The ranges that fold-const.c makes of comparisons with constants: `range_binop` and
`merge_ranges`. -/

namespace Z80Gcc

open DoubleInt

variable {h : Host}

inductive CompareCode where
  | eqExpr | neExpr | ltExpr | leExpr | gtExpr | geExpr
  deriving DecidableEq

def CompareCode.holds (code : CompareCode) (a b : Int) : Bool :=
  match code with
  | .eqExpr => a = b
  | .neExpr => a ≠ b
  | .ltExpr => a < b
  | .leExpr => a ≤ b
  | .gtExpr => a > b
  | .geExpr => a ≥ b

/-- `fold_convert` of an integer constant. -/
def foldConvert (t : IntType h) (arg1 : IntCst h) : IntCst h :=
  let r := forceFitType t arg1.words
    (arg1.words.high.msb && (!t.unsigned && arg1.type.unsigned))
  let overflow := r.2 || arg1.overflow
  { type := t
    words := r.1
    overflow
    constantOverflow := overflow || arg1.constantOverflow }

/-- `integer_one_node`, of type `int`. -/
def integerOneNode (h : Host) : IntCst h where
  type := ⟨16, false, by decide, by have := h.wide; omega⟩
  words := ⟨1, 0⟩
  overflow := false
  constantOverflow := false

/-- The end of `fold` for a comparison of constants: all codes come down to `==` and `<`. -/
def compareWords (code : CompareCode) (arg0 arg1 : IntCst h) : Bool :=
  match code with
  | .eqExpr => arg0.words == arg1.words
  | .neExpr => !(arg0.words == arg1.words)
  | .ltExpr => less arg0.type.unsigned arg0.words arg1.words
  | .geExpr => !less arg0.type.unsigned arg0.words arg1.words
  | .gtExpr => less arg1.type.unsigned arg1.words arg0.words
  | .leExpr => !less arg1.type.unsigned arg1.words arg0.words

/-- `operand_equal_p` of two constants. -/
def operandEqual (arg0 arg1 : IntCst h) : Bool :=
  !arg0.constantOverflow && !arg1.constantOverflow && arg0.words == arg1.words

/-- The test in `fold` for the constant of "an unsigned <= 0x7fffffff". -/
def largestSigned (arg1 : IntCst h) : Bool :=
  !arg1.constantOverflow && decide (arg1.type.precision ≤ h.bits)
    && arg1.words.low == (1 : BitVec h.bits) <<< (arg1.type.precision - 1) - 1
    && arg1.words.high == 0 && arg1.type.unsigned

def IntType.signedType (t : IntType h) : IntType h := { t with unsigned := false }

/-- `fold` of a comparison of two constants of one type, with its special cases for equal operands,
for unsigned comparisons with zero and with the largest signed number. -/
def foldCompare (code : CompareCode) (arg0 arg1 : IntCst h) : Bool :=
  if operandEqual arg0 arg1 then
    match code with
    | .eqExpr | .geExpr | .leExpr => true
    | .neExpr | .gtExpr | .ltExpr => false
  else if arg1.type.unsigned ∧ arg1.words = ⟨0, 0⟩ then
    match code with
    | .gtExpr => compareWords .neExpr arg0 arg1
    | .leExpr => compareWords .eqExpr arg0 arg1
    | .geExpr => true
    | .ltExpr => false
    | .eqExpr => compareWords .eqExpr arg0 arg1
    | .neExpr => compareWords .neExpr arg0 arg1
  else if largestSigned arg1 then
    let arg0' := foldConvert arg0.type.signedType arg0
    let zero : IntCst h := ⟨arg1.type.signedType, ⟨0, 0⟩, false, false⟩
    match code with
    | .leExpr => compareWords .geExpr arg0' zero
    | .gtExpr => compareWords .ltExpr arg0' zero
    | .eqExpr | .neExpr | .ltExpr | .geExpr => compareWords code arg0 arg1
  else compareWords code arg0 arg1

/-- `range_binop` for arithmetic; an omitted operand leaves the result omitted. -/
def rangeBinop (code : BinopCode) (arg0 arg1 : Option (IntCst h)) : Option (IntCst h) :=
  match arg0, arg1 with
  | some arg0, some arg1 => some (intConstBinop code arg0 (foldConvert arg0.type arg1) false false)
  | _, _ => none

/-- `sgn0` and `sgn1`: an omitted bound is below or above every number. -/
def boundSgn (arg : Option (IntCst h)) (upper : Bool) : Int :=
  match arg with
  | some _ => 0
  | none => if upper then 1 else -1

/-- `integer_onep` of `range_binop` for a comparison. -/
def rangeCompare (code : CompareCode) (arg0 : Option (IntCst h)) (upper0 : Bool)
    (arg1 : Option (IntCst h)) (upper1 : Bool) : Bool :=
  match arg0, arg1 with
  | some arg0, some arg1 => foldCompare code arg0 (foldConvert arg0.type arg1)
  | _, _ =>
      let sgn0 := boundSgn arg0 upper0
      let sgn1 := boundSgn arg1 upper1
      match code with
      | .eqExpr => sgn0 == sgn1
      | .neExpr => sgn0 != sgn1
      | .ltExpr => sgn0 < sgn1
      | .leExpr => sgn0 ≤ sgn1
      | .gtExpr => sgn0 > sgn1
      | .geExpr => sgn0 ≥ sgn1

/-- `in_p`, `low` and `high` of a range test. -/
structure Range (h : Host) where
  inP : Bool
  low : Option (IntCst h)
  high : Option (IntCst h)

/-- `merge_ranges`, once the range that starts first is range 0. -/
def mergeOrderedRanges (lowequal highequal : Bool) (r0 r1 : Range h) : Option (Range h) :=
  let noOverlap := rangeCompare .ltExpr r0.high true r1.low false
  let subset := rangeCompare .leExpr r1.high true r0.high true
  let one := some (integerOneNode h)
  match r0.inP, r1.inP with
  | true, true =>
      if noOverlap then some ⟨false, none, none⟩
      else if subset then some ⟨true, r1.low, r1.high⟩
      else some ⟨true, r1.low, r0.high⟩
  | true, false =>
      if noOverlap then some ⟨true, r0.low, r0.high⟩
      else if lowequal && highequal then some ⟨false, none, none⟩
      else if subset && lowequal then some ⟨true, rangeBinop .plusExpr r1.high one, r0.high⟩
      else if !subset || highequal then some ⟨true, r0.low, rangeBinop .minusExpr r1.low one⟩
      else none
  | false, true =>
      if noOverlap then some ⟨true, r1.low, r1.high⟩
      else if subset then some ⟨false, none, none⟩
      else some ⟨true, rangeBinop .plusExpr r0.high one, r1.high⟩
  | false, false =>
      if noOverlap then
        if rangeCompare .eqExpr (rangeBinop .plusExpr r0.high one) true r1.low false then
          some ⟨false, r0.low, r1.high⟩
        else none
      else if subset then some ⟨false, r0.low, r0.high⟩
      else some ⟨false, r0.low, r1.high⟩

/-- `merge_ranges`; `none` where it returns 0. -/
def mergeRanges (r0 r1 : Range h) : Option (Range h) :=
  let lowequal :=
    r0.low.isNone && r1.low.isNone || rangeCompare .eqExpr r0.low false r1.low false
  let highequal :=
    r0.high.isNone && r1.high.isNone || rangeCompare .eqExpr r0.high true r1.high true
  if rangeCompare .gtExpr r0.low false r1.low false
      || lowequal && rangeCompare .gtExpr r1.high true r0.high true then
    mergeOrderedRanges lowequal highequal r1 r0
  else mergeOrderedRanges lowequal highequal r0 r1

section Purpose

/-! What a range test says of a value. -/

def IntType.Value (t : IntType h) (v : Int) : Prop := WrapInt.wrap t.unsigned t.precision v = v

def IntType.minValue (t : IntType h) : Int := if t.unsigned then 0 else -2 ^ (t.precision - 1)

def IntType.maxValue (t : IntType h) : Int :=
  if t.unsigned then 2 ^ t.precision - 1 else 2 ^ (t.precision - 1) - 1

/-- The test of `v`; an omitted bound is no bound. -/
def Range.Mem (r : Range h) (v : Int) : Prop :=
  r.inP = true ↔ (∀ low ∈ r.low, low.value ≤ v) ∧ ∀ high ∈ r.high, v ≤ high.value

/-- A range over a type: its bounds are constants of the type, in order. -/
structure Range.Over (t : IntType h) (r : Range h) : Prop where
  low : ∀ c ∈ r.low, c.type = t ∧ c.Valid
  high : ∀ c ∈ r.high, c.type = t ∧ c.Valid
  ordered : ∀ low ∈ r.low, ∀ high ∈ r.high, low.value ≤ high.value

end Purpose

end Z80Gcc
