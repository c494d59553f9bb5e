import Z80Gcc.Lib.Rotate
import Z80Gcc.Spec.DivRound

/-! `int_const_binop` of fold-const.c: two integer constants combined under a tree code. -/

namespace Z80Gcc

/-- `TYPE_PRECISION` and `TREE_UNSIGNED` of an integer type; a pointer has `POINTER_SIZE`. -/
structure IntType (h : Host) where
  precision : Nat
  unsigned : Bool
  pos : 1 ≤ precision
  fits : precision ≤ 2 * h.bits

/-- An `INTEGER_CST`, with `TREE_OVERFLOW` and `TREE_CONSTANT_OVERFLOW`. -/
structure IntCst (h : Host) where
  type : IntType h
  words : DoubleInt h
  overflow : Bool
  constantOverflow : Bool

/-- The codes that `int_const_binop` takes. -/
inductive BinopCode where
  | bitIorExpr | bitXorExpr | bitAndExpr | bitAndtcExpr
  | rshiftExpr | lshiftExpr | rrotateExpr | lrotateExpr
  | plusExpr | minusExpr | multExpr
  | divide (code : DivTreeCode)
  | minExpr | maxExpr

variable {h : Host}

/-- `force_fit_type`: "clear all bits that are beyond the type's precision". -/
def clearBeyond (prec : Nat) (x : DoubleInt h) : DoubleInt h :=
  let ones : BitVec h.bits := -1
  if prec = 2 * h.bits then x
  else if prec > h.bits then ⟨x.low, x.high &&& ~~~(ones <<< (prec - h.bits))⟩
  else ⟨if prec < h.bits then x.low &&& ~~~(ones <<< prec) else x.low, 0⟩

/-- `force_fit_type`: the test for "the value's sign bit is set". -/
def signBitSet (prec : Nat) (x : DoubleInt h) : Bool :=
  let one : BitVec h.bits := 1
  prec != 2 * h.bits &&
    if prec > h.bits then x.high &&& one <<< (prec - h.bits - 1) != 0
    else x.low &&& one <<< (prec - 1) != 0

/-- `force_fit_type`: "set to 1 all the bits that are outside this type's precision". -/
def setBeyond (prec : Nat) (x : DoubleInt h) : DoubleInt h :=
  let ones : BitVec h.bits := -1
  if prec > h.bits then ⟨x.low, x.high ||| ones <<< (prec - h.bits)⟩
  else ⟨if prec < h.bits then x.low ||| ones <<< prec else x.low, -1⟩

/-- `force_fit_type`: the words it leaves, and what it returns. -/
def forceFitType (t : IntType h) (x : DoubleInt h) (overflow : Bool) : DoubleInt h × Bool :=
  let cleared := clearBeyond t.precision x
  if t.unsigned then (cleared, overflow)
  else
    let y := if signBitSet t.precision cleared then setBeyond t.precision cleared else cleared
    (y, overflow || x.low ^^^ y.low != 0 || x.high ^^^ y.high != 0)

namespace DoubleInt

/-- The words that `lrotate_double` and `rrotate_double` store, from the two shifts. -/
def orWords (s1 s2 : DoubleInt h) : DoubleInt h := ⟨s1.low ||| s2.low, s1.high ||| s2.high⟩

def rotateCount (count : Int) (prec : Nat) : Int :=
  let count := count.tmod prec
  if count < 0 then count + prec else count

def lrotateDouble (x : DoubleInt h) (count : Int) (prec : Nat) : DoubleInt h :=
  let count := rotateCount count prec
  orWords (x.lshiftDouble count prec false) (x.rshiftDouble (prec - count).toNat prec false)

def rrotateDouble (x : DoubleInt h) (count : Int) (prec : Nat) : DoubleInt h :=
  let count := rotateCount count prec
  orWords (x.rshiftDouble count.toNat prec false) (x.lshiftDouble (prec - count) prec false)

/-- `INT_CST_LT_UNSIGNED` or `INT_CST_LT`. -/
def less (uns : Bool) (x y : DoubleInt h) : Bool :=
  (if uns then x.high.ult y.high else x.high.slt y.high) || x.high == y.high && x.low.ult y.low

end DoubleInt

open DoubleInt

/-- What the `switch` of `int_const_binop` leaves in `low` and `hi` and in its two flags. -/
structure BinopResult (h : Host) where
  words : DoubleInt h
  overflow : Bool
  noOverflow : Bool

/-- The test for "a common special case". -/
def smallOperands (arg1 arg2 : IntCst h) : Bool :=
  arg2.words.high == 0 && BitVec.slt 0 arg2.words.low
    && !arg1.constantOverflow && !arg2.constantOverflow
    && arg1.words.high == 0 && !arg1.words.low.msb

/-- The tests for a divisor of one and for equal operands. -/
def trivialQuotient (int1 int2 : DoubleInt h) : Option (DoubleInt h) :=
  if int2.high = 0 ∧ int2.low = 1 then some int1
  else if int1.low = int2.low ∧ int1.high = int2.high ∧ ¬(int1.low = 0 ∧ int1.high = 0) then
    some ⟨1, 0⟩
  else none

/-- What the divisions do before they call `div_and_round_double`; `none` where they do call it. -/
def divShortcut (code : DivTreeCode) (arg1 arg2 : IntCst h) : Option (DoubleInt h) :=
  let int1 := arg1.words
  let int2 := arg2.words
  let small := smallOperands arg1 arg2
  match code with
  | .truncDivExpr | .floorDivExpr | .exactDivExpr =>
      if small then some ⟨int1.low.sdiv int2.low, 0⟩ else trivialQuotient int1 int2
  | .ceilDivExpr =>
      if small then some ⟨(int1.low + (int2.low - 1)).sdiv int2.low, 0⟩
      else trivialQuotient int1 int2
  | .roundDivExpr => trivialQuotient int1 int2
  | .truncModExpr | .floorModExpr =>
      if small then some ⟨int1.low.srem int2.low, 0⟩ else none
  | .ceilModExpr =>
      if small then some ⟨(int1.low + (int2.low - 1)).srem int2.low, 0⟩ else none
  | .roundModExpr => none

def DoubleInt.DivResult.part (code : DivTreeCode) (r : DivResult h) : DoubleInt h :=
  match code with
  | .truncDivExpr | .floorDivExpr | .ceilDivExpr | .exactDivExpr | .roundDivExpr => r.quo
  | .truncModExpr | .floorModExpr | .ceilModExpr | .roundModExpr => r.rem

/-- The `switch` of `int_const_binop`. -/
def intConstSwitch (code : BinopCode) (arg1 arg2 : IntCst h) : BinopResult h :=
  let int1 := arg1.words
  let int2 := arg2.words
  let uns := arg1.type.unsigned
  let prec := arg1.type.precision
  match code with
  | .bitIorExpr => ⟨⟨int1.low ||| int2.low, int1.high ||| int2.high⟩, false, false⟩
  | .bitXorExpr => ⟨⟨int1.low ^^^ int2.low, int1.high ^^^ int2.high⟩, false, false⟩
  | .bitAndExpr => ⟨⟨int1.low &&& int2.low, int1.high &&& int2.high⟩, false, false⟩
  | .bitAndtcExpr => ⟨⟨int1.low &&& ~~~int2.low, int1.high &&& ~~~int2.high⟩, false, false⟩
  | .rshiftExpr => ⟨int1.lshiftDouble (-int2.low).toInt prec (!uns), false, true⟩
  | .lshiftExpr => ⟨int1.lshiftDouble int2.low.toInt prec (!uns), false, true⟩
  | .rrotateExpr => ⟨int1.lrotateDouble (-int2.low).toInt prec, false, false⟩
  | .lrotateExpr => ⟨int1.lrotateDouble int2.low.toInt prec, false, false⟩
  | .plusExpr =>
      let sum := int1.addDouble int2
      ⟨sum.1, sum.2, false⟩
  | .minusExpr =>
      let diff := (int1.addDouble int2.negDouble.1).1
      ⟨diff, overflowSumSign diff.high int2.high int1.high, false⟩
  | .multExpr =>
      let prod := int1.mulDouble int2
      ⟨prod.1, prod.2, false⟩
  | .divide code =>
      match divShortcut code arg1 arg2 with
      | some words => ⟨words, false, false⟩
      | none =>
          let r := divAndRound code uns int1 int2
          ⟨r.part code, r.overflow, false⟩
  | .minExpr => ⟨if less uns int1 int2 then int1 else int2, false, false⟩
  | .maxExpr => ⟨if less uns int1 int2 then int2 else int1, false, false⟩

/-- `int_const_binop`. A result of `sizetype` that comes from `size_int` has the words that
`build_int_2` would give it. -/
def intConstBinop (code : BinopCode) (arg1 arg2 : IntCst h) (notrunc forsize : Bool) : IntCst h :=
  let uns := arg1.type.unsigned
  let r := intConstSwitch code arg1 arg2
  let overflow := (!uns || forsize) && r.overflow
  let fit := forceFitType arg1.type r.words overflow
  let words := if notrunc then r.words else fit.1
  let overflow :=
    (if notrunc then overflow else fit.2 && !r.noOverflow) || arg1.overflow || arg2.overflow
  let overflow := overflow || forsize && words != r.words
  { type := arg1.type
    words
    overflow
    constantOverflow := overflow || arg1.constantOverflow || arg2.constantOverflow }

section Purpose

/-! What the words of a constant stand for. -/

/-- A signed number that two words have room for. -/
def Host.Represents (h : Host) (v : Int) : Prop :=
  -2 ^ (h.bits + h.bits - 1) ≤ v ∧ v < 2 ^ (h.bits + h.bits - 1)

/-- What an operation on two words promises: the result modulo the size, and a flag for a result
that there is no room for. -/
def DoubleInt.Computes (r : DoubleInt h × Bool) (v : Int) : Prop :=
  r.1.bv = BitVec.ofInt _ v ∧ (r.2 = true ↔ ¬h.Represents v)

/-- A number as the words of a constant: zero-extended or sign-extended. -/
def IntType.represent (t : IntType h) (x : BitVec t.precision) : DoubleInt h :=
  let ext : BitVec (h.bits + h.bits) := if t.unsigned then x.setWidth _ else x.signExtend _
  ⟨ext.setWidth h.bits, (ext >>> h.bits).setWidth h.bits⟩

/-- The number as the type keeps it. -/
def IntCst.value (c : IntCst h) : Int := c.words.value c.type.unsigned

/-- The words fit the type: `force_fit_type` leaves them alone. -/
def IntCst.Valid (c : IntCst h) : Prop := (forceFitType c.type c.words false).1 = c.words

/-- What the shifts and rotations of the constant of `x` promise: the rotations of `x`, each undone
by the other, and for a count within the precision the shifts of `x`. -/
structure ShiftsRight (t : IntType h) (x : BitVec t.precision) (count : Int) : Prop where
  lrotate : ((t.represent x).lrotateDouble count t.precision).bv.setWidth t.precision =
    Rotate.rotl x count
  rrotate : ((t.represent x).rrotateDouble count t.precision).bv.setWidth t.precision =
    Rotate.rotl x (-count)
  lrotate_undone : ((forceFitType t ((t.represent x).lrotateDouble count t.precision)
    false).1.rrotateDouble count t.precision).bv.setWidth t.precision = x
  rrotate_undone : ((forceFitType t ((t.represent x).rrotateDouble count t.precision)
    false).1.lrotateDouble count t.precision).bv.setWidth t.precision = x
  lshift : 0 ≤ count → count < t.precision → ∀ arith : Bool,
    ((t.represent x).lshiftDouble count t.precision arith).bv.setWidth t.precision =
      x <<< count.toNat
  rshift : 0 ≤ count → count < t.precision →
    ((t.represent x).rshiftDouble count.toNat t.precision (!t.unsigned)).bv.setWidth t.precision =
      if t.unsigned then x >>> count.toNat else x.sshiftRight count.toNat

/-- A shortcut gives what `div_and_round_double` would. -/
def ShortcutAgrees (code : DivTreeCode) (arg1 arg2 : IntCst h) : Prop :=
  ∀ words, divShortcut code arg1 arg2 = some words →
    words = (divAndRound code arg1.type.unsigned arg1.words arg2.words).part code

end Purpose

end Z80Gcc
