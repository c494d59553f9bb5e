import Z80Gcc.Proofs.FitType

/-! `fold` of a conversion between integer types: two conversions in a row, and a conversion of a constant. -/

namespace Z80Gcc.Conversion

open WrapInt DoubleInt

/-- A machine mode of class `MODE_INT`, with its `GET_MODE_BITSIZE`. -/
structure Mode where
  number : Nat
  bitsize : Nat
  deriving DecidableEq

/-- An integer type. The types are nodes, which are told apart by `uid`. -/
structure IntegerType where
  uid : Nat
  mode : Mode
  precision : Nat
  unsignedp : Bool
  pos : 1 ≤ precision
  fits : precision ≤ mode.bitsize
  deriving DecidableEq

/-- The number that a conversion to the type makes of `v`. -/
def IntegerType.extend (t : IntegerType) (v : Int) : Int := wrap t.unsignedp t.precision v

variable {h : Host}

/-- An `INTEGER_CST`; its words are extended as its type asks for. -/
structure IntegerCst (h : Host) where
  type : IntegerType
  words : DoubleInt h
  overflow : Bool
  constantOverflow : Bool
  valid : type.extend (words.value type.unsignedp) = words.value type.unsignedp

inductive ConversionCode where
  | nopExpr | convertExpr

/-- An expression of integer type. What is neither a constant nor a conversion has any value. -/
inductive Tree (h : Host) where
  | integerCst (c : IntegerCst h)
  | other (type : IntegerType) (v : Int)
  | nonLvalue (x : Tree h)
  | conversion (code : ConversionCode) (type : IntegerType) (x : Tree h)

namespace Tree

/-- `TREE_TYPE`. -/
def type : Tree h → IntegerType
  | integerCst c => c.type
  | other type _ => type
  | nonLvalue x => x.type
  | conversion _ type _ => type

def value : Tree h → Int
  | integerCst c => c.words.value c.type.unsignedp
  | other type v => type.extend v
  | nonLvalue x => x.value
  | conversion _ type x => type.extend x.value

def stripTypeNops : Tree h → Tree h
  | conversion code type x => if type = x.type then x.stripTypeNops else conversion code type x
  | nonLvalue x => x.stripTypeNops
  | x => x

end Tree

section Rules

variable (inside inter final : IntegerType)

/-- "If we are converting something to its own type via an object of identical or wider precision, neither conversion
is needed". -/
def neitherNeeded : Bool := inside = final && decide (inter.precision ≥ final.precision)

/-- "Avoid this if the outer has a precision not equal to the size of its mode", with the mode of the one between. -/
def narrowInMode : Bool := final.precision ≠ final.mode.bitsize && final.mode = inter.mode

/-- "We don't need the middle conversion if it is wider than the final type and doesn't change the signedness". -/
def widensFirst : Bool :=
  decide (inter.precision ≥ inside.precision) && inter.unsignedp == inside.unsignedp && !narrowInMode inter final

def zeroExtendsFirst : Bool :=
  decide (inside.precision < inter.precision) && decide (inter.precision < final.precision) &&
    (inside.unsignedp && !inter.unsignedp)

/-- "Two conversions in a row are not needed unless". -/
def notBothNeeded : Bool :=
  (decide (inter.precision > inside.precision) || decide (inter.precision > final.precision)) &&
    !(inter.unsignedp != inside.unsignedp && decide (inter.precision < final.precision)) &&
    ((inter.unsignedp && decide (inter.precision > inside.precision)) ==
      (final.unsignedp && decide (final.precision > inter.precision))) &&
    !narrowInMode inter final

end Rules

section Fold

/-- The type as `force_fit_type` takes it. -/
def IntegerType.toIntType (type : IntegerType) (hfit : type.precision ≤ 2 * h.bits) : IntType h :=
  ⟨type.precision, type.unsignedp, type.pos, hfit⟩

/-- `force_fit_type` leaves words that are extended. -/
theorem extend_forceFit (type : IntegerType) (hfit : type.precision ≤ 2 * h.bits) (x : DoubleInt h) (overflow : Bool) :
    type.extend ((forceFitType (type.toIntType hfit) x overflow).1.value type.unsignedp) =
      (forceFitType (type.toIntType hfit) x overflow).1.value type.unsignedp := by
  have hvalue := value_forceFit (type.toIntType hfit) (ofInt_value type.unsignedp x).symm overflow
  change _ = type.extend _ at hvalue
  rw [IntegerType.toIntType] at hvalue ⊢
  rw [hvalue]
  exact wrap_wrap

/-- `fold_convert` of a constant; a constant wider than two words is not built. -/
def foldConvert (t : Tree h) (type : IntegerType) (arg1 : IntegerCst h) : Tree h :=
  if hfit : type.precision ≤ 2 * h.bits then
    let r := forceFitType (type.toIntType hfit) arg1.words
      (arg1.words.high.msb && (!type.unsignedp && arg1.type.unsignedp))
    let overflow := r.2 || arg1.overflow
    .integerCst
      { type
        words := r.1
        overflow
        constantOverflow := overflow || arg1.constantOverflow
        valid := extend_forceFit type hfit arg1.words _ }
  else t

/-- The end of the case, for an operand that is a constant but for conversions to its own type. -/
def foldConstant (code : ConversionCode) (final : IntegerType) (arg0 : Tree h) : Tree h :=
  match arg0.stripTypeNops with
  | .integerCst c => foldConvert (.conversion code final arg0) final c
  | _ => .conversion code final arg0

/-- `fold` of the conversion of an operand to a type. What `convert` builds for the operand of the first conversion is
folded again; what `convert_to_integer` makes of a truncation beyond that is left out. -/
def fold (code : ConversionCode) (final : IntegerType) (arg0 : Tree h) : Tree h :=
  if arg0.type = final then arg0
  else
    match arg0 with
    | .conversion _ inter x =>
        if neitherNeeded x.type inter final then x
        else if widensFirst x.type inter final then fold .nopExpr final x
        else if zeroExtendsFirst x.type inter final then fold .nopExpr final x
        else if notBothNeeded x.type inter final then fold .nopExpr final x
        else foldConstant code final arg0
    | _ => foldConstant code final arg0

end Fold

end Z80Gcc.Conversion
