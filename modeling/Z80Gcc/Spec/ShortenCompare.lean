import Mathlib
import Z80Gcc.Spec.RangeTest

/-! Comparisons of integers in a narrower type: `shorten_compare` of c-common.c, with `get_narrower` of tree.c. -/

namespace Z80Gcc.Shorten

open DoubleInt

variable {h : Host}

theorem intType_eq_iff {a b : IntType h} : a = b ↔ a.precision = b.precision ∧ a.unsigned = b.unsigned := by
  constructor
  · rintro rfl
    exact ⟨rfl, rfl⟩
  · rintro ⟨hprecision, hunsigned⟩
    obtain ⟨precision, unsigned, _, _⟩ := a
    obtain rfl : precision = b.precision := hprecision
    obtain rfl : unsigned = b.unsigned := hunsigned
    rfl

instance : DecidableEq (IntType h) := fun _ _ => decidable_of_iff' _ intType_eq_iff

deriving instance DecidableEq for IntCst

section Types

/-- The sizes that `signed_or_unsigned_type` knows: of `char`, `int` and `short`, and both `long` types. -/
def standardSizes : List Nat := [8, 16, 32]

def signedOrUnsignedType (unsignedp : Bool) (t : IntType h) : IntType h :=
  if t.unsigned = unsignedp then t
  else if t.precision ∈ standardSizes then { t with unsigned := unsignedp }
  else t

/-- `signed_type` and `unsigned_type`, which know the type of a doubleword too. -/
def typeWithSign (unsignedp : Bool) (t : IntType h) : IntType h :=
  if t.precision = 64 then { t with unsigned := unsignedp } else signedOrUnsignedType unsignedp t

/-- `common_type` of two integer types, as far as size and signedness go. -/
def commonType (t1 t2 : IntType h) : IntType h :=
  if t2.precision < t1.precision then t1
  else if t1.precision < t2.precision then t2
  else if t1.unsigned then t1
  else t2

end Types

/-- An integer expression that is not a constant: something read as a whole, a field that takes up the bits of `field`,
or a `NOP_EXPR`. -/
inductive Tree (h : Host) where
  | leaf (type : IntType h) (constant sideEffects : Bool)
  | component (type field : IntType h) (bitField sideEffects : Bool)
  | nop (type : IntType h) (op : Tree h)
  deriving DecidableEq

namespace Tree

def type : Tree h → IntType h
  | leaf type _ _ => type
  | component type _ _ _ => type
  | nop type _ => type

/-- `TREE_CONSTANT`. -/
def constant : Tree h → Bool
  | leaf _ constant _ => constant
  | component .. => false
  | nop _ op => op.constant

/-- `TREE_SIDE_EFFECTS`. -/
def sideEffects : Tree h → Bool
  | leaf _ _ sideEffects => sideEffects
  | component _ _ _ sideEffects => sideEffects
  | nop _ op => op.sideEffects

/-- The loop of `get_narrower`; it ends with `op`, `uns`, `first` and `win`. -/
def strip : Tree h → Bool → Bool → Tree h → Tree h × Bool × Bool × Tree h
  | nop type op, uns, first, win =>
    if type.precision < op.type.precision then (nop type op, uns, first, win)
    else if op.type.precision < type.precision then
      if first then strip op op.type.unsigned false op
      else if uns ≠ op.type.unsigned then (op, uns, first, win)
      else strip op uns false op
    else strip op (if first then op.type.unsigned else uns) false op
  | op, uns, first, win => (op, uns, first, win)

/-- `get_narrower`: the operand without conversions to wider types, and whether it is to be zero-extended. -/
def getNarrower (t : Tree h) : Tree h × Bool :=
  match strip t false true t with
  | (component type field bitField sideEffects, uns, first, win) =>
    if field.precision < type.precision ∧ !bitField ∧ (first ∨ uns = field.unsigned) then
      (component field field bitField sideEffects, if first then field.unsigned else uns)
    else (win, uns)
  | (_, uns, _, win) => (win, uns)

end Tree

/-- An operand; conversions of a constant are folded. -/
inductive Operand (h : Host) where
  | cst (c : IntCst h)
  | tree (t : Tree h)
  deriving DecidableEq

namespace Operand

def type : Operand h → IntType h
  | cst c => c.type
  | tree t => t.type

def constant : Operand h → Bool
  | cst _ => true
  | tree t => t.constant

def isCst : Operand h → Bool
  | cst _ => true
  | tree _ => false

def sideEffects : Operand h → Bool
  | cst _ => false
  | tree t => t.sideEffects

def getNarrower : Operand h → Operand h × Bool
  | cst c => (cst c, false)
  | tree t => (tree t.getNarrower.1, t.getNarrower.2)

def convert (type : IntType h) : Operand h → Operand h
  | cst c => if c.type = type then cst c else cst (foldConvert type c)
  | tree t => if t.type = type then tree t else tree (.nop type t)

def integerZerop : Operand h → Bool
  | cst c => !c.constantOverflow && c.words = ⟨0, 0⟩
  | tree _ => false

end Operand

inductive Warning where
  | alwaysFalse | alwaysTrue | unsignedGe | unsignedLt
  deriving DecidableEq, Repr

def Warning.text : Warning → String
  | alwaysFalse => "comparison is always false due to limited range of data type"
  | alwaysTrue => "comparison is always true due to limited range of data type"
  | unsignedGe => "comparison of unsigned expression >= 0 is always true"
  | unsignedLt => "comparison of unsigned expression < 0 is always false"

/-- What `shorten_compare` leaves behind: a constant, after an operand that has to be evaluated, or the operands and the
code. `swapped` tells that the operands have changed places. -/
inductive Outcome (h : Host) where
  | known (value : Bool) (evaluated : Option (Operand h))
  | compare (swapped : Bool) (code : CompareCode) (op0 op1 : Operand h)

section Constant

/-- `TYPE_MIN_VALUE` and `TYPE_MAX_VALUE`. -/
def bound (t : IntType h) (v : Int) : IntCst h := ⟨t, t.represent (BitVec.ofInt _ v), false, false⟩

/-- How the constant lies to the smallest and the largest value. -/
structure Flags where
  minGt : Bool
  maxGt : Bool
  minLt : Bool
  maxLt : Bool

def flagsOf (unsignedCompare : Bool) (k minval maxval : IntCst h) : Flags where
  minGt := less unsignedCompare k.words minval.words
  maxGt := less unsignedCompare k.words maxval.words
  minLt := less unsignedCompare minval.words k.words
  maxLt := less unsignedCompare maxval.words k.words

/-- `val`, when the comparison has a fixed result. -/
def Flags.val (f : Flags) : CompareCode → Option Bool
  | .neExpr => if f.maxLt || f.minGt then some true else none
  | .eqExpr => if f.maxLt || f.minGt then some false else none
  | .ltExpr => if !f.minLt then some false else if f.maxLt then some true else none
  | .gtExpr => if !f.maxGt then some false else if f.minGt then some true else none
  | .leExpr => if f.minGt then some false else if !f.maxGt then some true else none
  | .geExpr => if f.maxLt then some false else if !f.minLt then some true else none

def rangeWarnings (f : Flags) (unsignedp0 isCst : Bool) (val : Option Bool) : List Warning :=
  let said := match val with
    | some false => [Warning.alwaysFalse]
    | some true => [Warning.alwaysTrue]
    | none => []
  (if !f.maxGt && !unsignedp0 && !isCst then said else []) ++ if !f.minLt && unsignedp0 && !isCst then said else []

/-- The comparison of an operand with a constant in a wider type. -/
def compareConstant (swapped : Bool) (code : CompareCode) (primop0 : Operand h) (unsignedp0 : Bool) (k : IntCst h)
    (restype : IntType h) : Outcome h × List Warning :=
  let unsignedp := restype.unsigned
  let type := signedOrUnsignedType unsignedp0 primop0.type
  let restype := if unsignedp && !unsignedp0 then typeWithSign false restype else restype
  let k := if k.type = restype then k else foldConvert restype k
  let convertBound (c : IntCst h) := if type = restype then c else foldConvert restype c
  let f := flagsOf (unsignedp && unsignedp0) k (convertBound (bound type type.minValue))
    (convertBound (bound type type.maxValue))
  let val := f.val code
  let reversed := unsignedp && !unsignedp0
  let k := if reversed && val.isSome then
      match code with
      | .ltExpr | .geExpr => bound type type.minValue
      | .leExpr | .gtExpr => bound type type.maxValue
      | .eqExpr | .neExpr => k
    else k
  let val := if reversed && !(code = .eqExpr || code = .neExpr) then none else val
  let type := if reversed then typeWithSign true type else type
  (match val with
    | some b => .known b (if primop0.sideEffects then some primop0 else none)
    | none => .compare swapped code (primop0.convert type) ((Operand.cst k).convert type),
    rangeWarnings f unsignedp0 primop0.isCst val)

end Constant

section Compare

def swapCode : CompareCode → CompareCode
  | .ltExpr => .gtExpr
  | .gtExpr => .ltExpr
  | .leExpr => .geExpr
  | .geExpr => .leExpr
  | .eqExpr => .eqExpr
  | .neExpr => .neExpr

/-- `primop0` and `unsignedp0`: an operand that does not contain a conversion may still require one. -/
def primop (op : Operand h) (restype : IntType h) : Operand h × Bool :=
  let r := op.getNarrower
  (r.1, if op = r.1 ∧ op.type ≠ restype then op.type.unsigned else r.2)

/-- Is the signedness of the comparison of a constant with zero an issue? -/
def signMatters (op0 : Operand h) (type : IntType h) : Bool :=
  match op0 with
  | .cst c => (foldConvert (typeWithSign false type) c).overflow
  | .tree _ => true

def compareNominal (extraWarnings swapped : Bool) (code : CompareCode) (op0 op1 : Operand h) (restype : IntType h) :
    Outcome h × List Warning :=
  let nominal : Outcome h := .compare swapped code (op0.convert restype) (op1.convert restype)
  if op1.integerZerop && restype.unsigned then
    let effects := if op0.sideEffects then some op0 else none
    let warned := extraWarnings && signMatters op0 restype
    match code with
    | .geExpr => (.known true effects, if warned then [.unsignedGe] else [])
    | .ltExpr => (.known false effects, if warned then [.unsignedLt] else [])
    | _ => (nominal, [])
  else (nominal, [])

/-- The comparison once a constant is the second operand. -/
def compareOrdered (extraWarnings swapped : Bool) (code : CompareCode) (op0 op1 : Operand h) (restype : IntType h) :
    Outcome h × List Warning :=
  let (primop0, unsignedp0) := primop op0 restype
  let (primop1, unsignedp1) := primop op1 restype
  let narrow0 := primop0.type.precision < restype.precision
  let narrow1 := primop1.type.precision < restype.precision
  let both : Outcome h × List Warning :=
    if unsignedp0 = unsignedp1 ∧ narrow0 ∧ narrow1 then
      let type := signedOrUnsignedType (unsignedp0 || restype.unsigned) (commonType primop0.type primop1.type)
      (.compare swapped code
        ((primop0.convert (signedOrUnsignedType unsignedp0 primop0.type)).convert type)
        ((primop1.convert (signedOrUnsignedType unsignedp1 primop1.type)).convert type), [])
    else compareNominal extraWarnings swapped code op0 op1 restype
  match primop1 with
  | .cst k => if narrow0 then compareConstant swapped code primop0 unsignedp0 k restype else both
  | .tree _ => both

def swaps (op0 op1 : Operand h) (restype : IntType h) : Bool :=
  (primop op0 restype).1.constant && !(primop op1 restype).1.integerZerop

def shortenCompare (extraWarnings : Bool) (code : CompareCode) (op0 op1 : Operand h) (restype : IntType h) :
    Outcome h × List Warning :=
  if swaps op0 op1 restype then
    compareOrdered extraWarnings true (swapCode code) op1 op0 restype
  else compareOrdered extraWarnings false code op0 op1 restype

end Compare

section Purpose

def Standard (t : IntType h) : Prop := t.precision ∈ [8, 16, 32, 64]

/-- What holds of the types in an expression. -/
def Tree.Wf : Tree h → Prop
  | .leaf type _ _ => Standard type
  | .component type field bitField _ =>
    Standard type ∧ (bitField = false → Standard field) ∧ field.unsigned = type.unsigned ∧
      field.precision ≤ type.precision
  | .nop type op => Standard type ∧ op.Wf

def Operand.Wf : Operand h → Prop
  | .cst c => Standard c.type ∧ c.Valid
  | .tree t => t.Wf

/-- The values that are read at run time. -/
def Tree.Value : Tree h → Int → Prop
  | .leaf type _ _, x => type.Value x
  | .component _ field _ _, x => field.Value x
  | .nop _ op, x => op.Value x

def Operand.Value : Operand h → Int → Prop
  | .cst _, _ => True
  | .tree t, x => t.Value x

/-- The number that a type keeps. -/
def keep (t : IntType h) (v : Int) : Int := WrapInt.wrap t.unsigned t.precision v

/-- The value of an expression, when `x` is read. -/
def Tree.eval : Tree h → Int → Int
  | .leaf _ _ _, x => x
  | .component _ _ _ _, x => x
  | .nop type op, x => keep type (op.eval x)

def Operand.eval : Operand h → Int → Int
  | .cst c, _ => c.value
  | .tree t, x => t.eval x

/-- The result, when `x0` and `x1` are read. -/
def Outcome.value (x0 x1 : Int) : Outcome h → Bool
  | .known value _ => value
  | .compare swapped code op0 op1 =>
    if swapped then code.holds (op0.eval x1) (op1.eval x0) else code.holds (op0.eval x0) (op1.eval x1)

/-- A comparison has the value that the rules of C give it in the common type. -/
def ShortenRight (extraWarnings : Bool) (code : CompareCode) (op0 op1 : Operand h) (x0 x1 : Int) : Prop :=
  let restype := commonType op0.type op1.type
  (shortenCompare extraWarnings code op0 op1 restype).1.value x0 x1 =
    code.holds (keep restype (op0.eval x0)) (keep restype (op1.eval x1))

/-- The value of an operand, extended to the common type straight from what `get_narrower` leaves of it. -/
def narrowValue (op : Operand h) (restype : IntType h) (x : Int) : Int :=
  let r := primop op restype
  keep restype (WrapInt.wrap r.2 r.1.type.precision (r.1.eval x))

/-- An operand is extended one way to its own type, and the other way to the common type. -/
def Reextended (op : Operand h) (restype : IntType h) : Prop :=
  (primop op restype).1 ≠ op ∧ op.type.precision < restype.precision ∧
    (primop op restype).2 ≠ op.type.unsigned ∧
    ((primop op restype).2 = true → (primop op restype).1.type.precision = op.type.precision)

instance (op : Operand h) (restype : IntType h) : Decidable (Reextended op restype) :=
  inferInstanceAs (Decidable (_ ∧ _))

/-- Is the comparison made in a narrower type, or decided by its range? -/
def Shortens (op0 op1 : Operand h) (restype : IntType h) : Prop :=
  let r0 := primop op0 restype
  let r1 := primop op1 restype
  r0.1.type.precision < restype.precision ∧
    (r1.1.isCst = true ∨ r0.2 = r1.2 ∧ r1.1.type.precision < restype.precision)

def Shortened (op0 op1 : Operand h) : Prop :=
  let restype := commonType op0.type op1.type
  if swaps op0 op1 restype then Shortens op1 op0 restype else Shortens op0 op1 restype

/-- The value of such an operand is one that the two extensions make different: the sign bit of what `get_narrower`
leaves is set. -/
def Misread (op : Operand h) (restype : IntType h) (x : Int) : Prop :=
  Reextended op restype ∧
    if op.type.unsigned then 2 ^ ((primop op restype).1.type.precision - 1) ≤ op.eval x else op.eval x < 0

instance (op : Operand h) (restype : IntType h) (x : Int) : Decidable (Misread op restype x) :=
  inferInstanceAs (Decidable (_ ∧ _))

/-- By how much it is then taken to be larger than it is, in the common type. -/
def misreading (op : Operand h) (restype : IntType h) (x : Int) : Int :=
  if Misread op restype x then
    let size : Int :=
      if restype.unsigned then 2 ^ restype.precision - 2 ^ op.type.precision else 2 ^ op.type.precision
    if op.type.unsigned = restype.unsigned then size else -size
  else 0

/-- The result of a code does not change when the difference `d` of the operands becomes `d + e`. -/
def OrderKept (code : CompareCode) (d e : Int) : Prop :=
  match code with
  | .eqExpr | .neExpr => e = 0 ∨ d ≠ 0 ∧ d ≠ -e
  | .ltExpr | .geExpr => ¬(-e ≤ d ∧ d < 0) ∧ ¬(0 ≤ d ∧ d < -e)
  | .leExpr | .gtExpr => ¬(-e < d ∧ d ≤ 0) ∧ ¬(0 < d ∧ d ≤ -e)

end Purpose

end Z80Gcc.Shorten
