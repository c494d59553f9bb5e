import Z80Gcc.Lib.AvlLinks
import Z80Gcc.Spec.CaseNodes

/-! The case nodes of a switch statement with their links (stmt.c): `pushcase_range`, `add_case_node` and
`case_tree2list`. A result `none` is a null pointer that is followed, or a loop that does not end. -/

namespace Z80Gcc

open Z80Gcc.LinkedTree

variable {L : Type} {h : Host}

/-- The part of `case_stmt` that grows with the cases. The links of the nodes stand beside their other
fields, and the root is `case_list`. -/
structure CaseStmt (L : Type) where
  node : Nat → CaseNode L
  allocated : Nat
  links : Links Nat
  numRanges : Nat

/-- What is returned, and `*duplicate` where it is set. -/
structure PushResult (L : Type) where
  code : Nat
  duplicate : Option L
  deriving DecidableEq

/-- An `INTEGER_CST`. -/
structure CaseValue (h : Host) where
  type : IntegerType h
  value : Int
  constantOverflow : Bool

/-- What `pushcase_range` reads of the statement and its surroundings. An index type that is absent is
`error_mark_node`. -/
structure CaseContext (h : Host) where
  inCase : Bool
  inInnerContour : Bool
  indexType : Option (IntegerType h)
  nominalType : IntegerType h

namespace CaseStmt

/-- No cases yet; the memory for the nodes is not initialised. -/
def start (memory : Nat → CaseNode L) : CaseStmt L where
  node := memory
  allocated := 0
  links := ⟨fun _ _ => none, fun _ => none, fun _ => 0, none⟩
  numRanges := 0

/-- Elements distinctly greater than `high`, or distinctly less than `low`, are passed. -/
def sideOf (t : IntegerType h) (low high : Int) (st : CaseStmt L) (p : Nat) : Option Side :=
  if t.treeIntCstLt high (st.node p).low then some .left
  else if t.treeIntCstLt (st.node p).high low then some .right
  else none

/-- The balances that the LR-rotation and the RL-rotation give to `p` and `r`, from that of `t`. -/
def rotatedBalance : Side → Int → Int × Int
  | .left, b =>
    let b2 := if b < 0 then 1 else 0
    (b2, -b2 - b)
  | .right, b =>
    let b2 := if b < 0 then 1 else 0
    (-b2 - b, b2)

def addCaseNode (t : IntegerType h) (low high : Int) (label : L) (st : CaseStmt L) :
    Option (PushResult L × CaseStmt L) := do
  let r := st.allocated
  match ← Links.search (st.sideOf t low high) st.links (r + 1) none .left st.links.root with
  | .taken p => return (⟨2, some (st.node p).codeLabel⟩, st)
  | .free p side =>
    let links ← (st.links.attach p side r).rebalance rotatedBalance (r + 1) r p
    return (⟨0, none⟩,
      { node := Function.update st.node r ⟨low, high, label⟩
        allocated := r + 1
        links
        numRanges := if low = high then st.numRanges else st.numRanges + 1 })

def addCaseNodes (t : IntegerType h) :
    List (CaseNode L) → CaseStmt L → Option (List (PushResult L) × CaseStmt L)
  | [], st => some ([], st)
  | c :: cs, st => do
    let (result, st) ← addCaseNode t c.low c.high c.codeLabel st
    let (results, st) ← addCaseNodes t cs st
    return (result :: results, st)

def treeIntCstLt (a b : CaseValue h) : Bool := a.type.treeIntCstLt a.value b.value

/-- `convert_and_check`: an overflow of the conversion is forgotten. -/
def convertAndCheck (t : IntegerType h) (c : CaseValue h) : CaseValue h :=
  { c with type := t, value := t.wrap c.value }

/-- `int_fits_type_p`. -/
def intFitsType (c : CaseValue h) (t : IntegerType h) : Bool :=
  if t.unsignedp then
    !(t.maxValue.any fun m => IntegerType.intCstLtUnsigned h m c.value) &&
      !IntegerType.intCstLtUnsigned h c.value t.minValue &&
      !(c.value.bmod (2 ^ (2 * h.bits)) < 0 && !c.type.unsignedp)
  else
    !(t.maxValue.any fun m => IntegerType.intCstLt h m c.value) &&
      !IntegerType.intCstLt h c.value t.minValue &&
      !(c.value.bmod (2 ^ (2 * h.bits)) < 0 && c.type.unsignedp)

def pushcaseRange (ctx : CaseContext h) (value1 value2 : Option (CaseValue h))
    (converter : IntegerType h → CaseValue h → CaseValue h) (label : L) (st : CaseStmt L) :
    Option (PushResult L × CaseStmt L) :=
  if !ctx.inCase then some (⟨1, none⟩, st)
  else if ctx.inInnerContour then some (⟨5, none⟩, st)
  else
    match ctx.indexType with
    | none => some (⟨0, none⟩, st)
    | some indexType =>
      let value1 := value1.getD ⟨indexType, indexType.minValue, false⟩
      let value2 := value2.or (indexType.maxValue.map fun m => ⟨indexType, m, false⟩)
      -- fail if the range is empty, before any conversion
      if value2.any fun v => treeIntCstLt v value1 then some (⟨4, none⟩, st)
      else
        let value1 := converter ctx.nominalType value1
        match value2.or (ctx.nominalType.maxValue.map fun m => ⟨ctx.nominalType, m, false⟩) with
        | none => none
        | some value2 =>
          let value2 := converter ctx.nominalType value2
          if value1.constantOverflow || !intFitsType value1 indexType then some (⟨3, none⟩, st)
          else if value2.constantOverflow || !intFitsType value2 indexType then some (⟨3, none⟩, st)
          else addCaseNode ctx.nominalType value1.value value2.value label st

/-- `case_tree2list`; the result is the first node of the list. -/
def caseTree2list : Nat → Nat → Option Nat → Links Nat → Option (Nat × Links Nat)
  | 0, _, _, _ => none
  | fuel + 1, node, right, ls =>
    ((ls.child node .right).elim (some (right, ls)) fun r =>
      (caseTree2list fuel r right ls).map fun x => (some x.1, x.2)).bind fun (right, ls) =>
        let ls := ls.setChild node .right right
        match ls.child node .left with
        | some left => caseTree2list fuel left (some node) (ls.setChild node .left none)
        | none => some (node, ls)

/-- What `expand_end_case` does with `case_list` at first. -/
def endCaseList (st : CaseStmt L) : Option (CaseStmt L) :=
  match st.links.root with
  | none => some st
  | some root =>
    if (st.links.child root .left).isSome then
      (caseTree2list st.allocated root none st.links).map fun (first, ls) =>
        { st with links := { ls with root := some first } }
    else some st

end CaseStmt

end Z80Gcc
