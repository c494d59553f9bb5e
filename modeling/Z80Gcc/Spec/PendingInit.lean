import Mathlib
import Z80Gcc.Lib.LinkedTree
import Z80Gcc.Spec.BitField

/-! Designated initialisers (c-typeck.c): elements that come too early wait in a tree. A result `none` is a
call of `abort`, a null pointer, or a loop that does not end. -/

namespace Z80Gcc.PendingInit

open Z80Gcc.LinkedTree

abbrev Byte := BitVec 8

/-- A `FIELD_DECL`: its bit position and its size in bits. -/
structure Field where
  bitpos : Nat
  size : Nat
  nameless : Bool

/-- `constructor_type`. Fields and indices are numbers, a null field is the number behind the last one. -/
inductive ConstructorType where
  | array (eltSize : Nat)
  | record (fields : List Field)

namespace ConstructorType

/-- What `tree_int_cst_lt` compares. -/
def position : ConstructorType → Nat → Nat
  | array _, index => index
  | record fields, field => (fields.getD field ⟨0, 0, false⟩).bitpos

/-- The first field or index; nameless bit fields are skipped. -/
def first : ConstructorType → Nat
  | array _ => 0
  | record fields => (fields.takeWhile (·.nameless)).length

/-- The field or index behind another one; here nameless bit fields are skipped, too. -/
def next : ConstructorType → Nat → Nat
  | array _, index => index + 1
  | record fields, field => field + 1 + ((fields.drop (field + 1)).takeWhile (·.nameless)).length

/-- `constructor_unfilled_fields` is null. -/
def complete : ConstructorType → Nat → Bool
  | array _, _ => false
  | record fields, field => decide (fields.length ≤ field)

end ConstructorType

/-- `struct init_node`. A value stands for the bytes that `output_constant` writes for it. -/
structure InitNode where
  purpose : Nat
  value : List Byte
  child : Side → Option Nat
  parent : Option Nat
  balance : Int

structure State where
  node : Nat → InitNode
  allocated : Nat
  pendingElts : Option Nat
  unfilled : Nat
  bitIndex : Nat
  /-- `constructor_elements`, the last one first. -/
  elements : List (Nat × List Byte)
  /-- What is assembled when the constructor is output incrementally. -/
  out : List Byte
  /-- How often a duplicate initializer was reported. -/
  duplicates : Nat

def State.start (type : ConstructorType) : State where
  node _ := ⟨0, [], fun _ => none, none, 0⟩
  allocated := 0
  pendingElts := none
  unfilled := type.first
  bitIndex := 0
  elements := []
  out := []
  duplicates := 0

namespace State

variable (st : State)

def setNode (a : Nat) (n : InitNode) : State := { st with node := Function.update st.node a n }

def setChild (a : Nat) (side : Side) (c : Option Nat) : State :=
  st.setNode a { st.node a with child := Function.update (st.node a).child side c }

def setParent (a : Nat) (p : Option Nat) : State := st.setNode a { st.node a with parent := p }

def setBalance (a : Nat) (b : Int) : State := st.setNode a { st.node a with balance := b }

/-- `if (c) c->parent = p`. -/
def adopt (c : Option Nat) (p : Nat) : State :=
  match c with
  | none => st
  | some c => st.setParent c (some p)

/-- In its parent `s`, or as the root, a node takes the place of `p`. -/
def replaceChild (s : Option Nat) (p r : Nat) : State :=
  match s with
  | none => { st with pendingElts := some r }
  | some s => st.setChild s (if (st.node s).child .left = some p then .left else .right) (some r)

end State

section Pending

/-- The rotations L and R: `r` is the child of `p` on the side that has grown. -/
def rotate (side : Side) (p r : Nat) (st : State) : State :=
  let c := (st.node r).child side.other
  let s := (st.node p).parent
  let st := (st.setChild p side c).adopt c p
  let st := st.setChild r side.other (some p)
  let st := (st.setBalance p 0).setBalance r 0
  let st := (st.setParent p (some r)).setParent r s
  st.replaceChild s p r

/-- The rotations LR and RL: `t` is the child of `r` on its other side. -/
def rotateTwice (side : Side) (p r t : Nat) (st : State) : State :=
  let c := (st.node t).child side
  let d := (st.node t).child side.other
  let s := (st.node p).parent
  let balance := side.sign * (st.node t).balance
  let st := (st.setChild r side.other c).adopt c r
  let st := st.setChild t side (some r)
  let st := (st.setChild p side d).adopt d p
  let st := st.setChild t side.other (some p)
  let st := st.setBalance p (if 0 < balance then -side.sign else 0)
  let st := st.setBalance r (if balance < 0 then side.sign else 0)
  let st := st.setBalance t 0
  let st := ((st.setParent p (some t)).setParent r (some t)).setParent t s
  st.replaceChild s p t

/-- The loop that goes up from a subtree `r` that has grown. -/
def rebalance : Nat → Nat → Option Nat → State → Option State
  | _, _, none, st => some st
  | 0, _, some _, _ => none
  | fuel + 1, r, some p, st =>
    let side : Side := if (st.node p).child .left = some r then .left else .right
    if (st.node p).balance = 0 then
      rebalance fuel p (st.node p).parent (st.setBalance p side.sign)
    else if 0 < side.sign * (st.node p).balance then
      if 0 < side.sign * (st.node r).balance then some (rotate side p r st)
      else
        match (st.node r).child side.other with
        | none => none
        | some t => some (rotateTwice side p r t st)
    else some (st.setBalance p 0)

variable (type : ConstructorType)

/-- The place for a new node: its parent, and the side there. -/
def findPlace (node : Nat → InitNode) (purpose : Nat) :
    Nat → Option Nat → Side → Option Nat → Option (Option Nat × Side)
  | _, p, side, none => some (p, side)
  | 0, _, _, some _ => none
  | fuel + 1, _, _, some a =>
    if type.position purpose < type.position (node a).purpose then
      findPlace node purpose fuel (some a) .left ((node a).child .left)
    else if type.position (node a).purpose < type.position purpose then
      findPlace node purpose fuel (some a) .right ((node a).child .right)
    else none

def addPendingInit (purpose : Nat) (value : List Byte) (st : State) : Option State := do
  let (p, side) ← findPlace type st.node purpose (st.allocated + 1) none .left st.pendingElts
  let r := st.allocated
  let st := { st.setNode r ⟨purpose, value, fun _ => none, p, 0⟩ with allocated := r + 1 }
  let st := match p with
    | none => { st with pendingElts := some r }
    | some p => st.setChild p side (some r)
  rebalance st.allocated r p st

def pendingInitMember (node : Nat → InitNode) (field : Nat) : Nat → Option Nat → Option Bool
  | _, none => some false
  | 0, some _ => none
  | fuel + 1, some p =>
    if field = (node p).purpose then some true
    else if type.position field < type.position (node p).purpose then
      pendingInitMember node field fuel ((node p).child .left)
    else pendingInitMember node field fuel ((node p).child .right)

end Pending

section Output

variable (type : ConstructorType) (incremental : Bool)

/-- `output_init_element` for the element that comes next. The gap before a field is not negative, since
the fields are output in layout order. -/
def outputElement (value : List Byte) (st : State) : State :=
  if incremental then
    match type with
    | .array _ => { st with out := st.out ++ value }
    | .record fields =>
      let field := fields.getD st.unfilled ⟨0, 0, false⟩
      let gap := if st.bitIndex ≠ field.bitpos then field.bitpos / 8 - st.bitIndex / 8 else 0
      { st with out := st.out ++ List.replicate gap 0 ++ value, bitIndex := field.bitpos + field.size }
  else { st with elements := (st.unfilled, value) :: st.elements }

def advance (st : State) : State := { st with unfilled := st.unfilled + 1 }

/-- From the biggest node of a subtree to the next bigger node. -/
def climb (node : Nat → InitNode) : Nat → Nat → Option (Option Nat)
  | 0, _ => none
  | fuel + 1, elt =>
    match (node elt).parent with
    | none => some none
    | some p => if (node p).child .right = some elt then climb node fuel p else some (some p)

/-- The loop over the pending tree. It outputs what comes next, and gives the element of which `next` is
the purpose. -/
def seek : Nat → Option Nat → State → Option (State × Option Nat)
  | _, none, st => some (st, none)
  | 0, some _, _ => none
  | fuel + 1, some elt, st =>
    if type.complete st.unfilled then some (st, none)
    else if (st.node elt).purpose = st.unfilled then
      seek fuel (some elt) (advance (outputElement type incremental (st.node elt).value st))
    else if type.position st.unfilled < type.position (st.node elt).purpose then
      match (st.node elt).child .left with
      | some l => seek fuel (some l) st
      | none => some (st, some elt)
    else
      match (st.node elt).child .right with
      | some r => seek fuel (some r) st
      | none => do
        match ← climb st.node st.allocated elt with
        | none => return (st, none)
        | some p =>
          if type.position st.unfilled < type.position (st.node p).purpose then return (st, some p)
          else seek fuel (some p) st

/-- Space up to the position of `next`. -/
def fillGap (next : Nat) (st : State) : State :=
  if incremental then
    match type with
    | .record fields =>
      let filled := match st.unfilled with
        | 0 => 0
        | tail + 1 =>
          let tail := fields.getD tail ⟨0, 0, false⟩
          (tail.bitpos + tail.size + 7) / 8
      let bitpos := (fields.getD next ⟨0, 0, false⟩).bitpos
      { st with
        bitIndex := bitpos, unfilled := next
        out := st.out ++ List.replicate ((bitpos + 7) / 8 - filled) 0 }
    | .array eltSize =>
      { st with
        unfilled := next
        out := st.out ++ List.replicate (next * eltSize - st.unfilled * eltSize) 0 }
  else { st with unfilled := next }

/-- From `retry` on; a round visits every node a few times at most. -/
def outputPending (all : Bool) : Nat → Option Nat → State → Option State
  | 0, _, _ => none
  | fuel + 1, elt, st => do
    let (st, next) ← seek type incremental (4 * st.allocated) elt st
    match next with
    | some elt =>
      if all then
        outputPending all fuel (some elt) (fillGap type incremental (st.node elt).purpose st)
      else return st
    | none => return st

def outputPendingInitElements (all : Bool) (st : State) : Option State :=
  outputPending type incremental all (st.allocated + 1) st.pendingElts st

/-- `output_init_element` with `pending`. -/
def outputInitElement (value : List Byte) (field : Nat) (st : State) : Option State := do
  let duplicate ← pendingInitMember type st.node field st.allocated st.pendingElts
  let st := if duplicate then { st with duplicates := st.duplicates + 1 } else st
  if field ≠ st.unfilled then
    if duplicate then return st else addPendingInit type field value st
  else
    let st := if duplicate then st else outputElement type incremental value st
    outputPendingInitElements type incremental false (advance st)

def outputElements : List (Nat × List Byte) → State → Option State
  | [], st => some st
  | (field, value) :: elts, st => do
    outputElements elts (← outputInitElement type incremental value field st)

/-- What the parser changes: the state, and `constructor_fields` or `constructor_index`. -/
structure Level where
  state : State
  current : Nat

def Level.start (type : ConstructorType) : Level := ⟨State.start type, type.first⟩

/-- `set_init_index` and `set_init_label`. A position that has been passed is reported, and the current one
stays. -/
def setInit (field : Nat) (l : Level) : Level :=
  if field < l.state.unfilled then
    { l with state := { l.state with duplicates := l.state.duplicates + 1 } }
  else { l with current := field }

/-- `process_init_element` for a value of the right type between braces. Elements behind the last field are
reported as excess elements. -/
def processInitElement (value : List Byte) (l : Level) : Option Level :=
  if type.complete l.current then some l
  else (outputInitElement type incremental value l.current l.state).map fun st => ⟨st, type.next l.current⟩

/-- A designator and its value. -/
def designate (value : List Byte) (field : Nat) (l : Level) : Option Level :=
  processInitElement type incremental value (setInit field l)

def designateElements : List (Nat × List Byte) → Level → Option Level
  | [], l => some l
  | (field, value) :: elts, l => do
    designateElements elts (← designate type incremental value field l)

end Output

end Z80Gcc.PendingInit
