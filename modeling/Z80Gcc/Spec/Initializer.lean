import Z80Gcc.Spec.BitField

/-! The data of a static object (varasm.c): `output_constant` and `output_constructor`, with
`BYTES_BIG_ENDIAN` 0. The output is the list of the bytes that the assembler makes of the directives;
`none` is a call of `abort`, or an initialiser that is rejected with an error. -/

namespace Z80Gcc.Initializer

open Z80Gcc.BitField

variable {h : Host}

abbrev Byte := BitVec 8

/-- A `FIELD_DECL`: its position and size in bits. -/
structure FieldDecl where
  bitpos : Nat
  size : Nat
  bitField : Bool
  deriving DecidableEq

/-- The type of a `CONSTRUCTOR`; the size of the elements of an array is in bytes. -/
inductive Aggregate where
  | record (fields : List FieldDecl)
  | union
  | array (minIndex : Int) (eltSize : Nat)

/-- `TYPE_FIELDS`, of a record. -/
def Aggregate.fields : Aggregate → List FieldDecl
  | record fields => fields
  | _ => []

/-- `TREE_PURPOSE`: a field and those chained behind it, an index, or a `RANGE_EXPR`. -/
inductive Purpose where
  | field (decl : FieldDecl) (chain : List FieldDecl)
  | index (i : Int)
  | range (lo hi : Int)

mutual

/-- A constant tree without `NOP_EXPR`s. `missing` is a null pointer; `other` is an address or a
floating constant, with the bytes that stand for it. -/
inductive Constant (h : Host) where
  | missing
  | integer (low high : BitVec h.bits)
  | other (image : List Byte)
  | complex (re im : Constant h)
  | string (chars : List Byte)
  | constructor (type : Aggregate) (elts : Elements h)

/-- `CONSTRUCTOR_ELTS`; `typeSize` is the size of the type of the value, in bytes. -/
inductive Elements (h : Host) where
  | nil
  | cons (purpose : Option Purpose) (typeSize : Nat) (val : Constant h) (rest : Elements h)

end

/-- The low bytes of a word, the least significant first. -/
def leBytes {w : Nat} (x : BitVec w) (size : Nat) : List Byte :=
  (List.range size).map fun i => x.extractLsb' (8 * i) 8

def assembleZeros (size : Nat) : List Byte := List.replicate size 0

/-- The bits that do not belong in a mode are cleared, unless they and the sign bit are all one. -/
def clearBits (i0 i1 : BitVec h.bits) (width : Nat) : BitVec h.bits × BitVec h.bits :=
  let ones : BitVec h.bits := BitVec.allOnes h.bits
  if width < h.bits ∧ i0 &&& ones <<< (width - 1) ≠ ones <<< (width - 1) then
    (i0 &&& (1#h.bits <<< width - 1), 0)
  else if width = h.bits ∧ ¬ (i1 = ones ∧ i0.msb) then (i0, 0)
  else (i0, i1)

/-- `immed_double_const` in an integer mode. -/
def immedDoubleConst (i0 i1 : BitVec h.bits) (m : Mode) : Option (Value h) :=
  let width := m.bits
  if 2 * h.bits < width then none
  else
    let (i0, i1) := clearBits i0 i1 width
    let i0 :=
      if width = bitsPerWord ∧ i0.getLsbD (width - 1) then i0 ||| BitVec.allOnes h.bits <<< width
      else i0
    let i1 := if width ≤ h.bits then Value.signWord i0 else i1
    some (if i1 = Value.signWord i0 then .constInt i0 else .constDouble i0 i1)

/-- What the assembler makes of a number in a `.byte`, `.short` or `.long` directive. -/
def directive (x : Value h) (size : Nat) : Option (List Byte) :=
  match x with
  | .constInt v => some (leBytes (v.signExtend (8 * size)) size)
  | .constDouble low high => some (leBytes ((high ++ low).signExtend (8 * size)) size)
  | .rtx _ => none

def assembleWords (word : Nat → Option (List Byte)) : Nat → Option (List Byte)
  | 0 => some []
  | n + 1 => do return (← assembleWords word n) ++ (← word n)

def assembleInteger (x : Value h) (size : Nat) : Option (List Byte) :=
  if size = 1 ∨ size = 2 ∨ size = 4 then directive x size
  else if unitsPerWord < size then
    assembleWords (fun i => do directive (← x.operandSubword i (modeForSize (8 * size))) unitsPerWord)
      (size / unitsPerWord)
  else none

/-- Where `output_constructor` is. -/
structure State where
  out : List Byte
  totalBytes : Nat
  byteBufferInUse : Bool
  byte : Byte

namespace State

def start : State := ⟨[], 0, false, 0⟩

def assemble (s : State) (bytes : List Byte) : State := { s with out := s.out ++ bytes }

def flush (s : State) : State :=
  if s.byteBufferInUse then
    ⟨s.out ++ [s.byte], s.totalBytes + 1, false, s.byte⟩
  else s

def advance (s : State) (bytes : Nat) : State :=
  if bytes ≠ s.totalBytes then
    { s.assemble (assembleZeros (bytes - s.totalBytes)) with totalBytes := bytes }
  else s

def outputBytes (s : State) (bytes : List Byte) (fieldsize : Nat) : State :=
  { s.assemble bytes with totalBytes := s.totalBytes + fieldsize }

def nextBytes (s : State) : Nat → State
  | 0 => s
  | n + 1 => nextBytes ⟨s.out ++ [s.byte], s.totalBytes + 1, s.byteBufferInUse, 0⟩ n

end State

/-- The pieces of a bit-field that fall within separate bytes. -/
def outputPieces (low high : BitVec h.bits) (bitpos endOffset : Nat) :
    Nat → Nat → State → Option State
  | 0, nextOffset, s => if nextOffset < endOffset then none else some s
  | fuel + 1, nextOffset, s =>
    if nextOffset < endOffset then do
      let nextByte := nextOffset / 8
      let nextBit := nextOffset % 8
      let s := s.nextBytes (nextByte - s.totalBytes)
      let thisTime := min (endOffset - nextOffset) (8 - nextBit)
      let shift := nextOffset - bitpos
      -- not across the words of the INTEGER_CST
      let (thisTime, shift) :=
        if shift < h.bits ∧ h.bits < shift + thisTime then (thisTime - (h.bits - shift), h.bits)
        else (thisTime, shift)
      let (value, shift) ←
        if shift < h.bits then some (low, shift)
        else if shift < 2 * h.bits then some (high, shift - h.bits)
        else none
      let piece := value.sshiftRight shift &&& (1#h.bits <<< thisTime - 1)
      outputPieces low high bitpos endOffset fuel (nextOffset + thisTime)
        ⟨s.out, s.totalBytes, true, s.byte ||| (piece <<< nextBit).setWidth 8⟩
    else some s

def outputBitField (low high : BitVec h.bits) (field : FieldDecl) (s : State) : Option State :=
  let nextOffset := field.bitpos
  let s := if nextOffset / 8 ≠ s.totalBytes then s.flush.advance (nextOffset / 8) else s
  let s := if s.byteBufferInUse then s else { s with byte := 0 }
  outputPieces low high field.bitpos (nextOffset + field.size) field.size nextOffset s

def outputRange (output : Option (List Byte)) (fieldsize : Nat) : Nat → State → Option State
  | 0, s => some s
  | n + 1, s => do outputRange output fieldsize n (s.outputBytes (← output) fieldsize)

/-- The value of a bit-field; a missing one is zero. -/
def Constant.intCst : Constant h → Option (BitVec h.bits × BitVec h.bits)
  | missing => some (0, 0)
  | integer low high => some (low, high)
  | _ => none

/-- The fields from the one that an element is for: `TREE_PURPOSE` where there is one. -/
def fieldsFrom (purpose : Option Purpose) (field : List FieldDecl) : List FieldDecl :=
  match purpose with
  | some (.field decl chain) => decl :: chain
  | _ => field

/-- One element of a constructor, with `output` the output of its value in a given size; the fields
that follow are returned too. -/
def outputElement (type : Aggregate) (purpose : Option Purpose) (typeSize : Nat) (val : Constant h)
    (output : Nat → Option (List Byte)) (field : List FieldDecl) (s : State) :
    Option (List FieldDecl × State) :=
  match type with
  | .array minIndex eltSize =>
    match purpose with
    | some (.range lo hi) => do return (field, ← outputRange (output eltSize) eltSize (hi - lo + 1).toNat s)
    | some (.index i) =>
      match val with
      | .missing => none
      | _ => do
        let s := s.flush.advance (typeSize * (i - minIndex).toNat)
        return (field, s.outputBytes (← output eltSize) eltSize)
    | _ => do return (field, s.flush.outputBytes (← output eltSize) eltSize)
  | _ =>
    match fieldsFrom purpose field with
    | [] => none
    | decl :: chain =>
      if decl.bitField then do
        let (low, high) ← val.intCst
        return (chain, ← outputBitField low high decl s)
      else do
        let s := s.flush.advance (decl.bitpos / 8)
        let fieldsize := (decl.size + 7) / 8
        return (chain, s.outputBytes (← output fieldsize) fieldsize)

/-- The remaining byte is output, and the object is padded. -/
def State.finish (s : State) (size : Nat) : List Byte :=
  let s := s.flush
  s.out ++ assembleZeros (size - s.totalBytes)

mutual

/-- `output_constant`; zeros where there is no value. -/
def outputConstant : Constant h → Nat → Option (List Byte)
  | .missing, size => some (assembleZeros size)
  | .integer low high, size =>
    if size = 0 then some []
    else do assembleInteger (← immedDoubleConst low high (← modeForSize (8 * size))) size
  | .other image, size => if size = 0 then some [] else some image
  | .complex re im, size =>
    if size = 0 then some []
    else do
      return (← outputConstant re (size / 2)) ++ (← outputConstant im (size / 2)) ++
        assembleZeros (size - size / 2 * 2)
  | .string chars, size =>
    some (if chars.length < size then chars ++ assembleZeros (size - chars.length)
      else chars.take size)
  | .constructor type elts, size =>
    if size = 0 then some []
    else match elts with
      | .nil => some (assembleZeros size)
      | elts => (outputElements elts type type.fields .start).map (State.finish · size)

/-- The loop of `output_constructor`. -/
def outputElements : Elements h → Aggregate → List FieldDecl → State → Option State
  | .nil, _, _, s => some s
  | .cons purpose typeSize val rest, type, field, s => do
    let (field, s) ← outputElement type purpose typeSize val (outputConstant val) field s
    outputElements rest type field s

end

def outputConstructor (type : Aggregate) (elts : Elements h) (size : Nat) : Option (List Byte) :=
  (outputElements elts type type.fields .start).map (State.finish · size)

end Z80Gcc.Initializer
