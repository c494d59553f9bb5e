import Mathlib
import Z80Gcc.Spec.Initializer

/-! Constants in memory (varasm.c): `const_hash`, `record_constant`, `compare_constant` and `output_constant_def`.
The host is little-endian, with 32-bit words and pointers and signed `char`s, and a `REAL_VALUE_TYPE` is a double.
Left out are constructors of sets, and the section and the alignment of a constant. -/

namespace Z80Gcc.ConstantPool

open BitField
open Initializer (Byte FieldDecl leBytes assembleZeros assembleInteger immedDoubleConst)

abbrev HostWord := BitVec 32

abbrev Pointer := BitVec 32

def wordBytes (x : HostWord) : List Byte := leBytes x 4

section Trees

structure Name where
  chars : List Byte
  noZero : 0 ∉ chars
  deriving DecidableEq

/-- The address of an object: a `SYMBOL_REF`, or a `LABEL_REF` with the number of the label. -/
inductive Base where
  | symbolRef (name : Name)
  | labelRef (number : HostWord)
  deriving DecidableEq

/-- The operand of an `ADDR_EXPR`, with low words: of `DECL_FIELD_BITPOS`, or of an index, the `TYPE_SIZE` of the
element and the lower bound of the array. -/
inductive Target where
  | object (base : Base)
  | componentRef (target : Target) (bitpos : HostWord)
  | arrayRef (target : Target) (index size minIndex : HostWord)
  deriving DecidableEq

structure IntegerCst where
  precision : Nat
  low : HostWord
  high : HostWord
  deriving DecidableEq

/-- `TREE_PURPOSE`. -/
inductive Purpose where
  | fieldDecl (decl : Pointer)
  | index (i : IntegerCst)
  | range (lo hi : IntegerCst)
  deriving DecidableEq

/-- The type of a `CONSTRUCTOR`; sizes are in bytes. -/
inductive Aggregate where
  | record (type : Pointer)
  | union (size : Nat)
  | array (size : Nat) (minIndex : Int) (eltSize : Nat)
  deriving DecidableEq

/-- What `output_constant` tells types apart by. -/
inductive Kind where
  | integer | real | complex | array | record
  deriving DecidableEq

structure ValueType where
  kind : Kind
  size : Nat
  unsigned : Bool
  deriving DecidableEq

inductive SumCode where
  | plus | minus
  deriving DecidableEq

inductive ConvertCode where
  | nop | convert | nonLvalue
  deriving DecidableEq

mutual

/-- A constant tree; `missing` is a null pointer. A string has the size of its array type, and a conversion says
whether its type, and the mode of its type, are those of the operand. -/
inductive Tree where
  | missing
  | integerCst (c : IntegerCst)
  | realCst (precision : Nat) (value : BitVec 64)
  | complexCst (re im : Tree)
  | stringCst (mode : Fin 128) (typeSize : Nat) (chars : List Byte)
  | addrExpr (target : Target)
  | sum (code : SumCode) (type : ValueType) (op0 op1 : Tree)
  | conversion (code : ConvertCode) (type : ValueType) (sameType sameMode : Bool) (op : Tree)
  | constructor (type : Aggregate) (elts : Elts)

/-- `CONSTRUCTOR_ELTS`. -/
inductive Elts where
  | nil
  | cons (purpose : Option Purpose) (value : Tree) (rest : Elts)

end

/-- `list_length`. -/
def Elts.length : Elts → Nat
  | nil => 0
  | cons _ _ rest => rest.length + 1

def Elts.havePurpose : Elts → Bool
  | nil => false
  | cons purpose _ rest => purpose.isSome || rest.havePurpose

/-- The base that `decode_addr_const` finds. -/
def Target.base : Target → Base
  | object base => base
  | componentRef target _ => target.base
  | arrayRef target _ _ _ => target.base

/-- The offset that `decode_addr_const` finds, an `int`. -/
def Target.offset : Target → HostWord
  | object _ => 0
  | componentRef target bitpos => bitpos.sdiv 8 + target.offset
  | arrayRef target index size _ => (size * index).sdiv 8 + target.offset

/-- Where the target is, in bits from its base. -/
def Target.place : Target → Int
  | object _ => 0
  | componentRef target bitpos => target.place + bitpos.toInt
  | arrayRef target index size minIndex => target.place + (index.toInt - minIndex.toInt) * size.toInt

/-- What `expand_expr` makes a value of. -/
inductive Expr where
  | integer (c : IntegerCst)
  | address (base : Base) (place : Int)
  | sum (code : SumCode) (type : ValueType) (op0 op1 : Expr)
  | conversion (code : ConvertCode) (type : ValueType) (op : Expr)
  | other

end Trees

/-- What is read beside the tree: `flag_writable_strings`, the string that `XSTR` makes of the start of a
`CODE_LABEL`, the nodes of types and fields, and what the assembler makes of the value of an expression, and of a
floating constant, in a size. -/
structure Env where
  writableStrings : Bool
  labelStr : Name
  recordType : Pointer → List FieldDecl × Nat
  fieldDecl : Pointer → FieldDecl × List FieldDecl
  expression : Expr → Nat → Option (List Byte)
  real : BitVec 64 → Nat → Option (List Byte)

section Descriptors

variable (env : Env)

/-- `XSTR (value.base, 0)`. -/
def Base.str : Base → Name
  | symbolRef name => name
  | labelRef _ => env.labelStr

def IntegerCst.bytes (c : IntegerCst) : List Byte := wordBytes c.low ++ wordBytes c.high

def SumCode.number : SumCode → Byte
  | plus => 56
  | minus => 57

def ConvertCode.number : ConvertCode → Byte
  | nop => 106
  | convert => 105
  | nonLvalue => 107

def IntegerCst.record (c : IntegerCst) : List Byte := 25 :: BitVec.ofNat 8 c.precision :: c.bytes

/-- `type`: only record types are insisted on. -/
def Aggregate.pointer : Aggregate → Pointer
  | record type => type
  | _ => 0

/-- What is written for a constructor before its elements. -/
def header (type : Aggregate) (elts : Elts) : List Byte :=
  wordBytes (BitVec.ofNat 32 elts.length) ++ wordBytes type.pointer ++
    wordBytes (if elts.havePurpose then 1 else 0) ++
    match type with
    | .array size _ _ => wordBytes (BitVec.ofNat 32 size)
    | _ => []

def recordPurpose (havePurpose : Bool) : Option Purpose → List Byte
  | some (.fieldDecl decl) => wordBytes decl
  | some (.index i) => i.record
  | some (.range lo hi) => 104 :: (lo.record ++ hi.record)
  | none => if havePurpose then wordBytes 0 else []

mutual

def recordConstant1 : Tree → List Byte
  | .missing => wordBytes 0
  | .integerCst c => c.record
  | .realCst precision value => 26 :: BitVec.ofNat 8 precision :: leBytes value 8
  | .complexCst re im => 27 :: (recordConstant1 re ++ recordConstant1 im)
  | .stringCst mode _ chars =>
    if env.writableStrings then [28]
    else 28 :: BitVec.ofNat 8 mode :: (wordBytes (BitVec.ofNat 32 chars.length) ++ chars)
  | .addrExpr target => 111 :: (wordBytes target.offset ++ ((target.base.str env).chars ++ [0]))
  | .sum code _ op0 op1 => code.number :: (recordConstant1 op0 ++ recordConstant1 op1)
  | .conversion code _ _ _ op => code.number :: recordConstant1 op
  | .constructor type elts => 43 :: (header type elts ++ recordElts elts.havePurpose elts)

def recordElts (havePurpose : Bool) : Elts → List Byte
  | .nil => []
  | .cons purpose value rest =>
    recordConstant1 value ++ recordPurpose havePurpose purpose ++ recordElts havePurpose rest

end

def readByte (ok : Byte → Bool) : List Byte → Option (List Byte)
  | [] => none
  | b :: p => if ok b then some p else none

/-- The bytes at `strp`. -/
def compareBytes : List Byte → List Byte → Option (List Byte)
  | [], p => some p
  | b :: strp, p => do compareBytes strp (← readByte (· = b) p)

def IntegerCst.compare (c : IntegerCst) (p : List Byte) : Option (List Byte) := do
  let p ← readByte (· = 25) p
  let p ← readByte (·.toInt = c.precision) p
  compareBytes c.bytes p

def comparePurpose (havePurpose : Bool) (purpose : Option Purpose) (p : List Byte) : Option (List Byte) :=
  match purpose with
  | some (.fieldDecl decl) => compareBytes (wordBytes decl) p
  | some (.index i) => i.compare p
  | some (.range lo hi) => do
    let p ← readByte (· = 104) p
    let p ← lo.compare p
    hi.compare p
  | none => if havePurpose then compareBytes (wordBytes 0) p else some p

mutual

/-- `compare_constant_1`: the rest of the descriptor. -/
def compareConstant1 : Tree → List Byte → Option (List Byte)
  | .missing, p => compareBytes (wordBytes 0) p
  | .integerCst c, p => c.compare p
  | .realCst precision value, p => do
    let p ← readByte (· = 26) p
    let p ← readByte (·.toInt = precision) p
    compareBytes (leBytes value 8) p
  | .complexCst re im, p => do
    let p ← readByte (· = 27) p
    let p ← compareConstant1 re p
    compareConstant1 im p
  | .stringCst mode _ chars, p => do
    let p ← readByte (· = 28) p
    if env.writableStrings then none
    else do
      let p ← readByte (·.toInt = (mode.val : Int)) p
      let p ← compareBytes (wordBytes (BitVec.ofNat 32 chars.length)) p
      compareBytes chars p
  | .addrExpr target, p => do
    let p ← readByte (· = 111) p
    let p ← compareBytes (wordBytes target.offset) p
    compareBytes ((target.base.str env).chars ++ [0]) p
  | .sum code _ op0 op1, p => do
    let p ← readByte (· = code.number) p
    let p ← compareConstant1 op0 p
    compareConstant1 op1 p
  | .conversion code _ _ _ op, p => do
    let p ← readByte (· = code.number) p
    compareConstant1 op p
  | .constructor type elts, p => do
    let p ← readByte (· = 43) p
    let p ← compareBytes (header type elts) p
    compareElts elts.havePurpose elts p

def compareElts (havePurpose : Bool) : Elts → List Byte → Option (List Byte)
  | .nil, p => some p
  | .cons purpose value rest, p => do
    let p ← compareConstant1 value p
    let p ← comparePurpose havePurpose purpose p
    compareElts havePurpose rest p

end

/-- `compare_constant`, with the memory from the contents of the descriptor on. -/
def compareConstant (exp : Tree) (contents : List Byte) : Bool := (compareConstant1 env exp contents).isSome

end Descriptors

section Hashing

def hashBytes (bytes : List Byte) (hi : HostWord) : HostWord :=
  bytes.foldl (fun hi b => hi * 613 + b.signExtend 32) hi

/-- `hi &= (1 << HASHBITS) - 1; hi %= MAX_HASH_TABLE`. -/
def inTable (hi : HostWord) : HostWord := (hi &&& (1 <<< 30 - 1)).srem 1009

def Aggregate.hash : Aggregate → HostWord
  | record type => inTable type
  | union size => inTable (5 + BitVec.ofNat 32 size)
  | array size _ _ => inTable (5 + BitVec.ofNat 32 size)

def Target.hash (target : Target) : HostWord :=
  match target.base with
  | .symbolRef name => hashBytes name.chars target.offset
  | .labelRef number => target.offset + number * 13

mutual

def constHash : Tree → HostWord
  | .missing => 0
  | .integerCst c => inTable (hashBytes c.bytes 8)
  | .realCst _ value => inTable (hashBytes (leBytes value 8) 8)
  | .stringCst _ _ chars => inTable (hashBytes chars (BitVec.ofNat 32 chars.length))
  | .complexCst re im => constHash re * 5 + constHash im
  | .constructor type elts => hashElts elts type.hash
  | .addrExpr target => inTable target.hash
  | .sum _ _ op0 op1 => constHash op0 * 9 + constHash op1
  | .conversion _ _ _ _ op => constHash op * 7 + 2

/-- The loop over the elements; null values are passed over. -/
def hashElts : Elts → HostWord → HostWord
  | .nil, hi => hi
  | .cons _ .missing rest, hi => hashElts rest hi
  | .cons _ value rest, hi => hashElts rest ((hi * 603 + constHash value).srem 1009)

end

end Hashing

section Output

variable (env : Env)

def Tree.kind : Tree → Kind
  | missing => .integer
  | integerCst _ => .integer
  | realCst _ _ => .real
  | complexCst _ _ => .complex
  | stringCst _ _ _ => .array
  | addrExpr _ => .integer
  | sum _ type _ _ => type.kind
  | conversion _ type _ _ _ => type.kind
  | constructor (.array _ _ _) _ => .array
  | constructor _ _ => .record

def Tree.typeSize : Tree → Nat
  | missing => 0
  | integerCst c => ((Mode.all.find? fun m => c.precision ≤ m.bits).map Mode.size).getD 0
  | realCst precision _ => precision / 8
  | complexCst re _ => 2 * re.typeSize
  | stringCst _ size _ => size
  | addrExpr _ => 2
  | sum _ type _ _ => type.size
  | conversion _ type _ _ _ => type.size
  | constructor (.record type) _ => (env.recordType type).2
  | constructor (.union size) _ => size
  | constructor (.array size _ _) _ => size

def Tree.expr : Tree → Expr
  | integerCst c => .integer c
  | addrExpr target => .address target.base target.place
  | sum code type op0 op1 => .sum code type op0.expr op1.expr
  | conversion code type _ _ op => .conversion code type op.expr
  | _ => .other

def Tree.stripNops : Tree → Tree
  | conversion code type sameType sameMode op =>
    if sameMode then op.stripNops else .conversion code type sameType sameMode op
  | x => x

/-- The conversions to integers and pointers are all stripped. -/
def Tree.stripAll : Tree → Tree
  | conversion _ _ _ _ op => op.stripAll
  | x => x

/-- What `output_constructor` asks of a value beside its output. -/
def Tree.member : Tree → Initializer.Constant host32
  | missing => .missing
  | integerCst c => .integer c.low c.high
  | _ => .other []

def Aggregate.layout : Aggregate → Initializer.Aggregate
  | record type => .record (env.recordType type).1
  | union _ => .union
  | array _ minIndex eltSize => .array minIndex eltSize

def Purpose.place : Purpose → Initializer.Purpose
  | fieldDecl decl => .field (env.fieldDecl decl).1 (env.fieldDecl decl).2
  | index i => .index i.low.toInt
  | range lo hi => .range lo.low.toInt hi.low.toInt

/-- `assemble_integer` of what `expand_expr` makes. -/
def outputInteger (x : Tree) (size : Nat) : Option (List Byte) :=
  match x with
  | .integerCst c => do
    let m ← Mode.all.find? fun m => c.precision ≤ m.bits
    assembleInteger (← immedDoubleConst (h := host32) c.low c.high m) size
  | x => env.expression x.expr size

def inBytes (output : Nat → Option (List Byte)) (size : Nat) : Option (List Byte) :=
  if size = 0 then some [] else output size

/-- A node that is not a conversion has to be of the kind of its type. -/
def outputLeaf (kind own : Kind) (x : Tree) (size : Nat) (output : Option (List Byte)) : Option (List Byte) :=
  if kind = .integer then outputInteger env x size else if kind = own then output else none

mutual

/-- `output_constant` of a constant whose type is of a kind, in a size that is not zero. With `nops` the `NOP_EXPR`s
that keep the mode are stripped before. -/
def outputAs (kind : Kind) (nops : Bool) : Tree → Nat → Option (List Byte)
  | .conversion code type sameType sameMode op, size =>
    if nops && sameMode then outputAs kind true op size
    else if code = .nonLvalue ∨ code = .nop ∧ (sameType ∨ type.kind = .array ∨ type.kind = .record) then
      outputAs kind false op size
    else if kind = .integer then outputInteger env op.stripAll size
    else none
  | .missing, size => some (assembleZeros size)
  | .integerCst c, size => outputLeaf env kind .integer (.integerCst c) size none
  | .addrExpr target, size => outputLeaf env kind .integer (.addrExpr target) size none
  | .sum code type op0 op1, size => outputLeaf env kind .integer (.sum code type op0 op1) size none
  | .realCst precision value, size => outputLeaf env kind .real (.realCst precision value) size (env.real value size)
  | .complexCst re im, size =>
    outputLeaf env kind .complex (.complexCst re im) size do
      return (← inBytes (outputAs re.kind false re) (size / 2)) ++ (← inBytes (outputAs im.kind false im) (size / 2)) ++
        assembleZeros (size - size / 2 * 2)
  | .stringCst mode typeSize chars, size =>
    outputLeaf env kind .array (.stringCst mode typeSize chars) size <|
      some (if chars.length < size then chars ++ assembleZeros (size - chars.length) else chars.take size)
  | .constructor _ .nil, size => some (assembleZeros size)
  | .constructor type elts, size =>
    outputLeaf env kind (Tree.constructor type elts).kind (.constructor type elts) size
      ((outputElts (type.layout env) elts (type.layout env).fields .start).map (Initializer.State.finish · size))

/-- The loop of `output_constructor`. -/
def outputElts (type : Initializer.Aggregate) :
    Elts → List FieldDecl → Initializer.State → Option Initializer.State
  | .nil, _, s => some s
  | .cons purpose value rest, field, s => do
    let (field, s) ← Initializer.outputElement type (purpose.map (Purpose.place env)) (value.stripNops.typeSize env)
      value.stripNops.member (inBytes (outputAs value.stripNops.kind true value)) field s
    outputElts type rest field s

end

def outputConstant (x : Tree) : Nat → Option (List Byte) := inBytes (outputAs env x.kind false x)

/-- `output_constant_def_contents`, for every meaning of the symbols. -/
def contents (x : Tree) : Option (List Byte) :=
  outputConstant env x <| match x with
    | .stringCst _ _ chars => chars.length
    | x => x.typeSize env

end Output

section Pool

variable (env : Env)

/-- A `constant_descriptor`, with the hash code it is under, and all the memory from its contents on. -/
structure Descriptor where
  hash : HostWord
  label : Nat
  contents : List Byte

/-- `const_hash_table` and `const_labelno`. -/
structure Pool where
  descriptors : List Descriptor
  constLabelno : Nat

def Pool.empty : Pool := ⟨[], 0⟩

/-- The place of `const_hash_table`. -/
def bucket (x : Tree) : HostWord := (constHash x).srem 1009

/-- `output_constant_def`: the label. `behind` is what follows a new descriptor in memory. -/
def outputConstantDef (behind : List Byte) (pool : Pool) (x : Tree) : Nat × Pool :=
  match pool.descriptors.find? fun desc => desc.hash = bucket x && compareConstant env x desc.contents with
  | some desc => (desc.label, pool)
  | none =>
    let desc := ⟨bucket x, pool.constLabelno, recordConstant1 env x ++ behind⟩
    (pool.constLabelno, ⟨desc :: pool.descriptors, pool.constLabelno + 1⟩)

/-- The labels of constants that are asked for one after the other. -/
def labels : Pool → List (Tree × List Byte) → List (Tree × Nat)
  | _, [] => []
  | pool, (x, behind) :: rest =>
    let r := outputConstantDef env behind pool x
    (x, r.1) :: labels r.2 rest

end Pool

section Meaning

variable (env : Env)

mutual

def Tree.Same : Tree → Tree → Prop
  | .missing, .missing => True
  | .integerCst c, .integerCst d => c = d
  | .realCst p v, .realCst q w => p = q ∧ v = w
  | .complexCst a b, .complexCst c d => a.Same c ∧ b.Same d
  | .stringCst m s cs, .stringCst n t ds => m = n ∧ s = t ∧ cs = ds
  | .addrExpr t, .addrExpr u => t.base = u.base ∧ t.offset = u.offset ∧ t.place = u.place
  | .sum c t a b, .sum d u a' b' => c = d ∧ t = u ∧ a.Same a' ∧ b.Same b'
  | .conversion c t s m a, .conversion d u s' m' b => c = d ∧ t = u ∧ s = s' ∧ m = m' ∧ a.Same b
  | .constructor t es, .constructor u fs => t = u ∧ es.Same fs
  | _, _ => False

def Elts.Same : Elts → Elts → Prop
  | .nil, .nil => True
  | .cons p v es, .cons q w fs => p = q ∧ v.Same w ∧ es.Same fs
  | _, _ => False

end

/-- Both record types, both union types or both array types, the same in what is written of them. -/
def Aggregate.Alike : Aggregate → Aggregate → Prop
  | .record t, .record u => t = u
  | .union _, .union _ => True
  | .array s _ _, .array t _ _ => s = t
  | _, _ => False

mutual

/-- The same constant, the types that are not written apart. -/
def Tree.Alike : Tree → Tree → Prop
  | .missing, .missing => True
  | .integerCst c, .integerCst d => c = d
  | .realCst p v, .realCst q w => p = q ∧ v = w
  | .complexCst a b, .complexCst c d => a.Alike c ∧ b.Alike d
  | .stringCst m _ cs, .stringCst n _ ds => m = n ∧ cs = ds
  | .addrExpr t, .addrExpr u => t.base.str env = u.base.str env ∧ t.offset = u.offset
  | .sum c _ a b, .sum d _ a' b' => c = d ∧ a.Alike a' ∧ b.Alike b'
  | .conversion c _ _ _ a, .conversion d _ _ _ b => c = d ∧ a.Alike b
  | .constructor t es, .constructor u fs => t.Alike u ∧ es.Alike fs
  | _, _ => False

def Elts.Alike : Elts → Elts → Prop
  | .nil, .nil => True
  | .cons p v es, .cons q w fs => p = q ∧ v.Alike w ∧ es.Alike fs
  | _, _ => False

end

def Purpose.Apart : Option Purpose → Option Purpose → Prop
  | some (.fieldDecl p), some (.fieldDecl q) => p ≠ q
  | some (.index c), some (.index d) => c ≠ d
  | some (.range a b), some (.range c d) => a ≠ c ∨ b ≠ d
  | some (.index _), some (.range _ _) => True
  | some (.range _ _), some (.index _) => True
  | some (.fieldDecl p), none => p ≠ 0
  | none, some (.fieldDecl p) => p ≠ 0
  | none, some _ => True
  | some _, none => True
  | _, _ => False

/-- Constructors that differ in what is written before their elements. -/
def HeadersApart (t : Aggregate) (es : Elts) (u : Aggregate) (fs : Elts) : Prop :=
  BitVec.ofNat 32 es.length ≠ BitVec.ofNat 32 fs.length ∨ t.pointer ≠ u.pointer ∨ es.havePurpose ≠ fs.havePurpose ∨
    match t, u with
    | .array s _ _, .array s' _ _ => BitVec.ofNat 32 s ≠ BitVec.ofNat 32 s'
    | _, _ => False

mutual

/-- The constants differ in something that is written, and up to there in nothing but the types that are not. -/
def Tree.Apart : Tree → Tree → Prop
  | .missing, .missing => False
  | .integerCst c, .integerCst d => c ≠ d
  | .realCst p v, .realCst q w => p ≠ q ∨ v ≠ w
  | .complexCst a b, .complexCst c d => a.Apart c ∨ a.Alike env c ∧ b.Apart d
  | .stringCst m _ cs, .stringCst n _ ds =>
    m ≠ n ∨ BitVec.ofNat 32 cs.length ≠ BitVec.ofNat 32 ds.length ∨ cs.length = ds.length ∧ cs ≠ ds
  | .addrExpr t, .addrExpr u => t.base.str env ≠ u.base.str env ∨ t.offset ≠ u.offset
  | .sum c _ a b, .sum d _ a' b' => c ≠ d ∨ a.Apart a' ∨ a.Alike env a' ∧ b.Apart b'
  | .conversion c _ _ _ a, .conversion d _ _ _ b => c ≠ d ∨ a.Apart b
  | .constructor t es, .constructor u fs => HeadersApart t es u fs ∨ t.Alike u ∧ es.Apart fs
  | _, _ => True

def Elts.Apart : Elts → Elts → Prop
  | .cons p v es, .cons q w fs =>
    v.Apart w ∨ v.Alike env w ∧ (Purpose.Apart p q ∨ p = q ∧ es.Apart fs)
  | _, _ => False

end

/-- If no type that is left out stands between two constants: they are the same, or what is written tells them apart. -/
def Told (x y : Tree) : Prop := x.Same y ∨ x.Apart env y

def Purpose.Narrow : Purpose → Prop
  | .fieldDecl _ => True
  | .index i => i.precision < 128
  | .range lo hi => lo.precision < 128 ∧ hi.precision < 128

mutual

/-- Every precision is that of a `char` of the host. -/
def Tree.Narrow : Tree → Prop
  | .integerCst c => c.precision < 128
  | .realCst precision _ => precision < 128
  | .complexCst re im => re.Narrow ∧ im.Narrow
  | .sum _ _ op0 op1 => op0.Narrow ∧ op1.Narrow
  | .conversion _ _ _ _ op => op.Narrow
  | .constructor _ elts => elts.Narrow
  | _ => True

def Elts.Narrow : Elts → Prop
  | .nil => True
  | .cons purpose value rest => (∀ p ∈ purpose, p.Narrow) ∧ value.Narrow ∧ rest.Narrow

end

mutual

def Tree.HasString : Tree → Prop
  | .stringCst _ _ _ => True
  | .complexCst re im => re.HasString ∨ im.HasString
  | .sum _ _ op0 op1 => op0.HasString ∨ op1.HasString
  | .conversion _ _ _ _ op => op.HasString
  | .constructor _ elts => elts.HasString
  | _ => False

def Elts.HasString : Elts → Prop
  | .nil => False
  | .cons _ value rest => value.HasString ∨ rest.HasString

end

/-- Pooled constants are interchangeable, whatever follows the descriptors in memory. -/
structure PoolRight (xs : List Tree) : Prop where
  matched : ∀ x ∈ xs, ∀ y ∈ xs, ∀ behind, compareConstant env x (recordConstant1 env y ++ behind) = true →
    contents env x = contents env y ∧ constHash x = constHash y
  itself : ∀ x ∈ xs, ¬ (env.writableStrings = true ∧ x.HasString) → ∀ behind,
    compareConstant env x (recordConstant1 env x ++ behind) = true
  labelled : ∀ requests : List (Tree × List Byte), (∀ r ∈ requests, r.1 ∈ xs) →
    ∀ a ∈ labels env .empty requests, ∀ b ∈ labels env .empty requests, a.2 = b.2 → contents env a.1 = contents env b.1

end Meaning

end Z80Gcc.ConstantPool
