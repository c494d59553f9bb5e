import Mathlib.Data.Nat.Log
import Mathlib.Tactic.Ring

/-! The `.debug_info` section: the DIE tree, the sizes `calc_die_sizes` adds up before anything is
written, and the assembler directives `output_die` then writes. -/

namespace Z80Gcc.Dwarf

/-- `PTR_SIZE` and `DWARF_OFFSET_SIZE`. -/
structure Target where
  ptrSize : Nat
  offsetSize : Nat

/-- `POINTER_SIZE / BITS_PER_UNIT`, and the offset size no header overrides. -/
def z80Target : Target where
  ptrSize := 16 / 8
  offsetSize := 4

/-- `UNALIGNED_SHORT_ASM_OP`, `UNALIGNED_INT_ASM_OP`, `UNALIGNED_DOUBLE_INT_ASM_OP`. -/
inductive AsmOp where
  | short | int | doubleInt
  deriving DecidableEq, Repr

def AsmOp.size : AsmOp → Nat
  | short => 2
  | int => 4
  | doubleInt => 8

def Target.unalignedOffsetAsmOp (t : Target) : AsmOp :=
  if t.offsetSize = 8 then .doubleInt else .int

def Target.unalignedWordAsmOp (t : Target) : AsmOp :=
  if t.ptrSize = 8 then .doubleInt else .int

/-- What is written to the section. The two marks assemble to nothing: they say where a DIE begins
and where its last descendant ends. -/
inductive Item where
  | byte (values : List Nat)
  | number (op : AsmOp) (value : Int)
  | symbol (op : AsmOp) (name : String)
  | ascii (chars : List UInt8)
  | dieStart (die : Nat)
  | dieEnd (die : Nat)
  deriving DecidableEq, Repr

def Item.bytes : Item → Nat
  | byte vs => vs.length
  | number op _ => op.size
  | symbol op _ => op.size
  | ascii cs => cs.length
  | dieStart _ => 0
  | dieEnd _ => 0

def bytes (out : List Item) : Nat := (out.map Item.bytes).sum

/-- The offset of the first mark that satisfies `p`. -/
def offsetOf (p : Item → Bool) : List Item → Option Nat
  | [] => none
  | i :: out => if p i then some 0 else (offsetOf p out).map (i.bytes + ·)

def data1 (v : Nat) : Item := .byte [v]
def data2 (v : Int) : Item := .number .short v
def data4 (v : Int) : Item := .number .int v

/-- `ASM_OUTPUT_DWARF_DATA8`, with `WORDS_BIG_ENDIAN` 0. -/
def data8 (high low : Int) : List Item := [.number .int low, .number .int high]

/-- `ASM_OUTPUT_DWARF_DATA` and `ASM_OUTPUT_DWARF_OFFSET`. -/
def Target.data (t : Target) (v : Int) : Item := .number t.unalignedOffsetAsmOp v
def Target.offset (t : Target) (name : String) : Item := .symbol t.unalignedOffsetAsmOp name

/-- `ASM_OUTPUT_DWARF_ADDR` and `ASM_OUTPUT_DWARF_ADDR_CONST`. -/
def Target.addr (t : Target) (name : String) : Item := .symbol t.unalignedWordAsmOp name

def sizeOfUleb128 (value : Nat) : Nat :=
  if value / 128 = 0 then 1 else 1 + sizeOfUleb128 (value / 128)
termination_by value
decreasing_by omega

/-- `output_uleb128`: the values of its one `.byte` directive. -/
def outputUleb128 (value : Nat) : List Nat :=
  if value / 128 = 0 then [value % 128]
  else (value % 128 + 128) :: outputUleb128 (value / 128)
termination_by value
decreasing_by omega

/-- The loops over a signed value end at a 0 or -1 that the last byte's bit 6 agrees with. -/
def slebDone (value : Int) : Bool :=
  let byte := value % 128
  value / 128 = 0 && byte < 64 || value / 128 = -1 && byte ≥ 64

theorem slebDone_natAbs {value : Int} (h : ¬ slebDone value = true) :
    (value / 128).natAbs < value.natAbs := by
  simp only [slebDone, Bool.or_eq_true, Bool.and_eq_true, decide_eq_true_eq, not_or, not_and] at h
  omega

def sizeOfSleb128 (value : Int) : Nat :=
  if h : slebDone value then 1 else 1 + sizeOfSleb128 (value / 128)
termination_by value.natAbs
decreasing_by exact slebDone_natAbs h

def outputSleb128 (value : Int) : List Nat :=
  if h : slebDone value then [(value % 128).toNat]
  else ((value % 128).toNat + 128) :: outputSleb128 (value / 128)
termination_by value.natAbs
decreasing_by exact slebDone_natAbs h

inductive PlainOp where
  | deref | dup | drop | over' | swap | rot | xderef
  | abs | and | div | minus | mod | mul | neg | not | or | plus | shl | shr | shra | xor
  | eq | ge | gt | le | lt | ne
  | lit (n : Fin 32)
  | reg (n : Fin 32)
  | nop
  deriving DecidableEq, Repr

def PlainOp.opc : PlainOp → Nat
  | deref => 0x06 | dup => 0x12 | drop => 0x13 | over' => 0x14 | swap => 0x16 | rot => 0x17
  | xderef => 0x18 | abs => 0x19 | and => 0x1a | div => 0x1b | minus => 0x1c | mod => 0x1d
  | mul => 0x1e | neg => 0x1f | not => 0x20 | or => 0x21 | plus => 0x22 | shl => 0x24
  | shr => 0x25 | shra => 0x26 | xor => 0x27 | eq => 0x29 | ge => 0x2a | gt => 0x2b | le => 0x2c
  | lt => 0x2d | ne => 0x2e | lit n => 0x30 + n | reg n => 0x50 + n | nop => 0x96

/-- A location operation with the operands its opcode has. -/
inductive LocDescr where
  | addr (name : String)
  | const1 (signed : Bool) (v : Nat)
  | const2 (signed : Bool) (v : Int)
  | const4 (signed : Bool) (v : Int)
  | const8 (signed : Bool) (v : Int)
  | constu (v : BitVec 64)
  | consts (v : Int)
  | pick (v : Nat)
  | plusUconst (v : BitVec 64)
  | bra (v : Int)
  | skip (v : Int)
  | breg (r : Fin 32) (offset : Int)
  | regx (r : BitVec 64)
  | fbreg (offset : Int)
  | bregx (r : BitVec 64) (offset : Int)
  | piece (size : BitVec 64)
  | derefSize (size : Nat)
  | xderefSize (size : Nat)
  | plain (op : PlainOp)
  deriving DecidableEq, Repr

namespace LocDescr

/-- The codes of `enum dwarf_location_atom`. -/
def opc : LocDescr → Nat
  | addr _ => 0x03
  | const1 signed _ => if signed then 0x09 else 0x08
  | const2 signed _ => if signed then 0x0b else 0x0a
  | const4 signed _ => if signed then 0x0d else 0x0c
  | const8 signed _ => if signed then 0x0f else 0x0e
  | constu _ => 0x10
  | consts _ => 0x11
  | pick _ => 0x15
  | plusUconst _ => 0x23
  | bra _ => 0x28
  | skip _ => 0x2f
  | breg r _ => 0x70 + r
  | regx _ => 0x90
  | fbreg _ => 0x91
  | bregx _ _ => 0x92
  | piece _ => 0x93
  | derefSize _ => 0x94
  | xderefSize _ => 0x95
  | plain op => op.opc

/-- `size_of_loc_descr`. -/
def size (t : Target) : LocDescr → Nat
  | addr _ => 1 + t.ptrSize
  | const1 _ _ => 1 + 1
  | const2 _ _ => 1 + 2
  | const4 _ _ => 1 + 4
  | const8 _ _ => 1 + 8
  | constu v => 1 + sizeOfUleb128 v.toNat
  | consts v => 1 + sizeOfSleb128 v
  | pick _ => 1 + 1
  | plusUconst v => 1 + sizeOfUleb128 v.toNat
  | bra _ => 1 + 2
  | skip _ => 1 + 2
  | breg _ offset => 1 + sizeOfSleb128 offset
  | regx r => 1 + sizeOfUleb128 r.toNat
  | fbreg offset => 1 + sizeOfSleb128 offset
  | bregx r offset => 1 + sizeOfUleb128 r.toNat + sizeOfSleb128 offset
  | piece size => 1 + sizeOfUleb128 size.toNat
  | derefSize _ => 1 + 1
  | xderefSize _ => 1 + 1
  | plain _ => 1

/-- `output_loc_operands`; `none` is `abort ()`. -/
def outputOperands (t : Target) : LocDescr → Option (List Item)
  | addr name => some [t.addr name]
  | const1 _ v => some [data1 v]
  | const2 _ v => some [data2 v]
  | const4 _ v => some [data4 v]
  | const8 _ _ => none
  | constu v => some [.byte (outputUleb128 v.toNat)]
  | consts v => some [.byte (outputSleb128 v)]
  | pick v => some [data1 v]
  | plusUconst v => some [.byte (outputUleb128 v.toNat)]
  | bra v => some [data2 v]
  | skip v => some [data2 v]
  | breg _ offset => some [.byte (outputSleb128 offset)]
  | regx r => some [.byte (outputUleb128 r.toNat)]
  | fbreg offset => some [.byte (outputSleb128 offset)]
  | bregx r offset => some [.byte (outputUleb128 r.toNat), .byte (outputSleb128 offset)]
  | piece size => some [.byte (outputUleb128 size.toNat)]
  | derefSize size => some [data1 size]
  | xderefSize size => some [data1 size]
  | plain _ => some []

/-- One turn of the loop over an attribute's location operations. -/
def output (t : Target) (loc : LocDescr) : Option (List Item) :=
  (loc.outputOperands t).map (data1 loc.opc :: ·)

end LocDescr

def sizeOfLocs (t : Target) (locs : List LocDescr) : Nat := (locs.map (·.size t)).sum

def outputLocs (t : Target) : List LocDescr → Option (List Item)
  | [] => some []
  | loc :: locs => do
    let here ← loc.output t
    let rest ← outputLocs t locs
    return here ++ rest

/-- `constant_size`: `floor_log2` is -1 of 0, and the 1 is added after it. -/
def constantSize (value : Nat) : Nat :=
  let log := if value = 0 then 0 else Nat.log 2 value
  let log := log / 8
  2 ^ (if log = 0 then 0 else Nat.log 2 log + 1)

/-- An attribute's value, by its class. A string is given by its characters before the NUL; a
reference names the DIE it points to. `add_AT_unsigned` sets one word of the union, and leaves in the other
what was there. -/
inductive Value where
  | addr (name : String)
  | loc (locs : List LocDescr)
  | const (v : Int)
  | unsignedConst (v unset : BitVec 64)
  | longLong (high low : BitVec 64)
  | float (array : List Int)
  | flag (v : Nat)
  | dieRef (die : Option Nat)
  | fdeRef (index : Nat)
  | lblId (name : String)
  | lblOffset (name : String)
  | str (chars : List UInt8)
  deriving DecidableEq, Repr

structure Attr where
  name : Nat
  value : Value
  deriving DecidableEq, Repr

/-- `DW_AT_sibling`. -/
def atSibling : Nat := 0x01

/-- The fields of a DIE, with a name that stands for its address. -/
structure Die where
  id : Nat
  tag : Nat
  dieAbbrev : Nat
  offset : Nat
  attrs : List Attr
  deriving DecidableEq, Repr

/-- A list of siblings linked by `die_sib`, each with its children under `die_child`. -/
inductive Dies where
  | nil
  | cons (die : Die) (child sib : Dies)
  deriving DecidableEq, Repr

namespace Dies

def isNil : Dies → Bool
  | nil => true
  | cons .. => false

/-- Every DIE with its children, a parent before its children. -/
def nodes : Dies → List (Die × Dies)
  | nil => []
  | cons die child sib => (die, child) :: (nodes child ++ nodes sib)

def ids (dies : Dies) : List Nat := dies.nodes.map (·.1.id)

def find (dies : Dies) (id : Nat) : Option Die :=
  (dies.nodes.find? (·.1.id = id)).map (·.1)

end Dies

namespace Value

/-- The part of an attribute in `size_of_die`. -/
def size (t : Target) : Value → Nat
  | addr _ => t.ptrSize
  | loc locs => constantSize (sizeOfLocs t locs) + sizeOfLocs t locs
  | const _ => 4
  | unsignedConst v _ => constantSize v.toNat
  | longLong _ _ => 1 + 8
  | float array => 1 + array.length * 4
  | flag _ => 1
  | dieRef _ => t.offsetSize
  | fdeRef _ => t.offsetSize
  | lblId _ => t.ptrSize
  | lblOffset _ => t.offsetSize
  | str chars => chars.length + 1

end Value

/-- `size_of_die`. -/
def Die.size (t : Target) (die : Die) : Nat :=
  sizeOfUleb128 die.dieAbbrev + (die.attrs.map (·.value.size t)).sum

/-- `calc_die_sizes` on a list of siblings, with the counter `next_die_offset`. -/
def calcDieSizes (t : Target) : Dies → Nat → Dies × Nat
  | .nil, next => (.nil, next)
  | .cons die child sib, next =>
    let (child', next₁) := calcDieSizes t child (next + die.size t)
    -- the null byte that ends a list of siblings
    let next₂ := if child.isNil then next₁ else next₁ + 1
    let (sib', next₃) := calcDieSizes t sib next₂
    (.cons { die with offset := next } child' sib', next₃)

/-- `sibling_offset`, which goes down the last children. -/
def siblingOffset (t : Target) (die : Die) : Dies → Nat
  | .nil => die.offset + die.size t
  | .cons c child sib => if sib.isNil then siblingOffset t c child + 1 else siblingOffset t die sib

/-- The offset written for a reference to a DIE; `none` is `abort ()`. -/
def refOffset (t : Target) (root : Dies) (die : Die) (child : Dies) (name : Nat) :
    Option Nat → Option Nat
  | some id => (root.find id).map (·.offset)
  | none => if name = atSibling then some (siblingOffset t die child) else none

def blockLength (size : Nat) : Option Item :=
  match constantSize size with
  | 1 => some (data1 size)
  | 2 => some (data2 size)
  | _ => none

def unsignedConst (v unset : BitVec 64) : Option (List Item) :=
  match constantSize v.toNat with
  | 1 => some [data1 v.toNat]
  | 2 => some [data2 v.toNat]
  | 4 => some [data4 v.toNat]
  -- the words of the union's member `val_long_long` are written: the value is its `hi`
  | 8 => some (data8 v.toNat unset.toNat)
  | _ => none

/-- The body of the loop over the attributes in `output_die`, without `-dA`'s comments. -/
def Attr.output (t : Target) (root : Dies) (die : Die) (child : Dies) (a : Attr) :
    Option (List Item) :=
  match a.value with
  | .addr name => some [t.addr name]
  | .loc locs => do
    let length ← blockLength (sizeOfLocs t locs)
    let ops ← outputLocs t locs
    return length :: ops
  | .const v => some [data4 v]
  | .unsignedConst v unset => unsignedConst v unset
  | .longLong high low => some (data1 8 :: data8 high.toNat low.toNat)
  | .float array => some (data1 (array.length * 4) :: array.map data4)
  | .flag v => some [data1 v]
  | .dieRef target => (refOffset t root die child a.name target).map fun off => [t.data off]
  | .fdeRef index => some [t.offset s!"LSFDE{index * 2}"]
  | .lblId name => some [t.addr name]
  | .lblOffset name => some [t.offset name]
  | .str chars => some [.ascii (chars ++ [0])]

def outputAttrs (t : Target) (root : Dies) (die : Die) (child : Dies) :
    List Attr → Option (List Item)
  | [] => some []
  | a :: as => do
    let here ← a.output t root die child
    let rest ← outputAttrs t root die child as
    return here ++ rest

/-- The part of `output_die` before the children. -/
def Die.output (t : Target) (root : Dies) (die : Die) (child : Dies) : Option (List Item) :=
  (outputAttrs t root die child die.attrs).map (.byte (outputUleb128 die.dieAbbrev) :: ·)

/-- `output_die` on a list of siblings. -/
def outputDies (t : Target) (root : Dies) : Dies → Option (List Item)
  | .nil => some []
  | .cons die child sib => do
    let own ← die.output t root child
    let children ← outputDies t root child
    let after ← outputDies t root sib
    let close := if child.isNil then [] else [data1 0]
    return .dieStart die.id :: own ++ children ++ close ++ .dieEnd die.id :: after

/-- `output_compilation_unit_header`. -/
def outputHeader (t : Target) (next : Nat) : List Item :=
  [t.data (next - t.offsetSize), data2 2, t.offset "Ldebug_abbrev0", data1 t.ptrSize]

/-- `DWARF_COMPILE_UNIT_HEADER_SIZE`. -/
def Target.headerSize (t : Target) : Nat := 2 * t.offsetSize + 3

/-- The DIEs of a compilation unit: each has its own place in memory, and references stay inside. -/
structure CompUnit where
  dies : Dies
  nodup : dies.ids.Nodup
  closed : ∀ n ∈ dies.nodes, ∀ a ∈ n.1.attrs, ∀ id, a.value = .dieRef (some id) → id ∈ dies.ids

def CompUnit.sized (t : Target) (u : CompUnit) : Dies × Nat := calcDieSizes t u.dies t.headerSize

/-- The end of `dwarf2out_finish`: the section `.debug_info`. -/
def CompUnit.output (t : Target) (u : CompUnit) : Option (List Item) :=
  (outputDies t (u.sized t).1 (u.sized t).1).map (outputHeader t (u.sized t).2 ++ ·)

/-- The section is laid out as it was computed: every DIE takes as many bytes as `size_of_die` says,
and the offset written for a reference is that of the DIE referred to, or for the sibling of the
last DIE of a list that of the end of the DIE. -/
structure CompUnit.LaidOut (t : Target) (u : CompUnit) (out : List Item) : Prop where
  size : ∀ n ∈ (u.sized t).1.nodes, ∃ own, n.1.output t (u.sized t).1 n.2 = some own ∧
    bytes own = n.1.size t
  ref : ∀ n ∈ (u.sized t).1.nodes, ∀ a ∈ n.1.attrs, ∀ id, a.value = .dieRef (some id) →
    ∃ off, refOffset t (u.sized t).1 n.1 n.2 a.name (some id) = some off ∧
      offsetOf (· = .dieStart id) out = some off
  sibling : ∀ n ∈ (u.sized t).1.nodes, ∀ a ∈ n.1.attrs, a.value = .dieRef none →
    ∃ off, refOffset t (u.sized t).1 n.1 n.2 a.name none = some off ∧
      offsetOf (· = .dieEnd n.1.id) out = some off

end Z80Gcc.Dwarf
