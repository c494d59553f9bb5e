import Z80Gcc.Spec.LegitimateAddress

/-! The two halves of an operand: `z80_gen_lowpart` and `z80_gen_highpart`, and what their operands stand for. -/

namespace Z80Gcc.OperandHalves

open AddressRtx

inductive PartMode where
  | qi | hi
  deriving DecidableEq

/-- `GET_MODE_SIZE`. -/
def PartMode.size : PartMode → Nat
  | qi => 1
  | hi => 2

/-- `GET_MODE_BITSIZE`. -/
def PartMode.bits (mode : PartMode) : Nat := 8 * mode.size

/-- Before reload, with `cse_not_expected` and `flag_force_addr`; or while reload works and after it. -/
inductive Phase where
  | expand (cseNotExpected forceAddr : Bool)
  | reload

def Phase.strict : Phase → Bool
  | expand _ _ => false
  | reload => true

variable {h : Host}

/-- An operand of twice the size of the mode: a hard register in HImode, or two of them in SImode; a constant; or memory. A
constant of SFmode is given by its image in target format. -/
inductive Operand (h : Host) (renumber : RegRenumber) (phase : Phase) : PartMode → Type where
  | reg (p : Pair) : Operand h renumber phase .qi
  | longReg (r : LongReg) : Operand h renumber phase .hi
  | constInt {mode : PartMode} (v : BitVec h.bits) : Operand h renumber phase mode
  | constDouble (image : BitVec 32) : Operand h renumber phase .hi
  | mem {mode : PartMode} (addr : AddressRtx h)
      (valid : goIfLegitimateAddress renumber addr (2 * mode.size) phase.strict = true) : Operand h renumber phase mode

/-- The address of a `MEM`; what `force_reg` puts into a register is given by what it loads there. -/
inductive MemAddress (h : Host) where
  | direct (addr : AddressRtx h)
  | forced (addr : AddressRtx h)

inductive HalfOperand (h : Host) where
  | reg8 (r : Reg8)
  | reg16 (p : Pair)
  | constInt (v : BitVec h.bits)
  | mem (addr : MemAddress h)

section Source

variable {renumber : RegRenumber} {phase : Phase} {mode : PartMode}

/-- `memory_address`. A register of the wrong class is copied, as is what is not valid otherwise. -/
def memoryAddress (renumber : RegRenumber) (cseNotExpected forceAddr : Bool) (size : Nat) (addr : AddressRtx h) :
    MemAddress h :=
  if !cseNotExpected && addr.constantP then .forced addr
  else if goIfLegitimateAddress renumber addr size false then
    match addr with
    | .reg n => .direct (.reg n)
    | addr => if forceAddr && !cseNotExpected then .forced addr else .direct addr
  else .forced addr

def changeAddress (renumber : RegRenumber) (phase : Phase) (size : Nat) (addr : AddressRtx h) : Option (MemAddress h) :=
  match phase with
  | .reload => (AddressRtx.changeAddress renumber size addr).map .direct
  | .expand cseNotExpected forceAddr => some (memoryAddress renumber cseNotExpected forceAddr size addr)

/-- `gen_lowpart` of a constant. -/
def genLowpartConst (mode : PartMode) (v : BitVec h.bits) : BitVec h.bits :=
  (v <<< (h.bits - mode.bits)).sshiftRight (h.bits - mode.bits)

/-- The offset of `gen_highpart` of a `MEM`; neither words nor bytes are big-endian. -/
def highpartOffset (mode : PartMode) : Int :=
  let size := 2 * mode.size
  let offset : Int := (max size unitsPerWord : Nat) - (max mode.size unitsPerWord : Nat)
  if mode.size < unitsPerWord then offset - (mode.size - (min unitsPerWord size : Nat)) else offset

def z80GenLowpart : Operand h renumber phase mode → Option (HalfOperand h)
  | .mem addr _ =>
      if addr.autoInc then some (.mem (.direct addr))
      else (changeAddress renumber phase mode.size (addr.plusConstant 0)).map .mem
  | .constDouble image => some (.constInt ((image &&& 0xffff).setWidth h.bits))
  | .reg .bc => some (.reg8 (.half .bc .lo))
  | .reg .hl => some (.reg8 (.half .hl .lo))
  | .reg .de => some (.reg8 (.half .de .lo))
  | .reg .ix => some (.reg8 (.half .ix .hi))
  | .reg .iy => some (.reg8 (.half .iy .hi))
  | .longReg .hl => some (.reg16 .hl)
  | .longReg .bc => some (.reg16 .bc)
  | .constInt v => some (.constInt (genLowpartConst mode v))

def z80GenHighpart : Operand h renumber phase mode → Option (HalfOperand h)
  | .mem addr _ =>
      if addr.autoInc then some (.mem (.direct addr))
      else (changeAddress renumber phase mode.size (addr.plusConstant (highpartOffset mode))).map .mem
  | .constDouble image => some (.constInt ((image >>> 16 &&& 0xffff).setWidth h.bits))
  | .constInt v => some (.constInt (v.sshiftRight mode.bits))
  | .reg .bc => some (.reg8 (.half .bc .hi))
  | .reg .hl => some (.reg8 (.half .hl .hi))
  | .reg .de => some (.reg8 (.half .de .hi))
  | .reg .ix => some (.reg8 (.half .ix .hi))
  | .reg .iy => some (.reg8 (.half .iy .hi))
  | .longReg .hl => some (.reg16 .de)
  | .longReg .bc => some (.reg16 .iy)

end Source

section Meaning

/-- The registers by their numbers, pseudo registers too, the memory, and what symbols and the like stand for. -/
structure Env where
  reg : Nat → BitVec 16
  mem : BitVec 16 → BitVec 8
  symbol : String → BitVec 16
  label : Nat → BitVec 16
  high : BitVec 16 → BitVec 16
  constantP : BitVec 16 → BitVec 16
  other : Nat → BitVec 16

def Env.set (env : Env) (n : Nat) (v : BitVec 16) : Env := { env with reg := Function.update env.reg n v }

def regno : Pair → Nat
  | .hl => 1
  | .de => 2
  | .bc => 3
  | .iy => 4
  | .ix => 5

/-- The number of the first hard register of an SImode operand. -/
def longRegno : LongReg → Nat
  | .hl => regno .hl
  | .bc => regno .bc

inductive Loc where
  | regByte (n : Nat) (half : Half)
  | cell (a : BitVec 16)
  deriving DecidableEq

def Env.byte (env : Env) : Loc → BitVec 8
  | .regByte n .lo => Halves.lo8 (env.reg n)
  | .regByte n .hi => Halves.hi8 (env.reg n)
  | .cell a => env.mem a

def regBytes (n : Nat) : List Loc := [.regByte n .lo, .regByte n .hi]

def cells (a : BitVec 16) (size : Nat) : List Loc := (List.range size).map fun i => .cell (a + BitVec.ofNat 16 i)

def Env.number (env : Env) : List Loc → Nat
  | [] => 0
  | loc :: locs => (env.byte loc).toNat + 2 ^ 8 * env.number locs

def Env.address (env : Env) : AddressRtx h → BitVec 16
  | .constInt v => BitVec.ofInt 16 v
  | .constDouble v => v.low.setWidth 16
  | .symbolRef name => env.symbol name
  | .labelRef label => env.label label
  | .const x => env.address x
  | .high x => env.high (env.address x)
  | .constantPRtx x => env.constantP (env.address x)
  | .reg n => env.reg n
  | .plus x y => env.address x + env.address y
  | .preInc x | .preDec x | .postInc x | .postDec x => env.address x
  | .other n => env.other n

/-- The place of an access of `size` bytes, and the registers after it. -/
def Env.place (env : Env) (size : Nat) : AddressRtx h → BitVec 16 × Env
  | .preDec (.reg n) =>
      let env := env.set n (env.reg n - BitVec.ofNat 16 size)
      (env.reg n, env)
  | .preInc (.reg n) =>
      let env := env.set n (env.reg n + BitVec.ofNat 16 size)
      (env.reg n, env)
  | .postInc (.reg n) => (env.reg n, env.set n (env.reg n + BitVec.ofNat 16 size))
  | .postDec (.reg n) => (env.reg n, env.set n (env.reg n - BitVec.ofNat 16 size))
  | addr => (env.address addr, env)

def MemAddress.place (env : Env) (size : Nat) : MemAddress h → BitVec 16 × Env
  | .direct addr => env.place size addr
  | .forced addr => (env.address addr, env)

/-- What an operand is when it is accessed: a constant modulo the size of its mode, or the bytes it is kept in. -/
inductive Content where
  | const (v : Nat)
  | bytes (locs : List Loc)

def Content.value (env : Env) : Content → Nat
  | const v => v
  | bytes locs => env.number locs

def Content.locs : Content → List Loc
  | const _ => []
  | bytes locs => locs

variable {renumber : RegRenumber} {phase : Phase} {mode : PartMode}

/-- A register of SImode has its second word in the next register. -/
def Operand.content (env : Env) : Operand h renumber phase mode → Content
  | reg p => .bytes (regBytes (regno p))
  | longReg r => .bytes (regBytes (longRegno r) ++ regBytes (longRegno r + 1))
  | constInt v => .const (v.toInt % 2 ^ (2 * mode.bits)).toNat
  | constDouble image => .const image.toNat
  | mem addr _ => .bytes (cells (env.place (2 * mode.size) addr).1 (2 * mode.size))

def HalfOperand.content (mode : PartMode) (env : Env) : HalfOperand h → Content × Env
  | reg8 .a => (.bytes [.regByte 0 .lo], env)
  | reg8 (.half p half) => (.bytes [.regByte (regno p) half], env)
  | reg16 p => (.bytes (regBytes (regno p)), env)
  | constInt v => (.const (v.toInt % 2 ^ mode.bits).toNat, env)
  | mem addr => (.bytes (cells (addr.place env mode.size).1 mode.size), (addr.place env mode.size).2)

/-- "The caller split the larger mode in the correct order": the high half first where the address counts down. -/
def Operand.highFirst : Operand h renumber phase mode → Bool
  | mem (.preDec _) _ | mem (.postDec _) _ => true
  | _ => false

/-- The contents of the low and the high half, accessed in the order of the operand. -/
def contents (op : Operand h renumber phase mode) (low high : HalfOperand h) (env : Env) : Content × Content :=
  if op.highFirst then
    let r := high.content mode env
    ((low.content mode r.2).1, r.1)
  else
    let r := low.content mode env
    (r.1, (high.content mode r.2).1)

/-- The halves share no byte; the bytes of the low half and then those of the high half are the bytes of the operand; and
they make up its value. -/
structure AreHalves (env : Env) (op : Operand h renumber phase mode) (low high : HalfOperand h) : Prop where
  disjoint : List.Disjoint (contents op low high env).1.locs (contents op low high env).2.locs
  bytes : (contents op low high env).1.locs ++ (contents op low high env).2.locs = (op.content env).locs
  value : (op.content env).value env ≡
    (contents op low high env).2.value env * 2 ^ mode.bits + (contents op low high env).1.value env [MOD 2 ^ (2 * mode.bits)]

/-- Whatever halves the two functions return are the halves of the operand. -/
def HalvesRight (op : Operand h renumber phase mode) : Prop :=
  ∀ low high, z80GenLowpart op = some low → z80GenHighpart op = some high → ∀ env, AreHalves env op low high

def Operand.indexReg : Operand h renumber phase mode → Bool
  | reg .ix | reg .iy => true
  | _ => false

/-- Is the address a `HIGH`, or a `CONSTANT_P_RTX`? A sum with one of them is no constant. -/
def Operand.unsplitConstant : Operand h renumber phase mode → Bool
  | mem (.high _) _ | mem (.constantPRtx _) _ => true
  | _ => false

end Meaning

end Z80Gcc.OperandHalves
