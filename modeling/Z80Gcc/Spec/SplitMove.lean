import Z80Gcc.Spec.Instr

/-! 32-bit moves: `z80_split_move` cuts an SImode or SFmode move into HImode moves, each of them
output by `*movhi`, `*movhi2_push` or `*movhi2_pop`. -/

namespace Z80Gcc

open Z80Gcc.Halves

/-- The hard registers that hold a base address (`REG_VALID_FOR_BASE_P`). -/
inductive BaseReg where
  | ix | iy
  deriving DecidableEq, Repr

def BaseReg.pair : BaseReg → Pair
  | ix => .ix
  | iy => .iy

/-- A legitimate address: a constant, or a base register with a displacement. -/
inductive Address where
  | const (n : BitVec 16)
  | base (r : BaseReg) (d : BitVec 16)
  deriving DecidableEq, Repr

namespace Address

def toMemRef : Address → MemRef
  | const n => .abs n
  | base r d => .idx r.pair d

def plus (a : Address) (k : BitVec 16) : Address :=
  match a with
  | const n => const (n + k)
  | base r d => base r (d + k)

end Address

/-- The hard registers that hold a 4-byte value: HL stands for HL with DE, BC for BC with IY. -/
inductive LongReg where
  | hl | bc
  deriving DecidableEq, Repr

/-- A 4-byte operand. A floating constant is given by its image in target format. -/
inductive LongOperand where
  | reg (r : LongReg)
  | mem (a : Address)
  | preDecSp
  | constInt (v : Int)
  | constDouble (image : BitVec 32)

inductive WordOperand where
  | reg (p : Pair)
  | mem (a : Address)
  | preDecSp
  | constInt (v : Int)

/-- `z80_gen_lowpart (HImode, x)`. -/
def z80GenLowpart : LongOperand → WordOperand
  | .reg .hl => .reg .hl
  | .reg .bc => .reg .bc
  | .mem a => .mem a
  | .preDecSp => .preDecSp
  | .constInt v => .constInt v
  | .constDouble image => .constInt (image &&& 0xffff).toNat

/-- `z80_gen_highpart (HImode, x)`. -/
def z80GenHighpart : LongOperand → WordOperand
  | .reg .hl => .reg .de
  | .reg .bc => .reg .iy
  | .mem a => .mem (a.plus 2)
  | .preDecSp => .preDecSp
  | .constInt v => .constInt (v >>> (16 : Nat))
  | .constDouble image => .constInt (image >>> 16 &&& 0xffff).toNat

/-- The HImode move insns; a move between two places in memory is matched by none of them. -/
def movhi : WordOperand → WordOperand → Option (List Instr)
  | .reg p, .reg q => some (if p = q then [.nop] else [.push (.pair q), .pop (.pair p)])
  | .reg p, .mem a => some [.ld16 (.pair p) (.mem a.toMemRef)]
  | .reg p, .constInt v => some [.ld16 (.pair p) (.imm (BitVec.ofInt 16 v))]
  | .mem a, .reg q => some [.st16 a.toMemRef (.pair q)]
  | .preDecSp, .reg q => some [.push (.pair q)]
  | _, _ => none

/-- `H_REG_P`. -/
def LongOperand.isHReg : LongOperand → Bool
  | .reg _ => true
  | _ => false

def z80SplitMove (dst src : LongOperand) (scratch : Pair) : Option (List Instr) := do
  if dst.isHReg || src.isHReg then
    let low ← movhi (z80GenLowpart dst) (z80GenLowpart src)
    let high ← movhi (z80GenHighpart dst) (z80GenHighpart src)
    return low ++ high
  else
    let low ← movhi (.reg scratch) (z80GenLowpart src)
    let low' ← movhi (z80GenLowpart dst) (.reg scratch)
    let high ← movhi (.reg scratch) (z80GenHighpart src)
    let high' ← movhi (z80GenHighpart dst) (.reg scratch)
    return low ++ low' ++ high ++ high'

/-- The destinations of `movsi` and `movsf`. -/
inductive MoveDest where
  | reg (r : LongReg)
  | mem (a : Address)
  | push

/-- The sources of `movsi` and `movsf`. -/
inductive MoveSource where
  | reg (r : LongReg)
  | mem (a : Address)
  | constInt (v : Int)
  | constDouble (image : BitVec 32)

def MoveDest.operand : MoveDest → LongOperand
  | reg r => .reg r
  | mem a => .mem a
  | push => .preDecSp

def MoveSource.operand : MoveSource → LongOperand
  | reg r => .reg r
  | mem a => .mem a
  | constInt v => .constInt v
  | constDouble image => .constDouble image

/-- The split of a move insn; reload gives the memory to memory form the scratch BC. -/
def movsi (dst : MoveDest) (src : MoveSource) : Option (List Instr) :=
  z80SplitMove dst.operand src.operand .bc

namespace LongReg

def low : LongReg → Pair
  | hl => .hl
  | bc => .bc

def high : LongReg → Pair
  | hl => .de
  | bc => .iy

end LongReg

/-- The low and the high word of a source. -/
def MoveSource.words (s : MoveSource) (m : Machine) : BitVec 16 × BitVec 16 :=
  match s with
  | reg r => (m.pair r.low, m.pair r.high)
  | mem a => (m.load16 (m.ea a.toMemRef), m.load16 (m.ea a.toMemRef + 2))
  | constInt v => (lo16 (BitVec.ofInt 32 v), hi16 (BitVec.ofInt 32 v))
  | constDouble image => (lo16 image, hi16 image)

/-- The two words are in the destination: in the pair of registers, or in memory with the low word
at the lower address. The destination's address is that before the move. -/
def MoveDest.Holds (d : MoveDest) (m m' : Machine) (w : BitVec 16 × BitVec 16) : Prop :=
  match d with
  | reg r => m'.pair r.low = w.1 ∧ m'.pair r.high = w.2
  | mem a => m'.load16 (m.ea a.toMemRef) = w.1 ∧ m'.load16 (m.ea a.toMemRef + 2) = w.2
  | push => m'.sp = m.sp - 4 ∧ m'.load16 m'.sp = w.1 ∧ m'.load16 (m'.sp + 2) = w.2

end Z80Gcc
