import Z80Gcc.Spec.Extend

/-! Bitwise and, inclusive or and exclusive or: the QImode templates and the splits of the wider
modes, which take the bytes through A one after the other. -/

namespace Z80Gcc

inductive LogicOp where
  | and | ior | xor
  deriving DecidableEq, Repr

namespace LogicOp

def alu : LogicOp → AluOp
  | and => .and
  | ior => .or
  | xor => .xor

def apply {w : Nat} (op : LogicOp) (x y : BitVec w) : BitVec w :=
  match op with
  | and => x &&& y
  | ior => x ||| y
  | xor => x ^^^ y

end LogicOp

/-- Operand 2 of the QImode insns: a register, an indexed place in memory (`U`) or an
immediate. -/
inductive ByteSource where
  | reg (r : Reg8)
  | mem (r : BaseReg) (d : BitVec 16)
  | constInt (v : Int)

def ByteSource.value (s : ByteSource) (m : Machine) : BitVec 8 :=
  match s with
  | reg r => m.get8 r
  | mem r d => m.load8 (m.ea (.idx r.pair d))
  | constInt v => BitVec.ofInt 8 v

/-- The text of all three for a register or a place in memory. -/
def LogicOp.template (op : LogicOp) (s : Src8) : List Instr := [.alu op.alu s]

/-- For an immediate that is neither 0 nor 0xff the template names operand 1, which is A. -/
def andqi3 : ByteSource → List Instr
  | .constInt v =>
      if v % 0x100 = 0xff then []
      else if v % 0x100 = 0 then [ldImm .a 0]
      else LogicOp.and.template (.reg .a)
  | .mem r d => LogicOp.and.template (.mem (.idx r.pair d))
  | .reg r => LogicOp.and.template (.reg r)

def iorqi3 : ByteSource → List Instr
  | .constInt v => if v % 0x100 = 0 then [] else LogicOp.ior.template (.reg .a)
  | .mem r d => LogicOp.ior.template (.mem (.idx r.pair d))
  | .reg r => LogicOp.ior.template (.reg r)

def xorqi3 : ByteSource → List Instr
  | .constInt v => if v % 0x10000 = 0 then [] else LogicOp.xor.template (.reg .a)
  | .mem r d => LogicOp.xor.template (.mem (.idx r.pair d))
  | .reg r => LogicOp.xor.template (.reg r)

def LogicOp.qi3 : LogicOp → ByteSource → List Instr
  | and => andqi3
  | ior => iorqi3
  | xor => xorqi3

/-- The split of `andhi3`, `iorhi3` and `xorhi3`. -/
def LogicOp.hi3 (op : LogicOp) (d s : Reg16) : Option (List Instr) := do
  let low ← lowpartByte d
  let high ← highpartByte d
  let low' ← lowpartByte s
  let high' ← highpartByte s
  return [ldReg .a low] ++ op.qi3 (.reg low') ++ [ldReg low .a, ldReg .a high] ++
    op.qi3 (.reg high') ++ [ldReg high .a]

/-- The split of `andsi3`, `iorsi3` and `xorsi3`, with the scratch register BC. -/
def LogicOp.si3 (op : LogicOp) (src : LongSource) : Option (List Instr) := do
  let low ← movhi (.reg .bc) (z80GenLowpart src.operand)
  let inner ← op.hi3 (.pair .hl) (.pair .bc)
  let high ← movhi (.reg .bc) (z80GenHighpart src.operand)
  let inner' ← op.hi3 (.pair .de) (.pair .bc)
  return low ++ inner ++ high ++ inner'

/-- A logic insn of one of the three modes with its operands after reload. -/
inductive LogicInsn where
  | qi (s : ByteSource)
  | hi (d s : Reg16)
  | si (s : LongSource)

namespace LogicInsn

def code (op : LogicOp) : LogicInsn → Option (List Instr)
  | qi s => some (op.qi3 s)
  | hi d s => op.hi3 d s
  | si s => op.si3 s

/-- Operand 0 holds in `m'` the result of the operands in `m`. -/
def Holds (op : LogicOp) (insn : LogicInsn) (m m' : Machine) : Prop :=
  match insn with
  | qi s => m'.a = op.apply m.a (s.value m)
  | hi d s => m'.get16 d = op.apply (m.get16 d) (m.get16 s)
  | si s => LongReg.hl.value m' = op.apply (LongReg.hl.value m) (s.value m)

end LogicInsn

end Z80Gcc
