import Z80Gcc.Spec.LongArith
import Z80Gcc.Spec.Shift

/-! The splits of the zero and sign extensions. A byte to be sign-extended is in A, and its sign
is spread by `rl` and `sbc`. -/

namespace Z80Gcc

/-- `z80_gen_lowpart (QImode, reg)`. For SP, which holds no byte, it makes a new pseudo register;
after reload no code comes of that. -/
def lowpartByte : Reg16 → Option Reg8
  | .pair p => some (lowByte p)
  | .sp => none

/-- `z80_gen_highpart (QImode, reg)`. -/
def highpartByte : Reg16 → Option Reg8
  | .pair p => some (highByte p)
  | .sp => none

/-- A HImode register move. SP as a source is matched by a pattern of its own, whose constraint is
`h!xy`. -/
def movhiReg (d : Pair) : Reg16 → Option (List Instr)
  | .pair q => movhi (.reg d) (.reg q)
  | .sp =>
      if d = .hl ∨ d = .ix ∨ d = .iy then
        some [ldPairImm d 0, .add16 (.pair d) .sp]
      else none

def rotlqi3WithCarry (r : Reg8) : List Instr := [rotReg .rl r]

/-- `*subcq`; its accumulator is A. -/
def subcq (r : Reg8) : List Instr := [.alu .sbc (.reg r)]

def zeroExtendhisi2 (d : LongReg) (s : Reg16) : Option (List Instr) := do
  let low ← movhiReg d.low s
  let high ← movhi (.reg d.high) (.constInt 0)
  return low ++ high

def zeroExtendqisi2 (d : LongReg) (s : Reg8) : Option (List Instr) := do
  let high ← movhi (.reg d.high) (.constInt 0)
  return [ldReg (lowByte d.low) s, ldImm (highByte d.low) 0] ++ high

def zeroExtendqihi2 (d : Reg16) : Option (List Instr) := do
  let low ← lowpartByte d
  let high ← highpartByte d
  return [ldReg low .a, ldImm high 0]

def extendqihi2 (d : Reg16) : Option (List Instr) := do
  let low ← lowpartByte d
  let high ← highpartByte d
  return ldReg low .a :: rotlqi3WithCarry .a ++ subcq .a ++ [ldReg high .a]

/-- The lower half is extended first; its high byte is then copied to both bytes of the upper
half. -/
def extendqisi2 (d : LongReg) : Option (List Instr) := do
  let inner ← extendqihi2 (.pair d.low)
  return inner ++ [ldReg (lowByte d.high) (highByte d.low),
    ldReg (highByte d.high) (highByte d.low)]

/-- The source is BC. The subtraction is matched by `*subchi3`, whose destination is HL. -/
def extendhisi2 (d : LongReg) : Option (List Instr) := do
  let sub ← if d.low = .hl then some (subchi3 .hl) else none
  let high ← movhi (.reg d.high) (.reg d.low)
  let low ← movhi (.reg d.low) (.reg .bc)
  return ldReg .a (highByte .bc) :: rotlqi3WithCarry .a ++ sub ++ high ++ low

/-- The extension insns with their registers after reload. -/
inductive ExtendInsn where
  | zeroExtendqihi2 (d : Reg16)
  | zeroExtendqisi2 (d : LongReg) (s : Reg8)
  | zeroExtendhisi2 (d : LongReg) (s : Reg16)
  | extendqihi2 (d : Reg16)
  | extendqisi2 (d : LongReg)
  | extendhisi2 (d : LongReg)
  deriving DecidableEq

namespace ExtendInsn

def code : ExtendInsn → Option (List Instr)
  | zeroExtendqihi2 d => Z80Gcc.zeroExtendqihi2 d
  | zeroExtendqisi2 d s => Z80Gcc.zeroExtendqisi2 d s
  | zeroExtendhisi2 d s => Z80Gcc.zeroExtendhisi2 d s
  | extendqihi2 d => Z80Gcc.extendqihi2 d
  | extendqisi2 d => Z80Gcc.extendqisi2 d
  | extendhisi2 d => Z80Gcc.extendhisi2 d

/-- The destination holds in `m'` the extension of what the source held in `m`. -/
def Holds (insn : ExtendInsn) (m m' : Machine) : Prop :=
  match insn with
  | zeroExtendqihi2 d => m'.get16 d = m.a.setWidth 16
  | zeroExtendqisi2 d s => d.value m' = (m.get8 s).setWidth 32
  | zeroExtendhisi2 d s => d.value m' = (m.get16 s).setWidth 32
  | extendqihi2 d => m'.get16 d = m.a.signExtend 16
  | extendqisi2 d => d.value m' = m.a.signExtend 32
  | extendhisi2 d => d.value m' = (m.pair .bc).signExtend 32

end ExtendInsn

end Z80Gcc
