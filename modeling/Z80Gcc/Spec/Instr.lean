import Z80Gcc.Lib.Asm
import Z80Gcc.Lib.Rotate
import Z80Gcc.Spec.Machine

/-! The instructions and jump conditions that the output templates print, and what they do. `lea` is an instruction of
the eZ80. Some templates print `ld` between 16-bit registers, which neither processor has (`Instr.encoded`). -/

namespace Z80Gcc

open Z80Gcc.Halves Z80Gcc.Adder Z80Gcc.Rotate

inductive Src8 where
  | reg (r : Reg8)
  | imm (n : BitVec 8)
  | mem (a : MemRef)
  deriving DecidableEq, Repr

inductive Src16 where
  | reg (r : Reg16)
  | imm (n : BitVec 16)
  | mem (a : MemRef)
  deriving DecidableEq, Repr

inductive Loc8 where
  | reg (r : Reg8)
  | mem (a : MemRef)
  deriving DecidableEq, Repr

inductive AluOp where
  | add | adc | sub | sbc | and | xor | or | cp
  deriving DecidableEq, Repr

inductive RotOp where
  | rlc | rrc | rl | rr | sla | sra | srl
  deriving DecidableEq, Repr

inductive Instr where
  | nop
  | ld8 (d : Loc8) (s : Src8)
  | ld16 (d : Reg16) (s : Src16)
  | st16 (a : MemRef) (s : Reg16)
  | push (s : Reg16)
  | pop (d : Reg16)
  | ex (p q : Pair)
  | add16 (d s : Reg16)
  | adc16 (d s : Reg16)
  | sbc16 (d s : Reg16)
  | inc16 (d : Reg16)
  | dec16 (d : Reg16)
  | lea (d : Reg16) (a : MemRef)
  | alu (op : AluOp) (s : Src8)
  | inc8 (d : Loc8)
  | dec8 (d : Loc8)
  | neg
  | cpl
  | rot (op : RotOp) (d : Loc8)
  | rra
  deriving DecidableEq, Repr

inductive Cond where
  | always | z | nz | c | nc | m | p | djnz
  deriving DecidableEq, Repr

/-- P/V after a logical operation or a rotate: even parity. -/
def parity (v : BitVec 8) : Bool :=
  (List.range 8).foldl (fun even i => even ^^ v.getLsbD i) true

def logicFlags (v : BitVec 8) (carry : Bool) : Flags where
  s := v.msb
  z := v == 0
  pv := parity v
  c := carry

/-- The byte and the carry that a rotate or shift produces, from the byte and the carry in. -/
def RotOp.apply (op : RotOp) (v : BitVec 8) (carry : Bool) : BitVec 8 × Bool :=
  match op with
  | .rlc => (v.rotateLeft 1, v.msb)
  | .rrc => (v.rotateRight 1, v.getLsbD 0)
  | .rl => (shiftInLow v carry, v.msb)
  | .rr => (shiftInHigh v carry, v.getLsbD 0)
  | .sla => (v <<< 1, v.msb)
  | .sra => (v.sshiftRight 1, v.getLsbD 0)
  | .srl => (v >>> 1, v.getLsbD 0)

/-- The accumulator and the flags after an operation of the accumulator with a byte. -/
def AluOp.apply (op : AluOp) (a v : BitVec 8) (carry : Bool) : BitVec 8 × Flags :=
  match op with
  | .add => (Adder.adc a v false, adcFlags a v false)
  | .adc => (Adder.adc a v carry, adcFlags a v carry)
  | .sub => (Adder.sbc a v false, sbcFlags a v false)
  | .sbc => (Adder.sbc a v carry, sbcFlags a v carry)
  | .and => (a &&& v, logicFlags (a &&& v) false)
  | .xor => (a ^^^ v, logicFlags (a ^^^ v) false)
  | .or => (a ||| v, logicFlags (a ||| v) false)
  | .cp => (a, sbcFlags a v false)

namespace Machine

def src8 (m : Machine) : Src8 → BitVec 8
  | .reg r => m.get8 r
  | .imm n => n
  | .mem a => m.load8 (m.ea a)

def src16 (m : Machine) : Src16 → BitVec 16
  | .reg r => m.get16 r
  | .imm n => n
  | .mem a => m.load16 (m.ea a)

def loc8 (m : Machine) : Loc8 → BitVec 8
  | .reg r => m.get8 r
  | .mem a => m.load8 (m.ea a)

def setLoc8 (m : Machine) (d : Loc8) (v : BitVec 8) : Machine :=
  match d with
  | .reg r => m.set8 r v
  | .mem a => m.store8 (m.ea a) v

end Machine

def Instr.exec (i : Instr) (m : Machine) : Machine :=
  match i with
  | .nop => m
  | .ld8 d s => m.setLoc8 d (m.src8 s)
  | .ld16 d s => m.set16 d (m.src16 s)
  | .st16 a s => m.store16 (m.ea a) (m.get16 s)
  | .push s => m.push (m.get16 s)
  | .pop d => (m.drop).set16 d m.pop
  | .ex p q => (m.setPair p (m.pair q)).setPair q (m.pair p)
  | .add16 d s =>
      (m.set16 d (m.get16 d + m.get16 s)).setFlags
        { m.flags with c := (adcFlags (m.get16 d) (m.get16 s) false).c }
  | .adc16 d s =>
      (m.set16 d (adc (m.get16 d) (m.get16 s) m.flags.c)).setFlags
        (adcFlags (m.get16 d) (m.get16 s) m.flags.c)
  | .sbc16 d s =>
      (m.set16 d (sbc (m.get16 d) (m.get16 s) m.flags.c)).setFlags
        (sbcFlags (m.get16 d) (m.get16 s) m.flags.c)
  | .inc16 d => m.set16 d (m.get16 d + 1)
  | .dec16 d => m.set16 d (m.get16 d - 1)
  | .lea d a => m.set16 d (m.ea a)
  | .alu op s =>
      let r := op.apply m.a (m.src8 s) m.flags.c
      (m.setA r.1).setFlags r.2
  | .inc8 d =>
      (m.setLoc8 d (m.loc8 d + 1)).setFlags
        { adcFlags (m.loc8 d) 1 false with c := m.flags.c }
  | .dec8 d =>
      (m.setLoc8 d (m.loc8 d - 1)).setFlags
        { sbcFlags (m.loc8 d) 1 false with c := m.flags.c }
  | .neg => (m.setA (sbc 0 m.a false)).setFlags (sbcFlags 0 m.a false)
  | .cpl => m.setA (~~~m.a)
  | .rot op d =>
      let r := op.apply (m.loc8 d) m.flags.c
      (m.setLoc8 d r.1).setFlags (logicFlags r.1 r.2)
  | .rra =>
      let r := RotOp.rr.apply m.a m.flags.c
      (m.setA r.1).setFlags { m.flags with c := r.2 }

/-- SP is loaded from HL, IX and IY, and no other 16-bit register from a register. -/
def Instr.encoded : Instr → Bool
  | .ld16 .sp (.reg r) => r = .pair .hl ∨ r = .pair .ix ∨ r = .pair .iy
  | .ld16 (.pair _) (.reg _) => false
  | _ => true

/-- `djnz` counts B down and jumps while it is not zero; the other conditions read flags. -/
def Cond.test (k : Cond) (m : Machine) : Bool × Machine :=
  match k with
  | .always => (true, m)
  | .z => (m.flags.z, m)
  | .nz => (!m.flags.z, m)
  | .c => (m.flags.c, m)
  | .nc => (!m.flags.c, m)
  | .m => (m.flags.s, m)
  | .p => (!m.flags.s, m)
  | .djnz => (m.get8 .b - 1 != 0, m.set8 .b (m.get8 .b - 1))

def z80 : Asm.Isa Instr Cond Machine where
  exec := Instr.exec
  branch := Cond.test

/-- The machine after a text; `wide` is whether the assembler of the target takes `ld` between any 16-bit registers, as
a copy. -/
def runText (wide : Bool) (insns : List Instr) (m : Machine) : Option Machine :=
  if wide || insns.all Instr.encoded then some (z80.execs insns m) else none

abbrev Listing := List (Asm.Line Instr Cond Nat)

end Z80Gcc
