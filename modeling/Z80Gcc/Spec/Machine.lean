import Z80Gcc.Lib.Adder
import Mathlib.Logic.Function.Basic

/-! The Z80 state that the templates of z80.md read and write. Register names follow
`REGISTER_NAMES` in z80.h; a 16-bit register is one cell of `Machine.pair` and its byte
registers are views of it. Half-carry and N are left out: only `daa` reads them. -/

namespace Z80Gcc

open Z80Gcc.Halves Z80Gcc.Adder

inductive Pair where
  | bc | de | hl | ix | iy
  deriving DecidableEq, Repr

inductive Half where
  | lo | hi
  deriving DecidableEq, Repr

inductive Reg8 where
  | a
  | half (p : Pair) (h : Half)
  deriving DecidableEq, Repr

inductive Reg16 where
  | pair (p : Pair)
  | sp
  deriving DecidableEq, Repr

namespace Reg8

@[match_pattern] abbrev b : Reg8 := .half .bc .hi
@[match_pattern] abbrev c : Reg8 := .half .bc .lo
@[match_pattern] abbrev d : Reg8 := .half .de .hi
@[match_pattern] abbrev e : Reg8 := .half .de .lo
@[match_pattern] abbrev h : Reg8 := .half .hl .hi
@[match_pattern] abbrev l : Reg8 := .half .hl .lo

end Reg8

@[ext] structure Machine where
  a : BitVec 8
  pair : Pair → BitVec 16
  sp : BitVec 16
  flags : Flags
  mem : BitVec 16 → BitVec 8

/-- `(nn)`, or a register that holds an address with a displacement; `(hl)` is `idx .hl 0`. -/
inductive MemRef where
  | abs (n : BitVec 16)
  | idx (p : Pair) (d : BitVec 16)
  deriving DecidableEq, Repr

namespace Machine

/-- A state with the given registers, flags clear and memory all zero. -/
def ofRegs (a : BitVec 8) (hl de bc ix iy sp : BitVec 16) : Machine where
  a := a
  pair
    | .hl => hl
    | .de => de
    | .bc => bc
    | .ix => ix
    | .iy => iy
  sp := sp
  flags := ⟨false, false, false, false⟩
  mem := fun _ => 0

def setPair (m : Machine) (p : Pair) (v : BitVec 16) : Machine :=
  { m with pair := Function.update m.pair p v }

def setA (m : Machine) (v : BitVec 8) : Machine := { m with a := v }

def setSp (m : Machine) (v : BitVec 16) : Machine := { m with sp := v }

def setFlags (m : Machine) (f : Flags) : Machine := { m with flags := f }

def get8 (m : Machine) : Reg8 → BitVec 8
  | .a => m.a
  | .half p .lo => lo8 (m.pair p)
  | .half p .hi => hi8 (m.pair p)

def set8 (m : Machine) (r : Reg8) (v : BitVec 8) : Machine :=
  match r with
  | .a => m.setA v
  | .half p .lo => m.setPair p (hi8 (m.pair p) ++ v)
  | .half p .hi => m.setPair p (v ++ lo8 (m.pair p))

def get16 (m : Machine) : Reg16 → BitVec 16
  | .pair p => m.pair p
  | .sp => m.sp

def set16 (m : Machine) (r : Reg16) (v : BitVec 16) : Machine :=
  match r with
  | .pair p => m.setPair p v
  | .sp => m.setSp v

def ea (m : Machine) : MemRef → BitVec 16
  | .abs n => n
  | .idx p d => m.pair p + d

def load8 (m : Machine) (a : BitVec 16) : BitVec 8 := m.mem a

def store8 (m : Machine) (a : BitVec 16) (v : BitVec 8) : Machine :=
  { m with mem := Function.update m.mem a v }

def load16 (m : Machine) (a : BitVec 16) : BitVec 16 := m.mem (a + 1) ++ m.mem a

def store16 (m : Machine) (a : BitVec 16) (v : BitVec 16) : Machine :=
  (m.store8 a (lo8 v)).store8 (a + 1) (hi8 v)

def push (m : Machine) (v : BitVec 16) : Machine :=
  (m.setSp (m.sp - 2)).store16 (m.sp - 2) v

def pop (m : Machine) : BitVec 16 := m.load16 m.sp

def drop (m : Machine) : Machine := m.setSp (m.sp + 2)

end Machine

end Z80Gcc
