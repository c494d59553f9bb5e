import Z80Gcc.Spec.Shift

/-! The rotate patterns of z80.md: by a constant count, and by one place through the carry. -/

namespace Z80Gcc

open Z80Gcc.Rotate

inductive RotateCode where
  | rotate | rotatert
  deriving DecidableEq, Repr

/-- Operand 2: a constant count, or the flags register. -/
inductive RotateBy where
  | constInt (n : Int)
  | carry

inductive RotateDest : Nat → Type where
  | qi (d : Loc8) : RotateDest 8
  | hi (p : Pair) : RotateDest 16

namespace RotateDest

def value {w : Nat} : RotateDest w → Machine → BitVec w
  | qi d, m => m.loc8 d
  | hi p, m => m.pair p

/-- The constraint on operand 0: `ahbdU` in QImode, `hbd` in HImode. -/
def Allowed {w : Nat} : RotateDest w → Prop
  | qi (.reg r) => r ∈ [.a, .l, .e, .c]
  | qi (.mem (.idx p _)) => p = .ix ∨ p = .iy
  | qi (.mem (.abs _)) => False
  | hi p => p ∈ [.hl, .bc, .de]

end RotateDest

/-- What a template prints: instructions, `rlc` or `rrc` with a 16-bit register, or `rlc` with an address that is not in
parentheses. -/
inductive RotateText where
  | bytes (insns : List Instr)
  | word (code : RotateCode) (p : Pair)
  | bare (a : MemRef)

/-- A plain Z80 has no `rlc` of a 16-bit register; `wide` is whether the assembler of the target
takes it, as a rotation of the register by one place. No `rlc` takes a bare address. -/
def RotateText.run (wide : Bool) (text : RotateText) (m : Machine) : Option Machine :=
  match text with
  | bytes insns => some (z80.execs insns m)
  | word .rotate p =>
      if wide then
        some ((m.setPair p ((m.pair p).rotateLeft 1)).setFlags
          { m.flags with c := (m.pair p).msb })
      else none
  | word .rotatert p =>
      if wide then
        some ((m.setPair p ((m.pair p).rotateRight 1)).setFlags
          { m.flags with c := (m.pair p).getLsbD 0 })
      else none
  | bare _ => none

section Constant

/-! The templates print one instruction whatever the count, and `rotrqi3` names no register. -/

/-- `rlc\t%0`, which prints a place in memory as its address. -/
def rotlqi3 : Loc8 → Int → RotateText
  | .reg r, _ => .bytes [.rot .rlc (.reg r)]
  | .mem a, _ => .bare a

def rotlhi3 (p : Pair) (_n : Int) : RotateText := .word .rotate p

def rotrqi3 (_d : Loc8) (_n : Int) : RotateText := .bytes [.rra]

def rotrhi3 (p : Pair) (_n : Int) : RotateText := .word .rotatert p

end Constant

section WithCarry

/-- `*rotlqi3_with_carry`, for a register or a place in memory. -/
def rotlqi3WithCarryAt (d : Loc8) : RotateText := .bytes [.rot .rl d]

def rotlhi3WithCarry (p : Pair) : RotateText :=
  .bytes [rotReg .rl (lowByte p), rotReg .rl (highByte p)]

/-- `(rotatert:QI d (reg:QI regno))` is an insn for register 14 only. -/
def rotrqi3WithCarry (d : Loc8) (regno : Nat) : Option (List Instr) :=
  if regno = 14 then some [.rot .rr d] else none

/-- The split of `*rotrhi3_with_carry` names register 8 in both of its insns. -/
def rotrhi3WithCarry (p : Pair) : Option RotateText := do
  let low ← rotrqi3WithCarry (.reg (lowByte p)) 8
  let high ← rotrqi3WithCarry (.reg (highByte p)) 8
  return .bytes (low ++ high)

end WithCarry

/-- The text of the pattern that a rotate insn matches; `none` when its split matches nothing. -/
def rotateText {w : Nat} (code : RotateCode) (dest : RotateDest w) (k : RotateBy) :
    Option RotateText :=
  match code, dest, k with
  | .rotate, .qi d, .constInt n => some (rotlqi3 d n)
  | .rotate, .hi p, .constInt n => some (rotlhi3 p n)
  | .rotatert, .qi d, .constInt n => some (rotrqi3 d n)
  | .rotatert, .hi p, .constInt n => some (rotrhi3 p n)
  | .rotate, .qi d, .carry => some (rotlqi3WithCarryAt d)
  | .rotate, .hi p, .carry => some (rotlhi3WithCarry p)
  | .rotatert, .qi d, .carry => (rotrqi3WithCarry d 14).map .bytes
  | .rotatert, .hi p, .carry => rotrhi3WithCarry p

/-- Operand 0 holds the rotated value in `m'`, together with the carry where that takes part. -/
def Rotated {w : Nat} (code : RotateCode) (dest : RotateDest w) (k : RotateBy)
    (m m' : Machine) : Prop :=
  match code, k with
  | .rotate, .constInt n => dest.value m' = rotl (dest.value m) n
  | .rotatert, .constInt n => dest.value m' = rotl (dest.value m) (-n)
  | .rotate, .carry =>
      BitVec.cons m'.flags.c (dest.value m') =
        (BitVec.cons m.flags.c (dest.value m)).rotateLeft 1
  | .rotatert, .carry =>
      BitVec.cons m'.flags.c (dest.value m') =
        (BitVec.cons m.flags.c (dest.value m)).rotateRight 1

end Z80Gcc
