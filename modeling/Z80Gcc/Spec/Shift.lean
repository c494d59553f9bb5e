import Z80Gcc.Spec.Instr

/-! The shift patterns of z80.md. A variable shift counts BC down in B, one place a turn; a
constant shift is unrolled. -/

namespace Z80Gcc

open Z80Gcc.Halves

inductive ShiftCode where
  | ashift | ashiftrt | lshiftrt
  deriving DecidableEq, Repr

/-- `z80_gen_lowpart (QImode, reg)`; IX and IY give their high byte. -/
def lowByte : Pair → Reg8
  | .ix => .half .ix .hi
  | .iy => .half .iy .hi
  | p => .half p .lo

/-- `z80_gen_highpart (QImode, reg)`. -/
def highByte (p : Pair) : Reg8 := .half p .hi

def rotReg (op : RotOp) (r : Reg8) : Instr := .rot op (.reg r)

def ldReg (d s : Reg8) : Instr := .ld8 (.reg d) (.reg s)

def ldImm (d : Reg8) (n : BitVec 8) : Instr := .ld8 (.reg d) (.imm n)

/-- `sla` on the lowest byte, `rl` on the others, from the bottom up. -/
def shiftLeftBytes : List Reg8 → List Instr
  | [] => []
  | r :: rs => rotReg .sla r :: rs.map (rotReg .rl)

/-- `sra` or `srl` on the highest byte, `rr` on the others, from the top down. -/
def shiftRightBytes (op : RotOp) : List Reg8 → List Instr
  | [] => []
  | r :: rs => rotReg op r :: rs.map (rotReg .rr)

/-- The bytes of the SImode operand in HL and DE, lowest first. -/
def longBytes : List Reg8 := [lowByte .hl, highByte .hl, lowByte .de, highByte .de]

/-- The loop of every variable shift: B gets the low byte of the count, and nothing is shifted
when it is zero. -/
def countLoop (test : List Instr) (body : List Instr) (l0 l1 : Nat) : Listing :=
  Asm.ops (ldReg .b .c :: test) ++ .jump .z l1 :: .label l0 ::
    (Asm.ops body ++ [.jump .djnz l0, .label l1])

def testCount : List Instr := [.inc8 (.reg .b), .dec8 (.reg .b)]

section Variable

variable (l0 l1 : Nat)

def ashlsi3 : Listing := countLoop testCount (shiftLeftBytes longBytes) l0 l1

def ashrsi3 : Listing := countLoop testCount (shiftRightBytes .sra longBytes.reverse) l0 l1

def lshrsi3 : Listing := countLoop testCount (shiftRightBytes .srl longBytes.reverse) l0 l1

def ashlhi3 (p : Pair) : Listing :=
  countLoop testCount (shiftLeftBytes [lowByte p, highByte p]) l0 l1

def ashrhi3 (p : Pair) : Listing :=
  countLoop testCount (shiftRightBytes .sra [highByte p, lowByte p]) l0 l1

def lshrhi3 (p : Pair) : Listing :=
  countLoop testCount (shiftRightBytes .srl [highByte p, lowByte p]) l0 l1

def ashlqi3 (r : Reg8) : Listing := countLoop testCount (shiftLeftBytes [r]) l0 l1

def ashrqi3 (r : Reg8) : Listing :=
  countLoop (testCount ++ testCount) (shiftRightBytes .sra [r]) l0 l1

def lshrqi3 (r : Reg8) : Listing := countLoop testCount (shiftRightBytes .srl [r]) l0 l1

end Variable

section Constant

def ashlsi3Const1 : List Instr := shiftLeftBytes longBytes

def ashrsi3Const1 : List Instr := shiftRightBytes .sra longBytes.reverse

def lshrsi3Const1 : List Instr := shiftRightBytes .srl longBytes.reverse

def ldPair (p q : Pair) : Instr := .ld16 (.pair p) (.reg (.pair q))

def ldPairImm (p : Pair) (n : BitVec 16) : Instr := .ld16 (.pair p) (.imm n)

/-- `low` and `high` are the halves of the operand. -/
def ashlsi3Const16 (low high : Pair) : List Instr := [ldPair high low, ldPairImm low 0]

def lshrsi3Const16 (low high : Pair) : List Instr := [ldPair low high, ldPairImm high 0]

def ashlhi3Const1 (p : Pair) : List Instr := shiftLeftBytes [lowByte p, highByte p]

def ashrhi3Const1 (p : Pair) : List Instr := shiftRightBytes .sra [highByte p, lowByte p]

def lshrhi3Const1 (p : Pair) : List Instr := shiftRightBytes .srl [highByte p, lowByte p]

/-- `*ashlhi3_const`, by the count `i`; the loop `while (i != 8)` runs `i - 8` times. -/
def ashlhi3Const (p : Pair) (i : Int) : List Instr :=
  if i ≥ 8 then
    ldReg (highByte p) (lowByte p) ::
      ((if i = 15 then
          [rotReg .rr (highByte p), ldImm (highByte p) 0, rotReg .rr (highByte p)]
        else List.replicate (i - 8).toNat (rotReg .sla (highByte p))) ++
        [ldImm (lowByte p) 0])
  else (List.replicate i.toNat [rotReg .sla (lowByte p), rotReg .rl (highByte p)]).flatten

def ashlqi3Const1 (r : Reg8) : List Instr := [rotReg .sla r]

def ashlqi3Const (r : Reg8) (i : Int) : List Instr :=
  if i ≥ 8 then [ldImm r 0]
  else if i = 7 then [rotReg .rr r, ldImm r 0, rotReg .rr r]
  else List.replicate i.toNat (rotReg .sla r)

def ashrqi3Const1 (r : Reg8) : List Instr := [rotReg .sra r]

def ashrqi3Const (r : Reg8) (i : Int) : List Instr :=
  List.replicate (if i > 8 then 8 else i).toNat (rotReg .sra r)

def lshrqi3Const1 (r : Reg8) : List Instr := [rotReg .srl r]

/-- The byte register that `gen_rtx_REG (QImode, REGNO + 1)` prints for HL, DE and BC: the low
part of the 16-bit register with the next number. -/
def nextLowByte : Pair → Reg8
  | .hl => lowByte .de
  | .de => lowByte .bc
  | .bc => lowByte .iy
  | p => lowByte p

def lshrhi3Const8 (p : Pair) : List Instr :=
  [ldReg (lowByte p) (nextLowByte p), ldImm (nextLowByte p) 0]

end Constant

/-- Where a variable shift has its operand: HL with DE, a 16-bit register, a byte register. -/
inductive ShiftDest : Nat → Type where
  | si : ShiftDest 32
  | hi (p : Pair) : ShiftDest 16
  | qi (r : Reg8) : ShiftDest 8

namespace ShiftDest

def value {w : Nat} : ShiftDest w → Machine → BitVec w
  | si, m => m.pair .de ++ m.pair .hl
  | hi p, m => m.pair p
  | qi r, m => m.get8 r

end ShiftDest

/-- The variable shift pattern whose constraints the operand satisfies: `D` in SImode, `hd` or
`hb` in HImode, `hda` in QImode, where HL and DE print as L and E. -/
def variableShift {w : Nat} (code : ShiftCode) (dest : ShiftDest w) (l0 l1 : Nat) :
    Option Listing :=
  match code, dest with
  | .ashift, .si => some (ashlsi3 l0 l1)
  | .ashiftrt, .si => some (ashrsi3 l0 l1)
  | .lshiftrt, .si => some (lshrsi3 l0 l1)
  | .ashift, .hi p => if p = .hl ∨ p = .de then some (ashlhi3 l0 l1 p) else none
  | .ashiftrt, .hi p => if p = .hl ∨ p = .bc then some (ashrhi3 l0 l1 p) else none
  | .lshiftrt, .hi p => if p = .hl ∨ p = .de then some (lshrhi3 l0 l1 p) else none
  | .ashift, .qi r => if r = .a ∨ r = .l ∨ r = .e then some (ashlqi3 l0 l1 r) else none
  | .ashiftrt, .qi r => if r = .a ∨ r = .l ∨ r = .e then some (ashrqi3 l0 l1 r) else none
  | .lshiftrt, .qi r => if r = .a ∨ r = .l ∨ r = .e then some (lshrqi3 l0 l1 r) else none

end Z80Gcc
