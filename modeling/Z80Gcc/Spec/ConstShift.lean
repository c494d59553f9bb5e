import Z80Gcc.Spec.LongArith
import Z80Gcc.Spec.Shift

/-! Which constant-count shift pattern of z80.md an operand and a count match. -/

namespace Z80Gcc

/-- Where a constant shift has its operand. -/
inductive ConstDest : Nat → Type where
  | si (r : LongReg) : ConstDest 32
  | hi (p : Pair) : ConstDest 16
  | qi (r : Reg8) : ConstDest 8

def ConstDest.value {w : Nat} : ConstDest w → Machine → BitVec w
  | si r, m => r.value m
  | hi p, m => m.pair p
  | qi r, m => m.get8 r

/-- The constant patterns, in the order in which they are tried, with their constraints: `D`, or
`r` for the logical shift right by 16, in SImode; `hbd` in HImode; `hbda`, or `ahd` for the logical
shift right, in QImode. -/
def constantShift {w : Nat} (code : ShiftCode) (dest : ConstDest w) (n : Nat) :
    Option (List Instr) :=
  match code, dest with
  | .ashift, .si r =>
      if r = .hl ∧ n = 1 then some ashlsi3Const1
      else if r = .hl ∧ n = 16 then some (ashlsi3Const16 r.low r.high)
      else none
  | .ashiftrt, .si r => if r = .hl ∧ n = 1 then some ashrsi3Const1 else none
  | .lshiftrt, .si r =>
      if r = .hl ∧ n = 1 then some lshrsi3Const1
      else if n = 16 then some (lshrsi3Const16 r.low r.high)
      else none
  | .ashift, .hi p =>
      if p ∉ [.hl, .bc, .de] then none
      else if n = 1 then some (ashlhi3Const1 p)
      else some (ashlhi3Const p n)
  | .ashiftrt, .hi p =>
      if p ∈ [.hl, .bc, .de] ∧ n = 1 then some (ashrhi3Const1 p) else none
  | .lshiftrt, .hi p =>
      if p ∉ [.hl, .bc, .de] then none
      else if n = 1 then some (lshrhi3Const1 p)
      else if n = 8 then some (lshrhi3Const8 p)
      else none
  | .ashift, .qi r =>
      if r ∉ [.a, .l, .e, .c] then none
      else if n = 1 then some (ashlqi3Const1 r)
      else some (ashlqi3Const r n)
  | .ashiftrt, .qi r =>
      if r ∉ [.a, .l, .e, .c] then none
      else if n = 1 then some (ashrqi3Const1 r)
      else some (ashrqi3Const r n)
  | .lshiftrt, .qi r =>
      if r ∈ [.a, .l, .e] ∧ n = 1 then some (lshrqi3Const1 r) else none

end Z80Gcc
