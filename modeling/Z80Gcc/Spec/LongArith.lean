import Z80Gcc.Spec.CompareBranch
import Z80Gcc.Spec.SplitMove

/-! The splits of 32-bit addition, subtraction, negation and complement. The accumulator is HL
with DE, the scratch register is BC, and a carry passes through the moves between the two
halves. -/

namespace Z80Gcc

/-- Operand 2 of `addsi3` and `subsi3`. -/
inductive LongSource where
  | reg (r : LongReg)
  | mem (a : Address)
  | constInt (v : Int)

def LongSource.operand : LongSource → LongOperand
  | reg r => .reg r
  | mem a => .mem a
  | constInt v => .constInt v

def LongReg.value (r : LongReg) (m : Machine) : BitVec 32 := m.pair r.high ++ m.pair r.low

def LongSource.value (s : LongSource) (m : Machine) : BitVec 32 :=
  match s with
  | reg r => r.value m
  | mem a => m.load16 (m.ea a.toMemRef + 2) ++ m.load16 (m.ea a.toMemRef)
  | constInt v => BitVec.ofInt 32 v

/-- `*addhi3`, its first alternative. -/
def addhi3 (q : Pair) : List Instr := [.add16 (.pair .hl) (.pair q)]

def adch (q : Pair) : List Instr := [.adc16 (.pair .hl) (.pair q)]

/-- `subhi3`; the carry is cleared by `or a,a`. -/
def subhi3 (q : Pair) : List Instr := [.alu .or (.reg .a), .sbc16 (.pair .hl) (.pair q)]

def swapAreg (p q : Pair) : List Instr := [.ex p q]

/-- The split of `addsi3`. Operands 4 and 5 are HL and DE; after the exchange the upper halves
are added under the name of the lower one. -/
def addsi3 (src : LongSource) : Option (List Instr) := do
  let low ← movhi (.reg .bc) (z80GenLowpart src.operand)
  let high ← movhi (.reg .bc) (z80GenHighpart src.operand)
  return low ++ addhi3 .bc ++ high ++ swapAreg .hl .de ++ adch .bc ++ swapAreg .hl .de

/-- The split of `subsi3`. The second subtraction takes operand 5, which is DE and by then holds
the lower difference. -/
def subsi3 (src : LongSource) : Option (List Instr) := do
  let low ← movhi (.reg .bc) (z80GenLowpart src.operand)
  let high ← movhi (.reg .bc) (z80GenHighpart src.operand)
  return low ++ subhi3 .bc ++ high ++ swapAreg .hl .de ++ subchi3 .de ++ swapAreg .hl .de

/-- The split of `neghi2` on `p` with the scratch register HL. -/
def neghi2 (p : Pair) : Option (List Instr) := do
  let zero ← movhi (.reg .hl) (.constInt 0)
  let back ← movhi (.reg p) (.reg .hl)
  return zero ++ subhi3 p ++ back

/-- The split of `one_cmplhi2` on `p` with the scratch register HL. -/
def oneCmplhi2 (p : Pair) : Option (List Instr) := do
  let ones ← movhi (.reg .hl) (.constInt (-1))
  let back ← movhi (.reg p) (.reg .hl)
  return ones ++ subhi3 p ++ back

/-- The splits of `negsi2` and `one_cmplsi2`: the lower half is treated in BC by the HImode insn
`inner`, the upper half is subtracted from `n`. -/
def splitThroughBc (inner : Pair → Option (List Instr)) (n : Int) : Option (List Instr) := do
  let park ← movhi (.reg .bc) (.reg .hl)
  let low ← inner .bc
  let load ← movhi (.reg .hl) (.constInt n)
  let high ← movhi (.reg .de) (.reg .hl)
  let back ← movhi (.reg .hl) (.reg .bc)
  return park ++ low ++ load ++ subchi3 .de ++ high ++ back

def negsi2 : Option (List Instr) := splitThroughBc neghi2 0

def oneCmplsi2 : Option (List Instr) := splitThroughBc oneCmplhi2 (-1)

end Z80Gcc
