import Z80Gcc.Spec.Instr

/-! Compare and branch: the insns that `z80_expand_compare_and_branch` emits, the output
templates of `cmphi_1`, `cmpqi_1`, `*subchi3` and of the twenty branch patterns of z80.md. -/

namespace Z80Gcc

open Z80Gcc.Halves Z80Gcc.Adder

inductive Code where
  | eq | ne | lt | le | gt | ge | ltu | leu | gtu | geu
  deriving DecidableEq, Repr

namespace Code

def swapCondition : Code → Code
  | eq => eq | ne => ne
  | lt => gt | le => ge | gt => lt | ge => le
  | ltu => gtu | leu => geu | gtu => ltu | geu => leu

def reverseCondition : Code → Code
  | eq => ne | ne => eq
  | lt => ge | le => gt | gt => le | ge => lt
  | ltu => geu | leu => gtu | gtu => leu | geu => ltu

/-- The relation that a code names, on two words of one width. -/
def holds {w : Nat} (k : Code) (x y : BitVec w) : Bool :=
  match k with
  | eq => x == y
  | ne => x != y
  | lt => x.slt y
  | le => x.sle y
  | gt => y.slt x
  | ge => y.sle x
  | ltu => x.ult y
  | leu => x.ule y
  | gtu => y.ult x
  | geu => y.ule x

end Code

/-- A branch insn: `(if_then_else (code (cc0) 0) (label_ref) (pc))`, or with the arms exchanged
as jump inversion leaves it. -/
structure Branch where
  code : Code
  negated : Bool
  deriving DecidableEq, Repr

namespace Branch

/-- The flag test of each template; `jr\t%c,%l0` of the negated `geu` is no valid text. -/
def template : Branch → Option Cond
  | ⟨.eq, false⟩ => some .z
  | ⟨.ne, false⟩ => some .nz
  | ⟨.gt, false⟩ => some .p
  | ⟨.gtu, false⟩ => some .nc
  | ⟨.lt, false⟩ => some .m
  | ⟨.ltu, false⟩ => some .c
  | ⟨.ge, false⟩ => some .p
  | ⟨.geu, false⟩ => some .nc
  | ⟨.le, false⟩ => some .m
  | ⟨.leu, false⟩ => some .c
  | ⟨.eq, true⟩ => some .nz
  | ⟨.ne, true⟩ => some .z
  | ⟨.gt, true⟩ => some .m
  | ⟨.gtu, true⟩ => some .c
  | ⟨.lt, true⟩ => some .p
  | ⟨.ltu, true⟩ => some .nc
  | ⟨.ge, true⟩ => some .m
  | ⟨.geu, true⟩ => none
  | ⟨.le, true⟩ => some .p
  | ⟨.leu, true⟩ => some .nc

/-- When the insn is to jump, given the two values compared. -/
def jumps {w : Nat} (b : Branch) (x y : BitVec w) : Bool := b.code.holds x y != b.negated

end Branch

inductive CmpMode where
  | qi | hi
  deriving DecidableEq, Repr

namespace CmpMode

def width : CmpMode → Nat
  | qi => 8
  | hi => 16

/-- Operand 1 of the compare: constraint `r` in QImode, `hbd` in HImode. -/
def Operand1 : CmpMode → Type
  | qi => Reg8
  | hi => {p : Pair // p = .hl ∨ p = .bc ∨ p = .de}

/-- Operand 0 of the compare: constraint `a` in QImode, `h` in HImode. -/
def value0 : (mode : CmpMode) → Machine → BitVec mode.width
  | qi, m => m.a
  | hi, m => m.pair .hl

def value1 : (mode : CmpMode) → mode.Operand1 → Machine → BitVec mode.width
  | qi, r, m => m.get8 r
  | hi, r, m => m.pair r.1

end CmpMode

def cmpqi1 (r : Reg8) : List Instr := [.alu .cp (.reg r)]

def cmphi1 (p : Pair) : List Instr :=
  [.alu .or (.reg .a), .sbc16 (.pair .hl) (.pair p)]

def subchi3 (p : Pair) : List Instr := [.sbc16 (.pair .hl) (.pair p)]

def CmpMode.cmp : (mode : CmpMode) → mode.Operand1 → List Instr
  | qi, r => cmpqi1 r
  | hi, r => cmphi1 r.1

/-- An insn that `z80_expand_compare_and_branch` emits. An operand stands for its value. -/
inductive Emit (w : Nat) where
  | compare (op0 op1 : BitVec w)
  | branch (b : Branch) (label : Nat)
  | subc (op0 op1 : BitVec w)
  | label (l : Nat)
  deriving DecidableEq, Repr

/-- The argument `isout`: the low half of a long value, a whole value, the high half. -/
inductive Isout where
  | low | whole | high
  deriving DecidableEq, Repr

/-- The QImode and HImode case of `z80_expand_compare_and_branch`. -/
def z80ExpandCompareAndBranch {w : Nat} (code : Code) (op0 op1 : BitVec w) (label : Nat)
    (isout : Isout) : List (Emit w) :=
  let swap := code = .gt ∨ code = .le ∨ code = .gtu ∨ code = .leu
  let code' := if swap then code.swapCondition else code
  let a := if swap then op1 else op0
  let b := if swap then op0 else op1
  match isout with
  | .whole => [.compare a b, .branch ⟨code', false⟩ label]
  | .low =>
      if code' = .eq ∨ code' = .ne then [.compare a b, .branch ⟨code', false⟩ label]
      else [.compare a b]
  | .high => [.subc a b, .branch ⟨code', false⟩ label]

/-- The SImode case; `label2` is the label that `gen_label_rtx` makes. -/
def z80ExpandCompareAndBranchSI (code : Code) (op0 op1 : BitVec 32) (label label2 : Nat) :
    List (Emit 16) :=
  let code1 := if code = .eq ∨ code = .ne then code.reverseCondition else code
  z80ExpandCompareAndBranch code1 (lo16 op0) (lo16 op1) label2 .low ++
    z80ExpandCompareAndBranch code (hi16 op0) (hi16 op1) label .high ++
    (if code = .eq ∨ code = .ne then [.label label2] else [])

/-- The moves that bring operands into place: they leave the flags alone. -/
def Instr.isMove : Instr → Bool
  | .nop | .ld8 .. | .ld16 .. | .st16 .. | .push _ | .pop _ | .ex .. => true
  | _ => false

/-- What `force_reg` and reload add before an insn whose operands are in constrained registers:
moves after which operand 0 and operand 1 are where the constraints want them. -/
structure Reload (mode : CmpMode) (m : Machine) (x y : BitVec mode.width) where
  moves : List Instr
  areMoves : ∀ i ∈ moves, i.isMove = true
  op1 : mode.Operand1
  value0_eq : mode.value0 (z80.execs moves m) = x
  value1_eq : mode.value1 op1 (z80.execs moves m) = y

namespace Reload

variable {mode : CmpMode} {m : Machine}

def cmp {x y : BitVec mode.width} (r : Reload mode m x y) : List Instr :=
  r.moves ++ mode.cmp r.op1

/-- `*subchi3` with its reloads. -/
def subc {x y : BitVec 16} (r : Reload .hi m x y) : List Instr :=
  r.moves ++ subchi3 r.op1.1

end Reload

/-- `Placed m insns code`: `code` is what final prints for the emitted insns when the operands of
each are delivered by moves, execution starting in state `m` and falling through branches. -/
inductive Placed : (mode : CmpMode) → Machine → List (Emit mode.width) → Listing → Prop
  | nil {mode m} : Placed mode m [] []
  | compare {mode m x y rest code} (r : Reload mode m x y)
      (h : Placed mode (z80.execs r.cmp m) rest code) :
      Placed mode m (.compare x y :: rest) (Asm.ops r.cmp ++ code)
  | branch {mode m b k l rest code} (hk : Branch.template b = some k)
      (h : Placed mode m rest code) :
      Placed mode m (.branch b l :: rest) (.jump k l :: code)
  | subc {m x y rest code} (r : Reload .hi m x y)
      (h : Placed .hi (z80.execs r.subc m) rest code) :
      Placed .hi m (.subc x y :: rest) (Asm.ops r.subc ++ code)
  | label {mode m l rest code} (h : Placed mode m rest code) :
      Placed mode m (.label l :: rest) (.label l :: code)

end Z80Gcc
