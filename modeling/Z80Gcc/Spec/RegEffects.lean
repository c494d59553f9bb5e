import Z80Gcc.Spec.ConstShift
import Z80Gcc.Spec.Extend

/-! The compare, add, extension and shift insns of z80.md with the general registers that their RTL
sets or clobbers. -/

namespace Z80Gcc

/-- The general registers; a byte in HL, DE or BC takes the whole register. -/
inductive GenReg where
  | a
  | pair (p : Pair)
  deriving DecidableEq, Repr

/-- The register holds in `m'` what it held in `m`. -/
def GenReg.Same (r : GenReg) (m m' : Machine) : Prop :=
  match r with
  | a => m'.a = m.a
  | pair p => m'.pair p = m.pair p

def Reg8.general : Reg8 → GenReg
  | .a => .a
  | .half p _ => .pair p

def Reg16.general : Reg16 → List GenReg
  | .pair p => [.pair p]
  | .sp => []

def LongReg.general (r : LongReg) : List GenReg := [.pair r.low, .pair r.high]

inductive AddSource (ρ : Type) where
  | reg (r : ρ)
  | mem (a : Address)
  | constInt (v : Int)
  deriving DecidableEq

def AddSource.src16 : AddSource Reg16 → Src16
  | reg r => .reg r
  | mem a => .mem a.toMemRef
  | constInt v => .imm (BitVec.ofInt 16 v)

def AddSource.src8 : AddSource Reg8 → Src8
  | reg r => .reg r
  | mem a => .mem a.toMemRef
  | constInt v => .imm (BitVec.ofInt 8 v)

def byteRegs : List Reg8 := [.a, .l, .e, .c]

section Add

/-- `addhi_sp`; its scratch register is IY. -/
def addhiSp (src : AddSource Reg16) : List Instr :=
  [.ld16 (.pair .iy) src.src16, .add16 (.pair .iy) .sp, .ld16 .sp (.reg (.pair .iy))]

def addhiMov (d : Pair) (b : BaseReg) (v : Int) : Option (List Instr) :=
  if -65536 ≤ v ∧ v ≤ 65535 then some [.lea (.pair d) (.idx b.pair (BitVec.ofInt 16 v))]
  else if d = b.pair then
    some [.push (.pair .bc), ldPairImm .bc (BitVec.ofInt 16 v), .add16 (.pair d) (.pair .bc),
      .pop (.pair .bc)]
  else none

/-- `*addhi3`, by its constraints `=h,xy,hxy,bd,xy`, `%0,0,bd,0,0` and `hbd!w,bd!w,mi,hxy,h`. What
the last alternative prints is no instruction: it names the register E in `ex hl,e`. -/
def addhi3Insn (d s : Pair) (src : AddSource Reg16) : Option (List Instr) :=
  match src with
  | .reg r =>
      if s ≠ d then none
      else if d = .hl then
        if r ∈ [.pair .hl, .pair .bc, .pair .de, .sp] then some [.add16 (.pair d) r] else none
      else if d = .ix ∨ d = .iy then
        if r ∈ [.pair .bc, .pair .de, .sp] then some [.add16 (.pair d) r] else none
      else if r ∈ [.pair .hl, .pair .ix, .pair .iy] then
        some [.add16 r (.pair s), .ld16 (.pair s) (.reg r)]
      else none
  | .mem _ | .constInt _ =>
      if d ∈ [.hl, .ix, .iy] ∧ s ∈ [.bc, .de] then
        some [.ld16 (.pair d) src.src16, .add16 (.pair d) (.pair s)]
      else none

/-- `*adch`. -/
def adchInsn (r : Reg16) : Option (List Instr) :=
  if r ∈ [.pair .hl, .pair .bc, .pair .de, .sp] then some [.adc16 (.pair .hl) r] else none

/-- `addqi3`, by its constraints `=a,r,a` and `U,N,ri`. -/
def addqi3 (d : Reg8) (src : AddSource Reg8) : Option (List Instr) :=
  match src with
  | .mem (.base b k) => if d = .a then some [.alu .add (.mem (.idx b.pair k))] else none
  | .mem (.const _) => none
  | .constInt v =>
      if (v = 1 ∨ v = -1) ∧ d ∈ byteRegs then
        some [if v = 1 then .inc8 (.reg d) else .dec8 (.reg d)]
      else if d = .a then some [.alu .add src.src8]
      else none
  | .reg r => if d = .a ∧ r ∈ byteRegs then some [.alu .add (.reg r)] else none

def adcq (src : AddSource Reg8) : List Instr := [.alu .adc src.src8]

/-- The additions; `inchi` and `dechi` are the nameless patterns for 1 and -1. -/
inductive AddInsn where
  | addsi3 (src : LongSource)
  | addhiSp (src : AddSource Reg16)
  | inchi (d : Reg16)
  | dechi (d : Reg16)
  | addhiMov (d : Pair) (b : BaseReg) (v : Int)
  | addhi3 (d s : Pair) (src : AddSource Reg16)
  | adch (r : Reg16)
  | addqi3 (d : Reg8) (src : AddSource Reg8)
  | adcq (src : AddSource Reg8)

namespace AddInsn

def code : AddInsn → Option (List Instr)
  | addsi3 src => Z80Gcc.addsi3 src
  | addhiSp src => some (Z80Gcc.addhiSp src)
  | inchi d => some [.inc16 d]
  | dechi d => some [.dec16 d]
  | addhiMov d b v => Z80Gcc.addhiMov d b v
  | addhi3 d s src => addhi3Insn d s src
  | adch r => adchInsn r
  | addqi3 d src => Z80Gcc.addqi3 d src
  | adcq src => some (Z80Gcc.adcq src)

/-- The registers set or clobbered: `addsi3` has a scratch register in BC, `addhi_sp` in IY. -/
def sets : AddInsn → List GenReg
  | addsi3 _ => [.pair .hl, .pair .de, .pair .bc]
  | addhiSp _ => [.pair .iy]
  | inchi d | dechi d => d.general
  | addhiMov d _ _ | addhi3 d _ _ => [.pair d]
  | adch _ => [.pair .hl]
  | addqi3 d _ => [d.general]
  | adcq _ => [.a]

end AddInsn

end Add

/-- The registers set or clobbered: `extendhisi2` has a scratch register in A. -/
def ExtendInsn.sets : ExtendInsn → List GenReg
  | zeroExtendqihi2 d | extendqihi2 d => d.general
  | zeroExtendqisi2 d _ | zeroExtendhisi2 d _ | extendqisi2 d => d.general
  | extendhisi2 d => .a :: d.general

def ConstDest.general {w : Nat} : ConstDest w → List GenReg
  | si r => r.general
  | hi p => [.pair p]
  | qi r => [r.general]

def ShiftDest.general {w : Nat} : ShiftDest w → List GenReg
  | si => LongReg.hl.general
  | hi p => [.pair p]
  | qi r => [r.general]

/-- A constant shift by any integer: a loop that counts down from a negative one prints nothing. -/
def constantShiftBy {w : Nat} (code : ShiftCode) (dest : ConstDest w) : Int → Option (List Instr)
  | .ofNat n => constantShift code dest n
  | .negSucc n =>
      match code, dest with
      | .ashift, .hi p => if p ∈ [.hl, .bc, .de] then some (ashlhi3Const p (.negSucc n)) else none
      | .ashift, .qi r => if r ∈ [.a, .l, .e, .c] then some (ashlqi3Const r (.negSucc n)) else none
      | .ashiftrt, .qi r => if r ∈ [.a, .l, .e, .c] then some (ashrqi3Const r (.negSucc n)) else none
      | _, _ => none

/-- The compare, add, extension and shift insns with their registers after reload. The labels of a
variable shift are new ones. -/
inductive Insn where
  | compare (mode : CmpMode) (op1 : mode.Operand1)
  | add (insn : AddInsn)
  | extend (insn : ExtendInsn)
  | constantShift {w : Nat} (code : ShiftCode) (dest : ConstDest w) (n : Int)
  | variableShift {w : Nat} (code : ShiftCode) (dest : ShiftDest w) (l0 l1 : Nat) (new : l0 ≠ l1)

namespace Insn

def listing : Insn → Option Listing
  | compare mode op1 => some (Asm.ops (mode.cmp op1))
  | add insn => insn.code.map Asm.ops
  | extend insn => insn.code.map Asm.ops
  | constantShift code dest n => (constantShiftBy code dest n).map Asm.ops
  | variableShift code dest l0 l1 _ => Z80Gcc.variableShift code dest l0 l1

/-- The general registers that the RTL of the insn sets or clobbers. -/
def sets : Insn → List GenReg
  | compare _ _ => []
  | add insn => insn.sets
  | extend insn => insn.sets
  | constantShift _ dest _ => dest.general
  | variableShift _ dest _ _ _ => dest.general

/-- Run from `m`, the code of the insn changes no general register but those. -/
def NoSideEffect (insn : Insn) (m : Machine) : Prop :=
  ∀ listing, insn.listing = some listing → ∀ t, z80.Runs listing m ⟨none, t⟩ →
    ∀ r, r ∉ insn.sets → r.Same m t

end Insn

end Z80Gcc
