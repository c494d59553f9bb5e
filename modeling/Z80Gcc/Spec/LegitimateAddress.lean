import Z80Gcc.Spec.DoubleInt
import Z80Gcc.Spec.Frame
import Z80Gcc.Spec.SplitMove

/-! Which addresses `z80_go_if_legitimate_address` accepts, and the addresses of the two halves of
an access. -/

namespace Z80Gcc

/-- An address in RTL. A `PLUS` of two operands is an address, the other arithmetic codes are
`other`, as is a `MEM`. -/
inductive AddressRtx (h : Host) where
  | constInt (v : Int)
  | constDouble (v : DoubleInt h)
  | symbolRef (name : String)
  | labelRef (label : Nat)
  | const (x : AddressRtx h)
  | high (x : AddressRtx h)
  | constantPRtx (x : AddressRtx h)
  | reg (regno : Nat)
  | plus (x y : AddressRtx h)
  | preInc (x : AddressRtx h)
  | preDec (x : AddressRtx h)
  | postInc (x : AddressRtx h)
  | postDec (x : AddressRtx h)
  | other (n : Nat)

def hardIyRegnum : Nat := 4
def hardIxRegnum : Nat := 5
def hardSpRegnum : Nat := 6
def framePointerRegnum : Nat := hardIxRegnum
def argPointerRegnum : Nat := framePointerRegnum

def z80MinOffset : Int := -128
def z80MaxOffset : Int := 127

section Base

/-- `reg_renumber`: the hard register of each pseudo register, negative for none. -/
abbrev RegRenumber := Option (Nat → Int)

variable (renumber : RegRenumber)

/-- `REG_VALID_FOR_BASE_P`. -/
def regValidForBase (regno : Int) : Bool :=
  regno < firstPseudoRegister && (regno == hardIxRegnum || regno == hardIyRegnum)

/-- `REGNO_OK_FOR_BASE_P`. -/
def regnoOkForBase (regno : Nat) : Bool :=
  if regno < firstPseudoRegister then regValidForBase regno
  else
    match renumber with
    | none => false
    | some f => regValidForBase (f regno)

/-- `REGNO_OK_FOR_BASE_NONSTRICT_P`. -/
def regnoOkForBaseNonstrict (regno : Nat) : Bool :=
  decide (regno ≥ firstPseudoRegister) || regValidForBase regno ||
    regno == framePointerRegnum || regno == argPointerRegnum ||
    match renumber with
    | none => false
    | some f => regValidForBase (f regno)

/-- `REGNO_OK_FOR_BASE_P2`. -/
def regnoOkForBase2 (regno : Nat) (strict : Bool) : Bool :=
  if strict then regnoOkForBase renumber regno else regnoOkForBaseNonstrict renumber regno

end Base

namespace AddressRtx

variable {h : Host} (renumber : RegRenumber)

def constantP : AddressRtx h → Bool
  | labelRef _ | symbolRef _ | constInt _ | constDouble _ | const _ | high _ | constantPRtx _ =>
      true
  | _ => false

/-- `VALID_CONSTANT_OFFSET_P`, by the size of the mode. -/
def validConstantOffset (x : AddressRtx h) (size : Nat) : Bool :=
  match x with
  | constInt v => decide (z80MinOffset ≤ v) && decide (v ≤ z80MaxOffset - (size + 1))
  | _ => false

/-- `register_indirect_p`. -/
def registerIndirect (operand : AddressRtx h) (size : Nat) (strict : Bool) : Bool :=
  match operand with
  | postInc _ | preInc _ | postDec _ | preDec _ => false
  | plus (reg n) offset =>
      if !validConstantOffset offset size then false
      else if strict = false then true
      else regnoOkForBase2 renumber n strict
  | reg n => regnoOkForBase2 renumber n strict
  | _ => false

/-- `PUSH_POP_ADDRESS_P`. -/
def pushPopAddress : AddressRtx h → Bool
  | preDec (reg n) | postInc (reg n) => n == hardSpRegnum
  | _ => false

/-- `z80_go_if_legitimate_address`. -/
def goIfLegitimateAddress (operand : AddressRtx h) (size : Nat) (strict : Bool) : Bool :=
  if operand.constantP then true
  else if registerIndirect renumber operand size strict then true
  else operand.pushPopAddress

section PlusConstant

/-- The end of `plus_constant_wide`. -/
def plusConstantEnd (x : AddressRtx h) (c : Int) (allConstant : Bool) : AddressRtx h :=
  match if c ≠ 0 then plus x (constInt c) else x with
  | symbolRef name => symbolRef name
  | labelRef label => labelRef label
  | y => if allConstant then const y else y

/-- `plus_constant_wide` from the label `restart` on. -/
def plusConstantRestart : AddressRtx h → Int → Bool → AddressRtx h
  | constInt v, c, _ => constInt (v + c)
  | constDouble v, c, _ =>
      constDouble (v.addDouble ⟨BitVec.ofInt h.bits c, if c < 0 then -1 else 0⟩).1
  | const x, c, _ => plusConstantRestart x c true
  | symbolRef name, c, _ => plusConstantEnd (symbolRef name) c true
  | labelRef label, c, _ => plusConstantEnd (labelRef label) c true
  | plus x (constInt v), c, allConstant => plusConstantRestart x (c + v) allConstant
  | plus x y, c, allConstant =>
      if x.constantP then
        plusConstantEnd (plus (if c = 0 then x else plusConstantRestart x c false) y) 0 allConstant
      else if y.constantP then
        plusConstantEnd (plus x (if c = 0 then y else plusConstantRestart y c false)) 0 allConstant
      else plusConstantEnd (plus x y) c allConstant
  | x, c, allConstant => plusConstantEnd x c allConstant

def plusConstant (x : AddressRtx h) (c : Int) : AddressRtx h :=
  if c = 0 then x else plusConstantRestart x c false

end PlusConstant

section Halves

def unitsPerWord : Nat := 2

/-- `z80_auto_inc_p`. -/
def autoInc : AddressRtx h → Bool
  | preDec _ | postInc _ | postDec _ | preInc _ => true
  | _ => false

/-- `change_address` while or after reload works: an address that is not valid aborts. -/
def changeAddress (size : Nat) (addr : AddressRtx h) : Option (AddressRtx h) :=
  if goIfLegitimateAddress renumber addr size false then some addr else none

/-- The address of `z80_gen_lowpart` of a `MEM`; neither bytes nor words are big-endian. -/
def genLowpart (half : Nat) (addr : AddressRtx h) : Option (AddressRtx h) :=
  if addr.autoInc then some addr else changeAddress renumber half (addr.plusConstant 0)

/-- The address of `z80_gen_highpart` of a `MEM` of `size` bytes. -/
def genHighpart (half size : Nat) (addr : AddressRtx h) : Option (AddressRtx h) :=
  let offset : Int := (max size unitsPerWord : Nat) - (max half unitsPerWord : Nat)
  let offset := if half < unitsPerWord then offset - (half - (min unitsPerWord size : Nat))
    else offset
  if addr.autoInc then some addr else changeAddress renumber half (addr.plusConstant offset)

end Halves

section Value

def hardReg (m : Machine) (regno : Int) : Option (BitVec 16) :=
  if regno = 1 then some (m.pair .hl)
  else if regno = 2 then some (m.pair .de)
  else if regno = 3 then some (m.pair .bc)
  else if regno = hardIyRegnum then some (m.pair .iy)
  else if regno = hardIxRegnum then some (m.pair .ix)
  else if regno = hardSpRegnum then some m.sp
  else none

/-- The place that a sum of registers and numbers stands for. -/
def value (m : Machine) : AddressRtx h → Option (BitVec 16)
  | reg n =>
      if n < firstPseudoRegister then hardReg m n
      else renumber.bind fun f => hardReg m (f n)
  | constInt v => some (BitVec.ofInt 16 v)
  | plus x y => do
      let a ← value m x
      let b ← value m y
      return a + b
  | _ => none

/-- Every byte of an access of `size` bytes has an address with a signed 8-bit displacement from
IX or IY. -/
def Indexed (x : AddressRtx h) (size : Nat) : Prop :=
  ∃ r : BaseReg, ∀ i < size, ∃ k : BitVec 8, ∀ m,
    (x.value renumber m).map (· + BitVec.ofNat 16 i) = some (m.pair r.pair + k.signExtend 16)

end Value

end AddressRtx

end Z80Gcc
