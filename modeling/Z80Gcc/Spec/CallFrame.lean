import Mathlib
import Z80Gcc.Lib.CallFrame

/-! The call frame instructions that are recorded for a function (dwarf2out.c). -/

namespace Z80Gcc.Dwarf

/-- A `dw_cfi_node`, by its opcode. -/
inductive Cfi where
  | advanceLoc4 (label : String)
  | offset (regNum : Nat) (offset : Int)
  | offsetExtended (regNum : Nat) (offset : Int)
  | register (regNum sreg : Nat)
  | defCfa (regNum : Nat) (offset : Int)
  | defCfaRegister (regNum : Nat)
  | defCfaOffset (offset : Int)
  | gnuWindowSave
  | gnuArgsSize (size : Int)
  deriving DecidableEq, Repr

structure Fde where
  currentLabel : Option String
  cfi : List Cfi
  deriving DecidableEq, Repr

/-- The target's and the host's parts: `DWARF_FRAME_REGNUM`, `DWARF_CIE_DATA_ALIGNMENT`, `(unsigned long) -1`
and the labels of `ASM_GENERATE_INTERNAL_LABEL`. -/
structure FrameTarget where
  regnum : Nat → Nat
  dataAlignment : Int
  noReg : Nat
  label : Nat → String

/-- The Z80 keeps the register numbers, and its stack grows downward in words of two bytes. -/
def z80Frame : FrameTarget where
  regnum reg := reg
  dataAlignment := -2
  noReg := 2 ^ 32 - 1
  label n := s!".LCFI{n}"

/-- The static variables. `fde` is the last entry of `fde_table`, if there is one. -/
structure FrameState where
  cieCfi : List Cfi
  fde : Option Fde
  labelNum : Nat
  cfaReg : Nat
  cfaOffset : Int
  cfaStoreReg : Nat
  cfaStoreOffset : Int
  oldArgsSize : Int

section Source

variable (t : FrameTarget)

/-- `dwarf2out_cfi_label`, for an empty label. -/
def FrameState.cfiLabel (s : FrameState) (label : String) : String × FrameState :=
  if label = "" then (t.label s.labelNum, { s with labelNum := s.labelNum + 1 }) else (label, s)

/-- `add_cfi` on a function's list. -/
def Fde.addCfi (fde : Fde) (cfi : Cfi) : Fde := { fde with cfi := fde.cfi ++ [cfi] }

def Fde.advanceTo (fde : Fde) (label : String) : Fde :=
  if fde.currentLabel = some label then fde
  else { currentLabel := some label, cfi := fde.cfi ++ [.advanceLoc4 label] }

/-- `add_fde_cfi`; there has to be a function if there is a label. -/
def FrameState.addFdeCfi (s : FrameState) (label : Option String) (cfi : Cfi) : Option FrameState :=
  match label with
  | some label =>
    s.fde.map fun fde =>
      let (label, s) := s.cfiLabel t label
      { s with fde := some ((fde.advanceTo label).addCfi cfi) }
  | none => some { s with cieCfi := s.cieCfi ++ [cfi] }

def lookupCfa1 (p : Nat × Int) : Cfi → Nat × Int
  | .defCfaOffset offset => (p.1, offset)
  | .defCfaRegister regNum => (regNum, p.2)
  | .defCfa regNum offset => (regNum, offset)
  | _ => p

def FrameState.lookupCfa (s : FrameState) : Nat × Int :=
  let p := s.cieCfi.foldl lookupCfa1 (t.noReg, 0)
  match s.fde with
  | some fde => fde.cfi.foldl lookupCfa1 p
  | none => p

/-- `dwarf2out_def_cfa`. -/
def FrameState.defCfa (s : FrameState) (label : Option String) (reg : Nat) (offset : Int) : Option FrameState :=
  let s := { s with cfaReg := reg, cfaOffset := offset }
  let s := if s.cfaStoreReg = reg then { s with cfaStoreOffset := offset } else s
  let reg := t.regnum reg
  let (oldReg, oldOffset) := s.lookupCfa t
  if reg = oldReg ∧ offset = oldOffset then some s
  else
    s.addFdeCfi t label <|
      if reg = oldReg then .defCfaOffset offset
      else if offset = oldOffset ∧ oldReg ≠ t.noReg then .defCfaRegister reg
      else .defCfa reg offset

/-- `reg_save`; `none` for `sreg` is -1. A negative multiple of the alignment aborts. -/
def FrameState.regSave (s : FrameState) (label : Option String) (reg : Nat) (sreg : Option Nat) (offset : Int) :
    Option FrameState :=
  match sreg with
  | none =>
    let offset := offset.tdiv t.dataAlignment
    if offset < 0 then none
    else s.addFdeCfi t label (if 64 ≤ reg then .offsetExtended reg offset else .offset reg offset)
  | some sreg => s.addFdeCfi t label (.register reg sreg)

/-- `dwarf2out_window_save`. -/
def FrameState.windowSave (s : FrameState) (label : Option String) : Option FrameState :=
  s.addFdeCfi t label .gnuWindowSave

/-- `dwarf2out_args_size`. -/
def FrameState.argsSize (s : FrameState) (label : Option String) (size : Int) : Option FrameState :=
  if size = s.oldArgsSize then some s
  else { s with oldArgsSize := size }.addFdeCfi t label (.gnuArgsSize size)

/-- `dwarf2out_begin_prologue`, as far as the table is concerned. -/
def FrameState.beginPrologue (s : FrameState) : FrameState :=
  { s with fde := some { currentLabel := none, cfi := [] }, oldArgsSize := 0 }

end Source

/-- A call on a function; the label may be empty. -/
inductive FrameCall where
  | defCfa (label : String) (reg : Nat) (offset : Int)
  | regSave (label : String) (reg : Nat) (sreg : Option Nat) (offset : Int)
  | windowSave (label : String)
  | argsSize (label : String) (size : Int)
  deriving DecidableEq, Repr

def FrameCall.label : FrameCall → String
  | defCfa label .. | regSave label .. | windowSave label | argsSize label _ => label

def FrameState.call (t : FrameTarget) (s : FrameState) : FrameCall → Option FrameState
  | .defCfa label reg offset => s.defCfa t (some label) reg offset
  | .regSave label reg sreg offset => s.regSave t (some label) reg sreg offset
  | .windowSave label => s.windowSave t (some label)
  | .argsSize label size => s.argsSize t (some label) size

/-- Calls one after the other; `none` is `abort ()`. -/
def FrameState.calls (t : FrameTarget) (s : FrameState) : List FrameCall → Option FrameState
  | [] => some s
  | c :: cs => (s.call t c).bind fun s => s.calls t cs

section Meaning

inductive SaveRule where
  | atCfa (offset : Int)
  | inRegister (reg : Nat)

/-- What a `dw_cfi_node` means. -/
def Cfi.instr (t : FrameTarget) : Cfi → CallFrame.Instr String Nat Int SaveRule
  | advanceLoc4 label => .advance label
  | offset regNum off | offsetExtended regNum off => .save regNum (.atCfa (off * t.dataAlignment))
  | register regNum sreg => .save regNum (.inRegister sreg)
  | defCfa regNum off => .defCfa regNum off
  | defCfaRegister regNum => .defCfaRegister regNum
  | defCfaOffset off => .defCfaOffset off
  | gnuWindowSave | gnuArgsSize _ => .extension

/-- A reader of a list. -/
def replay (t : FrameTarget) (l : List Cfi) : CallFrame.Row String Nat Int SaveRule :=
  CallFrame.run (l.map (·.instr t))

/-- The list of the CIE with that of the function. -/
def FrameState.recorded (s : FrameState) : List Cfi := s.cieCfi ++ (s.fde.map (·.cfi)).getD []

/-- The frame address that was asked for last. -/
def lastCfa (t : FrameTarget) (p : Nat × Int) : List FrameCall → Nat × Int
  | [] => p
  | .defCfa _ reg offset :: cs => lastCfa t (t.regnum reg, offset) cs
  | _ :: cs => lastCfa t p cs

end Meaning

end Z80Gcc.Dwarf
