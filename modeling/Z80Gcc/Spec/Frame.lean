import Z80Gcc.Spec.Instr

/-! Function entry and exit: `expand_prologue`, `expand_epilogue` and the offsets by which the
frame pointer is eliminated. Hard registers carry the numbers of z80.h. -/

namespace Z80Gcc

/-- What `expand_prologue` and `expand_epilogue` ask of the function. `saved r` stands for
`regs_ever_live[r] && !call_used_regs[r]`. -/
structure FrameShape where
  size : Nat
  framePointerNeeded : Bool
  saved : Nat → Bool
  interruptOrTrap : Bool

def firstPseudoRegister : Nat := 19

/-- The registers that `*movhi2_push` and `*movhi2_pop` accept (`hbdx*y`). -/
def pushablePair : Nat → Option Pair
  | 1 => some .hl
  | 2 => some .de
  | 3 => some .bc
  | 4 => some .iy
  | 5 => some .ix
  | _ => none

namespace FrameShape

/-- The order of the loops over `regno`, in the prologue and in the epilogue alike. -/
def savedRegnos (f : FrameShape) : List Nat := (List.range firstPseudoRegister).filter f.saved

/-- The saved registers; nothing when one of them has no push insn. -/
def savedPairs (f : FrameShape) : Option (List Pair) := f.savedRegnos.mapM pushablePair

/-- Saving the caller's frame pointer and making the new one. -/
def createFrame (f : FrameShape) : List Instr :=
  if f.framePointerNeeded then
    [.push (.pair .ix), .ld16 (.pair .ix) (.imm 0), .add16 (.pair .ix) .sp]
  else []

def allocate (f : FrameShape) : List Instr :=
  if f.size > 0 then
    [.ld16 (.pair .iy) (.imm (-BitVec.ofNat 16 f.size)), .add16 (.pair .iy) .sp,
      .ld16 .sp (.reg (.pair .iy))]
  else []

def expandPrologue (f : FrameShape) : Option (List Instr) := do
  let saved ← f.savedPairs
  return f.createFrame ++ f.allocate ++ saved.map (fun p => .push (.pair p))

def expandEpilogue (f : FrameShape) : Option (List Instr) := do
  let saved ← f.savedPairs
  return saved.map (fun p => .pop (.pair p)) ++ [.ld16 .sp (.reg (.pair .ix))] ++
    (if f.framePointerNeeded then [.pop (.pair .ix)] else [])

def initialFramePointerOffset (f : FrameShape) : Nat :=
  ((List.range 8).filter f.saved).foldl (fun offset _ => offset + 2) f.size

end FrameShape

def firstParmOffset : Int := 4

/-- The text of `return_void`; both take the return address from the top of the stack. -/
inductive Return where
  | ret | retn
  deriving DecidableEq, Repr

def FrameShape.returnVoid (f : FrameShape) : Return :=
  if f.interruptOrTrap then .retn else .ret

/-- The return address taken, and the state afterwards. -/
def Return.exec (_ : Return) (m : Machine) : BitVec 16 × Machine := (m.pop, m.drop)

/-- The words that the function keeps on the stack, from SP at entry and SP after the prologue:
the return address, the caller's frame pointer, the saved registers. -/
def FrameShape.keptWords (f : FrameShape) (entry sp : BitVec 16) : List (BitVec 16) :=
  entry :: (if f.framePointerNeeded then [entry - 2] else []) ++
    (List.range f.savedRegnos.length).map fun i => sp + BitVec.ofNat 16 (2 * i)

/-- What the body of a function keeps: SP as the prologue left it, the words above, and the frame
pointer where there is one. -/
structure FrameShape.BodyKeeps (f : FrameShape) (entry : BitVec 16) (m m' : Machine) : Prop where
  sp : m'.sp = m.sp
  words : ∀ a ∈ f.keptWords entry m.sp,
    m'.mem a = m.mem a ∧ m'.mem (a + 1) = m.mem (a + 1)
  ix : f.framePointerNeeded = true → m'.pair .ix = m.pair .ix

namespace FrameShape

/-- Where a reference to FP + d goes in the function that sets up IX. -/
def framePointerAddress (f : FrameShape) (m : Machine) (d : Int) : Option (BitVec 16) := do
  let pro ← expandPrologue { f with framePointerNeeded := true }
  return (z80.execs pro m).pair .ix + BitVec.ofInt 16 d

/-- Where the same reference goes once FP is replaced by SP and the elimination offset. -/
def eliminatedAddress (f : FrameShape) (m : Machine) (d : Int) : Option (BitVec 16) := do
  let pro ← expandPrologue { f with framePointerNeeded := false }
  return (z80.execs pro m).sp + BitVec.ofNat 16 f.initialFramePointerOffset + BitVec.ofInt 16 d

/-- Both forms of the function exist and a reference means the same place in both. -/
def Agree (f : FrameShape) (m : Machine) (d : Int) : Prop :=
  ∃ a, f.framePointerAddress m d = some a ∧ f.eliminatedAddress m d = some a

end FrameShape

end Z80Gcc
