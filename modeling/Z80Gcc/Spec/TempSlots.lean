import Mathlib.Data.Int.Bitwise
import Z80Gcc.Lib.Regions
import Z80Gcc.Spec.DoubleInt

/-! Temporary stack slots of a function whose frame grows downward: `assign_stack_local`,
`assign_stack_temp_for_type`, and what frees, keeps and combines the slots (function.c). -/

namespace Z80Gcc.TempSlots

section Machine

/-- `GET_MODE_ALIGNMENT`, in bits, of a mode with units of `unitSize` bytes. -/
def getModeAlignment (biggestAlignment unitSize : Nat) : Nat := min biggestAlignment (max 1 (unitSize * 8))

/-- What the target says. `BYTES_BIG_ENDIAN` is 0, and `LOCAL_ALIGNMENT` changes nothing. -/
structure Target (M : Type) where
  blk : M
  unitSize : M → Nat
  biggestAlignment : Nat
  startingFrameOffset : Int
  biggest : ∃ k, biggestAlignment = 8 * 2 ^ k
  regular : ∀ mode, mode ≠ blk → ∃ k, getModeAlignment biggestAlignment (unitSize mode) = 8 * 2 ^ k

/-- The modes of machmode.def; an object never has `VOIDmode`. -/
inductive Mode where
  | pqi | qi | phi | hi | psi | si | pdi | di | ti | oi | qf | hf | tqf | sf | df | xf | tf | qc | hc | sc
  | dc | xc | tc | cqi | chi | csi | cdi | cti | coi | blk | cc
  deriving DecidableEq

/-- `GET_MODE_UNIT_SIZE`. -/
def Mode.unitSize : Mode → Nat
  | .blk => 0
  | .pqi | .qi | .qf | .qc | .cqi => 1
  | .phi | .hi | .hf | .hc | .chi => 2
  | .tqf => 3
  | .psi | .si | .sf | .sc | .csi | .cc => 4
  | .pdi | .di | .df | .dc | .cdi => 8
  | .xf | .xc => 12
  | .ti | .tf | .tc | .cti => 16
  | .oi | .coi => 32

def z80 : Target Mode where
  blk := .blk
  unitSize := Mode.unitSize
  biggestAlignment := 8
  startingFrameOffset := 0
  biggest := ⟨0, rfl⟩
  regular := by
    intro mode hblk
    refine ⟨0, ?_⟩
    cases mode <;> first | rfl | exact absurd rfl hblk

/-- The options, and `virtuals_instantiated`. -/
structure Flags where
  strictAliasing : Bool
  expensiveOptimizations : Bool
  optimize : Nat
  virtualsInstantiated : Bool

inductive Base where
  | virtualStackVars | framePointer
  deriving DecidableEq, Repr

/-- A `MEM` of the frame, made by `plus_constant`. -/
structure Mem (M : Type) where
  mode : M
  base : Base
  offset : Int

variable {M : Type} [DecidableEq M] (t : Target M)

def Mem.address (x : Mem M) (fp : Int) : Int :=
  match x.base with
  | .virtualStackVars => fp + t.startingFrameOffset + x.offset
  | .framePointer => fp + x.offset

def Target.alignment (mode : M) : Int :=
  if mode = t.blk then t.biggestAlignment else getModeAlignment t.biggestAlignment (t.unitSize mode)

def floorRound (value align : Int) : Int := Int.land value (~~~(align - 1))

def ceilRound (value align : Int) : Int := Int.land (value + align - 1) (~~~(align - 1))

end Machine

/-- `struct temp_slot`, without the `address` of its aliases. -/
structure Slot (M : Type) where
  slot : Mem M
  size : Int
  align : Int
  aliasSet : Int
  rtlExpr : Option Nat
  inUse : Bool
  addrTaken : Bool
  level : Int
  keep : Int
  baseOffset : Int
  fullSize : Int

structure State (M : Type) where
  tempSlots : List (Slot M)
  tempSlotLevel : Int
  varTempSlotLevel : Int
  targetTempSlotLevel : Int
  sequenceRtlExpr : Option Nat
  frameOffset : Int

def State.start (M : Type) : State M := ⟨[], 0, 0, 0, none, 0⟩

variable {M : Type} [DecidableEq M] (h : Host) (t : Target M) (flags : Flags)

section Local

/-- Does a `HOST_WIDE_INT` hold the number? Signed overflow means nothing in C. -/
def Holds (n : Int) : Prop := -2 ^ (h.bits - 1) ≤ n ∧ n < 2 ^ (h.bits - 1)

instance (n : Int) : Decidable (Holds h n) := inferInstanceAs (Decidable (_ ∧ _))

/-- What `assign_stack_local` allocates, and the `frame_offset` it leaves. -/
structure Local (M : Type) where
  mem : Mem M
  size : Int
  frameOffset : Int

/-- `assign_stack_local`; `none` is an overflow. -/
def assignStackLocal (mode : M) (size align frameOffset : Int) : Option (Local M) :=
  let alignment :=
    if align = 0 then (t.alignment mode).tdiv 8
    else if align = -1 then (t.biggestAlignment : Int).tdiv 8
    else align.tdiv 8
  let rounded := if align = -1 then ceilRound size alignment else size
  if (align = -1 → Holds h (size + alignment - 1)) ∧ Holds h (frameOffset - rounded) then
    let offset := floorRound (frameOffset - rounded) alignment
    some {
      mem := if flags.virtualsInstantiated then ⟨mode, .framePointer, offset + t.startingFrameOffset⟩
        else ⟨mode, .virtualStackVars, offset⟩
      size := rounded
      frameOffset := offset }
  else none

end Local

section Temp

/-- The arguments of `assign_stack_temp_for_type`; `aliasSet` is 0 without a type. -/
structure Request (M : Type) where
  mode : M
  size : Int
  keep : Int
  aliasSet : Int

/-- What `oballoc` leaves in the fields that nothing sets. -/
structure Stale where
  aliasSet : Int
  level : Int
  keep : Int

def Slot.suits (p : Slot M) (r : Request M) : Bool :=
  decide (t.alignment r.mode ≤ p.align) && decide (r.size ≤ p.size) && p.slot.mode = r.mode && !p.inUse &&
    (!flags.strictAliasing || r.aliasSet ≠ 0 && p.aliasSet = r.aliasSet)

def Slot.better (p : Slot M) (best : Option (Nat × Slot M)) : Bool :=
  best.all fun b => decide (p.size < b.2.size) || b.2.size = p.size && decide (p.align < b.2.align)

/-- How the search ends: with a slot that meets the request exactly, with the best one, or with none. -/
inductive Choice (M : Type) where
  | exact (i : Nat) (p : Slot M)
  | best (i : Nat) (p : Slot M)
  | new

/-- "Choose the smallest one with the closest alignment"; `i` is the place of the next slot. -/
def search (r : Request M) : Nat → Option (Nat × Slot M) → List (Slot M) → Choice M
  | _, none, [] => .new
  | _, some b, [] => .best b.1 b.2
  | i, best, p :: rest =>
    if p.suits t flags r && p.better best then
      if p.align = t.alignment r.mode ∧ p.size = r.size then .exact i p else search r (i + 1) (some (i, p)) rest
    else search r (i + 1) best rest

/-- The leftover of a slot of which `rounded` bytes are used. -/
def Slot.leftover (p : Slot M) (stale : Stale) (rounded : Int) : Slot M where
  slot := { p.slot with mode := t.blk, offset := p.slot.offset + rounded }
  size := p.size - rounded
  align := p.align
  aliasSet := stale.aliasSet
  rtlExpr := none
  inUse := false
  addrTaken := false
  level := stale.level
  keep := stale.keep
  baseOffset := p.baseOffset + rounded
  fullSize := p.fullSize - rounded

def Slot.shrunk (p : Slot M) (rounded : Int) : Slot M := { p with size := rounded, fullSize := rounded }

def State.claim (s : State M) (keep : Int) (p : Slot M) : Slot M :=
  { p with
    inUse := true
    addrTaken := false
    rtlExpr := s.sequenceRtlExpr
    level := if keep = 2 then s.targetTempSlotLevel else if keep = 3 then s.varTempSlotLevel else s.tempSlotLevel
    keep := if keep = 2 ∨ keep = 3 then 0 else keep }

/-- The slot at place `i` is used. -/
def State.useSlot (s : State M) (r : Request M) (i : Nat) (p : Slot M) : Slot M × State M :=
  let q := s.claim r.keep p
  (q, { s with tempSlots := s.tempSlots.set i q })

/-- The slot at place `i` is used, and "if there are enough aligned bytes left over" they become a slot of their
own. -/
def State.useBest (s : State M) (r : Request M) (stale : Stale) (i : Nat) (p : Slot M) :
    Option (Slot M × State M) :=
  let alignment := p.align.tdiv 8
  let rounded := ceilRound r.size alignment
  if p.slot.mode = t.blk ∧ flags.strictAliasing = false then
    if ¬ Holds h (r.size + alignment - 1) then none
    else if alignment ≤ p.size - rounded then
      let q := s.claim r.keep (p.shrunk rounded)
      some (q, { s with tempSlots := p.leftover t stale rounded :: s.tempSlots.set i q })
    else some (s.useSlot r i p)
  else some (s.useSlot r i p)

def State.useNew (s : State M) (r : Request M) : Option (Slot M × State M) :=
  let align := t.alignment r.mode
  if r.mode = t.blk ∧ align < t.biggestAlignment then none
  else
    let size := if r.mode = t.blk then ceilRound r.size (align.tdiv 8) else r.size
    if r.mode = t.blk → Holds h (r.size + align.tdiv 8 - 1) then
      (assignStackLocal h t flags r.mode size align s.frameOffset).map fun x =>
        let p := s.claim r.keep {
          slot := x.mem
          size := s.frameOffset - x.frameOffset
          align := align
          aliasSet := r.aliasSet
          rtlExpr := none
          inUse := false
          addrTaken := false
          level := 0
          keep := 0
          baseOffset := x.frameOffset
          fullSize := s.frameOffset - x.frameOffset }
        (p, { s with tempSlots := p :: s.tempSlots, frameOffset := x.frameOffset })
    else none

/-- `assign_stack_temp_for_type`; `none` is a call of `abort`, or an overflow. -/
def State.assignStackTemp (s : State M) (r : Request M) (stale : Stale) : Option (Slot M × State M) :=
  if r.size = -1 then none
  else
    match search t flags r 0 none s.tempSlots with
    | .exact i p => some (s.useSlot r i p)
    | .best i p => s.useBest h t flags r stale i p
    | .new => s.useNew h t flags r

end Temp

section Combine

def Slot.combinable (p : Slot M) : Bool := !p.inUse && p.slot.mode = t.blk

/-- `q` is combined into `p`. -/
def Slot.absorb (p q : Slot M) : Slot M := { p with size := p.size + q.size, fullSize := p.fullSize + q.fullSize }

/-- The inner loop, over the slots after `p`: what becomes of `p`, and of them. -/
def combineWith (p : Slot M) : List (Slot M) → Option (Slot M) × List (Slot M)
  | [] => (some p, [])
  | q :: rest =>
    if q.combinable t && p.baseOffset + p.fullSize = q.baseOffset then combineWith (p.absorb q) rest
    else if q.combinable t && q.baseOffset + q.fullSize = p.baseOffset then (none, q.absorb p :: rest)
    else
      let r := combineWith p rest
      (r.1, q :: r.2)

theorem combineWith_length (p : Slot M) (rest : List (Slot M)) :
    (combineWith t p rest).2.length ≤ rest.length := by
  induction rest generalizing p with
  | nil => exact Nat.le_refl 0
  | cons q rest ih =>
    unfold combineWith
    split_ifs
    · exact (ih _).trans (Nat.le_succ _)
    · exact Nat.le_refl _
    · exact Nat.succ_le_succ (ih p)

def combineSlots : List (Slot M) → List (Slot M)
  | [] => []
  | p :: rest =>
    if p.combinable t then
      let r := combineWith t p rest
      have := combineWith_length t p rest
      r.1.toList ++ combineSlots r.2
    else p :: combineSlots rest
  termination_by l => l.length

/-- "If there are a lot of temp slots, don't do anything." -/
def tooMany (l : List (Slot M)) : Bool :=
  (List.range l.length).any fun i => decide (100 < i) || decide (10 < i) && flags.optimize = 0

def combineTempSlots (l : List (Slot M)) : List (Slot M) :=
  if flags.strictAliasing then l
  else if !flags.expensiveOptimizations && tooMany flags l then l
  else combineSlots t l

end Combine

section Levels

/-- An address that is looked up: which slots it is known to belong to, as a pointer, and its offset when it is a sum
with `virtual_stack_vars_rtx`. -/
structure Reference (M : Type) where
  same : Slot M → Bool
  offset : Option Int

/-- `find_temp_slot_from_address`; the place of the slot. -/
def findTempSlot (x : Reference M) (l : List (Slot M)) : Option Nat :=
  l.findIdx? fun p => p.inUse &&
    (x.same p || x.offset.any fun n => decide (p.baseOffset ≤ n) && decide (n < p.baseOffset + p.fullSize))

/-- The operand of `preserve_temp_slots`: no rtx, a register, a `MEM` at an address that is not constant, or anything
else. -/
inductive Operand (M : Type) where
  | null
  | reg (pointer : Bool) (x : Reference M)
  | mem (address : Reference M)
  | other

def State.raiseTaken (s : State M) : State M :=
  { s with tempSlots := s.tempSlots.map fun p =>
      if p.inUse && p.level = s.tempSlotLevel && p.addrTaken then { p with level := p.level - 1 } else p }

/-- The slot at place `i` is kept. -/
def State.preserveAt (s : State M) (i : Nat) : State M :=
  match s.tempSlots[i]? with
  | none => s
  | some p =>
    if p.level = s.tempSlotLevel then
      { s with tempSlots := s.tempSlots.mapIdx fun j q =>
          if j = i then { q with level := q.level - 1, addrTaken := false }
          else if q.addrTaken && q.level = p.level then { q with level := q.level - 1 }
          else q }
    else s

def State.preserveTempSlots (s : State M) : Operand M → State M
  | .null | .other => s.raiseTaken
  | .reg pointer x =>
    match if pointer then findTempSlot x s.tempSlots else none with
    | some i => s.preserveAt i
    | none => s.raiseTaken
  | .mem address =>
    match findTempSlot address s.tempSlots with
    | some i => s.preserveAt i
    | none =>
      { s with tempSlots := s.tempSlots.map fun p =>
          if p.inUse && p.level = s.tempSlotLevel && p.keep = 0 then { p with level := p.level - 1 } else p }

def State.markTempAddrTaken (s : State M) (x : Reference M) : State M :=
  match findTempSlot x s.tempSlots with
  | none => s
  | some i => { s with tempSlots := s.tempSlots.modify i fun p => { p with addrTaken := true } }

def State.preserveRtlExprResult (s : State M) (x : Reference M) : State M :=
  match findTempSlot x s.tempSlots with
  | none => s
  | some i =>
    { s with tempSlots := s.tempSlots.modify i fun p =>
        { p with level := min p.level s.tempSlotLevel, rtlExpr := none } }

def State.release (s : State M) (cond : Slot M → Bool) : State M :=
  { s with tempSlots := s.tempSlots.map fun p => if cond p then { p with inUse := false } else p }

def State.combine (s : State M) : State M := { s with tempSlots := combineTempSlots t flags s.tempSlots }

def State.freeTempSlots (s : State M) : State M :=
  (s.release fun p => p.inUse && p.level = s.tempSlotLevel && p.keep = 0 && p.rtlExpr.isNone).combine t flags

def State.freeTempsForRtlExpr (s : State M) (e : Option Nat) : State M :=
  (s.release fun p => p.rtlExpr = e).combine t flags

def State.popTempSlots (s : State M) : State M :=
  let s' := (s.release fun p => p.inUse && p.level = s.tempSlotLevel && p.rtlExpr.isNone).combine t flags
  { s' with tempSlotLevel := s.tempSlotLevel - 1 }

def State.markAllTempsUsed (s : State M) : State M :=
  { s with tempSlots := s.tempSlots.map fun p =>
      { p with inUse := true, keep := 1, level := min p.level s.tempSlotLevel } }

end Levels

section Runs

structure Region where
  offset : Int
  size : Int

def Region.bytes (r : Region) : Set Int := Set.Ico r.offset (r.offset + r.size)

def Slot.bytes (p : Slot M) : Set Int := Set.Ico p.baseOffset (p.baseOffset + p.fullSize)

inductive Action (M : Type) where
  | temp (r : Request M) (stale : Stale)
  | stackLocal (mode : M) (size align : Int)
  | free
  | freeFor (e : Option Nat)
  | preserve (x : Operand M)
  | preserveResult (x : Reference M)
  | addrTaken (x : Reference M)
  | markAll
  | push
  | pushForBlock
  | pushForTarget
  | setTargetLevel (level : Int)
  | pop
  | sequence (e : Option Nat)
  | combine

/-- What callers keep to: sizes are not negative (-1 is a variable size), and an alignment is 0, -1 or a power of two
of at least a byte. -/
def Action.Valid : Action M → Prop
  | .temp r _ => -1 ≤ r.size
  | .stackLocal _ size align => 0 ≤ size ∧ (align = 0 ∨ align = -1 ∨ ∃ k : Nat, align = 8 * 2 ^ k)
  | _ => True

inductive Outcome (M : Type) where
  | nothing
  | slot (p : Slot M)
  | region (r : Region)

def step (s : State M) : Action M → Option (State M × Outcome M)
  | .temp r stale => (s.assignStackTemp h t flags r stale).map fun x => (x.2, .slot x.1)
  | .stackLocal mode size align =>
    (assignStackLocal h t flags mode size align s.frameOffset).map fun x =>
      ({ s with frameOffset := x.frameOffset }, .region ⟨x.frameOffset, x.size⟩)
  | .free => some (s.freeTempSlots t flags, .nothing)
  | .freeFor e => some (s.freeTempsForRtlExpr t flags e, .nothing)
  | .preserve x => some (s.preserveTempSlots x, .nothing)
  | .preserveResult x => some (s.preserveRtlExprResult x, .nothing)
  | .addrTaken x => some (s.markTempAddrTaken x, .nothing)
  | .markAll => some (s.markAllTempsUsed, .nothing)
  | .push => some ({ s with tempSlotLevel := s.tempSlotLevel + 1 }, .nothing)
  | .pushForBlock =>
    some ({ s with tempSlotLevel := s.tempSlotLevel + 1, varTempSlotLevel := s.tempSlotLevel + 1 }, .nothing)
  | .pushForTarget =>
    some ({ s with tempSlotLevel := s.tempSlotLevel + 1, targetTempSlotLevel := s.tempSlotLevel + 1 }, .nothing)
  | .setTargetLevel level => some ({ s with targetTempSlotLevel := level }, .nothing)
  | .pop => some (s.popTempSlots t flags, .nothing)
  | .sequence e => some ({ s with sequenceRtlExpr := e }, .nothing)
  | .combine => some (s.combine t flags, .nothing)

def Outcome.regions : Outcome M → List Region
  | .region r => [r]
  | _ => []

/-- The states that calls lead to, with the regions that were handed out directly. -/
inductive Reached : State M → List Region → Prop
  | start : Reached (State.start M) []
  | step {s s' : State M} {locals : List Region} {a : Action M} {out : Outcome M} (hs : Reached s locals)
      (ha : a.Valid) (hstep : step h t flags s a = some (s', out)) : Reached s' (out.regions ++ locals)

end Runs

section Purpose

open Regions

/-- The regions of the slots, and those handed out directly. -/
def State.regions (s : State M) (locals : List Region) : List (Set Int) :=
  s.tempSlots.map Slot.bytes ++ locals.map Region.bytes

/-- How the frame is laid out. -/
structure LaidOut (s : State M) (locals : List Region) : Prop where
  separate : Separate (s.regions locals)
  inside : ∀ r ∈ s.regions locals, r ⊆ Set.Ico s.frameOffset 0
  address : ∀ p ∈ s.tempSlots, ∀ fp, p.slot.address t fp = fp + t.startingFrameOffset + p.baseOffset
  size : ∀ p ∈ s.tempSlots, 0 ≤ p.size ∧ p.size ≤ p.fullSize

/-- A slot that is right for a request. -/
structure SlotRight (r : Request M) (s s' : State M) (p : Slot M) : Prop where
  mem : p ∈ s'.tempSlots
  unused : ∃ b, p.bytes ⊆ b ∧ (b = Set.Ico s'.frameOffset s.frameOffset ∨
    ∃ q ∈ s.tempSlots, q.inUse = false ∧ b = q.bytes)
  others : ∀ q ∈ s.tempSlots, q.inUse = true → q ∈ s'.tempSlots ∧ Disjoint q.bytes p.bytes
  mode : p.slot.mode = r.mode
  size : r.size ≤ p.size
  aligned : (t.alignment r.mode).tdiv 8 ∣ p.baseOffset

/-- What a call does to the bytes of the slots: only a temporary adds some, those by which the frame grows. -/
def NoByteLost (a : Action M) (s s' : State M) : Prop :=
  covered (s'.tempSlots.map Slot.bytes) = covered (s.tempSlots.map Slot.bytes) ∪
    match a with
    | .temp .. => Set.Ico s'.frameOffset s.frameOffset
    | _ => ∅

end Purpose

end Z80Gcc.TempSlots
