import Mathlib.Data.BitVec
import Mathlib.Logic.Function.Basic
import Z80Gcc.Lib.LinkedList
import Z80Gcc.Spec.DoubleInt

/-! Bitmaps (bitmap.c): sets of integers as linked lists of elements, which are taken from a free
list that all bitmaps share. An operation gives `none` where the code follows a null pointer or
does not end. -/

namespace Z80Gcc.Bitmap

open Z80Gcc.LinkedList

/-- `bitmap_element`, with `BITMAP_ELEMENT_WORDS` 2. -/
structure Element (h : Host) where
  next : Option Nat
  prev : Option Nat
  indx : Nat
  bits : Fin 2 → BitVec h.bits

/-- `bitmap_head`. -/
structure Head where
  first : Option Nat
  current : Option Nat
  indx : Nat
  deriving DecidableEq

/-- The elements by address, the number of them taken from the obstack, the free list, and the
heads of the bitmaps. -/
structure State (h : Host) (B : Type) where
  elt : Nat → Element h
  allocated : Nat
  bitmapFree : Option Nat
  head : B → Head

/-- `enum bitmap_bits`. -/
inductive BitmapBits where
  | and
  | andCompl
  | ior
  deriving DecidableEq

namespace BitmapBits

def words {w : Nat} : BitmapBits → BitVec w → BitVec w → BitVec w
  | and, x, y => x &&& y
  | andCompl, x, y => x &&& ~~~y
  | ior, x, y => x ||| y

end BitmapBits

variable {h : Host} {B : Type} [DecidableEq B]

namespace State

def setElt (st : State h B) (a : Nat) (e : Element h) : State h B :=
  { st with elt := Function.update st.elt a e }

def setNext (st : State h B) (a : Nat) (n : Option Nat) : State h B :=
  st.setElt a { st.elt a with next := n }

def setPrev (st : State h B) (a : Nat) (p : Option Nat) : State h B :=
  st.setElt a { st.elt a with prev := p }

def setHead (st : State h B) (b : B) (hd : Head) : State h B :=
  { st with head := Function.update st.head b hd }

def setFree (st : State h B) (f : Option Nat) : State h B := { st with bitmapFree := f }

end State

section Bits

variable (h)

/-- `bit / BITMAP_ELEMENT_ALL_BITS`; an `int` is converted to unsigned. -/
def indxOf (bit : BitVec 32) : Nat := bit.toNat / (2 * h.bits)

def wordNum (bit : BitVec 32) : Fin 2 := ⟨bit.toNat / h.bits % 2, Nat.mod_lt _ (by decide)⟩

def bitNum (bit : BitVec 32) : Nat := bit.toNat % h.bits

def bitVal (bit : BitVec 32) : BitVec h.bits := (1 : BitVec h.bits) <<< bitNum h bit

end Bits

def bitmapZero : Element h := ⟨none, none, 0, fun _ => 0⟩

def Element.zerop (e : Element h) : Bool := e.bits 0 ||| e.bits 1 = 0

def bitmapElementFree (b : B) (elt : Nat) (st : State h B) : State h B :=
  let next := (st.elt elt).next
  let prev := (st.elt elt).prev
  let st := match prev with
    | some p => st.setNext p next
    | none => st
  let st := match next with
    | some n => st.setPrev n prev
    | none => st
  let hd := st.head b
  let hd := if hd.first = some elt then { hd with first := next } else hd
  -- the current element changes, but not the index that is kept with it
  let hd := if hd.current = some elt then { hd with current := next.or prev } else hd
  ((st.setHead b hd).setNext elt st.bitmapFree).setFree (some elt)

def bitmapElementAllocate (st : State h B) : Nat × State h B :=
  let (element, st) := match st.bitmapFree with
    | some element => (element, st.setFree (st.elt element).next)
    | none => (st.allocated, { st with allocated := st.allocated + 1 })
  (element, st.setElt element { st.elt element with bits := fun _ => 0 })

def bitmapElementLink (b : B) (element : Nat) (st : State h B) : Option (State h B) := do
  let indx := (st.elt element).indx
  let hd := st.head b
  let st ←
    if hd.first = none then
      some ((st.setElt element { st.elt element with next := none, prev := none }).setHead b
        { hd with first := some element })
    else if indx < hd.indx then do
      let ptr ← walk (fun a => (st.elt a).prev) (fun _ p => indx < (st.elt p).indx) st.allocated
        (← hd.current)
      let prev := (st.elt ptr).prev
      let st := match prev with
        | some p => st.setNext p (some element)
        | none => st.setHead b { hd with first := some element }
      some ((st.setElt element { st.elt element with next := some ptr, prev := prev }).setPrev ptr
        (some element))
    else do
      let ptr ← walk (fun a => (st.elt a).next) (fun _ n => (st.elt n).indx < indx) st.allocated
        (← hd.current)
      let next := (st.elt ptr).next
      let st := match next with
        | some n => st.setPrev n (some element)
        | none => st
      some ((st.setElt element { st.elt element with next := next, prev := some ptr }).setNext ptr
        (some element))
  return st.setHead b { st.head b with current := some element, indx := indx }

/-- A list of elements is pushed on the free list one by one. -/
def freeElements : Nat → Option Nat → State h B → Option (State h B)
  | _, none, st => some st
  | 0, some _, _ => none
  | fuel + 1, some element, st =>
    freeElements fuel (st.elt element).next
      ((st.setNext element st.bitmapFree).setFree (some element))

def bitmapClear (b : B) (st : State h B) : Option (State h B) := do
  let st ← freeElements st.allocated (st.head b).first st
  return st.setHead b { st.head b with first := none, current := none }

/-- The loop of `bitmap_copy`. -/
def copyElements (to' : B) : Nat → Option Nat → Option Nat → State h B → Option (State h B)
  | _, none, _, st => some st
  | 0, some _, _, _ => none
  | fuel + 1, some fromPtr, toPtr, st =>
    let (toElt, st) := bitmapElementAllocate st
    let st := st.setElt toElt
      { st.elt toElt with indx := (st.elt fromPtr).indx, bits := (st.elt fromPtr).bits }
    let st := match toPtr with
      | none =>
        (st.setHead to' ⟨some toElt, some toElt, (st.elt fromPtr).indx⟩).setElt toElt
          { st.elt toElt with next := none, prev := none }
      | some p =>
        (st.setElt toElt { st.elt toElt with prev := some p, next := none }).setNext p (some toElt)
    copyElements to' fuel (st.elt fromPtr).next (some toElt) st

def bitmapCopy (to' from' : B) (st : State h B) : Option (State h B) := do
  let st ← bitmapClear to' st
  copyElements to' st.allocated (st.head from').first none st

def bitmapFindBit (b : B) (bit : BitVec 32) (st : State h B) : Option (Option Nat × State h B) :=
  let indx := indxOf h bit
  match (st.head b).current with
  | none => some (none, st)
  | some current => do
    let element ←
      if (st.head b).indx > indx then
        walk (fun a => (st.elt a).prev) (fun a _ => (st.elt a).indx > indx) st.allocated current
      else
        walk (fun a => (st.elt a).next) (fun a _ => (st.elt a).indx < indx) st.allocated current
    let st := st.setHead b { st.head b with current := some element, indx := (st.elt element).indx }
    return (if (st.elt element).indx ≠ indx then none else some element, st)

def bitmapClearBit (b : B) (bit : BitVec 32) (st : State h B) : Option (State h B) := do
  let (ptr, st) ← bitmapFindBit b bit st
  match ptr with
  | none => return st
  | some ptr =>
    let e := st.elt ptr
    let st := st.setElt ptr { e with
      bits := Function.update e.bits (wordNum h bit) (e.bits (wordNum h bit) &&& ~~~bitVal h bit) }
    return if (st.elt ptr).zerop then bitmapElementFree b ptr st else st

def bitmapSetBit (b : B) (bit : BitVec 32) (st : State h B) : Option (State h B) := do
  let (ptr, st) ← bitmapFindBit b bit st
  match ptr with
  | none =>
    let (ptr, st) := bitmapElementAllocate st
    let e := st.elt ptr
    let st := st.setElt ptr
      { e with indx := indxOf h bit, bits := Function.update e.bits (wordNum h bit) (bitVal h bit) }
    bitmapElementLink b ptr st
  | some ptr =>
    let e := st.elt ptr
    return st.setElt ptr { e with
      bits := Function.update e.bits (wordNum h bit) (e.bits (wordNum h bit) ||| bitVal h bit) }

def bitmapBitP (b : B) (bit : BitVec 32) (st : State h B) : Option (Bool × State h B) := do
  let (ptr, st) ← bitmapFindBit b bit st
  match ptr with
  | none => return (false, st)
  | some ptr => return ((st.elt ptr).bits (wordNum h bit) &&& bitVal h bit ≠ 0, st)

/-- `ptr ? ptr->indx : ~0`, as an `unsigned int`. -/
def indxOr (st : State h B) (ptr : Option Nat) : Nat :=
  match ptr with
  | some a => (st.elt a).indx
  | none => 2 ^ 32 - 1

/-- Where the loop of `bitmap_operation` is in its two operands. -/
structure Operands where
  from1 : Option Nat
  from2 : Option Nat
  indx1 : Nat
  indx2 : Nat
  deriving DecidableEq

/-- The elements of one turn, null for `bitmap_zero`, their index, and the operands behind them. -/
structure Turn where
  indx : Nat
  tmp1 : Option Nat
  tmp2 : Option Nat
  rest : Operands
  deriving DecidableEq

/-- Figure out whether we need to substitute zero elements for missing links. -/
def takeElements (st : State h B) (o : Operands) : Option Turn :=
  let step (ptr : Option Nat) : Option (Option Nat × Nat) :=
    ptr.map fun a => ((st.elt a).next, indxOr st (st.elt a).next)
  if o.indx1 = o.indx2 then do
    let (from1, indx1) ← step o.from1
    let (from2, indx2) ← step o.from2
    return ⟨o.indx1, o.from1, o.from2, ⟨from1, from2, indx1, indx2⟩⟩
  else if o.indx1 < o.indx2 then do
    let (from1, indx1) ← step o.from1
    return ⟨o.indx1, o.from1, none, { o with from1 := from1, indx1 := indx1 }⟩
  else do
    let (from2, indx2) ← step o.from2
    return ⟨o.indx2, none, o.from2, { o with from2 := from2, indx2 := indx2 }⟩

/-- The bits of an element, or of `bitmap_zero`. -/
def bitsOf (st : State h B) (tmp : Option Nat) : Fin 2 → BitVec h.bits :=
  match tmp with
  | some a => (st.elt a).bits
  | none => bitmapZero.bits

/-- The loop of `bitmap_operation`, which leaves an element that it has not used. -/
def operationLoop (to' : B) (operation : BitmapBits) :
    Nat → Operands → Option Nat → State h B → Option (Option Nat × State h B)
  | _, ⟨none, none, _, _⟩, toPtr, st => some (toPtr, st)
  | 0, _, _, _ => none
  | fuel + 1, o, toPtr, st => do
    let turn ← takeElements st o
    let (ptr, st) := match toPtr with
      | some a => (a, st)
      | none => bitmapElementAllocate st
    let bits1 := bitsOf st turn.tmp1
    let bits2 := bitsOf st turn.tmp2
    let st := st.setElt ptr { st.elt ptr with bits := fun i => operation.words (bits1 i) (bits2 i) }
    if (st.elt ptr).zerop then operationLoop to' operation fuel turn.rest (some ptr) st
    else do
      let st ← bitmapElementLink to' ptr (st.setElt ptr { st.elt ptr with indx := turn.indx })
      operationLoop to' operation fuel turn.rest none st

/-- Release an element back to the free pool that was never linked into a bitmap. -/
def releaseElement (toPtr : Option Nat) (st : State h B) : State h B :=
  match toPtr with
  | some a => (st.setNext a st.bitmapFree).setFree (some a)
  | none => st

def bitmapOperation (to' from1 from2 : B) (operation : BitmapBits) (st : State h B) :
    Option (State h B) := do
  let ptr1 := (st.head from1).first
  let ptr2 := (st.head from2).first
  let operands := ⟨ptr1, ptr2, indxOr st ptr1, indxOr st ptr2⟩
  let (deleteList, st) ←
    if to' = from1 ∨ to' = from2 then
      some ((st.head to').first, st.setHead to' { st.head to' with first := none, current := none })
    else (bitmapClear to' st).map (none, ·)
  let (toPtr, st) ←
    operationLoop to' operation (2 * st.allocated) operands none st
  let st := releaseElement toPtr st
  freeElements st.allocated deleteList st

/-- `bitmap_ior_and_compl`; `tmp` is its local head. -/
def bitmapIorAndCompl (tmp to' from1 from2 : B) (st : State h B) : Option (State h B) := do
  let st := st.setHead tmp { st.head tmp with first := none, current := none }
  let st ← bitmapOperation tmp from1 from2 .andCompl st
  let st ← bitmapOperation to' to' tmp .ior st
  bitmapClear tmp st

/-- The operations on bitmaps; asking for a bit moves the current element too. -/
inductive Op (B : Type) where
  | setBit (b : B) (bit : BitVec 32)
  | clearBit (b : B) (bit : BitVec 32)
  | bitP (b : B) (bit : BitVec 32)
  | clear (b : B)
  | copy (to' from' : B)
  | operation (to' from1 from2 : B) (operation : BitmapBits)
  | iorAndCompl (to' from1 from2 : B)
  deriving DecidableEq

/-- One operation; besides the bitmaps there is the local head of `bitmap_ior_and_compl`. -/
def Op.exec : Op B → State h (Option B) → Option (State h (Option B))
  | setBit b bit, st => bitmapSetBit (some b) bit st
  | clearBit b bit, st => bitmapClearBit (some b) bit st
  | bitP b bit, st => (bitmapBitP (some b) bit st).map (·.2)
  | clear b, st => bitmapClear (some b) st
  | copy to' from', st => bitmapCopy (some to') (some from') st
  | operation to' from1 from2 op, st => bitmapOperation (some to') (some from1) (some from2) op st
  | iorAndCompl to' from1 from2, st => bitmapIorAndCompl none (some to') (some from1) (some from2) st

end Z80Gcc.Bitmap
