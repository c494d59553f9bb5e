import Mathlib

/-! The bitmaps of a fixed size of sbitmap.c, in words of `w` bits (`SBITMAP_ELT_BITS`), and the lists of
predecessors and successors that their functions go over. A function gives the new contents of its `dst`; that it
has changed something is that they differ. -/

namespace Z80Gcc.SimpleBitmap

variable {w nBits : Nat}

def sbitmapSetSize (w n : Nat) : Nat := (n + w - 1) / w

/-- The `elms` of a bitmap. -/
abbrev Sbitmap (w nBits : Nat) := Fin (sbitmapSetSize w nBits) → BitVec w

/-- `elms[k]`, for the `k` below the size. -/
def elms (s : Sbitmap w nBits) (k : Nat) : BitVec w :=
  if h : k < sbitmapSetSize w nBits then s ⟨k, h⟩ else 0

def setBit (s : Sbitmap w nBits) (bitno : Nat) : Sbitmap w nBits :=
  fun k => if k.val = bitno / w then s k ||| 1#w <<< (bitno % w) else s k

def resetBit (s : Sbitmap w nBits) (bitno : Nat) : Sbitmap w nBits :=
  fun k => if k.val = bitno / w then s k &&& ~~~(1#w <<< (bitno % w)) else s k

def testBit (s : Sbitmap w nBits) (bitno : Nat) : Bool :=
  elms s (bitno / w) >>> (bitno % w) &&& 1#w != 0#w

def sbitmapZero : Sbitmap w nBits := fun _ => 0

def sbitmapOnes : Sbitmap w nBits := fun _ => BitVec.allOnes w

def sbitmapUnionOfDiff (a b c : Sbitmap w nBits) : Sbitmap w nBits := fun i => a i ||| (b i &&& ~~~c i)

def sbitmapNot (src : Sbitmap w nBits) : Sbitmap w nBits := fun i => ~~~src i

def sbitmapDifference (a b : Sbitmap w nBits) : Sbitmap w nBits := fun i => a i &&& ~~~b i

def sbitmapAAndB (a b : Sbitmap w nBits) : Sbitmap w nBits := fun i => a i &&& b i

def sbitmapAOrB (a b : Sbitmap w nBits) : Sbitmap w nBits := fun i => a i ||| b i

def sbitmapAOrBAndC (a b c : Sbitmap w nBits) : Sbitmap w nBits := fun i => a i ||| (b i &&& c i)

def sbitmapAAndBOrC (a b c : Sbitmap w nBits) : Sbitmap w nBits := fun i => a i &&& (b i ||| c i)

/-- An element of a list of predecessors or successors; `ENTRY_BLOCK` and `EXIT_BLOCK` are no blocks of the
function. -/
inductive BlockRef (n : Nat) where
  | entryBlock
  | exitBlock
  | block (bb : Fin n)
  deriving DecidableEq

variable {n : Nat}

def BlockRef.isBlock? : BlockRef n → Option (Fin n)
  | block bb => some bb
  | _ => none

/-- The two functions over predecessors or successors: `op` of those that are blocks, `dst` as it was if none of
them is, and `unit` if there are none. -/
def ofPredsucc (op : Sbitmap w nBits → Sbitmap w nBits → Sbitmap w nBits) (unit dst : Sbitmap w nBits)
    (src : Fin n → Sbitmap w nBits) (ps : List (BlockRef n)) : Sbitmap w nBits :=
  if ps.isEmpty then
    unit
  else
    match ps.filterMap BlockRef.isBlock? with
    | [] => dst
    | psBb :: rest => rest.foldl (fun r p => op r (src p)) (src psBb)

def sbitmapIntersectOfPredsucc (dst : Sbitmap w nBits) (src : Fin n → Sbitmap w nBits)
    (ps : List (BlockRef n)) : Sbitmap w nBits :=
  ofPredsucc sbitmapAAndB sbitmapOnes dst src ps

def sbitmapUnionOfPredsucc (dst : Sbitmap w nBits) (src : Fin n → Sbitmap w nBits)
    (ps : List (BlockRef n)) : Sbitmap w nBits :=
  ofPredsucc sbitmapAOrB sbitmapZero dst src ps

end Z80Gcc.SimpleBitmap
