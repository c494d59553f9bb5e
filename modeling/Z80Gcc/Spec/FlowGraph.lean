import Z80Gcc.Lib.RoundRobin
import Z80Gcc.Spec.Sbitmap

/-! The lists of predecessors and successors, and the dominators of flow.c. The blocks of a function are `m + 1`. -/

namespace Z80Gcc.FlowGraph

open SimpleBitmap RoundRobin

variable {m w : Nat}

/-- The lists that `compute_preds_succs` fills. -/
structure Lists (m : Nat) where
  sPreds : Fin (m + 1) → List (BlockRef (m + 1))
  sSuccs : Fin (m + 1) → List (BlockRef (m + 1))

def addPredSucc (predBb : BlockRef (m + 1)) (l : Lists m) (succBb : BlockRef (m + 1)) : Lists m :=
  let l :=
    match succBb with
    | .block bb => { l with sPreds := Function.update l.sPreds bb (predBb :: l.sPreds bb) }
    | _ => l
  match predBb with
  | .block bb => { l with sSuccs := Function.update l.sSuccs bb (succBb :: l.sSuccs bb) }
  | _ => l

/-- `succ` are the destinations of the edges from each block, and `entry` those from the entry. -/
def computePredsSuccs (succ : Fin (m + 1) → List (BlockRef (m + 1))) (entry : List (BlockRef (m + 1))) :
    Lists m :=
  let l : Lists m := ⟨fun _ => [], fun _ => []⟩
  let l := (List.finRange (m + 1)).foldl (fun l i => (succ i).foldl (addPredSucc (.block i)) l) l
  entry.foldl (addPredSucc .entryBlock) l

abbrev firstBlock : Fin (m + 1) := 0

/-- `make_edges` makes one edge from the entry, to the first block. -/
def entryEdges : List (BlockRef (m + 1)) := [.block firstBlock]

structure Dominators (m w : Nat) where
  dominators : Fin (m + 1) → Sbitmap w (m + 1)
  postDominators : Fin (m + 1) → Sbitmap w (m + 1)
  tempBitmap : Fin (m + 1) → Sbitmap w (m + 1)

/-- The loop's body, and `changed`. -/
def visitDominators (l : Lists m) (s : Dominators m w × Bool) (bb : Fin (m + 1)) : Dominators m w × Bool :=
  let (s, changed) := s
  let temp := setBit (sbitmapIntersectOfPredsucc (s.tempBitmap bb) s.dominators (l.sPreds bb)) bb
  let dom := sbitmapAAndB (s.dominators bb) temp
  let changed := changed || dom != s.dominators bb
  let temp := setBit (sbitmapIntersectOfPredsucc temp s.postDominators (l.sSuccs bb)) bb
  let pdom := sbitmapAAndB (s.postDominators bb) temp
  let changed := changed || pdom != s.postDominators bb
  ({ dominators := Function.update s.dominators bb dom
     postDominators := Function.update s.postDominators bb pdom
     tempBitmap := Function.update s.tempBitmap bb temp }, changed)

def passDominators (l : Lists m) (s : Dominators m w) : Dominators m w × Bool :=
  (List.finRange (m + 1)).tail.foldl (visitDominators l) (s, false)

def startDominators : Dominators m w where
  dominators := Function.update (fun _ => sbitmapOnes) firstBlock (setBit sbitmapZero 0)
  postDominators := Function.update (fun _ => sbitmapOnes) (Fin.last m) (setBit sbitmapZero 0)
  tempBitmap := fun _ => sbitmapZero

def computeDominators (fuel : Nat) (l : Lists m) : Option (Dominators m w) :=
  whileChanged (passDominators l) fuel startDominators

end Z80Gcc.FlowGraph
