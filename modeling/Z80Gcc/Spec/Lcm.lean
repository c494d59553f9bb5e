import Z80Gcc.Spec.FlowGraph

/-! Lazy code motion (lcm.c): from the blocks that compute each expression before they change it (`antloc`) and those
that do not change it (`transp`), where to put computations and which ones they make redundant. What a vector of
bitmaps holds when it is allocated is `junk`. -/

namespace Z80Gcc.Lcm

open SimpleBitmap RoundRobin FlowGraph

variable {m w nExprs : Nat}

abbrev Vec (m w nExprs : Nat) := Fin (m + 1) → Sbitmap w nExprs

/-- The loops of lcm.c over the blocks: one bitmap of a block is computed from the other's of its predecessors or
successors, but for that of the block at the edge, and the other from it by `transfer`. With `skip` a block is passed
over while no predecessor or successor has changed. -/
def blockSweep (order : List (Fin (m + 1))) (skip : Bool) (edge : Fin (m + 1))
    (ps : Fin (m + 1) → List (BlockRef (m + 1)))
    (ofPs : Sbitmap w nExprs → Vec m w nExprs → List (BlockRef (m + 1)) → Sbitmap w nExprs)
    (transfer : Fin (m + 1) → Sbitmap w nExprs → Sbitmap w nExprs) : Sweep (Fin (m + 1)) (Sbitmap w nExprs) where
  order := order
  test changed bb := !skip || (ps bb).any fun ref => ref.isBlock?.elim true changed
  input src bb dst := if bb = edge then dst else ofPs dst src (ps bb)
  transfer := transfer

/-- `antin`. -/
def computeAntinout (fuel : Nat) (sSuccs : Fin (m + 1) → List (BlockRef (m + 1))) (antloc transp junk : Vec m w nExprs) :
    Option (Vec m w nExprs) :=
  let sweep := blockSweep (List.finRange (m + 1)).reverse true (Fin.last m) sSuccs sbitmapIntersectOfPredsucc
    fun bb antout => sbitmapAOrBAndC (antloc bb) (transp bb) antout
  (sweep.solve fuel (fun _ => sbitmapOnes) (Function.update junk (Fin.last m) sbitmapZero)).map State.value

/-- `earlyin`. -/
def computeEarlyinout (fuel : Nat) (sPreds : Fin (m + 1) → List (BlockRef (m + 1))) (transp antin junk : Vec m w nExprs) :
    Option (Vec m w nExprs) :=
  let sweep := blockSweep (List.finRange (m + 1)) true firstBlock sPreds sbitmapUnionOfPredsucc
    fun bb earlyin => sbitmapUnionOfDiff (sbitmapNot (transp bb)) earlyin (antin bb)
  (sweep.solve fuel (fun _ => sbitmapZero) (Function.update junk firstBlock sbitmapOnes)).map State.aux

structure Delay (m w nExprs : Nat) where
  delayin : Vec m w nExprs
  delayout : Vec m w nExprs
  tempBitmap : Sbitmap w nExprs

/-- The body of the loop of `compute_delayinout`, and `changed`. -/
def visitDelay (sPreds : Fin (m + 1) → List (BlockRef (m + 1))) (antloc antiAndEarly : Vec m w nExprs)
    (s : Delay m w nExprs × Bool) (bb : Fin (m + 1)) : Delay m w nExprs × Bool :=
  let (s, changed) := s
  let (s, changed) :=
    if bb = firstBlock then
      (s, changed)
    else
      let temp := sbitmapIntersectOfPredsucc s.tempBitmap s.delayout (sPreds bb)
      let delayin := sbitmapAOrB (antiAndEarly bb) temp
      ({ s with tempBitmap := temp, delayin := Function.update s.delayin bb delayin },
        changed || delayin != s.delayin bb)
  let temp := sbitmapNot (antloc bb)
  let delayout := sbitmapAAndB temp (s.delayin bb)
  ({ s with tempBitmap := temp, delayout := Function.update s.delayout bb delayout },
    changed || delayout != s.delayout bb)

def passDelay (sPreds : Fin (m + 1) → List (BlockRef (m + 1))) (antloc antiAndEarly : Vec m w nExprs)
    (s : Delay m w nExprs) : Delay m w nExprs × Bool :=
  (List.finRange (m + 1)).foldl (visitDelay sPreds antloc antiAndEarly) (s, false)

/-- `delayin`. -/
def computeDelayinout (fuel : Nat) (sPreds : Fin (m + 1) → List (BlockRef (m + 1)))
    (antloc antin earlyin junk : Vec m w nExprs) (tempBitmap : Sbitmap w nExprs) : Option (Vec m w nExprs) :=
  let antiAndEarly : Vec m w nExprs := fun bb => sbitmapAAndB (antin bb) (earlyin bb)
  (whileChanged (passDelay sPreds antloc antiAndEarly) fuel
    { delayin := Function.update junk firstBlock (antiAndEarly firstBlock)
      delayout := fun _ => sbitmapZero
      tempBitmap := tempBitmap }).map Delay.delayin

/-- The body of the loop of `compute_latein`: `latein` and `temp_bitmap`. -/
def visitLatein (sSuccs : Fin (m + 1) → List (BlockRef (m + 1))) (antloc delayin : Vec m w nExprs)
    (s : Vec m w nExprs × Sbitmap w nExprs) (bb : Fin (m + 1)) : Vec m w nExprs × Sbitmap w nExprs :=
  let (latein, temp) := s
  let temp :=
    if bb = Fin.last m then sbitmapNot (sbitmapIntersectOfPredsucc temp delayin (sSuccs bb))
    else sbitmapOnes
  (Function.update latein bb (sbitmapAAndBOrC (delayin bb) (antloc bb) temp), temp)

def computeLatein (sSuccs : Fin (m + 1) → List (BlockRef (m + 1))) (antloc delayin junk : Vec m w nExprs)
    (tempBitmap : Sbitmap w nExprs) : Vec m w nExprs :=
  ((List.finRange (m + 1)).foldl (visitLatein sSuccs antloc delayin) (junk, tempBitmap)).1

/-- `isoout`. -/
def computeIsoinout (fuel : Nat) (sSuccs : Fin (m + 1) → List (BlockRef (m + 1))) (antloc latein junk : Vec m w nExprs) :
    Option (Vec m w nExprs) :=
  let sweep := blockSweep (List.finRange (m + 1)).reverse false (Fin.last m) sSuccs sbitmapIntersectOfPredsucc
    fun bb isoout => sbitmapUnionOfDiff (latein bb) isoout (antloc bb)
  (sweep.solve fuel (fun _ => sbitmapZero) (Function.update junk (Fin.last m) sbitmapZero)).map State.aux

def computeOptimal (latein isoout : Vec m w nExprs) : Vec m w nExprs :=
  fun bb => sbitmapDifference (latein bb) (isoout bb)

def computeRedundant (antloc latein isoout : Vec m w nExprs) : Vec m w nExprs :=
  fun bb => sbitmapDifference (antloc bb) (sbitmapAOrB (latein bb) (isoout bb))

/-- What is in the vectors and the two bitmaps that are allocated. -/
structure Junk (m w nExprs : Nat) where
  antout : Vec m w nExprs
  earlyin : Vec m w nExprs
  delayin : Vec m w nExprs
  latein : Vec m w nExprs
  isoout : Vec m w nExprs
  delayTemp : Sbitmap w nExprs
  lateTemp : Sbitmap w nExprs

/-- `redundant` and `optimal`. -/
def preLcm (fuel : Nat) (junk : Junk m w nExprs) (l : Lists m) (transp antloc : Vec m w nExprs) :
    Option (Vec m w nExprs × Vec m w nExprs) := do
  let antin ← computeAntinout fuel l.sSuccs antloc transp junk.antout
  let earlyin ← computeEarlyinout fuel l.sPreds transp antin junk.earlyin
  let delayin ← computeDelayinout fuel l.sPreds antloc antin earlyin junk.delayin junk.delayTemp
  let latein := computeLatein l.sSuccs antloc delayin junk.latein junk.lateTemp
  let isoout ← computeIsoinout fuel l.sSuccs antloc latein junk.isoout
  return (computeRedundant antloc latein isoout, computeOptimal latein isoout)

end Z80Gcc.Lcm
