import Z80Gcc.Spec.Lcm

/-! The elimination of partial redundancies in gcse.c, by blocks: what `pre_gcse` deletes, inserts and copies of each
expression, numbered by its `bitmap_index`. -/

namespace Z80Gcc.Gcse

open SimpleBitmap FlowGraph Lcm

variable {m w nExprs : Nat}

/-- What gcse.c knows of each block before the pass: the local properties, whether the insn of the block in
`antic_occr` is also the one in `avail_occr`, and whether `validate_change` allows the insn in `antic_occr` to become
a copy of a register. -/
structure Local (m w nExprs : Nat) where
  transp : Vec m w nExprs
  comp : Vec m w nExprs
  antloc : Vec m w nExprs
  sameInsn : Fin (m + 1) → Nat → Bool
  validateChange : Fin (m + 1) → Nat → Bool

/-- The loop of `pre_expr_reaches_here_p` over the predecessors; `visited` is what its caller's `visited` becomes. -/
def reachesPreds (transp comp : Fin (m + 1) → Bool) (occrBb : Fin (m + 1)) (checkPreComp : Bool)
    (reaches : Fin (m + 1) → (Fin (m + 1) → Bool) → Option (Bool × (Fin (m + 1) → Bool))) :
    List (BlockRef (m + 1)) → (Fin (m + 1) → Bool) → Option (Bool × (Fin (m + 1) → Bool))
  | [], visited => some (false, visited)
  | .block predBb :: pred, visited =>
    if visited predBb then
      reachesPreds transp comp occrBb checkPreComp reaches pred visited
    else if (!checkPreComp && decide (occrBb = predBb)) || comp predBb then
      if occrBb = predBb then
        some (true, visited)
      else
        reachesPreds transp comp occrBb checkPreComp reaches pred (Function.update visited predBb true)
    else if !transp predBb then
      reachesPreds transp comp occrBb checkPreComp reaches pred (Function.update visited predBb true)
    else do
      let (found, visited) ← reaches predBb (Function.update visited predBb true)
      if found then some (true, visited)
      else reachesPreds transp comp occrBb checkPreComp reaches pred visited
  | _ :: pred, visited => reachesPreds transp comp occrBb checkPreComp reaches pred visited

/-- The call with `visited`, at most `fuel` calls deep. -/
def reachesVisited (transp comp : Fin (m + 1) → Bool) (sPreds : Fin (m + 1) → List (BlockRef (m + 1)))
    (occrBb : Fin (m + 1)) (checkPreComp : Bool) :
    Nat → Fin (m + 1) → (Fin (m + 1) → Bool) → Option (Bool × (Fin (m + 1) → Bool))
  | 0, _, _ => none
  | fuel + 1, bb, visited =>
    reachesPreds transp comp occrBb checkPreComp
      (reachesVisited transp comp sPreds occrBb checkPreComp fuel) (sPreds bb) visited

/-- The call without `visited`. Each call but the first has a block of its own marked. -/
def preExprReachesHereP (p : Local m w nExprs) (sPreds : Fin (m + 1) → List (BlockRef (m + 1)))
    (occrBb : Fin (m + 1)) (expr : Nat) (bb : Fin (m + 1)) (checkPreComp : Bool) : Option Bool :=
  (reachesVisited (fun bb => testBit (p.transp bb) expr) (fun bb => testBit (p.comp bb) expr) sPreds occrBb
    checkPreComp (m + 2) bb fun _ => false).map Prod.fst

/-- `temp_bitmap` in `pre_delete`. -/
def toDelete (redundant optimal : Vec m w nExprs) (bb : Fin (m + 1)) : Sbitmap w nExprs :=
  sbitmapAAndB (sbitmapNot (optimal bb)) (redundant bb)

/-- `deleted_p` of the occurrence of an expression in `antic_occr` that is in a block. -/
def preDelete (p : Local m w nExprs) (redundant optimal : Vec m w nExprs) (bb : Fin (m + 1)) (expr : Nat) : Bool :=
  testBit (p.antloc bb) expr && testBit (toDelete redundant optimal bb) expr && p.validateChange bb expr

/-- Whether an expression gets a `reaching_reg`. -/
def hasReachingReg (p : Local m w nExprs) (redundant optimal : Vec m w nExprs) (expr : Nat) : Bool :=
  (List.finRange (m + 1)).any fun bb => testBit (p.antloc bb) expr && testBit (toDelete redundant optimal bb) expr

def reachesDeleted (p : Local m w nExprs) (sPreds : Fin (m + 1) → List (BlockRef (m + 1)))
    (redundant optimal : Vec m w nExprs) (bb : Fin (m + 1)) (expr : Nat) (checkPreComp : Bool) : Option Bool :=
  ((List.finRange (m + 1)).filter fun occr => preDelete p redundant optimal occr expr).anyM
    fun occr => preExprReachesHereP p sPreds bb expr occr checkPreComp

/-- Whether an expression is inserted at the end of a block. -/
def preInsert (p : Local m w nExprs) (sPreds : Fin (m + 1) → List (BlockRef (m + 1)))
    (redundant optimal : Vec m w nExprs) (bb : Fin (m + 1)) (expr : Nat) : Option Bool :=
  if testBit (sbitmapAAndB (sbitmapNot (redundant bb)) (optimal bb)) expr && hasReachingReg p redundant optimal expr then
    reachesDeleted p sPreds redundant optimal bb expr false
  else
    some false

/-- Whether the result of the insn of a block in `avail_occr` is copied to the `reaching_reg`. -/
def preInsertCopies (p : Local m w nExprs) (sPreds : Fin (m + 1) → List (BlockRef (m + 1)))
    (redundant optimal : Vec m w nExprs) (bb : Fin (m + 1)) (expr : Nat) : Option Bool :=
  if hasReachingReg p redundant optimal expr && testBit (p.comp bb) expr &&
      testBit (sbitmapAAndB (optimal bb) (redundant bb)) expr &&
      !(p.sameInsn bb expr && preDelete p redundant optimal bb expr) then
    reachesDeleted p sPreds redundant optimal bb expr true
  else
    some false

end Z80Gcc.Gcse
