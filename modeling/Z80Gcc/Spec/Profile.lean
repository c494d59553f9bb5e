import Mathlib

/-! Arc profiling (profile.c): the flow graph that `branch_prob` builds, the spanning tree of its arcs,
the counters of the other arcs, and the solver. `none` is a call of `abort` (or `fatal`), or fuel that
does not suffice. Counts are `int`s of 32 bits, whose sums and differences wrap. -/

namespace Z80Gcc.Profile

/-- The pattern of a `JUMP_INSN`, with the labels by their numbers. -/
inductive Pattern where
  /-- A `PARALLEL` with a `USE` of the label of the jump table. -/
  | parallelUse (label : Nat)
  /-- A `PARALLEL` that sets `pc`, to the sum of something and a label. -/
  | parallelSet (label : Nat)
  /-- An `ADDR_VEC` or `ADDR_DIFF_VEC`. -/
  | table (labels : List Nat)
  | ret
  /-- A jump to a label, or the entry of a table jump. -/
  | direct (label : Nat)
  | ifThenElse (label : Nat)
  /-- A computed goto, or a pattern that is not known. -/
  | other

inductive Insn where
  | barrier
  | codeLabel (number : Nat)
  | setjmpNote
  | note
  | ordinary
  | call
  | jump (pattern : Pattern)

/-- What `prev_code` distinguishes. -/
inductive Code where
  | barrier
  | codeLabel
  | insn
  | call
  | jump
  deriving DecidableEq

def Code.separates : Code → Bool
  | .insn => false
  | _ => true

/-- An insn that starts a block behind a separator: class `i`, or a `NOTE_INSN_SETJMP`. -/
def Insn.starts : Insn → Bool
  | .barrier | .codeLabel _ | .note => false
  | _ => true

/-- `prev_code` after an insn. -/
def Insn.code (prev : Code) : Insn → Code
  | .barrier => .barrier
  | .codeLabel _ => .codeLabel
  | .setjmpNote => .call
  | .note => prev
  | .ordinary => .insn
  | .call => .call
  | .jump _ => .jump

def nextBlock (prev : Code) (insn : Insn) (i : Nat) : Nat :=
  if prev.separates ∧ insn.starts then i + 1 else i

/-- The first scan: `label_to_bb` and the number of the last block. -/
def numberBlocks : List Insn → Code → Nat → (Nat → Nat) → (Nat → Nat) × Nat
  | [], prev, i, labelToBb => (labelToBb, if prev.separates then i + 1 else i)
  | insn :: insns, prev, i, labelToBb =>
    let labelToBb := match insn with
      | .codeLabel number => Function.update labelToBb number (i + 1)
      | _ => labelToBb
    numberBlocks insns (insn.code prev) (nextBlock prev insn i) labelToBb

/-- `struct adj_list`. -/
structure Arc where
  source : Nat
  target : Nat
  fake : Bool
  fallThrough : Bool
  deriving DecidableEq

/-- The arcs of a jump; `none` is a jump that is not supported. -/
def jumpTargets (labelToBb : Nat → Nat) (numBlocks : Nat) : Pattern → Option (List Nat)
  | .parallelUse label | .parallelSet label | .direct label | .ifThenElse label =>
    some [labelToBb label]
  | .table labels => some (labels.map labelToBb)
  | .ret => some [numBlocks - 1]
  | .other => none

def Pattern.fallsThrough : Pattern → Bool
  | .ifThenElse _ => true
  | _ => false

/-- `fall_through` after an insn. -/
def Insn.fallsThrough (fallThrough : Bool) : Insn → Bool
  | .barrier => false
  | .call => true
  | .jump pattern => fallThrough && pattern.fallsThrough
  | _ => fallThrough

/-- The arcs that the second scan makes for an insn of block `i`. -/
def insnArcs (labelToBb : Nat → Nat) (numBlocks : Nat) (insn : Insn) (next : Option Insn) (i : Nat) :
    Option (List Arc) :=
  match insn with
  | .call =>
    match next with
    | some .setjmpNote => some [⟨0, i + 1, true, false⟩]
    | _ => some [⟨i, numBlocks - 1, true, false⟩]
  | .jump pattern => do
    return (← jumpTargets labelToBb numBlocks pattern).map fun dest => ⟨i, dest, false, false⟩
  | _ => some []

/-- The second scan: the arcs in the order in which they are made. -/
def makeArcs (labelToBb : Nat → Nat) (numBlocks : Nat) :
    List Insn → Code → Nat → Bool → Option (List Arc)
  | [], prev, i, fallThrough =>
    -- a block at the end of the function with no insns
    let last := if prev.separates ∧ fallThrough then [⟨i, i + 1, false, true⟩] else []
    some (last ++ [⟨numBlocks - 2, numBlocks - 1, true, false⟩])
  | insn :: insns, prev, i, fallThrough => do
    let i' := nextBlock prev insn i
    let entry : List Arc :=
      if i' ≠ i ∧ fallThrough then [⟨i, i', false, true⟩] else []
    let fallThrough := if i' ≠ i then true else fallThrough
    let arcs ← insnArcs labelToBb numBlocks insn insns.head? i'
    return entry ++ arcs ++
      (← makeArcs labelToBb numBlocks insns (insn.code prev) i' (insn.fallsThrough fallThrough))

/-- The flow graph: the number of blocks, and the arcs in the order in which they are made. -/
structure Graph where
  numBlocks : Nat
  arcs : List Arc

/-- The flow graph that `branch_prob` builds. -/
def buildGraph (insns : List Insn) : Option Graph := do
  let (labelToBb, i) := numberBlocks insns .jump 0 fun _ => 0
  let numBlocks := i + 2
  let arcs ← makeArcs labelToBb numBlocks insns .jump 0 false
  return ⟨numBlocks, ⟨0, 1, false, true⟩ :: ⟨numBlocks - 1, 0, true, false⟩ :: arcs⟩

namespace Graph

variable (g : Graph)

/-- An arc by its number; those beyond the last are not used. -/
def arc (a : Nat) : Arc := g.arcs.getD a ⟨0, 0, false, false⟩

def source (a : Nat) : Nat := (g.arc a).source

def target (a : Nat) : Nat := (g.arc a).target

/-- The arcs from a block; `init_arc` puts each one at the front of the list. -/
def succ (block : Nat) : List Nat :=
  (List.range g.arcs.length).reverse.filter fun a => g.source a = block

/-- The arcs to a block. -/
def pred (block : Nat) : List Nat :=
  (List.range g.arcs.length).reverse.filter fun a => g.target a = block

end Graph

/-- The `on_tree` bits of the arcs and the blocks. -/
structure Marks where
  arc : Nat → Bool
  block : Nat → Bool

namespace Marks

def clear : Marks := ⟨fun _ => false, fun _ => false⟩

def setArc (m : Marks) (a : Nat) : Marks := { m with arc := Function.update m.arc a true }

def setBlock (m : Marks) (b : Nat) : Marks := { m with block := Function.update m.block b true }

end Marks

section Tree

variable (g : Graph)

/-- The fake arcs in a list are put on the tree; `other` is the end that is not the same for all. -/
def markFake (block : Nat) (other : Nat → Nat) : List Nat → Marks → Option Marks
  | [], m => some m
  | a :: arcs, m =>
    if (g.arc a).fake then
      if m.block (other a) ∧ m.block block then none
      else markFake block other arcs (((m.setArc a).setBlock (other a)).setBlock block)
    else markFake block other arcs m

def crowded (i a : Nat) : Bool :=
  !(decide (g.succ i = [a]) || decide ((g.pred (g.target a)).getLast? = some a)) &&
    !(g.arc a).fallThrough && decide (g.target a ≠ i)

/-- The crowded arcs from block `i` are put on the tree if an end is not on it. -/
def markCrowded (i : Nat) : List Nat → Marks → Marks
  | [], m => m
  | a :: arcs, m =>
    markCrowded i arcs <|
      if crowded g i a ∧ (!m.block (g.target a) || !m.block i) then
        ((m.setArc a).setBlock (g.target a)).setBlock i
      else m

/-- The loops of `expand_spanning_tree` over arcs of a block, with the block at the other end. -/
def expandArcs (expand : Nat → Marks → Option Marks) (other : Nat → Nat) :
    List Nat → Marks → Option Marks
  | [], m => some m
  | a :: arcs, m => do
    let m ← if m.arc a ∧ !m.block (other a) then expand (other a) m else some m
    expandArcs expand other arcs m

def expandSpanningTree : Nat → Nat → Marks → Option Marks
  | 0, _, _ => none
  | fuel + 1, block, m => do
    let m ← expandArcs (expandSpanningTree fuel) g.target (g.succ block) (m.setBlock block)
    expandArcs (expandSpanningTree fuel) g.source (g.pred block) m

/-- The loop of `fill_spanning_tree`. -/
def fillArcs (fill : Nat → Marks → Option Marks) : List Nat → Marks → Option Marks
  | [], m => some m
  | a :: arcs, m => do
    let m ← if !m.arc a ∧ !m.block (g.target a) then fill (g.target a) (m.setArc a) else some m
    fillArcs fill arcs m

def fillSpanningTree : Nat → Nat → Marks → Option Marks
  | 0, _, _ => none
  | fuel + 1, block, m => do
    let m ← expandSpanningTree g (fuel + 1) block m
    fillArcs g (fillSpanningTree fuel) (g.succ block) m

def fillBlocks (fuel : Nat) : List Nat → Marks → Option Marks
  | [], m => some m
  | i :: blocks, m => do
    let m ← if (g.succ i).any fun a => !m.arc a && !m.block (g.target a) then
        fillSpanningTree g fuel i m
      else some m
    fillBlocks fuel blocks m

/-- The first pass of `find_spanning_tree`: the fake arcs. -/
def markFakeArcs : Option Marks := do
  let m ← markFake g 0 g.target (g.succ 0) .clear
  let m ← markFake g (g.numBlocks - 1) g.source (g.pred (g.numBlocks - 1)) m
  -- the only entrance to node zero is a fake arc
  return m.setArc ((g.pred 0).headD g.arcs.length)

def fillTree (fuel : Nat) (m : Marks) : Option Marks :=
  let m := (List.range g.numBlocks).foldl (fun m i => markCrowded g i (g.succ i) m) m
  fillBlocks g fuel (List.range' 1 (g.numBlocks - 1)) ⟨m.arc, fun _ => false⟩

def findSpanningTree (fuel : Nat) : Option Marks := do fillTree g fuel (← markFakeArcs g)

end Tree

section Counters

variable (g : Graph) (onTree : Nat → Bool)

/-- Where the code that counts an arc is put. -/
inductive Place where
  | functionStart
  | blockStart (block : Nat)
  | branchEnd (a : Nat)
  | newBlock (a : Nat)
  deriving DecidableEq

def countedArcs (block : Nat) : List Nat := (g.succ block).filter fun a => !onTree a

/-- Where an arc from block `i` is counted. -/
def arcPlace (i a : Nat) : Place :=
  if g.succ i = [a] then .blockStart i
  else if g.pred (g.target a) = [a] then .blockStart (g.target a)
  else if (g.arc a).fallThrough then
    .branchEnd (((g.succ i).find? fun back => back ≠ a).getD g.arcs.length)
  else .newBlock a

/-- `output_arc_profiler` for arcs one after the other. -/
def outputProfilers (next : Nat) : List Place → List (Nat × Place)
  | [] => []
  | place :: places => (next, place) :: outputProfilers (next + 1) places

/-- `instrument_arcs`, with `total_num_arcs_instrumented` before it. -/
def instrumentArcs (total : Nat) : List (Nat × Place) :=
  outputProfilers total <| .functionStart ::
    (List.range' 1 (g.numBlocks - 1)).flatMap fun i => (countedArcs g onTree i).map (arcPlace g i)

end Counters

structure Counts where
  arcCount : Nat → BitVec 32
  arcValid : Nat → Bool
  execCount : Nat → BitVec 32
  blockValid : Nat → Bool
  succCount : Nat → Int
  predCount : Nat → Int

section Solver

variable (g : Graph)

def Counts.start : Counts where
  arcCount _ := 0
  arcValid _ := false
  execCount _ := 0
  blockValid _ := false
  succCount b := (g.succ b).length
  predCount b := (g.pred b).length

def Counts.setArc (s : Counts) (a : Nat) (count : BitVec 32) : Counts :=
  { s with
    arcCount := Function.update s.arcCount a count
    arcValid := Function.update s.arcValid a true
    succCount := Function.update s.succCount (g.source a) (s.succCount (g.source a) - 1)
    predCount := Function.update s.predCount (g.target a) (s.predCount (g.target a) - 1) }

def Counts.setBlock (s : Counts) (b : Nat) (count : BitVec 32) : Counts :=
  { s with
    execCount := Function.update s.execCount b count
    blockValid := Function.update s.blockValid b true }

/-- The arcs whose counts are in the file, in the order in which they are read. -/
def readOrder (onTree : Nat → Bool) : List Nat :=
  (List.range g.numBlocks).flatMap (countedArcs g onTree)

/-- The counts are read, each into a `long` and from there into an `int`; a file that is too short gives zeros. -/
def readCounts : List Nat → List Int → Counts → Counts
  | [], _, s => s
  | a :: arcs, file, s => readCounts arcs file.tail (s.setArc g a (BitVec.ofInt 32 (file.headD 0)))

def Counts.total (s : Counts) (arcs : List Nat) : BitVec 32 := (arcs.map s.arcCount).sum

def solveBlock (b : Nat) (s : Counts) : Counts × Bool :=
  if s.blockValid b then (s, false)
  else if s.succCount b = 0 then (s.setBlock b (s.total (g.succ b)), true)
  else if s.predCount b = 0 then (s.setBlock b (s.total (g.pred b)), true)
  else (s, false)

/-- The count of the one arc in a list that is left, by conservation. -/
def solveArc (b : Nat) (left : Int) (arcs : List Nat) (s : Counts) : Option (Counts × Bool) :=
  if s.blockValid b ∧ left = 1 then
    let total := s.execCount b - s.total arcs
    match arcs.find? fun a => !s.arcValid a with
    | none => none
    | some a => some (s.setArc g a total, true)
  else some (s, false)

def solveStep (b : Nat) (s : Counts) : Option (Counts × Bool) := do
  let (s, c₁) := solveBlock g b s
  let (s, c₂) ← solveArc g b (s.succCount b) (g.succ b) s
  let (s, c₃) ← solveArc g b (s.predCount b) (g.pred b) s
  return (s, c₁ || c₂ || c₃)

def solvePass : List Nat → Counts → Bool → Option (Counts × Bool)
  | [], s, changes => some (s, changes)
  | b :: blocks, s, changes => do
    let (s, c) ← solveStep g b s
    solvePass blocks s (changes || c)

/-- The solver; the last block comes first. -/
def solve : Nat → Counts → Option Counts
  | 0, _ => none
  | fuel + 1, s => do
    let (s, changes) ← solvePass g (List.range g.numBlocks).reverse s false
    if changes then solve fuel s else return s

/-- If the graph has been correctly solved, every block has a count of zero. -/
def checkSolved (s : Counts) : Option Counts :=
  if (List.range g.numBlocks).all fun b => s.succCount b = 0 ∧ s.predCount b = 0 then some s else none

/-- The counts of a file are read and propagated. -/
def solveCounts (fuel : Nat) (onTree : Nat → Bool) (file : List Int) : Option Counts := do
  checkSolved g (← solve g fuel (readCounts g (readOrder g onTree) file (.start g)))

end Solver

end Z80Gcc.Profile
