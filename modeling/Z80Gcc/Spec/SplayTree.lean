import Z80Gcc.Lib.ChildTree
import Mathlib.Data.List.Defs
import Mathlib.Logic.Function.Basic

/-! The splay trees of splay-tree.c. The nodes that `xmalloc` handed out stand in a list, and a pointer to one is
its index. A result `none` is a null pointer followed, or a recursion deeper than the fuel. -/

namespace Z80Gcc.Splay

open LinkedTree

variable {K V : Type}

/-- `struct splay_tree_node`. -/
structure Node (K V : Type) where
  key : K
  value : V
  left : Option Nat
  right : Option Nat

def Node.child (n : Node K V) : Side → Option Nat
  | .left => n.left
  | .right => n.right

def Node.setChild (n : Node K V) : Side → Option Nat → Node K V
  | .left, ptr => { n with left := ptr }
  | .right, ptr => { n with right := ptr }

/-- `struct splay_tree`, with its nodes and the values that `delete_value` got. -/
structure SplayTree (K V : Type) where
  root : Option Nat
  comp : K → K → Int
  deleteValue : Bool
  nodes : List (Node K V)
  deletedValues : List V

namespace SplayTree

def child (sp : SplayTree K V) (n : Nat) (side : Side) : Option Nat :=
  sp.nodes[n]?.bind fun nd => nd.child side

def links (sp : SplayTree K V) : ChildLinks Nat where
  root := sp.root
  child := sp.child

/-- What a `splay_tree_node*` points to. -/
def get (sp : SplayTree K V) : ChildPlace Nat → Option Nat
  | .root => sp.root
  | .child n side => sp.child n side

def put (sp : SplayTree K V) : ChildPlace Nat → Option Nat → SplayTree K V
  | .root, ptr => { sp with root := ptr }
  | .child n side, ptr => { sp with nodes := sp.nodes.modify n fun nd => nd.setChild side ptr }

end SplayTree

/-- `n` is the `side` child of the root `p`. -/
def rotate (side : Side) (sp : SplayTree K V) (n p : Nat) (node parent : ChildPlace Nat) : SplayTree K V :=
  let sp := sp.put node (sp.child n side.other)
  let sp := sp.put (.child n side.other) (some p)
  sp.put parent (some n)

/-- `n` and its parent `p` are both `side` children. -/
def rotateSame (side : Side) (sp : SplayTree K V) (n p g : Nat) (grandparent : ChildPlace Nat) : SplayTree K V :=
  let sp := sp.put (.child g side) (sp.child p side.other)
  let sp := sp.put (.child p side.other) (some g)
  let sp := sp.put (.child p side) (sp.child n side.other)
  let sp := sp.put (.child n side.other) (some p)
  sp.put grandparent (some n)

/-- `n` is the `side` child of `p`, which is the other child of `g`. -/
def rotateTwice (side : Side) (sp : SplayTree K V) (n p g : Nat) (grandparent : ChildPlace Nat) : SplayTree K V :=
  let sp := sp.put (.child p side) (sp.child n side.other)
  let sp := sp.put (.child n side.other) (some p)
  let sp := sp.put (.child g side.other) (sp.child n side)
  let sp := sp.put (.child n side) (some g)
  sp.put grandparent (some n)

/-- What `splay_tree_splay_helper` does to `n` on the way back. -/
def splayUp (sp : SplayTree K V) (n : Nat) (node : ChildPlace Nat) :
    Option (ChildPlace Nat) → Option (ChildPlace Nat) → Option (SplayTree K V × Nat)
  | none, _ => some (sp, n)
  | some parent, none => do
    let p ← sp.get parent
    let side := if sp.child p .left = some n then Side.left else Side.right
    return (rotate side sp n p node parent, n)
  | some parent, some grandparent => do
    let p ← sp.get parent
    let g ← sp.get grandparent
    if sp.child p .left = some n ∧ sp.child g .left = some p then
      return (rotateSame .left sp n p g grandparent, n)
    else if sp.child p .right = some n ∧ sp.child g .right = some p then
      return (rotateSame .right sp n p g grandparent, n)
    else if sp.child p .left = some n then
      return (rotateTwice .left sp n p g grandparent, n)
    else
      return (rotateTwice .right sp n p g grandparent, n)

def splayTreeSplayHelper (key : K) :
    Nat → SplayTree K V → ChildPlace Nat → Option (ChildPlace Nat) → Option (ChildPlace Nat) → Option (SplayTree K V × Nat)
  | 0, _, _, _, _ => none
  | fuel + 1, sp, node, parent, grandparent =>
    match sp.get node with
    | none => do
      let parent ← parent
      let p ← sp.get parent
      return (sp, p)
    | some n => do
      let nd ← sp.nodes[n]?
      let comparison := sp.comp key nd.key
      if comparison = 0 then
        splayUp sp n node parent grandparent
      else
        let next := ChildPlace.child n (if comparison < 0 then .left else .right)
        let (sp, n) ← splayTreeSplayHelper key fuel sp next (some node) parent
        -- a rotation further down has moved `n` past this place
        if sp.get node = some n then
          splayUp sp n node parent grandparent
        else
          return (sp, n)

def SplayTree.fuel (sp : SplayTree K V) : Nat := sp.nodes.length + 1

def splayTreeSplay (sp : SplayTree K V) (key : K) : Option (SplayTree K V) :=
  if sp.root = none then
    some sp
  else do
    let (sp, _) ← splayTreeSplayHelper key sp.fuel sp .root none none
    return sp

def splayTreeNew (comp : K → K → Int) (deleteValue : Bool) : SplayTree K V where
  root := none
  comp := comp
  deleteValue := deleteValue
  nodes := []
  deletedValues := []

/-- The new node is put at the root, and the tree splayed at `r` is cut beside `r`. -/
def insertRoot (sp : SplayTree K V) (key : K) (value : V) : Option (Nat × Int) → SplayTree K V
  | none => { sp with nodes := sp.nodes ++ [⟨key, value, none, none⟩], root := some sp.nodes.length }
  | some (r, comparison) =>
    let node := sp.nodes.length
    if comparison < 0 then
      let sp : SplayTree K V := { sp with nodes := sp.nodes ++ [⟨key, value, some r, sp.child r .right⟩] }
      (sp.put (.child r .right) none).put .root (some node)
    else
      let sp : SplayTree K V := { sp with nodes := sp.nodes ++ [⟨key, value, sp.child r .left, some r⟩] }
      (sp.put (.child r .left) none).put .root (some node)

def splayTreeInsert (sp : SplayTree K V) (key : K) (value : V) : Option (SplayTree K V) := do
  let sp ← splayTreeSplay sp key
  match sp.root with
  | none => return insertRoot sp key value none
  | some r =>
    let nd ← sp.nodes[r]?
    let comparison := sp.comp nd.key key
    if comparison = 0 then
      return { sp with
        deletedValues := if sp.deleteValue then sp.deletedValues ++ [nd.value] else sp.deletedValues
        nodes := sp.nodes.modify r fun nd => { nd with value := value } }
    else
      return insertRoot sp key value (some (r, comparison))

def splayTreeLookup (sp : SplayTree K V) (key : K) : Option (SplayTree K V × Option (Node K V)) := do
  let sp ← splayTreeSplay sp key
  match sp.root with
  | none => return (sp, none)
  | some r =>
    let nd ← sp.nodes[r]?
    return (sp, if sp.comp nd.key key = 0 then some nd else none)

section Traversal

variable {S : Type}

/-- `fn` gets the node and the data, and leaves other data. -/
def splayTreeForeachHelper (fn : K → V → S → Int × S) (sp : SplayTree K V) :
    Nat → Option Nat → S → Option (Int × S)
  | 0, _, _ => none
  | _ + 1, none, data => some (0, data)
  | fuel + 1, some n, data => do
    let nd ← sp.nodes[n]?
    let (val, data) ← splayTreeForeachHelper fn sp fuel nd.left data
    if val ≠ 0 then
      return (val, data)
    else
      let (val, data) := fn nd.key nd.value data
      if val ≠ 0 then
        return (val, data)
      else
        splayTreeForeachHelper fn sp fuel nd.right data

def splayTreeForeach (sp : SplayTree K V) (fn : K → V → S → Int × S) (data : S) : Option (Int × S) :=
  splayTreeForeachHelper fn sp sp.fuel sp.root data

end Traversal

/-- The nodes that are freed, in order, with what `delete_key` and `delete_value` get. -/
def splayTreeDeleteHelper (sp : SplayTree K V) : Nat → Option Nat → Option (List (Nat × K × V))
  | 0, _ => none
  | _ + 1, none => some []
  | fuel + 1, some n => do
    let nd ← sp.nodes[n]?
    let l ← splayTreeDeleteHelper sp fuel nd.left
    let r ← splayTreeDeleteHelper sp fuel nd.right
    return l ++ r ++ [(n, nd.key, nd.value)]

def splayTreeDelete (sp : SplayTree K V) : Option (List (Nat × K × V)) :=
  splayTreeDeleteHelper sp sp.fuel sp.root

section Compare

variable {w : Nat}

/-- `(int) k` of an `unsigned long`. -/
def intKey (k : BitVec w) : Int := (k.setWidth 32).toInt

def splayTreeCompareInts (k1 k2 : BitVec w) : Int :=
  if intKey k1 < intKey k2 then -1
  else if intKey k1 > intKey k2 then 1
  else 0

def splayTreeComparePointers (k1 k2 : BitVec w) : Int :=
  if k1.toNat < k2.toNat then -1
  else if k1.toNat > k2.toNat then 1
  else 0

end Compare

inductive Op (K V : Type) where
  | insert (key : K) (value : V)
  | lookup (key : K)

/-- A lookup leaves the key and the value of the node it finds. -/
def step (sp : SplayTree K V) : Op K V → Option (SplayTree K V × Option (Option (K × V)))
  | .insert key value => do
    let sp ← splayTreeInsert sp key value
    return (sp, none)
  | .lookup key => do
    let (sp, nd) ← splayTreeLookup sp key
    return (sp, some (nd.map fun nd => (nd.key, nd.value)))

/-- The tree after a list of operations, and what each lookup found. -/
def run (sp : SplayTree K V) : List (Op K V) → Option (SplayTree K V × List (Option (K × V)))
  | [] => some (sp, [])
  | op :: ops => do
    let (sp, found) ← step sp op
    let (sp, rest) ← run sp ops
    return (sp, found.toList ++ rest)

section Reference

variable {L : Type} [DecidableEq L]

/-- An insertion into a map: a key that is there stays, with another value. -/
def insertEntry (rank : K → L) (m : L → Option (K × V)) (key : K) (value : V) : L → Option (K × V) :=
  Function.update m (rank key) (some ((m (rank key)).elim key Prod.fst, value))

/-- The map after a list of operations, and what each lookup found. -/
def runMap (rank : K → L) (m : L → Option (K × V)) : List (Op K V) → (L → Option (K × V)) × List (Option (K × V))
  | [] => (m, [])
  | .insert key value :: ops => runMap rank (insertEntry rank m key value) ops
  | .lookup key :: ops => ((runMap rank m ops).1, m (rank key) :: (runMap rank m ops).2)

end Reference

/-- A visit of the entries that stops at the first that is not zero. -/
def visit {S : Type} (fn : K → V → S → Int × S) : List (K × V) → S → Int × S
  | [], data => (0, data)
  | (key, value) :: entries, data =>
    let (val, data) := fn key value data
    if val ≠ 0 then (val, data) else visit fn entries data

def Op.inserted : Op K V → Option V
  | .insert _ value => some value
  | .lookup _ => none

end Z80Gcc.Splay
