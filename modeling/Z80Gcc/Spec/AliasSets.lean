import Z80Gcc.Spec.SplayTree

/-! The alias sets of alias.c. An `int` is a word of 32 bits and an `unsigned long` one of `w`; a pointer to an
entry is its index among those that `xmalloc` handed out. A result `none` is an abort or a null pointer followed. -/

namespace Z80Gcc.AliasSets

open Splay

variable {w : Nat}

/-- `struct alias_set_entry`. -/
structure AliasSetEntry (w : Nat) where
  aliasSet : BitVec 32
  children : SplayTree (BitVec w) Nat

structure AliasState (w : Nat) where
  aliasSets : SplayTree (BitVec w) Nat
  entries : List (AliasSetEntry w)

/-- `(splay_tree_key) alias_set`. -/
def toKey (aliasSet : BitVec 32) : BitVec w := aliasSet.signExtend w

def initAliasOnce : AliasState w where
  aliasSets := splayTreeNew splayTreeCompareInts false
  entries := []

def getAliasSetEntry (s : AliasState w) (aliasSet : BitVec 32) : Option (AliasState w × Option Nat) := do
  let (aliasSets, sn) ← splayTreeLookup s.aliasSets (toKey aliasSet)
  return ({ s with aliasSets := aliasSets }, sn.map fun nd => nd.value)

def lookupChild (s : AliasState w) (entry : Nat) (aliasSet : BitVec 32) : Option (AliasState w × Bool) := do
  let ase ← s.entries[entry]?
  let (children, nd) ← splayTreeLookup ase.children (toKey aliasSet)
  return ({ s with entries := s.entries.modify entry fun ase => { ase with children := children } }, nd.isSome)

/-- One of the two searches of `mems_in_disjoint_alias_sets_p`. -/
def isChild (s : AliasState w) (set1 set2 : BitVec 32) : Option (AliasState w × Bool) := do
  let (s, ase) ← getAliasSetEntry s set1
  match ase with
  | none => return (s, false)
  | some ase => lookupChild s ase set2

/-- `set1` and `set2` are the `MEM_ALIAS_SET`s of the two MEMs. -/
def memsInDisjointAliasSetsP (currentFunctionStdarg currentFunctionVarargs : Bool) (s : AliasState w)
    (set1 set2 : BitVec 32) : Option (AliasState w × Bool) :=
  if currentFunctionStdarg || currentFunctionVarargs then
    some (s, false)
  else if set1 = 0 ∨ set2 = 0 then
    some (s, false)
  else if set1 = set2 then
    some (s, false)
  else do
    let (s, found) ← isChild s set1 set2
    if found then
      return (s, false)
    else
      let (s, found) ← isChild s set2 set1
      return (s, !found)

/-- The data is the tree of the children, or `none` once an insertion has failed. -/
def insertSubsetChildren (key : BitVec w) (value : Nat) (data : Option (SplayTree (BitVec w) Nat)) :
    Int × Option (SplayTree (BitVec w) Nat) :=
  (0, data.bind fun children => splayTreeInsert children key value)

def supersetEntry (s : AliasState w) (superset : BitVec 32) : Option (AliasState w × Nat) := do
  let (s, entry) ← getAliasSetEntry s superset
  match entry with
  | some entry => return (s, entry)
  | none =>
    let aliasSets ← splayTreeInsert s.aliasSets (toKey superset) s.entries.length
    let entry : AliasSetEntry w := ⟨superset, splayTreeNew splayTreeCompareInts false⟩
    return (⟨aliasSets, s.entries ++ [entry]⟩, s.entries.length)

/-- The children of the superset with those of the subset, if that has an entry. -/
def subsetChildren (s : AliasState w) (subsetEntry : Option Nat) (children : SplayTree (BitVec w) Nat) :
    Option (SplayTree (BitVec w) Nat) :=
  match subsetEntry with
  | none => some children
  | some entry => do
    let ase ← s.entries[entry]?
    let (_, data) ← splayTreeForeach ase.children insertSubsetChildren (some children)
    data

def recordAliasSubset (s : AliasState w) (superset subset : BitVec 32) : Option (AliasState w) :=
  if superset = 0 then
    none
  else do
    let (s, entry) ← supersetEntry s superset
    let (s, subsetEntry) ← getAliasSetEntry s subset
    let ase ← s.entries[entry]?
    let children ← subsetChildren s subsetEntry ase.children
    let children ← splayTreeInsert children (toKey subset) 0
    return { s with entries := s.entries.modify entry fun ase => { ase with children := children } }

/-- What the compiler does with the alias sets of a file. The function that a question is asked in may have variable
arguments. -/
inductive Action where
  | record (superset subset : BitVec 32)
  | disjoint (currentFunctionStdarg currentFunctionVarargs : Bool) (set1 set2 : BitVec 32)

/-- The sets after some actions, and the answers. -/
def perform (s : AliasState w) : List Action → Option (AliasState w × List Bool)
  | [] => some (s, [])
  | .record superset subset :: actions => do
    let s ← recordAliasSubset s superset subset
    perform s actions
  | .disjoint stdarg varargs set1 set2 :: actions => do
    let (s, answer) ← memsInDisjointAliasSetsP stdarg varargs s set1 set2
    let (s, answers) ← perform s actions
    return (s, answer :: answers)

/-- The calls lead down from one set to another, one from where the one before leads to. -/
def Leads : BitVec 32 → List (BitVec 32 × BitVec 32) → BitVec 32 → Prop
  | set1, [], set2 => set1 = set2
  | set1, call :: calls, set2 => call.1 = set1 ∧ Leads call.2 calls set2

/-- A set is a child of another if calls lead down to it, each made before the one above it; `calls` has the last
one first. -/
def ChildAfter (calls : List (BitVec 32 × BitVec 32)) (set1 set2 : BitVec 32) : Prop :=
  ∃ chain, chain ≠ [] ∧ List.Sublist chain calls ∧ Leads set1 chain set2

def DisjointAfter (calls : List (BitVec 32 × BitVec 32)) (set1 set2 : BitVec 32) : Prop :=
  set1 ≠ 0 ∧ set2 ≠ 0 ∧ set1 ≠ set2 ∧ ¬ChildAfter calls set1 set2 ∧ ¬ChildAfter calls set2 set1

/-- The answers are right, each for the calls that have been made by then; in a function with variable arguments no
references are disjoint. -/
def AnswersRight : List (BitVec 32 × BitVec 32) → List Action → List Bool → Prop
  | _, [], answers => answers = []
  | calls, .record superset subset :: actions, answers => AnswersRight ((superset, subset) :: calls) actions answers
  | calls, .disjoint stdarg varargs set1 set2 :: actions, answers =>
    ∃ answer rest, answers = answer :: rest ∧
      (answer = true ↔ stdarg = false ∧ varargs = false ∧ DisjointAfter calls set1 set2) ∧
      AnswersRight calls actions rest

end Z80Gcc.AliasSets
