import Mathlib.Data.Int.Basic
import Mathlib.Data.List.Basic
import Z80Gcc.Lib.Asm
import Z80Gcc.Lib.WrapInt
import Z80Gcc.Spec.DoubleInt

/-! Switch statements (stmt.c): `pushcase` collects the case labels in an AVL tree, and
`expand_end_case` makes of it a list, groups it, and dispatches by a decision tree, by a table, or
at once when the index is a constant. -/

namespace Z80Gcc

open Z80Gcc.Asm

/-- An integer type. A constant of the type is given by its value. -/
structure IntegerType (h : Host) where
  precision : Nat
  unsignedp : Bool
  minValue : Int
  maxValue : Option Int
  deriving DecidableEq

namespace IntegerType

variable {h : Host}

/-- `force_fit_type`: the bits of the precision, zero- or sign-extended. -/
def wrap (t : IntegerType h) (v : Int) : Int := WrapInt.wrap t.unsignedp t.precision v

/-- `INT_CST_LT` and `INT_CST_LT_UNSIGNED` on the two words of a constant. -/
def intCstLt (h : Host) (a b : Int) : Bool := a.bmod (2 ^ (2 * h.bits)) < b.bmod (2 ^ (2 * h.bits))
def intCstLtUnsigned (h : Host) (a b : Int) : Bool := a % 2 ^ (2 * h.bits) < b % 2 ^ (2 * h.bits)

def treeIntCstLt (t : IntegerType h) (a b : Int) : Bool :=
  if t.unsignedp then intCstLtUnsigned h a b else intCstLt h a b

/-- The values the type's bounds admit. -/
def Has (t : IntegerType h) (v : Int) : Prop :=
  t.minValue ≤ v ∧ (∀ m, t.maxValue = some m → v ≤ m) ∧ t.wrap v = v

end IntegerType

structure CaseNode (L : Type) where
  low : Int
  high : Int
  codeLabel : L
  deriving DecidableEq

/-- `case_node` with its links. -/
inductive CaseTree (α : Type) where
  | nil
  | node (left : CaseTree α) (val : α) (right : CaseTree α)
  deriving DecidableEq

namespace CaseTree

variable {α : Type}

def isNil : CaseTree α → Bool
  | nil => true
  | node .. => false

def toList : CaseTree α → List α
  | nil => []
  | node left val right => left.toList ++ val :: right.toList

def rightChain : CaseTree α → List α
  | nil => []
  | node _ val right => val :: right.rightChain

def ofRightChain : List α → CaseTree α
  | [] => nil
  | val :: rest => node nil val (ofRightChain rest)

end CaseTree

section AddCaseNode

variable {L : Type} {h : Host}

/-- A case node while the cases are collected. -/
structure AvlNode (L : Type) extends CaseNode L where
  balance : Int
  deriving DecidableEq

/-- `add_case_node` returns 2 and an overlapped label, or follows a null pointer. -/
inductive AddError (L : Type) where
  | duplicate (label : L)
  | nullPointer
  deriving DecidableEq

/-- One turn of the rebalancing loop for `r == p->left`; the loop goes on when the flag is set. -/
def leftGrown (r : CaseTree (AvlNode L)) (p : AvlNode L) (right : CaseTree (AvlNode L)) :
    Except (AddError L) (CaseTree (AvlNode L) × Bool) :=
  if p.balance = 0 then .ok (.node r { p with balance := -1 } right, true)
  else if p.balance < 0 then
    match r with
    | .nil => .error .nullPointer
    | .node rl rn rr =>
      if rn.balance < 0 then
        -- R-Rotation
        .ok (.node rl { rn with balance := 0 } (.node rr { p with balance := 0 } right), false)
      else
        match rr with
        | .nil => .error .nullPointer
        | .node tl tn tr =>
          -- LR-Rotation
          let b2 : Int := if tn.balance < 0 then 1 else 0
          .ok (.node (.node rl { rn with balance := -b2 - tn.balance } tl) { tn with balance := 0 }
            (.node tr { p with balance := b2 } right), false)
  else .ok (.node r { p with balance := 0 } right, false)

/-- The same for `r == p->right`. -/
def rightGrown (left : CaseTree (AvlNode L)) (p : AvlNode L) (r : CaseTree (AvlNode L)) :
    Except (AddError L) (CaseTree (AvlNode L) × Bool) :=
  if p.balance = 0 then .ok (.node left { p with balance := 1 } r, true)
  else if p.balance > 0 then
    match r with
    | .nil => .error .nullPointer
    | .node rl rn rr =>
      if rn.balance > 0 then
        -- L-Rotation
        .ok (.node (.node left { p with balance := 0 } rl) { rn with balance := 0 } rr, false)
      else
        match rl with
        | .nil => .error .nullPointer
        | .node tl tn tr =>
          -- RL-Rotation
          let b2 : Int := if tn.balance < 0 then 1 else 0
          .ok (.node (.node left { p with balance := -b2 - tn.balance } tl) { tn with balance := 0 }
            (.node tr { rn with balance := b2 } rr), false)
  else .ok (.node left { p with balance := 0 } r, false)

/-- `add_case_node` below a link: the way down to an empty link, and the way back up. -/
def addCaseNodeAt (t : IntegerType h) (c : CaseNode L) :
    CaseTree (AvlNode L) → Except (AddError L) (CaseTree (AvlNode L) × Bool)
  | .nil => .ok (.node .nil { c with balance := 0 } .nil, true)
  | .node left p right =>
    if t.treeIntCstLt c.high p.low then do
      let (r, grown) ← addCaseNodeAt t c left
      if grown then leftGrown r p right else .ok (.node r p right, false)
    else if t.treeIntCstLt p.high c.low then do
      let (r, grown) ← addCaseNodeAt t c right
      if grown then rightGrown left p r else .ok (.node left p r, false)
    else .error (.duplicate p.codeLabel)

def addCaseNode (t : IntegerType h) (cases : CaseTree (AvlNode L)) (c : CaseNode L) :
    Except (AddError L) (CaseTree (AvlNode L)) :=
  (addCaseNodeAt t c cases).map (·.1)

def addCaseNodes (t : IntegerType h) (cs : List (CaseNode L)) :
    Except (AddError L) (CaseTree (AvlNode L)) :=
  cs.foldlM (addCaseNode t) .nil

def caseTree2list : CaseTree (AvlNode L) → List (CaseNode L) → List (CaseNode L)
  | .nil, right => right
  | .node left p right, rest =>
    caseTree2list left (p.toCaseNode :: caseTree2list right rest)

/-- The list `expand_end_case` starts from: a root without a left link is taken for a list. -/
def caseList (cases : CaseTree (AvlNode L)) : List (CaseNode L) :=
  match cases with
  | .node (.node ..) _ _ => caseTree2list cases []
  | _ => cases.rightChain.map AvlNode.toCaseNode

end AddCaseNode

/-- What `group_case_nodes` asks of the insns after the labels: `next_real_insn`, and `SET_SRC` of
an insn that is a `simplejump_p`. -/
structure InsnStream (L : Type) where
  Insn : Type
  Src : Type
  [decInsn : DecidableEq Insn]
  [decSrc : DecidableEq Src]
  nextRealInsn : L → Option Insn
  simplejump : Insn → Option Src

attribute [instance] InsnStream.decInsn InsnStream.decSrc

section Switch

variable {L : Type} {h : Host} (s : InsnStream L)

def InsnStream.samePlace (a b : L) : Bool :=
  s.nextRealInsn b = s.nextRealInsn a ||
    match s.nextRealInsn a, s.nextRealInsn b with
    | some lb, some lb2 =>
      (s.simplejump lb).isSome && (s.simplejump lb2).isSome && s.simplejump lb = s.simplejump lb2
    | _, _ => false

/-- The inner loop of `group_case_nodes`: the node's high end moves up over its successors. -/
def groupWith (t : IntegerType h) (node : CaseNode L) :
    List (CaseNode L) → CaseNode L × List (CaseNode L)
  | [] => (node, [])
  | np :: rest =>
    if s.samePlace node.codeLabel np.codeLabel && np.low = t.wrap (node.high + 1) &&
        t.treeIntCstLt node.high (t.wrap (node.high + 1)) then
      groupWith t { node with high := np.high } rest
    else (node, np :: rest)

theorem groupWith_length (t : IntegerType h) (node : CaseNode L) (rest : List (CaseNode L)) :
    (groupWith s t node rest).2.length ≤ rest.length := by
  induction rest generalizing node with
  | nil => exact Nat.le_refl 0
  | cons np rest ih =>
    rw [groupWith]
    split
    · exact (ih _).trans (Nat.le_succ _)
    · exact Nat.le_refl _

def groupCaseNodes (t : IntegerType h) : List (CaseNode L) → List (CaseNode L)
  | [] => []
  | node :: rest =>
    (groupWith s t node rest).1 :: groupCaseNodes t (groupWith s t node rest).2
termination_by l => l.length
decreasing_by exact Nat.lt_succ_of_le (groupWith_length s t node rest)

/-- `cost_table`, with `ISALNUM`, `ISPUNCT` and `ISCNTRL` on ASCII; nothing is known beyond its
ends. -/
def costTable (i : Int) : Int :=
  if i = 32 then 8
  else if i = 9 ∨ i = 0 then 4
  else if i = 10 then 2
  else if i = 12 ∨ i = 11 ∨ i = 8 then 1
  else if 48 ≤ i ∧ i ≤ 57 ∨ 65 ≤ i ∧ i ≤ 90 ∨ 97 ≤ i ∧ i ≤ 122 then 16
  else if 33 ≤ i ∧ i ≤ 126 then 8
  else if 0 ≤ i ∧ i ≤ 31 ∨ i = 127 then -1
  else 0

/-- `TREE_INT_CST_LOW`. -/
def Host.low (h : Host) (v : Int) : Int := v.bmod (2 ^ h.bits)

/-- `TREE_INT_CST_HIGH` is not zero. -/
def Host.highSet (h : Host) (v : Int) : Bool := v / 2 ^ h.bits % 2 ^ h.bits ≠ 0

def estimateCaseCosts (h : Host) (cases : List (CaseNode L)) : Bool :=
  cases.all fun n =>
    !IntegerType.intCstLt h n.low (-1) && !IntegerType.intCstLt h 127 n.high &&
      (List.range (h.low n.high - h.low n.low + 1).toNat).all fun (k : Nat) =>
        0 ≤ costTable (h.low n.low + k)

def nodeWeight (h : Host) (useCostTable : Bool) (n : CaseNode L) : Int :=
  if useCostTable then
    (if n.low ≠ n.high then costTable (h.low n.high) else 0) + costTable (h.low n.low)
  else (if n.low ≠ n.high then 1 else 0) + 1

/-- Skip nodes while their cost does not reach the amount `i`: the number of nodes skipped. -/
def skipNodes (weight : CaseNode L → Int) : Int → List (CaseNode L) → Option Nat
  | _, [] => none
  | i, n :: rest =>
    if i - weight n ≤ 0 then some 0 else (skipNodes weight (i - weight n) rest).map (· + 1)

/-- Where `balance_case_nodes` splits a list of more than two nodes; `none` where it reads past the
end of the list. -/
def splitPoint (h : Host) (useCostTable : Bool) (cases : List (CaseNode L)) : Option Nat :=
  let total := (cases.map (nodeWeight h useCostTable)).sum
  if !useCostTable && cases.length = 3 then some 1
  else skipNodes (nodeWeight h useCostTable) ((total + 1).tdiv 2) cases

def balanceCaseNodes (h : Host) (useCostTable : Bool) (cases : List (CaseNode L)) :
    Option (CaseTree (CaseNode L)) :=
  if cases.length ≤ 2 then some (.ofRightChain cases)
  else
    match splitPoint h useCostTable cases with
    | none => none
    | some k =>
      -- leave this branch lopsided
      if k = 0 ∧ useCostTable then some (.ofRightChain cases)
      else
        match _hk : cases.drop k with
        | [] => none
        | n :: right => do
          let l ← balanceCaseNodes h useCostTable (cases.take k)
          let r ← balanceCaseNodes h useCostTable right
          return .node l n r
termination_by cases.length
decreasing_by
  · have := congrArg List.length _hk
    simp at this ⊢
    omega
  · have := congrArg List.length _hk
    simp at this ⊢
    omega

end Switch

section Emit

variable {L : Type} {h : Host} (t : IntegerType h)

/-- `node_has_low_bound`; the nodes above are listed from the nearest. -/
def nodeHasLowBound (parents : List (CaseNode L)) (left : CaseTree (CaseNode L)) (n : CaseNode L) :
    Bool :=
  if n.low = t.minValue then true
  else if !left.isNil then false
  else if !t.treeIntCstLt (t.wrap (n.low - 1)) n.low then false
  else parents.any fun p => t.wrap (n.low - 1) = p.high

def nodeHasHighBound (parents : List (CaseNode L)) (n : CaseNode L) (right : CaseTree (CaseNode L)) :
    Bool :=
  if t.maxValue = none then true
  else if some n.high = t.maxValue then true
  else if !right.isNil then false
  else if !t.treeIntCstLt n.high (t.wrap (n.high + 1)) then false
  else parents.any fun p => t.wrap (n.high + 1) = p.low

def nodeIsBounded (parents : List (CaseNode L)) (left : CaseTree (CaseNode L)) (n : CaseNode L)
    (right : CaseTree (CaseNode L)) : Bool :=
  nodeHasLowBound t parents left n && nodeHasHighBound t parents n right

def boundedLabel (parents : List (CaseNode L)) : CaseTree (CaseNode L) → Option L
  | .nil => none
  | .node left n right => if nodeIsBounded t parents left n right then some n.codeLabel else none

def singleValue : CaseTree (CaseNode L) → Option (CaseNode L)
  | .node .nil n .nil => if n.low = n.high then some n else none
  | _ => none

/-- The comparisons of `emit_cmp_and_jump_insns`, and the jump without one. -/
inductive Test where
  | always
  | eq (c : Int)
  | gt (c : Int)
  | lt (c : Int)
  | ge (c : Int)
  | le (c : Int)
  deriving DecidableEq

/-- A label of the switch, or a `test_label`, named by the place of its node. -/
inductive Target (L : Type) where
  | code (l : L)
  | test (path : List Bool)
  deriving DecidableEq

abbrev TestLine (L : Type) := Line Empty Test (Target L)

/-- A comparison of an index register of `m` bits with a constant. -/
def Test.holds (unsignedp : Bool) {m : Nat} (index : BitVec m) : Test → Bool
  | always => true
  | eq c => index = BitVec.ofInt m c
  | gt c => if unsignedp then (BitVec.ofInt m c).ult index else (BitVec.ofInt m c).slt index
  | lt c => if unsignedp then index.ult (BitVec.ofInt m c) else index.slt (BitVec.ofInt m c)
  | ge c => if unsignedp then (BitVec.ofInt m c).ule index else (BitVec.ofInt m c).sle index
  | le c => if unsignedp then index.ule (BitVec.ofInt m c) else index.sle (BitVec.ofInt m c)

/-- The insns of a decision tree over an index register of `m` bits. -/
def caseIsa (unsignedp : Bool) (m : Nat) : Isa Empty Test (BitVec m) where
  exec i := nomatch i
  branch c index := (c.holds unsignedp index, index)

def jumpTo (l : L) : TestLine L := .jump .always (.code l)

/-- `emit_jump_if_reachable`: an unconditional jump is followed by a barrier. -/
def emitJumpIfReachable (l : L) (code : List (TestLine L)) : List (TestLine L) :=
  match code.getLast? with
  | some (.jump .always _) => code
  | _ => code ++ [jumpTo l]

variable (defaultLabel : L)

/-- `emit_case_nodes`. The path names the node; `test_label` of a node is named by it. -/
def emitCaseNodes (parents : List (CaseNode L)) (path : List Bool) :
    CaseTree (CaseNode L) → List (TestLine L)
  | .nil => []
  | .node left n right =>
    let onLeft := emitCaseNodes (n :: parents) (false :: path) left
    let onRight := emitCaseNodes (n :: parents) (true :: path) right
    let toLabel := Target.code n.codeLabel
    let toDefault := Target.code defaultLabel
    let toTest := Target.test path
    if nodeIsBounded t parents left n right then [jumpTo n.codeLabel]
    else if n.low = n.high then
      -- the node is single valued
      .jump (.eq n.low) toLabel ::
        match left.isNil, right.isNil with
        | false, false =>
          match boundedLabel t (n :: parents) right, boundedLabel t (n :: parents) left with
          | some r, _ => .jump (.gt n.high) (.code r) :: onLeft
          | none, some l => .jump (.lt n.high) (.code l) :: onRight
          | none, none =>
            .jump (.gt n.high) toTest ::
              (emitJumpIfReachable defaultLabel onLeft ++ .label toTest :: onRight)
        | true, false =>
          match singleValue right with
          | none =>
            (if nodeHasLowBound t parents left n then [] else [.jump (.lt n.high) toDefault]) ++
              onRight
          | some c => [.jump (.eq c.low) (.code c.codeLabel)]
        | false, true =>
          match singleValue left with
          | none =>
            (if nodeHasHighBound t parents n right then [] else [.jump (.gt n.high) toDefault]) ++
              onLeft
          | some c => [.jump (.eq c.low) (.code c.codeLabel)]
        | true, true => []
    else
      -- the node is a range
      match left.isNil, right.isNil with
      | false, false =>
        match boundedLabel t (n :: parents) right with
        | some r => .jump (.gt n.high) (.code r) :: .jump (.ge n.low) toLabel :: onLeft
        | none =>
          .jump (.gt n.high) toTest :: .jump (.ge n.low) toLabel ::
            (emitJumpIfReachable defaultLabel onLeft ++ .label toTest :: onRight)
      | true, false =>
        (if nodeHasLowBound t parents left n then [] else [.jump (.lt n.low) toDefault]) ++
          .jump (.le n.high) toLabel :: onRight
      | false, true =>
        (if nodeHasHighBound t parents n right then [] else [.jump (.gt n.high) toDefault]) ++
          .jump (.ge n.low) toLabel :: onLeft
      | true, true =>
        (if nodeHasHighBound t parents n right then [] else [.jump (.gt n.high) toDefault]) ++
          ((if nodeHasLowBound t parents left n then [] else [.jump (.lt n.low) toDefault]) ++
            [jumpTo n.codeLabel])

end Emit

/-- A switch statement: the type of the index expression, the type its cases are converted to
(`nominal_type`, a widening of the first), the mode bit sizes of the two, and the cases in the
order they are pushed. -/
structure Switch (h : Host) (L : Type) where
  indexType : IntegerType h
  nominalType : IntegerType h
  mode : Nat
  nominalMode : Nat
  cases : List (CaseNode L)
  defaultLabel : L
  insns : InsnStream L
  /-- `TREE_CODE (TREE_TYPE (orig_index)) == ENUMERAL_TYPE`. -/
  enumeral : Bool
  pos : 0 < indexType.precision
  widens : indexType.unsignedp = nominalType.unsignedp ∧
    indexType.precision ≤ nominalType.precision
  words : nominalType.precision ≤ 2 * h.bits
  /-- `int_fits_type_p`, which `pushcase` asks, follows `TYPE_MAX_VALUE`. -/
  bounded : indexType.maxValue.isSome
  modes : indexType.precision ≤ mode ∧ nominalType.precision ≤ nominalMode
  ranges : ∀ c ∈ cases, c.low ≤ c.high ∧ indexType.Has c.low ∧ indexType.Has c.high
  disjoint : cases.Pairwise fun a b => a.high < b.low ∨ b.high < a.low

namespace Switch

variable {h : Host} {L : Type} (s : Switch h L)

/-- The label of the range an index is in. -/
def label (index : Int) : L :=
  match s.cases.find? fun c => c.low ≤ index && index ≤ c.high with
  | some c => c.codeLabel
  | none => s.defaultLabel

/-- The list of case nodes, grouped and converted to the type of the index. -/
def list : Option (List (CaseNode L)) :=
  (addCaseNodes s.nominalType s.cases).toOption.map fun tree =>
    (groupCaseNodes s.insns s.nominalType (caseList tree)).map fun n =>
      { n with low := s.indexType.wrap n.low, high := s.indexType.wrap n.high }

def useCostTable (list : List (CaseNode L)) : Bool :=
  !s.enumeral && estimateCaseCosts h list

/-- The decision code, with the jump to the default label behind it. -/
def decisionCode (list : List (CaseNode L)) : Option (List (TestLine L)) :=
  if list.isEmpty then some [jumpTo s.defaultLabel]
  else
    (balanceCaseNodes h (s.useCostTable list) list).map fun tree =>
      emitJumpIfReachable s.defaultLabel
        (emitCaseNodes s.indexType s.defaultLabel [] [] tree)

/-- The label jumped to at once when the index expression is an `INTEGER_CST`. -/
def constantLabel (list : List (CaseNode L)) (index : Int) : L :=
  match list.find? fun n => !s.indexType.treeIntCstLt index n.low &&
      !s.indexType.treeIntCstLt n.high index with
  | some n => n.codeLabel
  | none => s.defaultLabel

/-- The tree node made for an index that is a `CONST_INT`. -/
def constIntIndex (intval : Int) : Int :=
  s.indexType.wrap
    (if s.indexType.unsignedp || 0 ≤ intval then intval % 2 ^ h.bits else intval)

/-- The bounds of the cases, as signed numbers even if they are not. -/
def minval (m : Int) : List (CaseNode L) → Int
  | [] => m
  | n :: rest => minval (if IntegerType.intCstLt h n.low m then n.low else m) rest

def maxval (m : Int) : List (CaseNode L) → Int
  | [] => m
  | n :: rest => maxval (if IntegerType.intCstLt h m n.high then n.high else m) rest

/-- A range counts double. -/
def count (list : List (CaseNode L)) : Nat :=
  (list.map fun n => if n.low = n.high then 1 else 2).sum

/-- What the dispatch table is built from: `minval`, `range` and `ncases`. -/
structure Span where
  minval : Int
  range : Int
  ncases : Nat

def span (n : CaseNode L) (rest : List (CaseNode L)) : Span :=
  let low := minval (h := h) n.low rest
  let range := s.indexType.wrap (maxval (h := h) n.high rest - low)
  ⟨low, range, (range % 2 ^ h.bits).toNat + 1⟩

/-- The cases are dispatched by a table; `CASE_VALUES_THRESHOLD` is 5, and `10 * count` is an
`unsigned int`. -/
def tableTaken (list : List (CaseNode L)) (span : Span) : Bool :=
  !h.highSet span.range && 5 ≤ count list && span.range % 2 ^ h.bits ≤ 10 * count list % 2 ^ 32

/-- The loop that enters a node's label from place `i` on, `k` times after the first; `none` where
it writes outside the vector. -/
def enterLabel (l : L) : Nat → Nat → List (Option L) → Option (List (Option L))
  | i, 0, vec => if i < vec.length then some (vec.set i (some l)) else none
  | i, k + 1, vec =>
    if i < vec.length then enterLabel l (i + 1) k (vec.set i (some l)) else none

/-- The vector before the gaps are filled; places are `HOST_WIDE_INT`s, a negative one is beyond
every vector. -/
def labelvec (span : Span) (list : List (CaseNode L)) : Option (List (Option L)) :=
  list.foldlM (fun vec (n : CaseNode L) =>
    enterLabel n.codeLabel ((n.low - span.minval) % 2 ^ h.bits).toNat
      ((n.high - n.low) % 2 ^ h.bits).toNat vec) (List.replicate span.ncases none)

/-- The `tablejump` path: an unsigned comparison with `range`, then the vector with its gaps
filled. -/
def tableLabel (span : Span) (vec : List (Option L)) (index : Int) : L :=
  let i := BitVec.ofInt s.nominalMode
    (s.nominalType.wrap (s.indexType.wrap (index - span.minval)))
  if (BitVec.ofInt s.nominalMode span.range).ult i then s.defaultLabel
  else ((vec[i.toNat]?).join).getD s.defaultLabel

end Switch

end Z80Gcc
