import Mathlib
import Z80Gcc.Spec.CaseStmt

/-! `add_case_node` keeps the accepted ranges in an AVL tree with the right links, and `case_tree2list`
makes the list of them. -/

namespace Z80Gcc

open Z80Gcc.LinkedTree

variable {L : Type} {h : Host}

section Order

variable (t : IntegerType h)

/-- What `tree_int_cst_lt` compares: the two words, as the type reads them. -/
def IntegerType.key (v : Int) : Int :=
  if t.unsignedp then v % 2 ^ (2 * h.bits) else v.bmod (2 ^ (2 * h.bits))

theorem IntegerType.treeIntCstLt_key (a b : Int) : t.treeIntCstLt a b = true ↔ t.key a < t.key b := by
  unfold treeIntCstLt key intCstLt intCstLtUnsigned
  split <;> exact decide_eq_true_iff

theorem IntegerType.not_treeIntCstLt (a b : Int) : t.treeIntCstLt a b = false ↔ t.key b ≤ t.key a := by
  rw [← Bool.not_eq_true, t.treeIntCstLt_key, not_lt]

/-- The values of a range, in the order of the type. -/
def CaseNode.Contains (c : CaseNode L) (v : Int) : Prop :=
  t.treeIntCstLt v c.low = false ∧ t.treeIntCstLt c.high v = false

def CaseNode.Nonempty (c : CaseNode L) : Prop := t.treeIntCstLt c.high c.low = false

def CaseNode.Overlaps (c d : CaseNode L) : Prop := ∃ v, c.Contains t v ∧ d.Contains t v

/-- All of a range is below the other one. -/
def CaseNode.Before (c d : CaseNode L) : Prop := t.treeIntCstLt c.high d.low = true

instance (c : CaseNode L) (v : Int) : Decidable (c.Contains t v) := inferInstanceAs (Decidable (_ ∧ _))

instance (c : CaseNode L) : Decidable (c.Nonempty t) := inferInstanceAs (Decidable (_ = _))

variable {t}

theorem CaseNode.nonempty_iff {c : CaseNode L} : c.Nonempty t ↔ t.key c.low ≤ t.key c.high :=
  t.not_treeIntCstLt ..

theorem CaseNode.before_iff {c d : CaseNode L} : c.Before t d ↔ t.key c.high < t.key d.low :=
  t.treeIntCstLt_key ..

theorem CaseNode.contains_iff {c : CaseNode L} {v : Int} :
    c.Contains t v ↔ t.key c.low ≤ t.key v ∧ t.key v ≤ t.key c.high :=
  and_congr (t.not_treeIntCstLt ..) (t.not_treeIntCstLt ..)

theorem CaseNode.not_overlaps {c d : CaseNode L} (hc : c.Nonempty t) (hd : d.Nonempty t) :
    ¬ c.Overlaps t d ↔ c.Before t d ∨ d.Before t c := by
  unfold Overlaps
  simp only [contains_iff, before_iff]
  rw [nonempty_iff] at hc hd
  constructor
  · intro hno
    by_contra hor
    rw [not_or, not_lt, not_lt] at hor
    -- the greater one of the low ends is in both
    obtain hle | hle := le_total (t.key c.low) (t.key d.low)
    · exact hno ⟨d.low, ⟨hle, hor.1⟩, le_refl _, hd⟩
    · exact hno ⟨c.low, ⟨le_refl _, hc⟩, hle, hor.2⟩
  · rintro (hlt | hlt) ⟨v, hcv, hdv⟩ <;> omega

end Order

section RightChain

variable {A : Type*}

/-- A list linked by the right field, with the left field zeroed. -/
def RightChain (child : A → Side → Option A) : Option A → List A → Prop
  | ptr, [] => ptr = none
  | ptr, a :: rest => ptr = some a ∧ child a .left = none ∧ RightChain child (child a .right) rest

theorem RightChain.congr {child child' : A → Side → Option A} {ptr : Option A} {elts : List A}
    (hchain : RightChain child ptr elts) (hc : ∀ a ∈ elts, child' a = child a) :
    RightChain child' ptr elts := by
  induction elts generalizing ptr with
  | nil => exact hchain
  | cons a rest ih =>
    obtain ⟨hptr, hleft, hrest⟩ := hchain
    rw [RightChain, hc a (List.mem_cons_self ..)]
    exact ⟨hptr, hleft, ih hrest fun b hb => hc b (List.mem_cons_of_mem a hb)⟩

end RightChain

namespace CaseStmt

/-- A tree becomes a list in order, with `right` behind it. -/
theorem caseTree2list_spec {ls : Links Nat} {tree : LinkTree Nat} {p right : Option Nat} {node fuel : Nat}
    {rest : List Nat} (htree : Linked ls.child ls.parent p tree (some node))
    (hrest : RightChain ls.child right rest) (hnodup : (tree.toList ++ rest).Nodup)
    (hfuel : tree.height ≤ fuel) :
    ∃ first ls', caseTree2list fuel node right ls = some (first, ls') ∧
      RightChain ls'.child (some first) (tree.toList ++ rest) ∧ ls'.parent = ls.parent ∧
      ∀ a, a ∉ tree.toList → ls'.child a = ls.child a := by
  induction tree generalizing ls p right node fuel rest with
  | nil => cases htree
  | node l a r ihl ihr =>
    obtain ⟨heq, -, hl, hr⟩ := htree
    obtain rfl := Option.some.inj heq
    rw [LinkTree.height] at hfuel
    obtain ⟨fuel, rfl⟩ : ∃ n, fuel = n + 1 := ⟨fuel - 1, by omega⟩
    rw [LinkTree.toList, List.append_assoc, List.cons_append] at hnodup ⊢
    obtain ⟨hlnodup, htail, hdisj⟩ := List.nodup_append'.1 hnodup
    obtain ⟨hnode, hright⟩ := List.nodup_cons.1 htail
    -- the right subtree first
    obtain ⟨right₁, ls₁, hrun₁, hchain₁, hparent₁, hsame₁⟩ : ∃ right₁ ls₁,
        ((ls.child node .right).elim (some (right, ls)) fun r =>
          (caseTree2list fuel r right ls).map fun x => (some x.1, x.2)) = some (right₁, ls₁) ∧
        RightChain ls₁.child right₁ (r.toList ++ rest) ∧ ls₁.parent = ls.parent ∧
        ∀ b, b ∉ r.toList → ls₁.child b = ls.child b := by
      cases hc : ls.child node .right with
      | none =>
        rw [hc] at hr
        cases r with
        | nil => exact ⟨right, ls, rfl, hrest, rfl, fun _ _ => rfl⟩
        | node => cases hr.1
      | some b =>
        rw [hc] at hr
        obtain ⟨first, ls', hrun, hchain, hparent, hsame⟩ := @ihr ls (some node) right b fuel rest hr hrest hright (by omega)
        exact ⟨some first, ls', by rw [Option.elim, hrun]; rfl, hchain, hparent, hsame⟩
    have hnotr : node ∉ r.toList := fun hmem => hnode (List.mem_append_left _ hmem)
    have hchain₂ : RightChain (ls₁.setChild node .right right₁).child right₁ (r.toList ++ rest) := by
      refine hchain₁.congr fun b hb => ?_
      funext d
      rw [Links.child_setChild, if_neg]
      rintro ⟨rfl, -⟩
      exact hnode hb
    have hleft₂ : (ls₁.setChild node .right right₁).child node .left = ls.child node .left := by
      rw [Links.child_setChild, if_neg (by simp), hsame₁ node hnotr]
    rw [caseTree2list, hrun₁]
    simp only [Option.bind_some, hleft₂]
    cases hc : ls.child node .left with
    | none =>
      rw [hc] at hl
      cases l with
      | node => cases hl.1
      | nil =>
        refine ⟨node, _, rfl, ⟨rfl, ?_, ?_⟩, hparent₁, fun b hb => ?_⟩
        · rw [hleft₂, hc]
        · rw [Links.child_setChild, if_pos ⟨rfl, rfl⟩]
          exact hchain₂
        · simp only [LinkTree.toList, List.nil_append, List.mem_cons, not_or] at hb
          funext d
          rw [Links.child_setChild, if_neg fun hboth => hb.1 hboth.1, hsame₁ b hb.2]
    | some b =>
      rw [hc] at hl
      have hoff : ∀ b ∈ l.toList, b ≠ node ∧ b ∉ r.toList := by
        intro b hb
        have hnot := fun hmem => hdisj hb hmem
        rw [List.mem_cons, List.mem_append] at hnot
        exact ⟨fun heq => hnot (.inl heq), fun hmem => hnot (.inr (.inl hmem))⟩
      obtain ⟨first, ls', hrun, hchain, hparent, hsame⟩ := @ihl
        ((ls₁.setChild node .right right₁).setChild node .left none) (some node) (some node) b fuel
        (node :: (r.toList ++ rest))
        (by
          refine hl.congr (fun c hmem => ?_) fun c _ => congrFun hparent₁ c
          obtain ⟨hne, hnotr⟩ := hoff c hmem
          funext d
          rw [Links.child_setChild, if_neg fun hboth => hne hboth.1, Links.child_setChild,
            if_neg fun hboth => hne hboth.1, hsame₁ c hnotr])
        (by
          refine ⟨rfl, by simp, ?_⟩
          rw [Links.child_setChild, if_neg (by simp), Links.child_setChild, if_pos ⟨rfl, rfl⟩]
          refine hchain₂.congr fun c hmem => ?_
          funext d
          rw [Links.child_setChild, if_neg]
          rintro ⟨rfl, -⟩
          exact hnode hmem)
        hnodup (by omega)
      refine ⟨first, ls', hrun, hchain, hparent.trans hparent₁, fun c hmem => ?_⟩
      rw [List.mem_append, List.mem_cons, not_or, not_or] at hmem
      obtain ⟨hnotl, hne, hnotr⟩ := hmem
      rw [hsame c hnotl]
      funext d
      rw [Links.child_setChild, if_neg fun hboth => hne hboth.1, Links.child_setChild,
        if_neg fun hboth => hne hboth.1, hsame₁ c hnotr]

section Runs

variable {t : IntegerType h} {st : CaseStmt L} {accepted : List (CaseNode L)}

/-- The cases form a search tree of disjoint ranges. `Linked` holds the pointers to the parents and
`AvlTree` the balances. -/
structure SearchTree (t : IntegerType h) (st : CaseStmt L) (accepted : List (CaseNode L)) : Prop where
  tree : ∃ tree, Linked st.links.child st.links.parent none tree st.links.root ∧
    AvlTree st.links.balance tree ∧ (tree.toList.map st.node).Pairwise (CaseNode.Before t) ∧
    (tree.toList.map st.node).Perm accepted ∧ tree.toList.Perm (List.range st.allocated)
  numRanges : st.numRanges = accepted.countP fun c => c.low ≠ c.high

theorem rotatedBalance_rule : Links.InnerBalance rotatedBalance := by
  intro side b hlow hhigh
  obtain rfl | rfl | rfl : b = -1 ∨ b = 0 ∨ b = 1 := by omega
  all_goals cases side <;> rfl

theorem sideOf_left {low high : Int} {p : Nat} (hside : st.sideOf t low high p = some .left) :
    t.key high < t.key (st.node p).low := by
  rw [← t.treeIntCstLt_key]
  unfold sideOf at hside
  split at hside
  · assumption
  · split at hside <;> cases hside

theorem sideOf_right {low high : Int} {p : Nat} (hside : st.sideOf t low high p = some .right) :
    t.key (st.node p).high < t.key low := by
  rw [← t.treeIntCstLt_key]
  unfold sideOf at hside
  split at hside
  · cases hside
  · split at hside
    · assumption
    · cases hside

theorem sideOf_none {low high : Int} {p : Nat} (hside : st.sideOf t low high p = none) :
    t.key (st.node p).low ≤ t.key high ∧ t.key low ≤ t.key (st.node p).high := by
  rw [← t.not_treeIntCstLt, ← t.not_treeIntCstLt, ← Bool.not_eq_true, ← Bool.not_eq_true]
  unfold sideOf at hside
  split at hside
  · cases hside
  · split at hside
    · cases hside
    · exact ⟨‹_›, ‹_›⟩

/-- The nodes of a search tree stand in order about a range that is not empty. -/
theorem sideOf_directed {elts : List Nat} {c : CaseNode L} (hc : c.Nonempty t)
    (hne : ∀ d ∈ elts.map st.node, d.Nonempty t) (horder : (elts.map st.node).Pairwise (CaseNode.Before t)) :
    Links.Directed (st.sideOf t c.low c.high) elts := by
  rw [CaseNode.nonempty_iff] at hc
  refine (List.pairwise_map.1 horder).imp_of_mem fun {a b} ha hb hab => ?_
  have hwidea := CaseNode.nonempty_iff.1 (hne _ (List.mem_map_of_mem ha))
  have hwideb := CaseNode.nonempty_iff.1 (hne _ (List.mem_map_of_mem hb))
  rw [CaseNode.before_iff] at hab
  constructor
  · intro hleft
    have hlt := sideOf_left hleft
    exact if_pos ((t.treeIntCstLt_key ..).2 (by omega))
  · intro hright
    have hlt := sideOf_right hright
    have hnot : ¬ t.treeIntCstLt c.high (st.node a).low = true := by
      rw [t.treeIntCstLt_key]
      omega
    exact (if_neg hnot).trans (if_pos ((t.treeIntCstLt_key ..).2 (by omega)))

/-- A call of `add_case_node`: a range that overlaps is refused, another one is accepted. -/
theorem addCaseNode_spec (htree : SearchTree t st accepted) (hne : ∀ d ∈ accepted, d.Nonempty t)
    {c : CaseNode L} (hc : c.Nonempty t) :
    (∃ d ∈ accepted, c.Overlaps t d ∧
        addCaseNode t c.low c.high c.codeLabel st = some (⟨2, some d.codeLabel⟩, st)) ∨
      (∀ d ∈ accepted, ¬ c.Overlaps t d) ∧ ∃ st',
        addCaseNode t c.low c.high c.codeLabel st = some (⟨0, none⟩, st') ∧
          SearchTree t st' (c :: accepted) := by
  obtain ⟨⟨tree, hlinked, havl, horder, hperm, halloc⟩, hranges⟩ := htree
  have hmem : ∀ a, a ∈ tree.toList ↔ a < st.allocated := fun a => halloc.mem_iff.trans List.mem_range
  have hlen : tree.toList.length ≤ st.allocated + 1 := by
    rw [halloc.length_eq, List.length_range]
    exact Nat.le_succ _
  have hne' : ∀ d ∈ tree.toList.map st.node, d.Nonempty t := fun d hd => hne d (hperm.mem_iff.1 hd)
  obtain ⟨a, ha, hside, hsearch⟩ | ⟨p, side, l₁, l₂, ls, hsearch, hsplit, hl₁, hl₂, -, hrun, htree'⟩ :=
    Links.search_insert .left ⟨tree, hlinked, havl, rfl⟩ (halloc.nodup_iff.2 List.nodup_range)
      (sideOf_directed hc hne' horder) (fun hin => Nat.lt_irrefl _ ((hmem st.allocated).1 hin))
      rotatedBalance_rule hlen
  · refine .inl ⟨st.node a, hperm.mem_iff.1 (List.mem_map_of_mem ha), ?_, ?_⟩
    · obtain ⟨hlow, hhigh⟩ := sideOf_none hside
      by_contra hno
      obtain hlt | hlt := (CaseNode.not_overlaps hc (hne' _ (List.mem_map_of_mem ha))).1 hno
      · rw [CaseNode.before_iff] at hlt
        omega
      · rw [CaseNode.before_iff] at hlt
        omega
    · rw [addCaseNode, hsearch]
      rfl
  · rw [hsplit] at horder hperm hmem hne' halloc
    have hnode : ∀ a, a ∈ l₁ ++ l₂ →
        Function.update st.node st.allocated ⟨c.low, c.high, c.codeLabel⟩ a = st.node a := fun a ha =>
      Function.update_of_ne (Nat.ne_of_lt ((hmem a).1 ha)) ..
    have hlow : ∀ a ∈ l₁, (st.node a).Before t c := fun a ha =>
      CaseNode.before_iff.2 (sideOf_right (hl₁ a ha))
    have hhigh : ∀ a ∈ l₂, c.Before t (st.node a) := fun a ha =>
      CaseNode.before_iff.2 (sideOf_left (hl₂ a ha))
    have hdone : addCaseNode t c.low c.high c.codeLabel st = some (⟨0, none⟩,
        { node := Function.update st.node st.allocated ⟨c.low, c.high, c.codeLabel⟩
          allocated := st.allocated + 1
          links := ls
          numRanges := if c.low = c.high then st.numRanges else st.numRanges + 1 }) := by
      rw [addCaseNode, hsearch]
      simp only [Option.bind_eq_bind, Option.bind_some, hrun]
      rfl
    refine .inr ⟨fun d hd => ?_, _, hdone, ?_⟩
    · obtain ⟨a, ha, rfl⟩ := List.mem_map.1 (hperm.mem_iff.2 hd)
      refine (CaseNode.not_overlaps hc (hne _ hd)).2 ?_
      obtain ha | ha := List.mem_append.1 ha
      · exact .inr (hlow a ha)
      · exact .inl (hhigh a ha)
    · obtain ⟨tree', hlinked', havl', hlist⟩ := htree'
      have hmap : (l₁ ++ st.allocated :: l₂).map
          (Function.update st.node st.allocated ⟨c.low, c.high, c.codeLabel⟩) =
          l₁.map st.node ++ c :: l₂.map st.node := by
        rw [List.map_append, List.map_cons, Function.update_self,
          List.map_congr_left fun a ha => hnode a (List.mem_append_left _ ha),
          List.map_congr_left fun a ha => hnode a (List.mem_append_right _ ha)]
      refine ⟨⟨tree', hlinked', havl', ?_, ?_, ?_⟩, ?_⟩
      · rw [hlist, hmap]
        rw [List.map_append] at horder
        obtain ⟨horder₁, horder₂, hcross⟩ := List.pairwise_append.1 horder
        refine List.pairwise_append.2 ⟨horder₁, List.pairwise_cons.2 ⟨?_, horder₂⟩, fun d hd e he => ?_⟩
        · intro d hd
          obtain ⟨a, ha, rfl⟩ := List.mem_map.1 hd
          exact hhigh a ha
        · obtain rfl | he := List.mem_cons.1 he
          · obtain ⟨a, ha, rfl⟩ := List.mem_map.1 hd
            exact hlow a ha
          · exact hcross d hd e he
      · rw [hlist, hmap]
        rw [List.map_append] at hperm
        exact List.perm_middle.trans (hperm.cons c)
      · rw [hlist, List.range_succ]
        have hswap : ([st.allocated] ++ (l₁ ++ l₂)).Perm ((l₁ ++ l₂) ++ [st.allocated]) :=
          List.perm_append_comm
        have hmiddle : (l₁ ++ st.allocated :: l₂).Perm ([st.allocated] ++ (l₁ ++ l₂)) := List.perm_middle
        exact (hmiddle.trans hswap).trans (halloc.append_right _)
      · rw [List.countP_cons, hranges]
        by_cases heq : c.low = c.high <;> simp [heq]

/-- The ranges of the calls that returned 0, after those accepted before. -/
def acceptedBy (accepted : List (CaseNode L)) :
    List (CaseNode L) → List (PushResult L) → List (CaseNode L)
  | c :: cs, result :: results =>
    acceptedBy (if result.code = 0 then c :: accepted else accepted) cs results
  | _, _ => accepted

theorem addCaseNodes_cons {c : CaseNode L} {cs : List (CaseNode L)} {result : PushResult L}
    {results : List (PushResult L)} {st₁ st' : CaseStmt L}
    (hrun : addCaseNode t c.low c.high c.codeLabel st = some (result, st₁))
    (hrest : addCaseNodes t cs st₁ = some (results, st')) :
    addCaseNodes t (c :: cs) st = some (result :: results, st') := by
  simp only [addCaseNodes, hrun, hrest, Option.bind_eq_bind, Option.bind_some]
  rfl

theorem addCaseNodes_spec (htree : SearchTree t st accepted) (hne : ∀ d ∈ accepted, d.Nonempty t)
    {calls : List (CaseNode L)} (hcalls : ∀ c ∈ calls, c.Nonempty t) :
    ∃ results st', addCaseNodes t calls st = some (results, st') ∧
      SearchTree t st' (acceptedBy accepted calls results) ∧
      ∀ d ∈ acceptedBy accepted calls results, d.Nonempty t := by
  induction calls generalizing st accepted with
  | nil => exact ⟨[], st, rfl, htree, hne⟩
  | cons c cs ih =>
    obtain ⟨hc, hcs⟩ := List.forall_mem_cons.1 hcalls
    obtain ⟨d, -, -, hrun⟩ | ⟨-, st₁, hrun, htree₁⟩ := addCaseNode_spec htree hne hc
    · obtain ⟨results, st', hrest, hdone⟩ := ih htree hne hcs
      exact ⟨_, st', addCaseNodes_cons hrun hrest, hdone⟩
    · obtain ⟨results, st', hrest, hdone⟩ := ih htree₁ (List.forall_mem_cons.2 ⟨hc, hne⟩) hcs
      exact ⟨_, st', addCaseNodes_cons hrun hrest, hdone⟩

theorem searchTree_start (memory : Nat → CaseNode L) : SearchTree t (start memory) [] :=
  ⟨⟨.nil, rfl, trivial, .nil, .nil, .nil⟩, rfl⟩

/-- The list that `expand_end_case` starts from: the nodes of the tree in order. -/
theorem endCaseList_linked {tree : LinkTree Nat}
    (hlinked : Linked st.links.child st.links.parent none tree st.links.root)
    (havl : AvlTree st.links.balance tree) (halloc : tree.toList.Perm (List.range st.allocated)) :
    ∃ st', endCaseList st = some st' ∧ st'.node = st.node ∧
      RightChain st'.links.child st'.links.root tree.toList := by
  have hheight : tree.height ≤ st.allocated := by
    have hle := LinkTree.height_le_length tree
    rwa [halloc.length_eq, List.length_range] at hle
  unfold endCaseList
  cases tree with
  | nil =>
    rw [show st.links.root = none from hlinked]
    exact ⟨st, rfl, rfl, hlinked⟩
  | node l a r =>
    obtain ⟨hroot, hparent, hl, hr⟩ := hlinked
    rw [hroot]
    dsimp only
    split
    · obtain ⟨first, ls, hrun, hchain, -⟩ := @caseTree2list_spec st.links (.node l a r) none none a
        st.allocated [] ⟨rfl, hparent, hl, hr⟩ rfl
        (by
          rw [List.append_nil]
          exact halloc.nodup_iff.2 List.nodup_range) hheight
      rw [List.append_nil] at hchain
      rw [hrun]
      exact ⟨_, rfl, rfl, hchain⟩
    · next hleft =>
      -- without a left subtree there is a leaf on the right at most
      refine ⟨st, rfl, rfl, ?_⟩
      rw [hroot]
      have hnone : st.links.child a .left = none := by
        simpa using hleft
      rw [hnone] at hl
      obtain ⟨hbal, ⟨-, hone⟩, -, -⟩ := havl
      cases l with
      | node => cases hl.1
      | nil =>
        refine ⟨rfl, hnone, ?_⟩
        cases r with
        | nil => exact hr
        | node rl b rr =>
          obtain ⟨hb, -, hrl, hrr⟩ := hr
          simp only [LinkTree.height] at hbal
          cases rl with
          | node =>
            simp only [LinkTree.height] at hbal
            omega
          | nil =>
            cases rr with
            | node =>
              simp only [LinkTree.height] at hbal
              omega
            | nil => exact ⟨hb, hrl, hrr⟩

theorem endCaseList_spec (htree : SearchTree t st accepted) :
    ∃ st' elts, endCaseList st = some st' ∧ st'.node = st.node ∧
      RightChain st'.links.child st'.links.root elts ∧
      (elts.map st.node).Pairwise (CaseNode.Before t) ∧ (elts.map st.node).Perm accepted := by
  obtain ⟨⟨tree, hlinked, havl, horder, hperm, halloc⟩, -⟩ := htree
  obtain ⟨st', hrun, hnode, hchain⟩ := endCaseList_linked hlinked havl halloc
  exact ⟨st', tree.toList, hrun, hnode, hchain, horder, hperm⟩

end Runs

section Results

variable (t : IntegerType h)

/-- The case labels of a switch, when no range is empty: the tree after every run of calls, what a further
call does, and the list made of the tree. -/
theorem case_labels_kept (memory : Nat → CaseNode L) (calls : List (CaseNode L))
    (hcalls : ∀ c ∈ calls, c.Nonempty t) :
    ∃ results st, addCaseNodes t calls (start memory) = some (results, st) ∧
      SearchTree t st (acceptedBy [] calls results) ∧
      (∀ c : CaseNode L, c.Nonempty t →
        ((∃ d ∈ acceptedBy [] calls results, c.Overlaps t d) →
          ∃ d ∈ acceptedBy [] calls results, c.Overlaps t d ∧
            addCaseNode t c.low c.high c.codeLabel st = some (⟨2, some d.codeLabel⟩, st)) ∧
        ((∀ d ∈ acceptedBy [] calls results, ¬ c.Overlaps t d) →
          ∃ st', addCaseNode t c.low c.high c.codeLabel st = some (⟨0, none⟩, st') ∧
            SearchTree t st' (c :: acceptedBy [] calls results))) ∧
      ∃ st' elts, endCaseList st = some st' ∧ st'.node = st.node ∧
        RightChain st'.links.child st'.links.root elts ∧
        (elts.map st.node).Pairwise (CaseNode.Before t) ∧
        (elts.map st.node).Perm (acceptedBy [] calls results) := by
  obtain ⟨results, st, hrun, htree, hne⟩ :=
    addCaseNodes_spec (searchTree_start (t := t) memory) (fun d hd => (List.not_mem_nil hd).elim) hcalls
  refine ⟨results, st, hrun, htree, fun c hc => ?_, endCaseList_spec htree⟩
  obtain ⟨d, hd, hover, hcall⟩ | ⟨hfree, hcall⟩ := addCaseNode_spec htree hne hc
  · exact ⟨fun _ => ⟨d, hd, hover, hcall⟩, fun hno => absurd hover (hno d hd)⟩
  · exact ⟨fun ⟨d, hd, hover⟩ => absurd hover (hfree d hd), fun _ => hcall⟩

def unsigned16 : IntegerType host32 := ⟨16, true, 0, some 65535⟩

def int16 : IntegerType host32 := ⟨16, false, -32768, some 32767⟩

theorem case_labels_kept_three :
    ∃ results st, addCaseNodes int16 [⟨1, 1, 10⟩, ⟨2, 5, 11⟩, ⟨-3, 0, 12⟩] (start fun _ => ⟨0, 0, 0⟩) =
        some (results, st) ∧
      SearchTree int16 st (acceptedBy [] [⟨1, 1, 10⟩, ⟨2, 5, 11⟩, ⟨-3, 0, 12⟩] results) := by
  obtain ⟨results, st, hrun, htree, -⟩ := case_labels_kept int16 (fun _ => ⟨0, 0, 0⟩)
    [⟨1, 1, 10⟩, ⟨2, 5, 11⟩, ⟨-3, 0, 12⟩] (by decide +kernel)
  exact ⟨results, st, hrun, htree⟩

/-- In a switch on `unsigned`, `case -1 ... 5` is not empty before the conversion and is empty behind it.
With it in the tree `case 40000 ... 50000` is not seen to overlap `case 30000 ... 65535`. -/
theorem case_labels_overlap :
    (do
      let ctx : CaseContext host32 := ⟨true, false, some unsigned16, unsigned16⟩
      let (a, st) ← pushcaseRange ctx (some ⟨int16, -1, false⟩) (some ⟨int16, 5, false⟩) convertAndCheck 1
        (start fun _ => ⟨0, 0, 0⟩)
      let (b, st) ← pushcaseRange ctx (some ⟨unsigned16, 30000, false⟩) (some ⟨unsigned16, 65535, false⟩)
        convertAndCheck 2 st
      let (c, _) ← pushcaseRange ctx (some ⟨unsigned16, 40000, false⟩) (some ⟨unsigned16, 50000, false⟩)
        convertAndCheck 3 st
      return (a, b, c)) = some (⟨0, none⟩, ⟨0, none⟩, ⟨0, none⟩) ∧
      (⟨40000, 50000, 3⟩ : CaseNode Nat).Overlaps unsigned16 ⟨30000, 65535, 2⟩ :=
  ⟨by decide +kernel, 40000, by decide +kernel, by decide +kernel⟩

end Results

end CaseStmt

end Z80Gcc
