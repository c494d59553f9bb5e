import Mathlib.Data.List.Perm.Basic
import Z80Gcc.Spec.CaseNodes

/-! The tree of case labels: `add_case_node` keeps an AVL tree, whose nodes in order are the cases
in order, and `case_tree2list` is that order. -/

namespace Z80Gcc

open Z80Gcc.WrapInt

theorem IntegerType.treeIntCstLt_iff {h : Host} {t : IntegerType h} {a b : Int}
    (ht : t.precision ≤ 2 * h.bits) (ha : t.wrap a = a) (hb : t.wrap b = b) :
    t.treeIntCstLt a b = true ↔ a < b := by
  unfold wrap at ha hb
  unfold treeIntCstLt
  cases hu : t.unsignedp with
  | true =>
    rw [hu, wrap_true] at ha hb
    simp only [if_true, intCstLtUnsigned, emod_eq_self_mono ht ha, emod_eq_self_mono ht hb, decide_eq_true_eq]
  | false =>
    rw [hu, wrap_false] at ha hb
    simp only [Bool.false_eq_true, if_false, intCstLt, bmod_eq_self_mono ht ha, bmod_eq_self_mono ht hb, decide_eq_true_eq]

variable {L : Type}

/-- The cases of a tree in order. -/
def cases (tree : CaseTree (AvlNode L)) : List (CaseNode L) := tree.toList.map AvlNode.toCaseNode

@[simp] theorem cases_nil : cases (.nil : CaseTree (AvlNode L)) = [] := rfl

@[simp] theorem cases_node (left right : CaseTree (AvlNode L)) (p : AvlNode L) :
    cases (.node left p right) = cases left ++ p.toCaseNode :: cases right := by
  simp [cases, CaseTree.toList]

/-- A tree of the given height in which every balance field is the difference of the heights of
the two sides, at most one. -/
inductive Avl : CaseTree (AvlNode L) → Nat → Prop
  | nil : Avl .nil 0
  | node {left right : CaseTree (AvlNode L)} {p : AvlNode L} {hl hr : Nat} (hleft : Avl left hl)
      (hright : Avl right hr) (hbal : p.balance = hr - hl) (hle : hl ≤ hr + 1) (hge : hr ≤ hl + 1) :
      Avl (.node left p right) (max hl hr + 1)

theorem Avl.mk {left right : CaseTree (AvlNode L)} {p : AvlNode L} {hl hr n : Nat}
    (hleft : Avl left hl) (hright : Avl right hr)
    (h : p.balance = hr - hl ∧ hl ≤ hr + 1 ∧ hr ≤ hl + 1 ∧ n = max hl hr + 1) :
    Avl (.node left p right) n := by
  obtain ⟨hbal, hle, hge, rfl⟩ := h
  exact .node hleft hright hbal hle hge

def Tilted (tree : CaseTree (AvlNode L)) : Prop :=
  ∃ l p r, tree = .node l p r ∧ p.balance ≠ 0

/-- What one turn of the rebalancing loop makes of a subtree of height `n`: the cases stay, and the
loop goes on only when the height is one more. -/
structure Rebalanced (n : Nat) (cs : List (CaseNode L))
    (r : Except (AddError L) (CaseTree (AvlNode L) × Bool)) : Prop where
  intro ::
  ok : ∃ tree grown, r = .ok (tree, grown) ∧ cases tree = cs ∧
    Avl tree (if grown then n + 1 else n) ∧ (grown → n = 0 ∨ Tilted tree)

theorem leftGrown_rebalanced {r right : CaseTree (AvlNode L)} {p : AvlNode L} {hl hr : Nat}
    (hleft : Avl r (hl + 1)) (htilt : hl = 0 ∨ Tilted r) (hright : Avl right hr)
    (hbal : p.balance = hr - hl) (hle : hl ≤ hr + 1) (hge : hr ≤ hl + 1) :
    Rebalanced (max hl hr + 1) (cases r ++ p.toCaseNode :: cases right) (leftGrown r p right) := by
  unfold leftGrown
  by_cases h0 : p.balance = 0
  · rw [if_pos h0]
    refine ⟨_, _, rfl, by simp, ?_, fun _ => .inr ⟨_, _, _, rfl, by simp⟩⟩
    exact .mk hleft hright (by simp; omega)
  rw [if_neg h0]
  by_cases hneg : p.balance < 0
  · rw [if_pos hneg]
    obtain ⟨rl, rn, rr, rfl, hrn⟩ : Tilted r := htilt.resolve_left (by omega)
    generalize hheight : hl + 1 = height at hleft
    obtain _ | @⟨_, _, _, hrl, hrr, havll, havlr, hrbal, hrle, hrge⟩ := hleft
    dsimp only
    by_cases hrneg : rn.balance < 0
    · rw [if_pos hrneg]
      refine ⟨_, _, rfl, by simp, ?_, by simp⟩
      exact .mk havll (.mk (n := hrr + 1) havlr hright (by simp; omega)) (by simp; omega)
    · rw [if_neg hrneg]
      generalize hheight' : hrr = height' at havlr
      obtain _ | @⟨tl, tr, tn, htl, htr, hatl, hatr, htbal, htle, htge⟩ := havlr
      · omega
      dsimp only
      refine ⟨_, _, rfl, by simp, ?_, by simp⟩
      refine .mk (.mk (n := hrl + 1) havll hatl ?_) (.mk (n := hr + 1) hatr hright ?_)
        (by simp; omega)
      · split <;> simp <;> omega
      · split <;> simp <;> omega
  · rw [if_neg hneg]
    refine ⟨_, _, rfl, by simp, ?_, by simp⟩
    exact .mk hleft hright (by simp; omega)

theorem rightGrown_rebalanced {left r : CaseTree (AvlNode L)} {p : AvlNode L} {hl hr : Nat}
    (hleft : Avl left hl) (hright : Avl r (hr + 1)) (htilt : hr = 0 ∨ Tilted r)
    (hbal : p.balance = hr - hl) (hle : hl ≤ hr + 1) (hge : hr ≤ hl + 1) :
    Rebalanced (max hl hr + 1) (cases left ++ p.toCaseNode :: cases r) (rightGrown left p r) := by
  unfold rightGrown
  by_cases h0 : p.balance = 0
  · rw [if_pos h0]
    refine ⟨_, _, rfl, by simp, ?_, fun _ => .inr ⟨_, _, _, rfl, by simp⟩⟩
    exact .mk hleft hright (by simp; omega)
  rw [if_neg h0]
  by_cases hpos : p.balance > 0
  · rw [if_pos hpos]
    obtain ⟨rl, rn, rr, rfl, hrn⟩ : Tilted r := htilt.resolve_left (by omega)
    generalize hheight : hr + 1 = height at hright
    obtain _ | @⟨_, _, _, hrl, hrr, havll, havlr, hrbal, hrle, hrge⟩ := hright
    dsimp only
    by_cases hrpos : rn.balance > 0
    · rw [if_pos hrpos]
      refine ⟨_, _, rfl, by simp, ?_, by simp⟩
      exact .mk (.mk (n := hrl + 1) hleft havll (by simp; omega)) havlr (by simp; omega)
    · rw [if_neg hrpos]
      generalize hheight' : hrl = height' at havll
      obtain _ | @⟨tl, tr, tn, htl, htr, hatl, hatr, htbal, htle, htge⟩ := havll
      · omega
      dsimp only
      refine ⟨_, _, rfl, by simp, ?_, by simp⟩
      refine .mk (.mk (n := hl + 1) hleft hatl ?_) (.mk (n := hrr + 1) hatr havlr ?_)
        (by simp; omega)
      · split <;> simp <;> omega
      · split <;> simp <;> omega
  · rw [if_neg hpos]
    refine ⟨_, _, rfl, by simp, ?_, by simp⟩
    exact .mk hleft hright (by simp; omega)

/-- Cases in increasing order, without overlap. -/
abbrev InOrder (cs : List (CaseNode L)) : Prop := cs.Pairwise fun a b => a.high < b.low

def CaseNode.Of {h : Host} (t : IntegerType h) (c : CaseNode L) : Prop :=
  c.low ≤ c.high ∧ t.wrap c.low = c.low ∧ t.wrap c.high = c.high

variable {h : Host} {t : IntegerType h}

/-- A case that overlaps no other enters the tree at its place in the order. -/
theorem addCaseNodeAt_rebalanced (ht : t.precision ≤ 2 * h.bits) {c : CaseNode L} (hc : c.Of t)
    {tree : CaseTree (AvlNode L)} {n : Nat} (havl : Avl tree n)
    (hof : ∀ x ∈ cases tree, x.Of t) (hsorted : InOrder (cases tree))
    (hdisjoint : ∀ x ∈ cases tree, c.high < x.low ∨ x.high < c.low) :
    ∃ below above, cases tree = below ++ above ∧ (∀ x ∈ below, x.high < c.low) ∧
      (∀ x ∈ above, c.high < x.low) ∧
      Rebalanced n (below ++ c :: above) (addCaseNodeAt t c tree) := by
  induction havl with
  | nil =>
    refine ⟨[], [], rfl, by simp, by simp, ⟨_, _, rfl, rfl, ?_, fun _ => .inl rfl⟩⟩
    exact .mk .nil .nil (by simp)
  | @node left right p hl hr hleft hright hbal hle hge ihl ihr =>
    rw [cases_node] at hof hsorted hdisjoint ⊢
    simp only [List.mem_append, List.mem_cons] at hof hdisjoint
    obtain ⟨hsl, hsr, hlr⟩ := List.pairwise_append.1 hsorted
    obtain ⟨hpr, hsr⟩ := List.pairwise_cons.1 hsr
    have hp := hof p.toCaseNode (.inr (.inl rfl))
    unfold addCaseNodeAt
    by_cases hlow : c.high < p.low
    · rw [if_pos ((t.treeIntCstLt_iff ht hc.2.2 hp.2.1).2 hlow)]
      obtain ⟨below, above, heq, hbelow, habove, r, grown, hr', hcases, hravl, htilt⟩ :=
        ihl (fun x hx => hof x (.inl hx)) hsl (fun x hx => hdisjoint x (.inl hx))
      refine ⟨below, above ++ p.toCaseNode :: cases right, by simp [heq], hbelow, ?_, ?_⟩
      · intro x hx
        simp only [List.mem_append, List.mem_cons] at hx
        obtain hx | rfl | hx := hx
        · exact habove x hx
        · exact hlow
        · exact (hlow.trans_le hp.1).trans (hpr x hx)
      · rw [hr']
        cases grown with
        | false =>
          exact ⟨_, _, rfl, by simp [hcases], .node hravl hright hbal hle hge, by simp⟩
        | true =>
          have := leftGrown_rebalanced hravl (htilt rfl) hright hbal hle hge
          rw [hcases, List.append_assoc] at this
          exact this
    · rw [if_neg (fun hlt => hlow ((t.treeIntCstLt_iff ht hc.2.2 hp.2.1).1 hlt))]
      have hhigh : p.high < c.low :=
        (hdisjoint p.toCaseNode (.inr (.inl rfl))).resolve_left hlow
      rw [if_pos ((t.treeIntCstLt_iff ht hp.2.2 hc.2.1).2 hhigh)]
      obtain ⟨below, above, heq, hbelow, habove, r, grown, hr', hcases, hravl, htilt⟩ :=
        ihr (fun x hx => hof x (.inr (.inr hx))) hsr (fun x hx => hdisjoint x (.inr (.inr hx)))
      refine ⟨cases left ++ p.toCaseNode :: below, above, by simp [heq], ?_, habove, ?_⟩
      · intro x hx
        simp only [List.mem_append, List.mem_cons] at hx
        obtain hx | rfl | hx := hx
        · have := hlr x hx p.toCaseNode (.head _)
          exact (this.trans_le hp.1).trans hhigh
        · exact hhigh
        · exact hbelow x hx
      · rw [hr']
        cases grown with
        | false =>
          exact ⟨_, _, rfl, by simp [hcases], .node hleft hravl hbal hle hge, by simp⟩
        | true =>
          have := rightGrown_rebalanced hleft hravl (htilt rfl) hbal hle hge
          rw [hcases] at this
          rw [List.append_assoc, List.cons_append]
          exact this

/-- The tree of the cases collected so far. -/
structure Collected (t : IntegerType h) (cs : List (CaseNode L)) (tree : CaseTree (AvlNode L)) :
    Prop where
  avl : ∃ n, Avl tree n
  perm : (cases tree).Perm cs
  sorted : InOrder (cases tree)

theorem Collected.nil : Collected t [] (.nil : CaseTree (AvlNode L)) :=
  ⟨⟨0, .nil⟩, .nil, .nil⟩

theorem Collected.add (ht : t.precision ≤ 2 * h.bits) {cs : List (CaseNode L)}
    {tree : CaseTree (AvlNode L)} (hcol : Collected t cs tree) (hof : ∀ x ∈ cs, x.Of t)
    {c : CaseNode L} (hc : c.Of t) (hdisjoint : ∀ x ∈ cs, x.high < c.low ∨ c.high < x.low) :
    ∃ tree', addCaseNode t tree c = .ok tree' ∧ Collected t (cs ++ [c]) tree' := by
  obtain ⟨⟨n, havl⟩, hperm, hsorted⟩ := hcol
  obtain ⟨below, above, heq, hbelow, habove, tree', grown, hadd, hcases, havl', -⟩ :=
    addCaseNodeAt_rebalanced ht hc havl (fun x hx => hof x (hperm.mem_iff.1 hx)) hsorted
      fun x hx => (hdisjoint x (hperm.mem_iff.1 hx)).symm
  refine ⟨tree', by rw [addCaseNode, hadd]; rfl, ⟨_, havl'⟩, ?_, ?_⟩
  · rw [hcases]
    calc below ++ c :: above
      _ |>.Perm (c :: (below ++ above)) := List.perm_middle
      _ |>.Perm (c :: cs) := (heq ▸ hperm).cons c
      _ |>.Perm (cs ++ [c]) := (List.perm_append_singleton c cs).symm
  · rw [hcases]
    rw [heq] at hsorted
    obtain ⟨hb, ha, hba⟩ := List.pairwise_append.1 hsorted
    refine List.pairwise_append.2 ⟨hb, List.pairwise_cons.2 ⟨habove, ha⟩, ?_⟩
    intro x hx y hy
    obtain rfl | hy := List.mem_cons.1 hy
    · exact hbelow x hx
    · exact hba x hx y hy

/-- Disjoint cases are all accepted, and none of the links followed is null. -/
theorem addCaseNodes_collected (ht : t.precision ≤ 2 * h.bits) (cs : List (CaseNode L))
    (hof : ∀ x ∈ cs, x.Of t) (hdisjoint : cs.Pairwise fun a b => a.high < b.low ∨ b.high < a.low) :
    ∃ tree, addCaseNodes t cs = .ok tree ∧ Collected t cs tree := by
  induction cs using List.reverseRecOn with
  | nil => exact ⟨.nil, rfl, .nil⟩
  | append_singleton cs c ih =>
    obtain ⟨hd, -, hcs⟩ := List.pairwise_append.1 hdisjoint
    obtain ⟨tree, hadd, hcol⟩ := ih (fun x hx => hof x (List.mem_append_left _ hx)) hd
    obtain ⟨tree', hadd', hcol'⟩ := hcol.add ht (fun x hx => hof x (List.mem_append_left _ hx))
      (hof c (by simp)) fun x hx => hcs x hx c (by simp)
    refine ⟨tree', ?_, hcol'⟩
    rw [addCaseNodes] at hadd ⊢
    rw [List.foldlM_append, hadd]
    simp [hadd', bind, Except.bind, pure, Except.pure]

theorem caseTree2list_eq (tree : CaseTree (AvlNode L)) (rest : List (CaseNode L)) :
    caseTree2list tree rest = cases tree ++ rest := by
  induction tree generalizing rest with
  | nil => rfl
  | node left p right ihl ihr =>
    rw [caseTree2list, ihl, ihr, cases_node, List.append_assoc, List.cons_append]

theorem Avl.eq_nil {tree : CaseTree (AvlNode L)} (h : Avl tree 0) : tree = .nil := by
  generalize hn : 0 = n at h
  cases h with
  | nil => rfl
  | node => omega

/-- A root without a left link has no more than a leaf on its right, so that the tree is a list. -/
theorem caseList_eq {tree : CaseTree (AvlNode L)} {n : Nat} (havl : Avl tree n) :
    caseList tree = cases tree := by
  cases havl with
  | nil => rfl
  | @node left right p hl hr hleft hright hbal hle hge =>
    cases hleft with
    | node => rw [caseList, caseTree2list_eq, List.append_nil]
    | nil =>
      cases hright with
      | nil => rfl
      | @node rl rr q hrl hrr hrleft hrright =>
        obtain ⟨rfl, rfl⟩ : hrl = 0 ∧ hrr = 0 := by omega
        rw [hrleft.eq_nil, hrright.eq_nil]
        rfl

end Z80Gcc
