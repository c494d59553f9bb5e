import Z80Gcc.Spec.Gcse
import Z80Gcc.Lib.DepthFirst
import Z80Gcc.Proofs.Lcm

/-! The elimination of partial redundancies keeps the meaning of a function: on every run, what is read from the
`reaching_reg` where a computation was deleted is what the computation would have given. -/

namespace Z80Gcc.Gcse

open SimpleBitmap FlowGraph Lcm DepthFirst

variable {m w nExprs : Nat}

section Reaches

variable (transp comp : Fin (m + 1) → Bool) (succ : Fin (m + 1) → List (BlockRef (m + 1))) (occrBb : Fin (m + 1))
  (checkPreComp : Bool)

def generates (predBb : Fin (m + 1)) : Bool := (!checkPreComp && decide (occrBb = predBb)) || comp predBb

/-- `pre_expr_reaches_here_p` looks for the block of the occurrence, back from the block that it should reach. -/
def backward : Search (Fin (m + 1)) where
  next bb := ((computePredsSuccs succ entryEdges).sPreds bb).filterMap BlockRef.isBlock?
  goal predBb := generates comp occrBb checkPreComp predBb && decide (occrBb = predBb)
  through predBb := !generates comp occrBb checkPreComp predBb && transp predBb

theorem backward_goal (predBb : Fin (m + 1)) : (backward transp comp succ occrBb checkPreComp).goal predBb =
    (generates comp occrBb checkPreComp predBb && decide (occrBb = predBb)) := rfl

theorem backward_through (predBb : Fin (m + 1)) :
    (backward transp comp succ occrBb checkPreComp).through predBb =
      (!generates comp occrBb checkPreComp predBb && transp predBb) := rfl

theorem reachesPreds_eq (reaches : Fin (m + 1) → (Fin (m + 1) → Bool) → Option (Bool × (Fin (m + 1) → Bool)))
    (pred : List (BlockRef (m + 1))) (visited : Fin (m + 1) → Bool) :
    reachesPreds transp comp occrBb checkPreComp reaches pred visited =
      (backward transp comp succ occrBb checkPreComp).scan reaches (pred.filterMap BlockRef.isBlock?) visited := by
  induction pred generalizing visited with
  | nil => rfl
  | cons ref pred ih =>
    cases ref with
    | entryBlock => exact ih visited
    | exitBlock => exact ih visited
    | block predBb =>
      have hblock : (BlockRef.block predBb :: pred).filterMap BlockRef.isBlock? =
          predBb :: pred.filterMap BlockRef.isBlock? := rfl
      rw [hblock, reachesPreds, Search.scan, backward_goal, backward_through, ← generates]
      simp only [ih]
      cases visited predBb with
      | true => rfl
      | false =>
        cases generates comp occrBb checkPreComp predBb with
        | true => by_cases hocc : occrBb = predBb <;> simp [hocc]
        | false => cases transp predBb <;> simp

theorem reachesVisited_eq (fuel : Nat) :
    reachesVisited transp comp (computePredsSuccs succ entryEdges).sPreds occrBb checkPreComp fuel =
      (backward transp comp succ occrBb checkPreComp).search fuel := by
  induction fuel with
  | zero => rfl
  | succ fuel ih =>
    funext bb visited
    rw [reachesVisited, ih, reachesPreds_eq]
    rfl

variable {transp comp succ occrBb checkPreComp}

theorem mem_backward_next {p bb : Fin (m + 1)} :
    p ∈ (backward transp comp succ occrBb checkPreComp).next bb ↔ Edge succ p bb := by
  rw [← block_mem_sPreds]
  exact mem_filterMap_isBlock _

/-- A way on which a value computed in the first block is still there in the last, and no block between computes it. -/
structure Reaches (transp comp : Fin (m + 1) → Bool) (succ : Fin (m + 1) → List (BlockRef (m + 1)))
    (path : Nat → Fin (m + 1)) (k : Nat) (occrBb bb : Fin (m + 1)) : Prop where
  walk : Walk succ path k occrBb bb
  pos : 0 < k
  transp : ∀ j, 0 < j → j < k → transp (path j) = true
  comp : ∀ j, 0 < j → j < k → comp (path j) = false

theorem finds_of_reaches {path : Nat → Fin (m + 1)} {k : Nat} {bb : Fin (m + 1)}
    (h : Reaches transp comp succ path k occrBb bb) (hcheck : checkPreComp = true → comp occrBb = true) :
    (backward transp comp succ occrBb checkPreComp).Finds bb := by
  obtain ⟨hwalk, hpos, htransp, hcomp⟩ := h
  have hgen : generates comp occrBb checkPreComp occrBb = true := by
    cases checkPreComp with
    | true => rw [generates, hcheck rfl, Bool.or_true]
    | false => rw [generates, decide_eq_true rfl, Bool.not_false, Bool.and_self, Bool.true_or]
  have hgoal : (backward transp comp succ occrBb checkPreComp).goal occrBb = true := by
    rw [backward_goal, hgen, decide_eq_true rfl, Bool.and_self]
  induction k generalizing bb with
  | zero => exact absurd hpos (Nat.lt_irrefl 0)
  | succ k ih =>
    obtain ⟨hinit, hedge⟩ := hwalk.init
    by_cases hocc : occrBb = path k
    · exact .goal (mem_backward_next.2 (hocc ▸ hedge)) hgoal
    · have hk : 0 < k := by
        by_contra hzero
        obtain rfl : k = 0 := by omega
        exact hocc hwalk.first.symm
      refine .through (mem_backward_next.2 hedge) ?_ (ih hinit hk (fun j hj hlt => htransp j hj (by omega))
        fun j hj hlt => hcomp j hj (by omega))
      rw [backward_through, generates, hcomp k hk (Nat.lt_succ_self k), htransp k hk (Nat.lt_succ_self k),
        decide_eq_false hocc, Bool.and_false, Bool.or_self, Bool.not_false, Bool.and_self]

theorem Reaches.snoc {path : Nat → Fin (m + 1)} {k : Nat} {c bb : Fin (m + 1)}
    (h : Reaches transp comp succ path k occrBb c) (hedge : Edge succ c bb) (htransp : transp c = true)
    (hcomp : comp c = false) :
    Reaches transp comp succ (Function.update path (k + 1) bb) (k + 1) occrBb bb := by
  have hbefore : ∀ j, j < k + 1 → Function.update path (k + 1) bb j = path j :=
    fun j hj => Function.update_of_ne (Nat.ne_of_lt hj) ..
  refine ⟨⟨?_, Function.update_self .., fun j hj => ?_⟩, Nat.succ_pos k, fun j hj hlt => ?_, fun j hj hlt => ?_⟩
  · rw [hbefore 0 (Nat.succ_pos k), h.walk.first]
  · rw [hbefore j hj]
    rcases Nat.lt_succ_iff_lt_or_eq.1 hj with hj | rfl
    · rw [hbefore (j + 1) (Nat.succ_lt_succ hj)]
      exact h.walk.edge j hj
    · rw [Function.update_self, h.walk.last]
      exact hedge
  · rw [hbefore j hlt]
    rcases Nat.lt_succ_iff_lt_or_eq.1 hlt with hlt | rfl
    · exact h.transp j hj hlt
    · rw [h.walk.last, htransp]
  · rw [hbefore j hlt]
    rcases Nat.lt_succ_iff_lt_or_eq.1 hlt with hlt | rfl
    · exact h.comp j hj hlt
    · rw [h.walk.last, hcomp]

theorem reaches_of_finds {bb : Fin (m + 1)} (h : (backward transp comp succ occrBb checkPreComp).Finds bb) :
    (checkPreComp = true → comp occrBb = true) ∧ ∃ path k, Reaches transp comp succ path k occrBb bb := by
  induction h with
  | @goal bb c hc hgoal =>
    rw [backward_goal, Bool.and_eq_true, decide_eq_true_iff] at hgoal
    obtain ⟨hgen, rfl⟩ := hgoal
    refine ⟨fun hcheck => ?_, fun j => if j = 0 then occrBb else bb, 1,
      ⟨if_pos rfl, if_neg Nat.one_ne_zero, fun j hj => ?_⟩, Nat.one_pos, fun j hj hlt => ?_, fun j hj hlt => ?_⟩
    · rwa [hcheck] at hgen
    · obtain rfl : j = 0 := Nat.lt_one_iff.1 hj
      exact mem_backward_next.1 hc
    · exact absurd hlt (Nat.not_lt_of_le hj)
    · exact absurd hlt (Nat.not_lt_of_le hj)
  | @through bb c hc hthrough _ ih =>
    obtain ⟨hcheck, path, k, hreaches⟩ := ih
    rw [backward_through, generates, Bool.and_eq_true, Bool.not_eq_true', Bool.or_eq_false_iff] at hthrough
    exact ⟨hcheck, _, _, hreaches.snoc (mem_backward_next.1 hc) hthrough.2 hthrough.1.2⟩

end Reaches

section Occurrences

variable (p : Local m w nExprs) (succ : Fin (m + 1) → List (BlockRef (m + 1)))

/-- For every flow graph `pre_expr_reaches_here_p` ends, and says that an occurrence reaches a block exactly if it
does: on a way of at least one edge, between blocks that neither change the expression nor compute it. -/
theorem pre_expr_reaches_here_p_exact (occrBb : Fin (m + 1)) (expr : Nat) (bb : Fin (m + 1)) (checkPreComp : Bool) :
    ∃ found, preExprReachesHereP p (computePredsSuccs succ entryEdges).sPreds occrBb expr bb checkPreComp =
        some found ∧
      (found = true ↔ (checkPreComp = true → testBit (p.comp occrBb) expr = true) ∧
        ∃ path k, Reaches (fun bb => testBit (p.transp bb) expr) (fun bb => testBit (p.comp bb) expr) succ path k
          occrBb bb) := by
  have hfuel : Fintype.card (Fin (m + 1)) < m + 2 := by
    rw [Fintype.card_fin]
    exact Nat.lt_succ_self _
  obtain ⟨found, visited, hsearch, hfinds⟩ := Search.search_finds (backward (fun bb => testBit (p.transp bb) expr)
    (fun bb => testBit (p.comp bb) expr) succ occrBb checkPreComp) bb hfuel
  refine ⟨found, ?_, hfinds.trans ⟨reaches_of_finds, fun ⟨hcheck, path, k, h⟩ => finds_of_reaches h hcheck⟩⟩
  rw [preExprReachesHereP, reachesVisited_eq, hsearch, Option.map_some]

variable {p succ}

/-- Whether an occurrence reaches a deleted one is always found out. -/
theorem anyM_eq {A : Type} {f : A → Option Bool} (l : List A) (h : ∀ a ∈ l, ∃ found, f a = some found) :
    ∃ found, l.anyM f = some found ∧ (found = true ↔ ∃ a ∈ l, f a = some true) := by
  induction l with
  | nil => exact ⟨false, rfl, by simp⟩
  | cons a l ih =>
    obtain ⟨found, hfound⟩ := h a List.mem_cons_self
    obtain ⟨rest, hrest, hiff⟩ := ih fun b hb => h b (List.mem_cons_of_mem a hb)
    rw [List.anyM, hfound, Option.bind_eq_bind, Option.bind_some]
    cases found with
    | true => exact ⟨true, rfl, by simp [hfound]⟩
    | false =>
      refine ⟨rest, hrest, hiff.trans ?_⟩
      rw [List.exists_mem_cons_iff, hfound]
      simp

theorem reachesDeleted_eq (redundant optimal : Vec m w nExprs) (bb : Fin (m + 1)) (expr : Nat) (checkPreComp : Bool) :
    ∃ found, reachesDeleted p (computePredsSuccs succ entryEdges).sPreds redundant optimal bb expr checkPreComp =
        some found ∧
      (found = true ↔ ∃ occr, preDelete p redundant optimal occr expr = true ∧
        preExprReachesHereP p (computePredsSuccs succ entryEdges).sPreds bb expr occr checkPreComp =
          some true) := by
  obtain ⟨found, hfound, hiff⟩ := anyM_eq ((List.finRange (m + 1)).filter fun occr => preDelete p redundant optimal occr expr)
    fun occr _ => (pre_expr_reaches_here_p_exact p succ bb expr occr checkPreComp).imp fun _ h => h.1
  refine ⟨found, hfound, hiff.trans ?_⟩
  simp only [List.mem_filter, List.mem_finRange, true_and]

end Occurrences

section Meaning

/-- The blocks after which the `reaching_reg` of an expression has been loaded. -/
def Loads (p : Local m w nExprs) (sPreds : Fin (m + 1) → List (BlockRef (m + 1)))
    (redundant optimal : Vec m w nExprs) (bb : Fin (m + 1)) (expr : Nat) : Prop :=
  preInsert p sPreds redundant optimal bb expr = some true ∨
    preInsertCopies p sPreds redundant optimal bb expr = some true

/-- A run of a function after the pass: `eval` is the value of an expression in a state, and `st j` the state when the
run enters its block `j`, with `reg j` in the `reaching_reg`. A block that does not change the expression keeps its
value. The `reaching_reg` is loaded at the end of a block; what it has there matters only if the block does not change
the expression, since it may be loaded before a call. -/
structure Run {S V : Type} (p : Local m w nExprs) (succ : Fin (m + 1) → List (BlockRef (m + 1)))
    (redundant optimal : Vec m w nExprs) (expr : Nat) (path : Nat → Fin (m + 1)) (k : Nat) (st : Nat → S) (eval : S → V)
    (reg : Nat → V) : Prop where
  walk : Walk succ path k 0 (path k)
  keep : ∀ j < k, testBit (p.transp (path j)) expr = true → eval (st (j + 1)) = eval (st j)
  load : ∀ j < k, Loads p (computePredsSuccs succ entryEdges).sPreds redundant optimal (path j) expr →
    testBit (p.transp (path j)) expr = true → reg (j + 1) = eval (st (j + 1))
  frame : ∀ j < k, ¬Loads p (computePredsSuccs succ entryEdges).sPreds redundant optimal (path j) expr →
    reg (j + 1) = reg j

variable [NeZero w] {p : Local m w nExprs} {succ : Fin (m + 1) → List (BlockRef (m + 1))} {latein isoout : Vec m w nExprs}
  {path : Nat → Fin (m + 1)} {k expr : Nat}

theorem toDelete_iff {bb : Fin (m + 1)} :
    testBit (toDelete (computeRedundant p.antloc latein isoout) (computeOptimal latein isoout) bb) expr = true ↔
      testBit (computeRedundant p.antloc latein isoout bb) expr = true := by
  rw [toDelete, testBit_and, Bool.and_eq_true, and_iff_right_iff_imp]
  intro hred
  rw [testBit_not (inSize_of_test hred), Bool.not_eq_true', Bool.eq_false_iff]
  intro hopt
  have hlate := (redundant_iff.1 hred).2.1
  rw [(optimal_iff.1 hopt).1] at hlate
  exact Bool.noConfusion hlate

/-- Where one computation is deleted, each redundant one is. -/
theorem preDelete_of_redundant (hvalid : ∀ bb bb' expr, p.validateChange bb expr = p.validateChange bb' expr)
    {bb bb' : Fin (m + 1)}
    (hdeleted : preDelete p (computeRedundant p.antloc latein isoout) (computeOptimal latein isoout) bb' expr = true)
    (h : testBit (computeRedundant p.antloc latein isoout bb) expr = true) :
    preDelete p (computeRedundant p.antloc latein isoout) (computeOptimal latein isoout) bb expr = true := by
  rw [preDelete, Bool.and_eq_true] at hdeleted
  rw [preDelete, (redundant_iff.1 h).1, toDelete_iff.2 h, hvalid bb bb', hdeleted.2]
  rfl

/-- The last place chosen before a deleted computation is one where the expression is inserted. -/
theorem preInsert_of_lastPlace (hcomp : ∀ bb expr, testBit (p.comp bb) expr = true →
      testBit (p.transp bb) expr = true → testBit (p.antloc bb) expr = true)
    (hvalid : ∀ bb bb' expr, p.validateChange bb expr = p.validateChange bb' expr)
    (hwalk : Walk succ path k 0 (path k))
    (hdeleted : preDelete p (computeRedundant p.antloc latein isoout) (computeOptimal latein isoout) (path k) expr =
      true) (hred : testBit (computeRedundant p.antloc latein isoout (path k)) expr = true) {e : Nat}
    (he : LastPlace p.transp latein isoout path k expr e) :
    preInsert p (computePredsSuccs succ entryEdges).sPreds (computeRedundant p.antloc latein isoout)
      (computeOptimal latein isoout) (path e) expr = some true := by
  -- the first block after it that computes the expression, or the last one
  have hexists : ∃ q, e < q ∧ (q = k ∨ testBit (p.comp (path q)) expr = true) := ⟨k, he.lt, .inl rfl⟩
  obtain ⟨hq, hqcomp⟩ := Nat.find_spec hexists
  have hqk : Nat.find hexists ≤ k := Nat.find_min' hexists ⟨he.lt, .inl rfl⟩
  have hfirst : ∀ j, e < j → j < Nat.find hexists → testBit (p.comp (path j)) expr = false := by
    intro j hj hlt
    rw [Bool.eq_false_iff]
    exact fun hcomp => Nat.find_min hexists hlt ⟨hj, .inr hcomp⟩
  generalize Nat.find hexists = q at hq hqcomp hqk hfirst
  have hqred : testBit (computeRedundant p.antloc latein isoout (path q)) expr = true := by
    rcases Nat.eq_or_lt_of_le hqk with rfl | hlt
    · exact hred
    · have hqcomp := hqcomp.resolve_left (Nat.ne_of_lt hlt)
      exact redundant_iff.2 ⟨hcomp _ _ hqcomp (he.transp q hq.le hlt), he.not_late q hq hqk, he.not_iso q hq.le hqk⟩
  have hreaches : Reaches (fun bb => testBit (p.transp bb) expr) (fun bb => testBit (p.comp bb) expr) succ
      (fun j => path (e + j)) (q - e) (path e) (path q) := by
    refine ⟨⟨rfl, congrArg path (Nat.add_sub_cancel' hq.le), fun j hj => ?_⟩, Nat.sub_pos_of_lt hq,
      fun j hj hlt => ?_, fun j hj hlt => ?_⟩
    · exact hwalk.edge (e + j) (by omega)
    · exact he.transp (e + j) (by omega) (by omega)
    · exact hfirst (e + j) (by omega) (by omega)
  obtain ⟨found, hfound, hiff⟩ := @reachesDeleted_eq _ _ _ p succ (computeRedundant p.antloc latein isoout)
    (computeOptimal latein isoout) (path e) expr false
  obtain ⟨found', hfound', hiff'⟩ := pre_expr_reaches_here_p_exact p succ (path e) expr (path q) false
  have hopt : testBit (computeOptimal latein isoout (path e)) expr = true :=
    optimal_iff.2 ⟨he.late, he.not_iso e le_rfl he.lt.le⟩
  have hnotred : testBit (computeRedundant p.antloc latein isoout (path e)) expr = false := by
    rw [Bool.eq_false_iff]
    intro hred
    have hlate := (redundant_iff.1 hred).2.1
    rw [he.late] at hlate
    exact Bool.noConfusion hlate
  have hreg : hasReachingReg p (computeRedundant p.antloc latein isoout) (computeOptimal latein isoout) expr = true := by
    rw [hasReachingReg, List.any_eq_true]
    exact ⟨path k, List.mem_finRange _, by rw [(redundant_iff.1 hred).1, toDelete_iff.2 hred]; rfl⟩
  rw [preInsert, testBit_and, testBit_not (inSize_of_test hopt), hnotred, hopt, hreg, Bool.not_false, Bool.and_self,
    Bool.and_self, if_pos rfl, hfound]
  refine congrArg some (hiff.2 ⟨path q, preDelete_of_redundant hvalid hdeleted hqred, ?_⟩)
  rw [hfound']
  exact congrArg some (hiff'.2 ⟨fun h => absurd h Bool.false_ne_true, _, _, hreaches⟩)

/-- Nothing is copied: no place that is chosen is also redundant. -/
theorem preInsertCopies_eq (bb : Fin (m + 1)) (expr : Nat) :
    preInsertCopies p (computePredsSuccs succ entryEdges).sPreds (computeRedundant p.antloc latein isoout)
      (computeOptimal latein isoout) bb expr = some false := by
  rw [preInsertCopies, if_neg]
  intro h
  simp only [Bool.and_eq_true, testBit_and] at h
  have hlate := (redundant_iff.1 h.1.2.2).2.1
  rw [(optimal_iff.1 h.1.2.1).1] at hlate
  exact Bool.noConfusion hlate

/-- What is read at a deleted computation is the value of the expression there. -/
theorem reg_eq_of_deleted (hsolved : Solved succ p.transp p.antloc latein isoout)
    (hcomp : ∀ bb expr, testBit (p.comp bb) expr = true →
      testBit (p.transp bb) expr = true → testBit (p.antloc bb) expr = true)
    (hvalid : ∀ bb bb' expr, p.validateChange bb expr = p.validateChange bb' expr) {S V : Type} {st : Nat → S} {eval : S → V} {reg : Nat → V}
    (hrun : Run p succ (computeRedundant p.antloc latein isoout) (computeOptimal latein isoout) expr path k st eval reg)
    (hdeleted : preDelete p (computeRedundant p.antloc latein isoout) (computeOptimal latein isoout) (path k) expr =
      true) : reg k = eval (st k) := by
  have hred : testBit (computeRedundant p.antloc latein isoout (path k)) expr = true := by
    rw [preDelete, Bool.and_eq_true, Bool.and_eq_true] at hdeleted
    exact toDelete_iff.1 hdeleted.1.2
  obtain ⟨e, he⟩ := hsolved.redundant_covered hrun.walk hred
  have hinsert := preInsert_of_lastPlace hcomp hvalid hrun.walk hdeleted hred he
  -- from the end of that block on the register has the value
  have hvalue : ∀ j, e < j → j ≤ k → reg j = eval (st j) := by
    intro j hj
    induction j, hj using Nat.le_induction with
    | base => exact fun hle => hrun.load e hle (.inl hinsert) (he.transp e le_rfl he.lt)
    | succ j hj ih =>
      intro hle
      have htransp := he.transp j (Nat.le_of_lt hj) hle
      by_cases hload : Loads p (computePredsSuccs succ entryEdges).sPreds (computeRedundant p.antloc latein isoout)
          (computeOptimal latein isoout) (path j) expr
      · exact hrun.load j hle hload htransp
      · rw [hrun.frame j hle hload, ih (Nat.le_of_lt hle), hrun.keep j hle htransp]
  exact hvalue k he.lt le_rfl

/-- For every flow graph, and local properties in which a block that computes an expression and leaves it as it is has
computed it before any change: `pre_lcm` ends, and with what it has found every search of the pass ends. On every run of
the function after the pass, the `reaching_reg` holds the value of the expression at every block where a computation
was deleted. The copies of an expression to registers are insns alike, and `validate_change` says the same of each. -/
theorem pre_gcse_preserves (succ : Fin (m + 1) → List (BlockRef (m + 1))) (p : Local m w nExprs)
    (junk : Junk m w nExprs) (hcomp : ∀ bb expr, testBit (p.comp bb) expr = true →
      testBit (p.transp bb) expr = true → testBit (p.antloc bb) expr = true)
    (hvalid : ∀ bb bb' expr, p.validateChange bb expr = p.validateChange bb' expr) :
    ∃ N redundant optimal, (∀ fuel ≥ N, preLcm fuel junk (computePredsSuccs succ entryEdges) p.transp p.antloc =
        some (redundant, optimal)) ∧
      (∀ bb expr, (preInsert p (computePredsSuccs succ entryEdges).sPreds redundant optimal bb expr).isSome ∧
        preInsertCopies p (computePredsSuccs succ entryEdges).sPreds redundant optimal bb expr = some false) ∧
      ∀ (S V : Type) expr path k st (eval : S → V) reg, Run p succ redundant optimal expr path k st eval reg →
        preDelete p redundant optimal (path k) expr = true → reg k = eval (st k) := by
  obtain ⟨N, latein, isoout, hloop, hsolved⟩ := preLcm_solved succ p.transp p.antloc junk
  refine ⟨N, _, _, hloop, fun bb expr => ⟨?_, preInsertCopies_eq bb expr⟩,
    fun S V expr path k st eval reg hrun => reg_eq_of_deleted hsolved hcomp hvalid hrun⟩
  rw [preInsert]
  split_ifs
  · obtain ⟨found, hfound, -⟩ := @reachesDeleted_eq _ _ _ p succ (computeRedundant p.antloc latein isoout)
      (computeOptimal latein isoout) bb expr false
    rw [hfound]
    rfl
  · rfl

/-- Every block of the diamond leaves the first expression as it is. -/
def diamondLocal : Local 3 32 1 :=
  ⟨fun _ => sbitmapOnes, diamondLoc, diamondLoc, fun _ _ => true, fun _ expr => expr == 0⟩

theorem pre_gcse_preserves_diamond : ∃ N redundant optimal,
    (∀ fuel ≥ N, preLcm fuel cleared (computePredsSuccs diamond entryEdges) diamondLocal.transp diamondLoc =
        some (redundant, optimal)) ∧
      ∀ (S V : Type) expr path k st (eval : S → V) reg,
        Run diamondLocal diamond redundant optimal expr path k st eval reg →
          preDelete diamondLocal redundant optimal (path k) expr = true → reg k = eval (st k) := by
  obtain ⟨N, redundant, optimal, hloop, -, hmeaning⟩ := pre_gcse_preserves diamond diamondLocal cleared
    (fun _ _ h _ => h) fun _ _ _ => rfl
  exact ⟨N, redundant, optimal, hloop, hmeaning⟩

end Meaning

end Z80Gcc.Gcse
