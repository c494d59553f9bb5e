import Mathlib
import Z80Gcc.Proofs.CaseStmt
import Z80Gcc.Proofs.CaseTree

/-! The case nodes with their links do what the tree of case nodes does: `add_case_node` gives the same answer
and the same tree, and the list of the cases is the same. -/

namespace Z80Gcc

open Z80Gcc.LinkedTree

namespace CaseStmt

variable {L : Type} {h : Host} {t : IntegerType h}

section Image

variable (node : Nat → CaseNode L) (bal : Nat → Int)

def caseTree : LinkTree Nat → CaseTree (AvlNode L)
  | .nil => .nil
  | .node l a r => .node (caseTree l) ⟨node a, bal a⟩ (caseTree r)

def nodeAt : Side → CaseTree (AvlNode L) → AvlNode L → CaseTree (AvlNode L) → CaseTree (AvlNode L)
  | .left, near, p, far => .node near p far
  | .right, near, p, far => .node far p near

def grownAt : Side → CaseTree (AvlNode L) → AvlNode L → CaseTree (AvlNode L) →
    Except (AddError L) (CaseTree (AvlNode L) × Bool)
  | .left, near, p, far => leftGrown near p far
  | .right, near, p, far => rightGrown far p near

def climbStep (side : Side) (p : AvlNode L) (far : CaseTree (AvlNode L))
    (x : CaseTree (AvlNode L) × Bool) : Except (AddError L) (CaseTree (AvlNode L) × Bool) :=
  if x.2 then grownAt side x.1 p far else .ok (nodeAt side x.1 p far, false)

def climb : List (Frame Nat) → CaseTree (AvlNode L) × Bool → Except (AddError L) (CaseTree (AvlNode L))
  | [], x => .ok x.1
  | f :: path, x => climbStep f.side ⟨node f.elt, bal f.elt⟩ (caseTree node bal f.sibling) x >>= climb path

variable {node bal} {node' : Nat → CaseNode L} {bal' : Nat → Int}

theorem caseTree_mk (side : Side) (a : Nat) (near far : LinkTree Nat) :
    caseTree node bal (.mk side a near far) =
      nodeAt side (caseTree node bal near) ⟨node a, bal a⟩ (caseTree node bal far) := by
  cases side <;> rfl

theorem caseTree_congr {tree : LinkTree Nat} (hnode : ∀ a ∈ tree.toList, node' a = node a)
    (hbal : ∀ a ∈ tree.toList, bal' a = bal a) : caseTree node' bal' tree = caseTree node bal tree := by
  induction tree with
  | nil => rfl
  | node l a r ihl ihr =>
    simp only [LinkTree.toList, List.mem_append, List.mem_cons] at hnode hbal
    rw [caseTree, caseTree, hnode a (.inr (.inl rfl)), hbal a (.inr (.inl rfl)),
      ihl (fun b hb => hnode b (.inl hb)) fun b hb => hbal b (.inl hb),
      ihr (fun b hb => hnode b (.inr (.inr hb))) fun b hb => hbal b (.inr (.inr hb))]

theorem climb_congr {path : List (Frame Nat)} (hnode : ∀ a ∈ pathElts path, node' a = node a)
    (hbal : ∀ a ∈ pathElts path, bal' a = bal a) (x : CaseTree (AvlNode L) × Bool) :
    climb node' bal' path x = climb node bal path x := by
  induction path generalizing x with
  | nil => rfl
  | cons f path ih =>
    simp only [mem_pathElts_cons] at hnode hbal
    rw [climb, climb, hnode f.elt (.inl rfl), hbal f.elt (.inl rfl),
      caseTree_congr (fun b hb => hnode b (.inr (.inl hb))) fun b hb => hbal b (.inr (.inl hb)),
      funext (ih (fun b hb => hnode b (.inr (.inr hb))) fun b hb => hbal b (.inr (.inr hb)))]

/-- Nothing changes above a subtree that has not grown. -/
theorem climb_false (path : List (Frame Nat)) (s : LinkTree Nat) :
    climb node bal path (caseTree node bal s, false) = .ok (caseTree node bal (plug path s)) := by
  induction path generalizing s with
  | nil => rfl
  | cons f path ih =>
    rw [plug, ← ih, caseTree_mk]
    rfl

theorem cases_caseTree (tree : LinkTree Nat) : cases (caseTree node bal tree) = tree.toList.map node := by
  induction tree with
  | nil => rfl
  | node l a r ihl ihr => rw [caseTree, cases_node, ihl, ihr, LinkTree.toList, List.map_append, List.map_cons]

theorem avl_caseTree {tree : LinkTree Nat} (havl : AvlTree bal tree) :
    Avl (caseTree node bal tree) tree.height := by
  induction tree with
  | nil => exact .nil
  | node l a r ihl ihr =>
    obtain ⟨hbal, hone, hl, hr⟩ := havl
    exact .node (ihl hl) (ihr hr) hbal (by omega) (by omega)

end Image

section Climb

variable {node : Nat → CaseNode L} {bal bal' : Nat → Int}

theorem grownAt_even {side : Side} {near far : CaseTree (AvlNode L)} {p : AvlNode L} (heven : p.balance = 0) :
    grownAt side near p far = .ok (nodeAt side near { p with balance := side.sign } far, true) := by
  cases side with
  | left => exact if_pos heven
  | right => exact if_pos heven

theorem grownAt_light {side : Side} {near far : CaseTree (AvlNode L)} {p : AvlNode L}
    (hlight : side.sign * p.balance < 0) :
    grownAt side near p far = .ok (nodeAt side near { p with balance := 0 } far, false) := by
  cases side with
  | left =>
    rw [Side.sign] at hlight
    rw [grownAt]
    unfold leftGrown
    rw [if_neg (by omega), if_neg (by omega)]
    rfl
  | right =>
    rw [Side.sign] at hlight
    rw [grownAt]
    unfold rightGrown
    rw [if_neg (by omega), if_neg (by omega)]
    rfl

theorem grownAt_outer {side : Side} {x y far : CaseTree (AvlNode L)} {p r : AvlNode L}
    (hheavy : 0 < side.sign * p.balance) (houter : 0 < side.sign * r.balance) :
    grownAt side (nodeAt side x r y) p far =
      .ok (nodeAt side x { r with balance := 0 } (nodeAt side y { p with balance := 0 } far), false) := by
  cases side with
  | left =>
    rw [Side.sign] at hheavy houter
    rw [grownAt]
    unfold leftGrown
    rw [if_neg (by omega), if_pos (by omega), nodeAt]
    exact if_pos (by omega)
  | right =>
    rw [Side.sign] at hheavy houter
    rw [grownAt]
    unfold rightGrown
    rw [if_neg (by omega), if_pos (by omega), nodeAt]
    exact if_pos (by omega)

theorem grownAt_inner {side : Side} {x u v far : CaseTree (AvlNode L)} {p r q : AvlNode L}
    (hheavy : 0 < side.sign * p.balance) (hinner : ¬ 0 < side.sign * r.balance) :
    grownAt side (nodeAt side.other (nodeAt side u q v) r x) p far =
      .ok (nodeAt side (nodeAt side x { r with balance := (rotatedBalance side q.balance).2 } u)
        { q with balance := 0 }
        (nodeAt side v { p with balance := (rotatedBalance side q.balance).1 } far), false) := by
  cases side with
  | left =>
    rw [Side.sign] at hheavy hinner
    rw [grownAt]
    unfold leftGrown
    rw [if_neg (by omega), if_pos (by omega), Side.other, nodeAt, nodeAt]
    exact if_neg (by omega)
  | right =>
    rw [Side.sign] at hheavy hinner
    rw [grownAt]
    unfold rightGrown
    rw [if_neg (by omega), if_pos (by omega), Side.other, nodeAt, nodeAt]
    exact if_neg (by omega)

/-- The rest of the way up, when the balances have changed below it only. -/
theorem climb_done {path : List (Frame Nat)} (hsame : ∀ a ∈ pathElts path, bal' a = bal a) (s : LinkTree Nat) :
    climb node bal path (caseTree node bal' s, false) = .ok (caseTree node bal' (plug path s)) := by
  rw [← climb_congr (fun _ _ => rfl) hsame]
  exact climb_false path s

/-- The loop makes of the links what the way back up makes of the tree. -/
theorem climb_grown {path : List (Frame Nat)} {s tree : LinkTree Nat}
    (hgrown : Links.Regrown rotatedBalance bal path s tree bal') (hnodup : (plug path s).toList.Nodup) :
    climb node bal path (caseTree node bal s, true) = .ok (caseTree node bal' tree) := by
  induction hgrown with
  | root bal s => rfl
  | @grows bal bal' f path s tree heven hrest ih =>
    obtain ⟨hsub, -, hdisj⟩ := nodup_plug.1 (show (plug path (.mk f.side f.elt s f.sibling)).toList.Nodup from hnodup)
    obtain ⟨⟨hs, hsib⟩, -⟩ := LinkTree.nodup_mk.1 hsub
    have hsame : ∀ a, a ≠ f.elt → Function.update bal f.elt f.side.sign a = bal a := fun a ha =>
      Function.update_of_ne ha ..
    have hpath : ∀ a ∈ pathElts path, Function.update bal f.elt f.side.sign a = bal a := by
      refine fun a ha => hsame a ?_
      rintro rfl
      exact hdisj (LinkTree.mem_mk.2 (.inl rfl)) ha
    rw [← ih hnodup, climb_congr (fun _ _ => rfl) hpath, caseTree_mk, Function.update_self,
      caseTree_congr (fun _ _ => rfl) fun a ha => hsame a fun heq => hs (heq ▸ ha),
      caseTree_congr (fun _ _ => rfl) fun a ha => hsame a fun heq => hsib (heq ▸ ha),
      climb, climbStep, if_pos rfl, grownAt_even heven]
    rfl
  | @evens bal f path s hlight =>
    obtain ⟨hsub, -, hdisj⟩ := nodup_plug.1 (show (plug path (.mk f.side f.elt s f.sibling)).toList.Nodup from hnodup)
    obtain ⟨⟨hs, hsib⟩, -⟩ := LinkTree.nodup_mk.1 hsub
    have hsame : ∀ a, a ≠ f.elt → Function.update bal f.elt 0 a = bal a := fun a ha =>
      Function.update_of_ne ha ..
    have hpath : ∀ a ∈ pathElts path, Function.update bal f.elt 0 a = bal a := by
      refine fun a ha => hsame a ?_
      rintro rfl
      exact hdisj (LinkTree.mem_mk.2 (.inl rfl)) ha
    rw [← climb_done hpath, caseTree_mk, Function.update_self,
      caseTree_congr (fun _ _ => rfl) fun a ha => hsame a fun heq => hs (heq ▸ ha),
      caseTree_congr (fun _ _ => rfl) fun a ha => hsame a fun heq => hsib (heq ▸ ha),
      climb, climbStep, if_pos rfl, grownAt_light hlight]
    rfl
  | @rotates bal bal' f path r x y hheavy houter hbal =>
    obtain ⟨hsub, -, hdisj⟩ :=
      nodup_plug.1 (show (plug path (.mk f.side f.elt (.mk f.side r x y) f.sibling)).toList.Nodup from hnodup)
    obtain ⟨⟨hfr, hfsib⟩, hr, -, hrsib⟩ := LinkTree.nodup_mk.1 hsub
    obtain ⟨⟨hrx, hry⟩, -⟩ := LinkTree.nodup_mk.1 hr
    rw [LinkTree.mem_mk, not_or, not_or] at hfr
    have hsame : ∀ a, a ≠ f.elt → a ≠ r → bal' a = bal a := by
      intro a haf har
      rw [hbal, if_neg har, if_neg haf]
    have hpath : ∀ a ∈ pathElts path, bal' a = bal a := by
      refine fun a ha => hsame a ?_ ?_
      · rintro rfl
        exact hdisj (LinkTree.mem_mk.2 (.inl rfl)) ha
      · rintro rfl
        exact hdisj (LinkTree.mem_mk.2 (.inr (.inl (LinkTree.mem_mk.2 (.inl rfl))))) ha
    have hsib : ∀ a ∈ f.sibling.toList, bal' a = bal a := by
      refine fun a ha => hsame a (fun heq => hfsib (heq ▸ ha)) ?_
      rintro rfl
      exact hrsib (LinkTree.mem_mk.2 (.inl rfl)) ha
    rw [← climb_done hpath]
    simp only [caseTree_mk]
    rw [hbal r, if_pos rfl, hbal f.elt, if_neg hfr.1, if_pos rfl,
      caseTree_congr (fun _ _ => rfl) fun a ha => hsame a (fun heq => hfr.2.1 (heq ▸ ha)) fun heq => hrx (heq ▸ ha),
      caseTree_congr (fun _ _ => rfl) fun a ha => hsame a (fun heq => hfr.2.2 (heq ▸ ha)) fun heq => hry (heq ▸ ha),
      caseTree_congr (fun _ _ => rfl) hsib, climb, climbStep, if_pos rfl, grownAt_outer hheavy houter]
    rfl
  | @rotatesTwice bal bal' f path r q u v x hheavy hinner hbal =>
    obtain ⟨hsub, -, hdisj⟩ := nodup_plug.1 (show (plug path
      (.mk f.side f.elt (.mk f.side.other r (.mk f.side q u v) x) f.sibling)).toList.Nodup from hnodup)
    obtain ⟨⟨hfr, hfsib⟩, hr, -, hrsib⟩ := LinkTree.nodup_mk.1 hsub
    obtain ⟨⟨hrq, hrx⟩, hq, -, hqx⟩ := LinkTree.nodup_mk.1 hr
    obtain ⟨⟨hqu, hqv⟩, -⟩ := LinkTree.nodup_mk.1 hq
    simp only [LinkTree.mem_mk, not_or] at hfr hrq
    have hsame : ∀ a, a ≠ f.elt → a ≠ r → a ≠ q → bal' a = bal a := by
      intro a haf har haq
      rw [hbal, if_neg haq, if_neg har, if_neg haf]
    have hpath : ∀ a ∈ pathElts path, bal' a = bal a := by
      intro a ha
      have hnot := fun hin => hdisj hin ha
      simp only [LinkTree.mem_mk, imp_false, not_or] at hnot
      exact hsame a hnot.1 hnot.2.1.1 hnot.2.1.2.1.1
    have hsib : ∀ a ∈ f.sibling.toList, bal' a = bal a := by
      intro a ha
      have hnot := fun hin => hrsib hin ha
      simp only [LinkTree.mem_mk, imp_false, not_or] at hnot
      exact hsame a (fun heq => hfsib (heq ▸ ha)) hnot.1 hnot.2.1.1
    have hx : ∀ a ∈ x.toList, bal' a = bal a := fun a ha =>
      hsame a (fun heq => hfr.2.2 (heq ▸ ha)) (fun heq => hrx (heq ▸ ha)) fun heq =>
        hqx (LinkTree.mem_mk.2 (.inl heq)) ha
    have hu : ∀ a ∈ u.toList, bal' a = bal a := fun a ha =>
      hsame a (fun heq => hfr.2.1.2.1 (heq ▸ ha)) (fun heq => hrq.2.1 (heq ▸ ha)) fun heq => hqu (heq ▸ ha)
    have hv : ∀ a ∈ v.toList, bal' a = bal a := fun a ha =>
      hsame a (fun heq => hfr.2.1.2.2 (heq ▸ ha)) (fun heq => hrq.2.2 (heq ▸ ha)) fun heq => hqv (heq ▸ ha)
    rw [← climb_done hpath]
    simp only [caseTree_mk]
    rw [hbal q, if_pos rfl, hbal r, if_neg hrq.1, if_pos rfl, hbal f.elt, if_neg hfr.2.1.1, if_neg hfr.1, if_pos rfl, caseTree_congr (fun _ _ => rfl) hx,
      caseTree_congr (fun _ _ => rfl) hu, caseTree_congr (fun _ _ => rfl) hv,
      caseTree_congr (fun _ _ => rfl) hsib, climb, climbStep, if_pos rfl, grownAt_inner hheavy hinner]
    rfl

end Climb

section Calls

variable {st : CaseStmt L} {tree : CaseTree (AvlNode L)}

theorem addCaseNodeAt_pass {c : CaseNode L} {side : Side} {a : Nat}
    (hside : st.sideOf t c.low c.high a = some side) (near far : CaseTree (AvlNode L)) (b : Int) :
    addCaseNodeAt t c (nodeAt side near ⟨st.node a, b⟩ far) =
      addCaseNodeAt t c near >>= climbStep side ⟨st.node a, b⟩ far := by
  unfold sideOf at hside
  split at hside
  · next hlow =>
    obtain rfl := Option.some.inj hside
    rw [nodeAt, addCaseNodeAt, if_pos hlow]
    rfl
  · next hlow =>
    split at hside
    · next hhigh =>
      obtain rfl := Option.some.inj hside
      rw [nodeAt, addCaseNodeAt, if_neg hlow, if_pos hhigh]
      rfl
    · cases hside

theorem addCaseNodeAt_taken {c : CaseNode L} {a : Nat} (hside : st.sideOf t c.low c.high a = none)
    (l r : CaseTree (AvlNode L)) (b : Int) :
    addCaseNodeAt t c (.node l ⟨st.node a, b⟩ r) = .error (.duplicate (st.node a).codeLabel) := by
  unfold sideOf at hside
  split at hside
  · cases hside
  · next hlow =>
    split at hside
    · cases hside
    · next hhigh => rw [addCaseNodeAt, if_neg hlow, if_neg hhigh]

theorem addCaseNodeAt_plug {c : CaseNode L} {path : List (Frame Nat)} (bal : Nat → Int)
    (hdir : ∀ f ∈ path, st.sideOf t c.low c.high f.elt = some f.side) (s : LinkTree Nat) :
    Z80Gcc.addCaseNode t (caseTree st.node bal (plug path s)) c =
      addCaseNodeAt t c (caseTree st.node bal s) >>= climb st.node bal path := by
  induction path generalizing s with
  | nil =>
    rw [plug, Z80Gcc.addCaseNode]
    cases addCaseNodeAt t c (caseTree st.node bal s) <;> rfl
  | cons f path ih =>
    obtain ⟨hf, htail⟩ := List.forall_mem_cons.1 hdir
    rw [plug, ih htail, caseTree_mk, addCaseNodeAt_pass hf, bind_assoc]
    rfl

/-- The linked nodes are those of the tree, with its shape and balances. -/
structure Refines (st : CaseStmt L) (tree : CaseTree (AvlNode L)) : Prop where
  nodes : ∃ lt, Linked st.links.child st.links.parent none lt st.links.root ∧ AvlTree st.links.balance lt ∧
    lt.toList.Perm (List.range st.allocated) ∧ tree = caseTree st.node st.links.balance lt

theorem refines_start (memory : Nat → CaseNode L) : Refines (start memory) .nil :=
  ⟨.nil, rfl, trivial, .nil, rfl⟩

/-- A call gives the answer and the tree of the tree form. Nothing is asked of the ranges. -/
theorem addCaseNode_refines (href : Refines st tree) (c : CaseNode L) :
    (∃ d, Z80Gcc.addCaseNode t tree c = .error (.duplicate d) ∧
        addCaseNode t c.low c.high c.codeLabel st = some (⟨2, some d⟩, st)) ∨
      ∃ tree' st', Z80Gcc.addCaseNode t tree c = .ok tree' ∧
        addCaseNode t c.low c.high c.codeLabel st = some (⟨0, none⟩, st') ∧ Refines st' tree' := by
  obtain ⟨lt, hlinked, havl, halloc, rfl⟩ := href
  have hheight : lt.height ≤ st.allocated + 1 := by
    have hle := LinkTree.height_le_length lt
    rw [halloc.length_eq, List.length_range] at hle
    exact Nat.le_succ_of_le hle
  obtain ⟨path, l, a, r, hsearch, hplug, hstop, hdir⟩ | ⟨path, p, side, hsearch, hplug, hpath, hside, hdir⟩ :=
    @Links.search_spec _ (st.sideOf t c.low c.high) st.links lt [] .left none st.links.root _ ⟨rfl, rfl⟩ hlinked
      (fun f hf => by cases hf) (fun f hf => (List.not_mem_nil hf).elim) hheight
  · refine .inl ⟨(st.node a).codeLabel, ?_, ?_⟩
    · rw [show lt = plug path (.node l a r) from hplug.symm, addCaseNodeAt_plug _ hdir, caseTree,
        addCaseNodeAt_taken hstop]
      rfl
    · rw [addCaseNode, hsearch]
      rfl
  · obtain rfl : plug path .nil = lt := hplug
    have helts : (plug path .nil).toList = pathElts path := toList_plug path .nil
    rw [helts] at halloc
    have hnodup := halloc.nodup_iff.2 List.nodup_range
    have hmem : ∀ b ∈ pathElts path, b ≠ st.allocated := fun b hb =>
      Nat.ne_of_lt (List.mem_range.1 (halloc.mem_iff.1 hb))
    have hnew : st.allocated ∉ pathElts path := fun hin => hmem _ hin rfl
    have hlength : path.length ≤ st.allocated + 1 := by
      have hle := length_path_le path
      rw [halloc.length_eq, List.length_range] at hle
      exact Nat.le_succ_of_le hle
    obtain ⟨ls, tree', hrun, hgrown, hlinked', havl'⟩ := Links.rebalance_attach hpath hside hnodup hnew
      (avlTree_plug.1 havl).2 rotatedBalance_rule hlength
    have hleaf : (plug path (.node .nil st.allocated .nil)).toList.Perm (st.allocated :: pathElts path) :=
      toList_plug_perm path _
    have hnode : ∀ b ∈ pathElts path,
        Function.update st.node st.allocated ⟨c.low, c.high, c.codeLabel⟩ b = st.node b := fun b hb =>
      Function.update_of_ne (hmem b hb) ..
    have hbal : ∀ b ∈ pathElts path, (Links.attach p side st.allocated st.links).balance b = st.links.balance b :=
      fun b hb => (Links.balance_attach ..).trans (if_neg (hmem b hb))
    have hclimb : climb (Function.update st.node st.allocated ⟨c.low, c.high, c.codeLabel⟩) _ path _ = _ :=
      climb_grown hgrown (hleaf.nodup_iff.2 (List.nodup_cons.2 ⟨hnew, hnodup⟩))
    rw [climb_congr hnode hbal] at hclimb
    have hdone : addCaseNode t c.low c.high c.codeLabel st = some (⟨0, none⟩,
        { node := Function.update st.node st.allocated ⟨c.low, c.high, c.codeLabel⟩
          allocated := st.allocated + 1
          links := ls
          numRanges := if c.low = c.high then st.numRanges else st.numRanges + 1 }) := by
      rw [addCaseNode, hsearch]
      simp only [Option.bind_eq_bind, Option.bind_some, hrun]
      rfl
    refine .inr ⟨_, _, ?_, hdone, tree', hlinked', havl', ?_, rfl⟩
    · rw [← hclimb, addCaseNodeAt_plug _ hdir, caseTree, caseTree, Function.update_self, Links.balance_attach,
        if_pos rfl]
      rfl
    · rw [hgrown.toList_eq, List.range_succ]
      exact hleaf.trans ((halloc.cons _).trans (List.perm_append_singleton _ _).symm)

/-- The calls, as long as the tree form accepts the ranges. -/
theorem addCaseNodes_refines {cs : List (CaseNode L)} {tree' : CaseTree (AvlNode L)} (href : Refines st tree)
    (hrun : cs.foldlM (Z80Gcc.addCaseNode t) tree = .ok tree') :
    ∃ results st', addCaseNodes t cs st = some (results, st') ∧ Refines st' tree' := by
  induction cs generalizing st tree with
  | nil =>
    obtain rfl := Except.ok.inj hrun
    exact ⟨[], st, rfl, href⟩
  | cons c cs ih =>
    rw [List.foldlM_cons] at hrun
    obtain ⟨d, htree, -⟩ | ⟨tree₁, st₁, htree, hcall, href₁⟩ := addCaseNode_refines (t := t) href c
    · rw [htree] at hrun
      cases hrun
    · rw [htree] at hrun
      obtain ⟨results, st', hrest, href'⟩ := ih href₁ hrun
      exact ⟨_, st', addCaseNodes_cons hcall hrest, href'⟩

/-- The list that `expand_end_case` starts from is that of the tree form. -/
theorem endCaseList_refines (href : Refines st tree) :
    ∃ st' elts, endCaseList st = some st' ∧ RightChain st'.links.child st'.links.root elts ∧
      elts.map st'.node = caseList tree := by
  obtain ⟨lt, hlinked, havl, halloc, rfl⟩ := href
  obtain ⟨st', hrun, hnode, hchain⟩ := endCaseList_linked hlinked havl halloc
  refine ⟨st', lt.toList, hrun, hchain, ?_⟩
  rw [hnode, caseList_eq (avl_caseTree havl), cases_caseTree]

/-- Wherever the tree form accepts the cases of a switch, the links are made of them, and the list of them is the one
that the tree form gives. -/
theorem case_links_refine {cs : List (CaseNode L)} (hrun : Z80Gcc.addCaseNodes t cs = .ok tree)
    (memory : Nat → CaseNode L) :
    ∃ results st st' elts, addCaseNodes t cs (start memory) = some (results, st) ∧ Refines st tree ∧
      endCaseList st = some st' ∧ RightChain st'.links.child st'.links.root elts ∧
      elts.map st'.node = caseList tree := by
  obtain ⟨results, st, hcalls, href⟩ := addCaseNodes_refines (refines_start memory) hrun
  obtain ⟨st', elts, hlist⟩ := endCaseList_refines href
  exact ⟨results, st, st', elts, hcalls, href, hlist⟩

end Calls

end CaseStmt

end Z80Gcc
