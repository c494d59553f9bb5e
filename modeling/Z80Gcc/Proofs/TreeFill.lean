import Z80Gcc.Proofs.SpanningTree

/-! The crowded arcs and the filling in of the spanning tree: nothing that `find_spanning_tree` adds
closes a cycle, and it stops. -/

namespace Z80Gcc.Profile

open Z80Gcc.Forest

/-- The arcs on the tree: no cycle, every fake arc, and not the arc into block 1. -/
structure TreeArcs (g : Graph) (m : Marks) : Prop where
  bound : ∀ a, m.tree a → a < g.arcs.length
  acyclic : Acyclic g.source g.target m.tree
  fakes : ∀ a, a < g.arcs.length → (g.arc a).fake = true → m.tree a
  entry : ¬ m.tree 0

section Crowded

variable {g : Graph} {front : List Arc} (hf : Flow g front)

include hf

/-- An arc that is not on the tree leads to a block, and from node zero it is the first one. -/
theorem TreeArcs.ends {m : Marks} (ht : TreeArcs g m) {a : Nat} (hlt : a < g.arcs.length)
    (ha : ¬ m.tree a) : g.target a ≠ 0 ∧ (a ≠ 0 → g.source a ≠ 0) := by
  refine ⟨fun htarget => ?_, fun hne hsource => ?_⟩
  · obtain rfl := hf.eq_one_of_target_zero hlt htarget
    exact ha (ht.fakes 1 hlt (by rw [hf.arc_one]))
  · exact ha (ht.fakes a hlt (hf.fake_of_source_zero hlt hne hsource))

theorem crowded_ne_zero {i a : Nat} (hcrowded : crowded g i a = true) : a ≠ 0 ∧ g.target a ≠ i := by
  simp only [crowded, Bool.and_eq_true, Bool.not_eq_true', decide_eq_true_eq] at hcrowded
  refine ⟨?_, hcrowded.2⟩
  rintro rfl
  rw [hf.arc_zero] at hcrowded
  exact Bool.noConfusion hcrowded.1.2

theorem addCrowded {i a : Nat} (ha : a ∈ g.succ i) {m : Marks} (hm : Growing g True m)
    (ht : TreeArcs g m) (hcrowded : crowded g i a = true)
    (hfree : (!m.block (g.target a) || !m.block i) = true) :
    Growing g True (((m.setArc a).setBlock (g.target a)).setBlock i) ∧
      TreeArcs g (((m.setArc a).setBlock (g.target a)).setBlock i) := by
  obtain ⟨hlt, hsource⟩ := Graph.mem_succ.1 ha
  obtain ⟨hzero, hne⟩ := crowded_ne_zero hf hcrowded
  have hgrow : Growing g True (((m.setArc a).setBlock (g.target a)).setBlock i) := by
    by_cases hon : m.tree a
    · exact hm.remark hon _ _
    · obtain ⟨htarget, hfrom⟩ := ht.ends hf hlt hon
      refine hm.add hlt (.inr ⟨hsource, rfl⟩) hne ?_
      rw [Bool.or_eq_true, Bool.not_eq_true', Bool.not_eq_true'] at hfree
      exact hfree.imp (fun h => ⟨h, fun _ => htarget⟩) fun h => ⟨h, fun _ => hsource ▸ hfrom hzero⟩
  refine ⟨hgrow, hgrow.bound, hgrow.acyclic, fun b hb hfake => ?_, fun h => ?_⟩
  · exact tree_setArc.2 (.inl (ht.fakes b hb hfake))
  · rcases tree_setArc.1 h with h | h
    · exact ht.entry h
    · exact hzero h.symm

theorem markCrowded_keeps {i : Nat} {arcs : List Nat} (harcs : ∀ a ∈ arcs, a ∈ g.succ i) {m : Marks}
    (hm : Growing g True m) (ht : TreeArcs g m) :
    Growing g True (markCrowded g i arcs m) ∧ TreeArcs g (markCrowded g i arcs m) := by
  induction arcs generalizing m with
  | nil => exact ⟨hm, ht⟩
  | cons a arcs ih =>
    have hrest : ∀ b ∈ arcs, b ∈ g.succ i := fun b hb => harcs b (List.mem_cons_of_mem _ hb)
    rw [markCrowded]
    split
    · rename_i hcrowded
      obtain ⟨hm, ht⟩ := addCrowded hf (harcs a (List.mem_cons_self ..)) hm ht hcrowded.1 hcrowded.2
      exact ih hrest hm ht
    · exact ih hrest hm ht

theorem foldl_markCrowded (blocks : List Nat) {m : Marks} (hm : Growing g True m)
    (ht : TreeArcs g m) :
    TreeArcs g (blocks.foldl (fun m i => markCrowded g i (g.succ i) m) m) := by
  induction blocks generalizing m with
  | nil => exact ht
  | cons i blocks ih =>
    obtain ⟨hm, ht⟩ := markCrowded_keeps hf (i := i) (fun a ha => ha) hm ht
    exact ih hm ht

theorem treeArcs_of_fakes {m : Marks} (hm : Growing g True m)
    (htree : ∀ a, m.tree a ↔ a < g.arcs.length ∧ (g.arc a).fake = true) : TreeArcs g m where
  bound := hm.bound
  acyclic := hm.acyclic
  fakes a hlt hfake := (htree a).2 ⟨hlt, hfake⟩
  entry h := by
    have hreal := ((htree 0).1 h).2
    rw [hf.arc_zero] at hreal
    cases hreal

end Crowded

section Expand

variable {g : Graph}

/-- Marks are added to blocks only. -/
structure Marks.Le (m m' : Marks) : Prop where
  arc : m'.arc = m.arc
  block : ∀ b, m.block b = true → m'.block b = true

namespace Marks.Le

theorem refl (m : Marks) : m.Le m := ⟨rfl, fun _ h => h⟩

theorem trans {m₁ m₂ m₃ : Marks} (h₁ : m₁.Le m₂) (h₂ : m₂.Le m₃) : m₁.Le m₃ :=
  ⟨h₂.arc.trans h₁.arc, fun b h => h₂.block b (h₁.block b h)⟩

theorem setBlock (m : Marks) (b : Nat) : m.Le (m.setBlock b) :=
  ⟨rfl, fun _ h => block_setBlock.2 (.inl h)⟩

end Marks.Le

/-- How many blocks are not marked yet. -/
def free (g : Graph) (m : Marks) : Nat := ((Finset.range g.numBlocks).filter (m.block · = false)).card

theorem free_mono {m m' : Marks} (hle : ∀ b, m.block b = true → m'.block b = true) :
    free g m' ≤ free g m := by
  refine Finset.card_le_card fun b hb => ?_
  rw [Finset.mem_filter] at hb ⊢
  refine ⟨hb.1, ?_⟩
  by_contra hne
  rw [Bool.not_eq_false] at hne
  rw [hle b hne] at hb
  exact Bool.noConfusion hb.2

theorem free_setBlock {m : Marks} {b : Nat} (hb : b < g.numBlocks) (hfree : m.block b = false) :
    free g (m.setBlock b) < free g m := by
  refine Finset.card_lt_card ⟨fun v hv => ?_, fun hsub => ?_⟩
  · rw [Finset.mem_filter] at hv ⊢
    refine ⟨hv.1, ?_⟩
    by_contra hne
    rw [Bool.not_eq_false] at hne
    exact absurd ((block_setBlock.2 (.inl hne)).symm.trans hv.2) (by decide)
  · have hmem := hsub (Finset.mem_filter.2 ⟨Finset.mem_range.2 hb, hfree⟩)
    exact absurd ((block_setBlock.2 (.inr rfl)).symm.trans (Finset.mem_filter.1 hmem).2) (by decide)

def Closed (g : Graph) (m : Marks) (v : Nat) : Prop :=
  ∀ a, a < g.arcs.length → m.tree a → ∀ w, Joins g.source g.target a v w → m.block w = true

theorem Closed.mono {m m' : Marks} {v : Nat} (hc : Closed g m v) (hle : m.Le m') : Closed g m' v := by
  intro a hlt ha w hj
  refine hle.block w (hc a hlt ?_ w hj)
  rwa [Marks.tree, hle.arc] at ha

/-- What an expansion leaves: the blocks that it marks are closed. -/
structure Expanded (g : Graph) (m m' : Marks) : Prop extends m.Le m' where
  closed : ∀ v, m'.block v = true → m.block v = false → Closed g m' v

namespace Expanded

theorem refl (m : Marks) : Expanded g m m :=
  ⟨.refl m, fun _ h hfree => Bool.noConfusion (h.symm.trans hfree)⟩

theorem trans {m₁ m₂ m₃ : Marks} (h₁ : Expanded g m₁ m₂) (h₂ : Expanded g m₂ m₃) :
    Expanded g m₁ m₃ := by
  refine ⟨h₁.toLe.trans h₂.toLe, fun v hv hfree => ?_⟩
  cases hmid : m₂.block v with
  | true => exact (h₁.closed v hmid hfree).mono h₂.toLe
  | false => exact h₂.closed v hv hmid

end Expanded

section Loop

variable {expand : Nat → Marks → Option Marks} {other : Nat → Nat} {bound : Nat}

theorem expandArcs_cons (a : Nat) (arcs : List Nat) (m : Marks) :
    expandArcs expand other (a :: arcs) m =
      (if m.arc a ∧ !m.block (other a) then expand (other a) m else some m).bind
        (expandArcs expand other arcs) := by
  rw [expandArcs]
  split <;> rfl

theorem expandArcs_spec
    (hcall : ∀ w m, w < g.numBlocks → m.block w = false → free g m ≤ bound →
      ∃ m', expand w m = some m' ∧ Expanded g m m' ∧ m'.block w = true)
    (arcs : List Nat) (harcs : ∀ a ∈ arcs, other a < g.numBlocks) {m : Marks}
    (hfree : free g m ≤ bound) :
    ∃ m', expandArcs expand other arcs m = some m' ∧ Expanded g m m' ∧
      ∀ a ∈ arcs, m.tree a → m'.block (other a) = true := by
  induction arcs generalizing m with
  | nil =>
    refine ⟨m, rfl, .refl m, fun a ha => ?_⟩
    cases ha
  | cons a arcs ih =>
    have hrest : ∀ b ∈ arcs, other b < g.numBlocks := fun b hb => harcs b (List.mem_cons_of_mem _ hb)
    obtain ⟨m₁, hrun, hexp, hmark⟩ : ∃ m₁,
        (if m.arc a ∧ !m.block (other a) then expand (other a) m else some m) = some m₁ ∧
          Expanded g m m₁ ∧ (m.tree a → m₁.block (other a) = true) := by
      split
      · rename_i hcond
        obtain ⟨m₁, hrun, hexp, hmark⟩ :=
          hcall (other a) m (harcs a (List.mem_cons_self ..)) (by simpa using hcond.2) hfree
        exact ⟨m₁, hrun, hexp, fun _ => hmark⟩
      · rename_i hcond
        refine ⟨m, rfl, .refl m, fun ha => ?_⟩
        by_contra hne
        exact hcond ⟨ha, by simpa using hne⟩
    obtain ⟨m₂, hrun', hexp', hmark'⟩ := ih hrest (Nat.le_trans (free_mono hexp.block) hfree)
    refine ⟨m₂, ?_, hexp.trans hexp', fun b hb htree => ?_⟩
    · rw [expandArcs_cons, hrun]
      exact hrun'
    · rcases List.mem_cons.1 hb with rfl | hb
      · exact hexp'.block _ (hmark htree)
      · refine hmark' b hb ?_
        rwa [Marks.tree, hexp.arc]

end Loop

/-- `expand_spanning_tree` stops, and marks what is connected to the block. -/
theorem expandSpanningTree_spec {front : List Arc} (hf : Flow g front) {fuel b : Nat} {m : Marks}
    (hfree : free g (m.setBlock b) < fuel) :
    ∃ m', expandSpanningTree g fuel b m = some m' ∧ m.Le m' ∧ m'.block b = true ∧
      ∀ v, m'.block v = true → m.block v = false ∨ v = b → Closed g m' v := by
  induction fuel generalizing b m with
  | zero => exact absurd hfree (Nat.not_lt_zero _)
  | succ fuel ih =>
    have hcall : ∀ w m, w < g.numBlocks → m.block w = false → free g m ≤ fuel →
        ∃ m', expandSpanningTree g fuel w m = some m' ∧ Expanded g m m' ∧ m'.block w = true := by
      intro w m hw hwfree hle
      obtain ⟨m', hrun, hle', hmark, hclosed⟩ :=
        ih (Nat.lt_of_lt_of_le (free_setBlock hw hwfree) hle)
      exact ⟨m', hrun, ⟨hle', fun v hv hvfree => hclosed v hv (.inl hvfree)⟩, hmark⟩
    have hle := Nat.le_of_lt_succ hfree
    obtain ⟨m₁, hrun₁, hexp₁, hmark₁⟩ := expandArcs_spec hcall (g.succ b)
      (fun a ha => hf.target_lt (Graph.mem_succ.1 ha).1) hle
    obtain ⟨m₂, hrun₂, hexp₂, hmark₂⟩ := expandArcs_spec hcall (g.pred b)
      (fun a ha => hf.source_lt (Graph.mem_pred.1 ha).1)
      (Nat.le_trans (free_mono hexp₁.block) hle)
    have hexp := hexp₁.trans hexp₂
    have hb : m₂.block b = true := hexp.block b (block_setBlock.2 (.inr rfl))
    refine ⟨m₂, ?_, (Marks.Le.setBlock m b).trans hexp.toLe, hb, fun v hv hnew => ?_⟩
    · rw [expandSpanningTree, hrun₁]
      exact hrun₂
    · by_cases heq : v = b
      · subst heq
        intro a hlt ha w hj
        obtain ⟨hsource, rfl⟩ | ⟨rfl, htarget⟩ := hj
        · refine hexp₂.block _ (hmark₁ a (Graph.mem_succ.2 ⟨hlt, hsource⟩) ?_)
          rwa [Marks.tree, hexp.arc] at ha
        · refine hmark₂ a (Graph.mem_pred.2 ⟨hlt, htarget⟩) ?_
          rwa [Marks.tree, hexp₂.arc] at ha
      · refine hexp.closed v hv ?_
        rw [← Bool.not_eq_true, block_setBlock, not_or]
        exact ⟨Bool.not_eq_true _ ▸ hnew.resolve_right heq, heq⟩

end Expand

section Fill

variable {g : Graph}

/-- A tree whose marked blocks form whole parts of it. -/
structure Filled (g : Graph) (m : Marks) : Prop extends TreeArcs g m where
  closed : ∀ v, m.block v = true → Closed g m v

/-- The same before a block is filled in: the parts may have arcs to that block. -/
structure Filling (g : Graph) (b : Nat) (m : Marks) : Prop extends TreeArcs g m where
  near : ∀ v, m.block v = true → ∀ a, a < g.arcs.length → m.tree a →
    ∀ w, Joins g.source g.target a v w → m.block w = true ∨ w = b

theorem Filled.filling {m : Marks} (hm : Filled g m) (b : Nat) : Filling g b m :=
  ⟨hm.toTreeArcs, fun v hv a hlt ha w hj => .inl (hm.closed v hv a hlt ha w hj)⟩

theorem Filling.expanded {b : Nat} {m m' : Marks} (hm : Filling g b m) (hle : m.Le m')
    (hb : m'.block b = true)
    (hclosed : ∀ v, m'.block v = true → m.block v = false ∨ v = b → Closed g m' v) : Filled g m' := by
  have htree : m'.tree = m.tree := by
    unfold Marks.tree
    rw [hle.arc]
  refine ⟨⟨?_, ?_, ?_, ?_⟩, fun v hv => ?_⟩
  · rw [htree]
    exact hm.bound
  · rw [htree]
    exact hm.acyclic
  · rw [htree]
    exact hm.fakes
  · rw [htree]
    exact hm.entry
  · by_cases hnew : m.block v = false ∨ v = b
    · exact hclosed v hv hnew
    · rw [not_or, Bool.not_eq_false] at hnew
      intro a hlt ha w hj
      rw [htree] at ha
      rcases hm.near v hnew.1 a hlt ha w hj with hw | rfl
      · exact hle.block w hw
      · exact hb

theorem Filled.setArc {front : List Arc} (hf : Flow g front) {b a : Nat} {m : Marks}
    (hm : Filled g m) (hb : m.block b = true) (hzero : b ≠ 0) (ha : a ∈ g.succ b)
    (hfree : m.block (g.target a) = false) : Filling g (g.target a) (m.setArc a) := by
  obtain ⟨hlt, hsource⟩ := Graph.mem_succ.1 ha
  have hnew : ¬ Connected g.source g.target m.tree (g.source a) (g.target a) := by
    intro hc
    rw [hsource] at hc
    have hclosed : ∀ c, m.tree c → ∀ v w, Joins g.source g.target c v w →
        m.block v = true → m.block w = true :=
      fun c hc v w hj hv => hm.closed v hv c (hm.bound c hc) hc w hj
    have hmark := Connected.closed hclosed hc hb
    rw [hfree] at hmark
    cases hmark
  refine ⟨⟨fun c hc => ?_, ?_, fun c hlt hfake => ?_, fun h => ?_⟩, fun v hv c hlt hc w hj => ?_⟩
  · rcases tree_setArc.1 hc with hc | rfl
    · exact hm.bound c hc
    · exact hlt
  · exact (hm.acyclic.insert hnew).mono fun c hc => tree_setArc.1 hc
  · exact tree_setArc.2 (.inl (hm.fakes c hlt hfake))
  · rcases tree_setArc.1 h with h | rfl
    · exact hm.entry h
    · rw [Graph.source, hf.arc_zero] at hsource
      exact hzero hsource.symm
  · rcases tree_setArc.1 hc with hc | rfl
    · exact .inl (hm.closed v hv c hlt hc w hj)
    · obtain ⟨-, rfl⟩ | ⟨-, rfl⟩ := hj
      · exact .inr rfl
      · exact absurd (hfree.symm.trans hv) (by decide)

section Loop

variable {fill : Nat → Marks → Option Marks} {bound : Nat}

theorem fillArcs_cons (a : Nat) (arcs : List Nat) (m : Marks) :
    fillArcs g fill (a :: arcs) m =
      (if !m.arc a ∧ !m.block (g.target a) then fill (g.target a) (m.setArc a) else some m).bind
        (fillArcs g fill arcs) := by
  rw [fillArcs]
  split <;> rfl

/-- The loop of `fill_spanning_tree`, by what the calls do. -/
theorem fillArcs_spec {front : List Arc} (hf : Flow g front)
    (hcall : ∀ t m, t < g.numBlocks → t ≠ 0 → m.block t = false → free g m ≤ bound → Filling g t m →
      ∃ m', fill t m = some m' ∧ Filled g m' ∧ ∀ v, m.block v = true → m'.block v = true)
    {b : Nat} (hzero : b ≠ 0) (arcs : List Nat) (harcs : ∀ a ∈ arcs, a ∈ g.succ b) {m : Marks}
    (hm : Filled g m) (hb : m.block b = true) (hfree : free g m ≤ bound) :
    ∃ m', fillArcs g fill arcs m = some m' ∧ Filled g m' ∧
      ∀ v, m.block v = true → m'.block v = true := by
  induction arcs generalizing m with
  | nil => exact ⟨m, rfl, hm, fun v hv => hv⟩
  | cons a arcs ih =>
    have ha : a ∈ g.succ b := harcs a (List.mem_cons_self ..)
    have hlt := (Graph.mem_succ.1 ha).1
    obtain ⟨m₁, hrun, hm₁, hle₁⟩ : ∃ m₁,
        (if !m.arc a ∧ !m.block (g.target a) then fill (g.target a) (m.setArc a) else some m) =
            some m₁ ∧ Filled g m₁ ∧ ∀ v, m.block v = true → m₁.block v = true := by
      split
      · rename_i hcond
        rw [Bool.not_eq_true', Bool.not_eq_true'] at hcond
        have htarget := (hm.ends hf hlt (Bool.eq_false_iff.1 hcond.1)).1
        exact hcall (g.target a) (m.setArc a) (hf.target_lt hlt) htarget hcond.2 hfree
          (hm.setArc hf hb hzero ha hcond.2)
      · exact ⟨m, rfl, hm, fun v hv => hv⟩
    obtain ⟨m₂, hrun', hm₂, hle₂⟩ := ih (fun c hc => harcs c (List.mem_cons_of_mem _ hc)) hm₁
      (hle₁ b hb) (Nat.le_trans (free_mono hle₁) hfree)
    refine ⟨m₂, ?_, hm₂, fun v hv => hle₂ v (hle₁ v hv)⟩
    rw [fillArcs_cons, hrun]
    exact hrun'

end Loop

theorem fillSpanningTree_spec {front : List Arc} (hf : Flow g front) {fuel b : Nat} {m : Marks}
    (hzero : b ≠ 0) (hm : Filling g b m) (hfree : free g (m.setBlock b) < fuel) :
    ∃ m', fillSpanningTree g fuel b m = some m' ∧ Filled g m' ∧
      ∀ v, m.block v = true → m'.block v = true := by
  induction fuel generalizing b m with
  | zero => exact absurd hfree (Nat.not_lt_zero _)
  | succ fuel ih =>
    have hcall : ∀ t m, t < g.numBlocks → t ≠ 0 → m.block t = false → free g m ≤ fuel →
        Filling g t m → ∃ m', fillSpanningTree g fuel t m = some m' ∧ Filled g m' ∧
          ∀ v, m.block v = true → m'.block v = true := by
      intro t m ht hne htfree hle hm
      exact ih hne hm (Nat.lt_of_lt_of_le (free_setBlock ht htfree) hle)
    obtain ⟨m₁, hrun₁, hle₁, hb₁, hclosed⟩ := expandSpanningTree_spec hf hfree
    have hset : ∀ v, (m.setBlock b).block v = true → m₁.block v = true := by
      intro v hv
      rcases block_setBlock.1 hv with hv | rfl
      · exact hle₁.block v hv
      · exact hb₁
    obtain ⟨m₂, hrun₂, hm₂, hle₂⟩ := fillArcs_spec hf hcall hzero (g.succ b) (fun a ha => ha)
      (hm.expanded hle₁ hb₁ hclosed) hb₁
      (Nat.le_trans (free_mono hset) (Nat.le_of_lt_succ hfree))
    refine ⟨m₂, ?_, hm₂, fun v hv => hle₂ v (hle₁.block v hv)⟩
    rw [fillSpanningTree, hrun₁]
    exact hrun₂

theorem free_le (m : Marks) : free g m ≤ g.numBlocks := by
  have hcard := Finset.card_filter_le (Finset.range g.numBlocks) (m.block · = false)
  rwa [Finset.card_range] at hcard

theorem fillBlocks_spec {front : List Arc} (hf : Flow g front) {fuel : Nat}
    (hfuel : g.numBlocks < fuel) (blocks : List Nat) (hblocks : ∀ b ∈ blocks, b ≠ 0) {m : Marks}
    (hm : Filled g m) : ∃ m', fillBlocks g fuel blocks m = some m' ∧ TreeArcs g m' := by
  induction blocks generalizing m with
  | nil => exact ⟨m, rfl, hm.toTreeArcs⟩
  | cons b blocks ih =>
    have hrest : ∀ c ∈ blocks, c ≠ 0 := fun c hc => hblocks c (List.mem_cons_of_mem _ hc)
    rw [fillBlocks]
    split
    · obtain ⟨m₁, hrun, hm₁, -⟩ := fillSpanningTree_spec hf (hblocks b (List.mem_cons_self ..))
        (hm.filling b) (Nat.lt_of_le_of_lt (free_le _) hfuel)
      obtain ⟨m₂, hrun', hm₂⟩ := ih hrest hm₁
      exact ⟨m₂, by rw [hrun]; exact hrun', hm₂⟩
    · exact ih hrest hm

end Fill

theorem findSpanningTree_spec {g : Graph} {front : List Arc} (hf : Flow g front) {m₁ : Marks}
    (hmark : markFakeArcs g = some m₁) {fuel : Nat} (hfuel : g.numBlocks < fuel) :
    ∃ m, findSpanningTree g fuel = some m ∧ TreeArcs g m := by
  obtain ⟨hgrow, htree⟩ := markFakeArcs_spec hf hmark
  have harcs := foldl_markCrowded hf (List.range g.numBlocks) hgrow (treeArcs_of_fakes hf hgrow htree)
  have hfilled : Filled g ⟨_, fun _ => false⟩ :=
    ⟨⟨harcs.bound, harcs.acyclic, harcs.fakes, harcs.entry⟩, fun v hv => Bool.noConfusion hv⟩
  obtain ⟨m, hrun, hm⟩ := fillBlocks_spec hf hfuel (List.range' 1 (g.numBlocks - 1))
    (fun b hb => by
      rw [List.mem_range'_1] at hb
      omega) hfilled
  refine ⟨m, ?_, hm⟩
  rw [findSpanningTree, hmark]
  exact hrun

end Z80Gcc.Profile
