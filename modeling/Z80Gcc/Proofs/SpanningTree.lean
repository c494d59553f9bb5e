import Mathlib.Data.List.GetD
import Z80Gcc.Lib.Forest
import Z80Gcc.Proofs.ProfileGraph

/-! The arcs that `find_spanning_tree` puts on the tree contain no cycle. -/

namespace Z80Gcc.Profile

open Z80Gcc.Forest

section Shape

theorem Graph.mem_succ {g : Graph} {a b : Nat} :
    a ∈ g.succ b ↔ a < g.arcs.length ∧ g.source a = b := by
  simp [Graph.succ]

theorem Graph.mem_pred {g : Graph} {a b : Nat} :
    a ∈ g.pred b ↔ a < g.arcs.length ∧ g.target a = b := by
  simp [Graph.pred]

variable {g : Graph} {front : List Arc} (hf : Flow g front)

include hf

namespace Flow

theorem length : g.arcs.length = front.length + 3 := by
  rw [hf.arcs]
  simp

theorem arc_zero : g.arc 0 = ⟨0, 1, false, true⟩ := by
  rw [Graph.arc, hf.arcs]
  rfl

theorem arc_one : g.arc 1 = ⟨g.numBlocks - 1, 0, true, false⟩ := by
  rw [Graph.arc, hf.arcs]
  rfl

theorem arc_last : g.arc (front.length + 2) = ⟨g.numBlocks - 2, g.numBlocks - 1, true, false⟩ := by
  rw [Graph.arc, hf.arcs]
  simp

theorem arc_fits {a : Nat} (hlow : 2 ≤ a) (hlt : a < g.arcs.length) :
    (g.arc a).Fits g.numBlocks := by
  refine hf.fits _ ?_
  obtain ⟨k, rfl⟩ := Nat.exists_eq_add_of_le' hlow
  rw [hf.length] at hlt
  rw [Graph.arc, hf.arcs, List.getD_cons_succ, List.getD_cons_succ, List.getD_eq_getElem _ _ (by simp; omega)]
  exact List.getElem_mem _

theorem source_lt {a : Nat} (hlt : a < g.arcs.length) : g.source a < g.numBlocks := by
  have hblocks := hf.blocks
  match a with
  | 0 =>
    rw [Graph.source, hf.arc_zero]
    simp only
    omega
  | 1 =>
    rw [Graph.source, hf.arc_one]
    simp only
    omega
  | a + 2 =>
    have hsource := (hf.arc_fits (Nat.le_add_left 2 a) hlt).source_lt
    rw [Graph.source]
    omega

theorem target_lt {a : Nat} (hlt : a < g.arcs.length) : g.target a < g.numBlocks := by
  have hblocks := hf.blocks
  match a with
  | 0 =>
    rw [Graph.target, hf.arc_zero]
    simp only
    omega
  | 1 =>
    rw [Graph.target, hf.arc_one]
    simp only
    omega
  | a + 2 => exact (hf.arc_fits (Nat.le_add_left 2 a) hlt).target_lt

/-- The only entrance to node zero is the fake arc from the exit. -/
theorem eq_one_of_target_zero {a : Nat} (hlt : a < g.arcs.length) (htarget : g.target a = 0) :
    a = 1 := by
  match a with
  | 0 =>
    rw [Graph.target, hf.arc_zero] at htarget
    cases htarget
  | 1 => rfl
  | a + 2 =>
    have hpos := (hf.arc_fits (Nat.le_add_left 2 a) hlt).target_pos
    rw [Graph.target] at htarget
    omega

/-- From node zero there are fake arcs, besides the one to block 1. -/
theorem fake_of_source_zero {a : Nat} (hlt : a < g.arcs.length) (hne : a ≠ 0)
    (hsource : g.source a = 0) : (g.arc a).fake = true := by
  match a with
  | 0 => exact absurd rfl hne
  | 1 =>
    rw [hf.arc_one]
  | a + 2 => exact (hf.arc_fits (Nat.le_add_left 2 a) hlt).source_zero hsource

theorem fake_cases {a : Nat} (hlt : a < g.arcs.length) (hfake : (g.arc a).fake = true) :
    a = 1 ∨ g.source a = 0 ∧ 1 ≤ g.target a ∧ g.target a + 3 ≤ g.numBlocks ∨
      1 ≤ g.source a ∧ g.source a < g.numBlocks - 1 ∧ g.target a = g.numBlocks - 1 := by
  match a with
  | 0 =>
    rw [hf.arc_zero] at hfake
    cases hfake
  | 1 => exact .inl rfl
  | a + 2 =>
    have hfits := hf.arc_fits (Nat.le_add_left 2 a) hlt
    obtain ⟨hsource, htarget⟩ | ⟨hsource, htarget⟩ := hfits.fake hfake
    · exact .inr (.inl ⟨hsource, hfits.target_pos, htarget⟩)
    · exact .inr (.inr ⟨hsource, hfits.source_lt, htarget⟩)

/-- The only arc from the exit goes to node zero. -/
theorem eq_one_of_source_exit {a : Nat} (hlt : a < g.arcs.length)
    (hsource : g.source a = g.numBlocks - 1) : a = 1 := by
  have hblocks := hf.blocks
  match a with
  | 0 =>
    rw [Graph.source, hf.arc_zero] at hsource
    simp only at hsource
    omega
  | 1 => rfl
  | a + 2 =>
    have hlow := (hf.arc_fits (Nat.le_add_left 2 a) hlt).source_lt
    rw [Graph.source] at hsource
    omega

theorem pred_zero : (g.pred 0).headD g.arcs.length = 1 := by
  have hmem : 1 ∈ g.pred 0 := by
    rw [Graph.mem_pred, Graph.target, hf.arc_one, hf.length]
    exact ⟨by omega, rfl⟩
  cases hpred : g.pred 0 with
  | nil => rw [hpred] at hmem; cases hmem
  | cons a arcs =>
    have hhead : a ∈ g.pred 0 := by
      rw [hpred]
      exact List.mem_cons_self ..
    obtain ⟨hlt, htarget⟩ := Graph.mem_pred.1 hhead
    exact hf.eq_one_of_target_zero hlt htarget

theorem pred_exit : ∃ rest, g.pred (g.numBlocks - 1) = (front.length + 2) :: rest := by
  rw [Graph.pred, hf.length, List.range_succ, List.reverse_append]
  refine ⟨_, List.filter_cons_of_pos ?_⟩
  rw [Graph.target, hf.arc_last]
  simp

end Flow

end Shape

section Marking

variable {g : Graph}

/-- The arcs on the tree. -/
def Marks.tree (m : Marks) (a : Nat) : Prop := m.arc a = true

/-- No tree arc has an end that is not marked, unless it is node zero. -/
structure Growing (g : Graph) (zero : Prop) (m : Marks) : Prop where
  bound : ∀ a, m.tree a → a < g.arcs.length
  acyclic : Acyclic g.source g.target m.tree
  isolated : ∀ v, m.block v = false → (zero → v ≠ 0) → ∀ a, m.tree a → ¬ Touches g.source g.target a v

theorem tree_setArc {m : Marks} {a b : Nat} : (m.setArc a).tree b ↔ m.tree b ∨ b = a := by
  unfold Marks.tree Marks.setArc
  by_cases heq : b = a
  · simp [heq]
  · simp [heq]

theorem block_setBlock {m : Marks} {b v : Nat} :
    (m.setBlock b).block v = true ↔ m.block v = true ∨ v = b := by
  unfold Marks.setBlock
  by_cases heq : v = b
  · simp [heq]
  · simp [heq]

theorem not_connected_of_isolated {V A : Type*} {src dst : A → V} {T : A → Prop} {v w : V}
    (hiso : ∀ a, T a → ¬ Touches src dst a v) (hne : w ≠ v) : ¬ Connected src dst T v w := by
  intro hc
  have hclosed : ∀ a, T a → ∀ x y, Joins src dst a x y → x = v → y = v := by
    intro a ha x y hj hx
    subst hx
    exact absurd (hj.elim (fun h => .inl h.1) fun h => .inr h.2) (hiso a ha)
  exact hne (Connected.closed hclosed hc rfl)

/-- An arc with an end that is not marked is put on the tree. -/
theorem Growing.add {zero : Prop} {m : Marks} (hm : Growing g zero m) {a v w : Nat}
    (hlt : a < g.arcs.length) (hj : Joins g.source g.target a v w) (hne : v ≠ w)
    (hfree : m.block v = false ∧ (zero → v ≠ 0) ∨ m.block w = false ∧ (zero → w ≠ 0)) :
    Growing g zero (((m.setArc a).setBlock v).setBlock w) := by
  have htree : ∀ b, (((m.setArc a).setBlock v).setBlock w).tree b ↔ m.tree b ∨ b = a :=
    fun b => tree_setArc
  have hnew : ¬ Connected g.source g.target m.tree (g.source a) (g.target a) := by
    have hends : ¬ Connected g.source g.target m.tree v w := by
      obtain ⟨hfree, hzero⟩ | ⟨hfree, hzero⟩ := hfree
      · exact not_connected_of_isolated (hm.isolated v hfree hzero) hne.symm
      · exact fun hc => not_connected_of_isolated (hm.isolated w hfree hzero) hne hc.symm
    obtain ⟨rfl, rfl⟩ | ⟨rfl, rfl⟩ := hj
    · exact hends
    · exact fun hc => hends hc.symm
  refine ⟨fun b hb => ?_, ?_, fun x hx hzero b hb => ?_⟩
  · rcases (htree b).1 hb with hb | rfl
    · exact hm.bound b hb
    · exact hlt
  · exact (hm.acyclic.insert hnew).mono fun b hb => (htree b).1 hb
  · have hx' : m.block x = false ∧ x ≠ v ∧ x ≠ w := by
      have hnot : ¬ ((m.block x = true ∨ x = v) ∨ x = w) := by
        intro hor
        have hset : (((m.setArc a).setBlock v).setBlock w).block x = true :=
          block_setBlock.2 (hor.imp_left block_setBlock.2)
        rw [hx] at hset
        cases hset
      simpa [not_or, and_assoc] using hnot
    rcases (htree b).1 hb with hb | rfl
    · exact hm.isolated x hx'.1 hzero b hb
    · rintro (rfl | rfl)
      · obtain ⟨hv, -⟩ | ⟨hw, -⟩ := hj
        · exact hx'.2.1 hv
        · exact hx'.2.2 hw
      · obtain ⟨-, hw⟩ | ⟨-, hv⟩ := hj
        · exact hx'.2.2 hw
        · exact hx'.2.1 hv

theorem Growing.remark {zero : Prop} {m : Marks} (hm : Growing g zero m) {a : Nat} (ha : m.tree a)
    (v w : Nat) : Growing g zero (((m.setArc a).setBlock v).setBlock w) := by
  have htree : ∀ b, (((m.setArc a).setBlock v).setBlock w).tree b → m.tree b := by
    intro b hb
    rcases tree_setArc.1 hb with hb | rfl
    · exact hb
    · exact ha
  refine ⟨fun b hb => hm.bound b (htree b hb), hm.acyclic.mono htree, fun x hx hzero b hb => ?_⟩
  refine hm.isolated x ?_ hzero b (htree b hb)
  by_contra hne
  rw [Bool.not_eq_false] at hne
  have hset : (((m.setArc a).setBlock v).setBlock w).block x = true :=
    block_setBlock.2 (.inl (block_setBlock.2 (.inl hne)))
  rw [hx] at hset
  cases hset

end Marking

section Fakes

variable {g : Graph} {block : Nat} {other : Nat → Nat}

theorem markFake_cons {a : Nat} {arcs : List Nat} {m m' : Marks}
    (hmark : markFake g block other (a :: arcs) m = some m') :
    (g.arc a).fake = true ∧ ¬ (m.block (other a) = true ∧ m.block block = true) ∧
        markFake g block other arcs (((m.setArc a).setBlock (other a)).setBlock block) = some m' ∨
      (g.arc a).fake = false ∧ markFake g block other arcs m = some m' := by
  rw [markFake] at hmark
  split at hmark
  · rename_i hfake
    split at hmark
    · cases hmark
    · rename_i hboth
      exact .inl ⟨hfake, hboth, hmark⟩
  · rename_i hfake
    exact .inr ⟨Bool.not_eq_true _ ▸ hfake, hmark⟩

/-- The fake arcs at a block, if their marking does not abort. -/
theorem markFake_spec {arcs : List Nat} {m m' : Marks}
    (harcs : ∀ a ∈ arcs, a < g.arcs.length ∧ Joins g.source g.target a (other a) block ∧
      other a ≠ block)
    (hm : Growing g False m) (hmark : markFake g block other arcs m = some m') :
    Growing g False m' ∧ (∀ a, m'.tree a ↔ m.tree a ∨ a ∈ arcs ∧ (g.arc a).fake = true) ∧
      ∀ v, m'.block v = true ↔
        m.block v = true ∨ ∃ a ∈ arcs, (g.arc a).fake = true ∧ (v = other a ∨ v = block) := by
  induction arcs generalizing m with
  | nil =>
    rw [markFake, Option.some.injEq] at hmark
    subst hmark
    exact ⟨hm, by simp, by simp⟩
  | cons a arcs ih =>
    have hrest : ∀ b ∈ arcs, _ := fun b hb => harcs b (List.mem_cons_of_mem _ hb)
    rcases markFake_cons hmark with ⟨hfake, hboth, hmark⟩ | ⟨hfake, hmark⟩
    · obtain ⟨hlt, hj, hne⟩ := harcs a (List.mem_cons_self ..)
      have hfree : m.block (other a) = false ∧ (False → other a ≠ 0) ∨
          m.block block = false ∧ (False → block ≠ 0) := by
        rw [not_and_or, Bool.not_eq_true, Bool.not_eq_true] at hboth
        exact hboth.imp (fun h => ⟨h, False.elim⟩) fun h => ⟨h, False.elim⟩
      obtain ⟨hgrow, htree, hblock⟩ := ih hrest (hm.add hlt hj hne hfree) hmark
      refine ⟨hgrow, fun b => ?_, fun v => ?_⟩
      · have hset : (((m.setArc a).setBlock (other a)).setBlock block).tree b ↔ m.tree b ∨ b = a :=
          tree_setArc
        rw [htree, hset, List.mem_cons]
        grind
      · rw [hblock, block_setBlock, block_setBlock]
        have hold : (m.setArc a).block v = m.block v := rfl
        rw [hold]
        simp only [List.mem_cons, exists_eq_or_imp, hfake, true_and]
        grind
    · obtain ⟨hgrow, htree, hblock⟩ := ih hrest hm hmark
      refine ⟨hgrow, fun b => ?_, fun v => ?_⟩
      · rw [htree, List.mem_cons]
        grind
      · rw [hblock]
        simp [hfake]

/-- Once the block is marked, the fake arcs lead to blocks that are not. -/
theorem markFake_fresh {arcs : List Nat} {m m' : Marks} (hblock : m.block block = true)
    (hmark : markFake g block other arcs m = some m') :
    ∀ a ∈ arcs, (g.arc a).fake = true → m.block (other a) = false := by
  induction arcs generalizing m with
  | nil =>
    intro a ha
    cases ha
  | cons a arcs ih =>
    intro b hb hfake
    rcases markFake_cons hmark with ⟨-, hboth, hmark⟩ | ⟨hreal, hmark⟩
    · rcases List.mem_cons.1 hb with rfl | hb
      · simpa [hblock] using hboth
      · have hset := ih (block_setBlock.2 (.inr rfl)) hmark b hb hfake
        by_contra hmarked
        rw [Bool.not_eq_false] at hmarked
        have htrue : (((m.setArc a).setBlock (other a)).setBlock block).block (other b) = true :=
          block_setBlock.2 (.inl (block_setBlock.2 (.inl hmarked)))
        rw [hset] at htrue
        cases htrue
    · rcases List.mem_cons.1 hb with rfl | hb
      · rw [hfake] at hreal
        cases hreal
      · exact ih hblock hmark b hb hfake

end Fakes

section FirstPass

variable {g : Graph} {front : List Arc}

theorem growing_clear : Growing g False .clear where
  bound a ha := by cases ha
  acyclic := acyclic_of_empty fun a ha => by cases ha
  isolated v _ _ a ha := by cases ha

theorem markFake_entry (hf : Flow g front) {m : Marks}
    (hmark : markFake g 0 g.target (g.succ 0) .clear = some m) :
    Growing g False m ∧
      (∀ a, m.tree a ↔ a < g.arcs.length ∧ (g.arc a).fake = true ∧ g.source a = 0) ∧
      ∀ v, m.block v = true → v + 3 ≤ g.numBlocks := by
  have harcs : ∀ a ∈ g.succ 0, a < g.arcs.length ∧ Joins g.source g.target a (g.target a) 0 ∧
      g.target a ≠ 0 := by
    intro a ha
    obtain ⟨hlt, hsource⟩ := Graph.mem_succ.1 ha
    refine ⟨hlt, .inr ⟨hsource, rfl⟩, fun htarget => ?_⟩
    have hone := hf.eq_one_of_target_zero hlt htarget
    rw [hone, Graph.source, hf.arc_one] at hsource
    have hblocks := hf.blocks
    simp only at hsource
    omega
  obtain ⟨hgrow, htree, hblock⟩ := markFake_spec harcs growing_clear hmark
  refine ⟨hgrow, fun a => ?_, fun v hv => ?_⟩
  · rw [htree, Graph.mem_succ]
    have hclear : ¬ Marks.clear.tree a := Bool.false_ne_true
    grind
  · obtain hclear | ⟨a, ha, hfake, hv⟩ := (hblock v).1 hv
    · cases hclear
    · obtain ⟨hlt, hsource⟩ := Graph.mem_succ.1 ha
      have hblocks := hf.blocks
      obtain rfl | hv := hv.symm
      · exact hblocks
      · obtain rfl | ⟨-, -, htarget⟩ | ⟨hpos, -, -⟩ := hf.fake_cases hlt hfake
        · rw [Graph.source, hf.arc_one] at hsource
          simp only at hsource
          omega
        · omega
        · omega

/-- The fake arcs to the exit come from blocks that the first loop left alone. -/
theorem markFake_exit_fresh (hf : Flow g front) {m m' : Marks}
    (hlow : ∀ v, m.block v = true → v + 3 ≤ g.numBlocks)
    (hmark : markFake g (g.numBlocks - 1) g.source (g.pred (g.numBlocks - 1)) m = some m') :
    ∀ a, a < g.arcs.length → (g.arc a).fake = true → g.target a = g.numBlocks - 1 →
      m.block (g.source a) = false := by
  intro a hlt hfake htarget
  have hblocks := hf.blocks
  have hlastSource : g.source (front.length + 2) = g.numBlocks - 2 := by
    rw [Graph.source, hf.arc_last]
  have hlastFake : (g.arc (front.length + 2)).fake = true := by rw [hf.arc_last]
  have hmem : a ∈ g.pred (g.numBlocks - 1) := Graph.mem_pred.2 ⟨hlt, htarget⟩
  -- the arc from the last block of the function marks the exit, then no arc leads to marked blocks
  obtain ⟨rest, hrest⟩ := hf.pred_exit
  rw [hrest] at hmark hmem
  by_contra hmarked
  rw [Bool.not_eq_false] at hmarked
  rcases List.mem_cons.1 hmem with rfl | hmem
  · have := hlow _ hmarked
    omega
  · rcases markFake_cons hmark with ⟨-, -, hmark⟩ | ⟨hreal, -⟩
    · have hset := markFake_fresh (block_setBlock.2 (.inr rfl)) hmark a hmem hfake
      rw [Bool.eq_false_iff] at hset
      exact hset (block_setBlock.2 (.inl (block_setBlock.2 (.inl hmarked))))
    · rw [hlastFake] at hreal
      cases hreal

/-- The first pass puts just the fake arcs on the tree, without a cycle. -/
theorem markFakeArcs_spec (hf : Flow g front) {m : Marks} (hmark : markFakeArcs g = some m) :
    Growing g True m ∧ ∀ a, m.tree a ↔ a < g.arcs.length ∧ (g.arc a).fake = true := by
  have hblocks := hf.blocks
  unfold markFakeArcs at hmark
  simp only [Option.bind_eq_bind, Option.bind_eq_some_iff, hf.pred_zero, Option.pure_def,
    Option.some.injEq] at hmark
  obtain ⟨m₁, hentry, m₂, hexit, rfl⟩ := hmark
  obtain ⟨hgrow₁, htree₁, hlow⟩ := markFake_entry hf hentry
  have hfresh := markFake_exit_fresh hf hlow hexit
  have hne : ∀ {a}, a < g.arcs.length → g.target a = g.numBlocks - 1 →
      g.source a ≠ g.numBlocks - 1 := by
    intro a hlt htarget hsource
    have hone := hf.eq_one_of_source_exit hlt hsource
    rw [hone, Graph.target, hf.arc_one] at htarget
    simp only at htarget
    omega
  have harcs : ∀ a ∈ g.pred (g.numBlocks - 1), a < g.arcs.length ∧
      Joins g.source g.target a (g.source a) (g.numBlocks - 1) ∧ g.source a ≠ g.numBlocks - 1 := by
    intro a ha
    obtain ⟨hlt, htarget⟩ := Graph.mem_pred.1 ha
    exact ⟨hlt, .inl ⟨rfl, htarget⟩, hne hlt htarget⟩
  obtain ⟨hgrow₂, htree₂, hblock₂⟩ := markFake_spec harcs hgrow₁ hexit
  have hexitMarked : m₂.block (g.numBlocks - 1) = true := by
    refine (hblock₂ _).2 (.inr ⟨front.length + 2, ?_, by rw [hf.arc_last], .inr rfl⟩)
    obtain ⟨rest, hrest⟩ := hf.pred_exit
    rw [hrest]
    exact List.mem_cons_self ..
  -- node zero and the blocks that `setjmp` returns to are a part of their own
  have hclosed : ∀ a, m₂.tree a → ∀ v w, Joins g.source g.target a v w →
      v = 0 ∨ m₁.block v = true → w = 0 ∨ m₁.block w = true := by
    intro a ha v w hj hv
    rcases (htree₂ a).1 ha with ha | ⟨ha, hfake⟩
    · by_contra hw
      rw [not_or, Bool.not_eq_true] at hw
      refine hgrow₁.isolated w hw.2 False.elim a ha ?_
      exact hj.elim (fun h => .inr h.2) fun h => .inl h.1
    · obtain ⟨hlt, htarget⟩ := Graph.mem_pred.1 ha
      have hsource : ¬ (g.source a = 0 ∨ m₁.block (g.source a) = true) := by
        rw [hfresh a hlt hfake htarget]
        rintro (hzero | hmarked)
        · obtain rfl | ⟨-, -, hhigh⟩ | ⟨hpos, -⟩ := hf.fake_cases hlt hfake
          · rw [Graph.source, hf.arc_one] at hzero
            simp only at hzero
            omega
          · omega
          · omega
        · cases hmarked
      have hexitFree : ¬ (g.numBlocks - 1 = 0 ∨ m₁.block (g.numBlocks - 1) = true) := by
        rintro (hzero | hmarked)
        · omega
        · have := hlow _ hmarked
          omega
      obtain ⟨rfl, rfl⟩ | ⟨rfl, rfl⟩ := hj
      · exact absurd hv hsource
      · rw [htarget] at hv
        exact absurd hv hexitFree
  have hnew : ¬ Connected g.source g.target m₂.tree (g.source 1) (g.target 1) := by
    rw [Graph.source, Graph.target, hf.arc_one]
    intro hc
    rcases Connected.closed hclosed hc.symm (.inl rfl) with hzero | hmarked
    · simp only at hzero
      omega
    · have := hlow _ hmarked
      simp only at this
      omega
  have htree : ∀ a, (m₂.setArc 1).tree a ↔ a < g.arcs.length ∧ (g.arc a).fake = true := by
    intro a
    rw [tree_setArc, htree₂, htree₁, Graph.mem_pred]
    constructor
    · rintro ((⟨hlt, hfake, -⟩ | ⟨⟨hlt, -⟩, hfake⟩) | rfl)
      · exact ⟨hlt, hfake⟩
      · exact ⟨hlt, hfake⟩
      · rw [hf.length, hf.arc_one]
        exact ⟨by omega, rfl⟩
    · rintro ⟨hlt, hfake⟩
      obtain rfl | ⟨hsource, -⟩ | ⟨-, -, htarget⟩ := hf.fake_cases hlt hfake
      · exact .inr rfl
      · exact .inl (.inl ⟨hlt, hfake, hsource⟩)
      · exact .inl (.inr ⟨⟨hlt, htarget⟩, hfake⟩)
  refine ⟨⟨fun a ha => ((htree a).1 ha).1, ?_, fun v hv hzero a ha => ?_⟩, htree⟩
  · exact (hgrow₂.acyclic.insert hnew).mono fun a ha => tree_setArc.1 ha
  · rcases tree_setArc.1 ha with ha | rfl
    · exact hgrow₂.isolated v hv False.elim a ha
    · rintro (hsource | htarget)
      · rw [Graph.source, hf.arc_one] at hsource
        rw [← hsource] at hv
        exact absurd (hexitMarked.symm.trans hv) (by decide)
      · rw [Graph.target, hf.arc_one] at htarget
        exact hzero trivial htarget.symm

end FirstPass

end Z80Gcc.Profile
