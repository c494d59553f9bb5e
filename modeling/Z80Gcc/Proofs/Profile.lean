import Z80Gcc.Proofs.ProfileSolver

/-! Arc profiling: the counters off the tree determine every count. -/

namespace Z80Gcc.Profile

open Z80Gcc.Forest

section Solved

variable {g : Graph} {front : List Arc} {c : Nat → BitVec 32}

theorem invalid_eq_zero {valid : Nat → Bool} {arcs : List Nat} (h : ∀ a ∈ arcs, valid a = true) :
    invalid valid arcs = 0 := by
  rw [invalid, List.countP_eq_zero]
  intro a ha
  simp [h a ha]

/-- A list with one arc that is not valid. -/
theorem invalid_eq_one {valid : Nat → Bool} {arcs : List Nat} {a : Nat} (hnodup : arcs.Nodup)
    (ha : a ∈ arcs) (hfree : valid a = false) (hone : ∀ b ∈ arcs, valid b = false → b = a) :
    invalid valid arcs = 1 := by
  have hrest := invalid_update hfree arcs
  rw [hnodup.count, if_pos ha] at hrest
  have hzero : invalid (Function.update valid a true) arcs = 0 := by
    refine invalid_eq_zero fun b hb => ?_
    by_cases heq : b = a
    · simp [heq]
    · rw [Function.update_of_ne heq]
      by_contra hne
      exact heq (hone b hb (Bool.not_eq_true _ ▸ hne))
  omega

theorem nodup_succ (b : Nat) : (g.succ b).Nodup := (List.nodup_reverse.2 List.nodup_range).filter _

theorem nodup_pred (b : Nat) : (g.pred b).Nodup := (List.nodup_reverse.2 List.nodup_range).filter _

/-- When nothing is left to do and the arcs that are left contain no cycle, none is left. -/
theorem solved_of_stable (hf : Flow g front) {s : Counts} (hs : Tracks g c s)
    (hstable : ∀ b, b < g.numBlocks → Stable s b)
    (hac : Acyclic g.source g.target fun a => a < g.arcs.length ∧ s.arcValid a = false) :
    ∀ a, a < g.arcs.length → s.arcValid a = true := by
  intro a₀ hlt₀
  by_contra hne
  rw [Bool.not_eq_true] at hne
  have hfinite : ∀ a, a < g.arcs.length ∧ s.arcValid a = false → a ∈ Finset.range g.arcs.length :=
    fun a ha => Finset.mem_range.2 ha.1
  obtain ⟨a, v, ⟨hlt, hfree⟩, htouch, hends, hleaf⟩ := hac.exists_leaf hfinite ⟨hlt₀, hne⟩
  -- an end of the tree lacks one count on one side and none on the other
  obtain hsource | htarget := htouch
  · have hone : s.succCount v = 1 := by
      rw [hs.succ, invalid_eq_one (nodup_succ v) (Graph.mem_succ.2 ⟨hlt, hsource⟩) hfree]
      · rfl
      · intro b hb hbfree
        obtain ⟨hblt, hbsource⟩ := Graph.mem_succ.1 hb
        exact hleaf b ⟨hblt, hbfree⟩ (.inl hbsource)
    have hzero : s.predCount v = 0 := by
      rw [hs.pred, invalid_eq_zero]
      · rfl
      · intro b hb
        obtain ⟨hblt, hbtarget⟩ := Graph.mem_pred.1 hb
        by_contra hbfree
        obtain rfl := hleaf b ⟨hblt, Bool.not_eq_true _ ▸ hbfree⟩ (.inr hbtarget)
        exact hends (hsource.trans hbtarget.symm)
    have hv := hstable v (hsource ▸ hf.source_lt hlt)
    cases hvalid : s.blockValid v with
    | true => exact (hv.known hvalid).1 hone
    | false => exact (hv.unknown hvalid).2 hzero
  · have hone : s.predCount v = 1 := by
      rw [hs.pred, invalid_eq_one (nodup_pred v) (Graph.mem_pred.2 ⟨hlt, htarget⟩) hfree]
      · rfl
      · intro b hb hbfree
        obtain ⟨hblt, hbtarget⟩ := Graph.mem_pred.1 hb
        exact hleaf b ⟨hblt, hbfree⟩ (.inr hbtarget)
    have hzero : s.succCount v = 0 := by
      rw [hs.succ, invalid_eq_zero]
      · rfl
      · intro b hb
        obtain ⟨hblt, hbsource⟩ := Graph.mem_succ.1 hb
        by_contra hbfree
        obtain rfl := hleaf b ⟨hblt, Bool.not_eq_true _ ▸ hbfree⟩ (.inl hbsource)
        exact hends (hbsource.trans htarget.symm)
    have hv := hstable v (htarget ▸ hf.target_lt hlt)
    cases hvalid : s.blockValid v with
    | true => exact (hv.known hvalid).2 hone
    | false => exact (hv.unknown hvalid).1 hzero

end Solved

section Reading

variable {g : Graph} {front : List Arc} {onTree : Nat → Bool}

theorem mem_countedArcs {a b : Nat} :
    a ∈ countedArcs g onTree b ↔ (a < g.arcs.length ∧ g.source a = b) ∧ onTree a = false := by
  simp [countedArcs, Graph.mem_succ]

theorem mem_readOrder (hf : Flow g front) {a : Nat} :
    a ∈ readOrder g onTree ↔ a < g.arcs.length ∧ onTree a = false := by
  simp only [readOrder, List.mem_flatMap, List.mem_range, mem_countedArcs]
  constructor
  · rintro ⟨b, -, ⟨hlt, -⟩, hoff⟩
    exact ⟨hlt, hoff⟩
  · rintro ⟨hlt, hoff⟩
    exact ⟨g.source a, hf.source_lt hlt, ⟨hlt, rfl⟩, hoff⟩

theorem nodup_readOrder : (readOrder g onTree).Nodup := by
  refine List.nodup_flatMap.2 ⟨fun b _ => (nodup_succ b).filter _, ?_⟩
  refine List.nodup_range.imp fun {b b'} hne a ha ha' => ?_
  exact hne ((mem_countedArcs.1 ha).1.2.symm.trans (mem_countedArcs.1 ha').1.2)

theorem sum_words (c : Nat → Int) (arcs : List Nat) :
    (arcs.map fun a => BitVec.ofInt 32 (c a)).sum = BitVec.ofInt 32 (arcs.map c).sum := by
  induction arcs with
  | nil => rfl
  | cons a arcs ih => rw [List.map_cons, List.sum_cons, ih, ← BitVec.ofInt_add, List.map_cons, List.sum_cons]

theorem Conserves.words {c : Nat → Int} (hc : Conserves g c) : Conserves g fun a => BitVec.ofInt 32 (c a) := by
  intro b hb
  rw [flow, sum_words, sum_words, hc b hb, flow]

/-- The counts off a tree without cycles give all counts, as words. -/
theorem solveCounts_spec {c : Nat → Int} (hf : Flow g front) (hc : Conserves g c)
    (hac : Acyclic g.source g.target fun a => a < g.arcs.length ∧ onTree a = true) {fuel : Nat}
    (hfuel : g.arcs.length + g.numBlocks < fuel) :
    ∃ s, solveCounts g fuel onTree ((readOrder g onTree).map c) = some s ∧
      (∀ a, a < g.arcs.length → s.arcCount a = BitVec.ofInt 32 (c a)) ∧
        ∀ b, b < g.numBlocks → s.execCount b = BitVec.ofInt 32 (flow g c b) := by
  obtain ⟨hread, hvalid⟩ := readCounts_tracks (c := c) nodup_readOrder tracks_start
    fun a ha => ⟨((mem_readOrder hf).1 ha).1, rfl⟩
  have hleft : (readCounts g (readOrder g onTree) ((readOrder g onTree).map c) (.start g)).left g <
      fuel := by
    refine Nat.lt_of_le_of_lt (Nat.add_le_add (List.countP_le_length) (List.countP_le_length)) ?_
    rwa [List.length_range, List.length_range]
  obtain ⟨s, hrun, hs, hmono, hstable⟩ := solve_spec hc.words hread hleft
  have hall := solved_of_stable hf hs hstable <| hac.mono fun a ha => by
    refine ⟨ha.1, ?_⟩
    by_contra hoff
    rw [hmono a ((hvalid a).2 (.inr ((mem_readOrder hf).2 ⟨ha.1, Bool.not_eq_true _ ▸ hoff⟩)))] at ha
    exact Bool.noConfusion ha.2
  have hsucc : ∀ b, s.succCount b = 0 := by
    intro b
    rw [hs.succ, invalid_eq_zero fun a ha => hall a (Graph.mem_succ.1 ha).1]
    rfl
  have hpred : ∀ b, s.predCount b = 0 := by
    intro b
    rw [hs.pred, invalid_eq_zero fun a ha => hall a (Graph.mem_pred.1 ha).1]
    rfl
  refine ⟨s, ?_, fun a hlt => ?_, fun b hb => ?_⟩
  · rw [solveCounts, hrun, Option.bind_eq_bind, Option.bind_some, checkSolved, if_pos]
    simp [hsucc, hpred]
  · rw [hs.arc, if_pos (hall a hlt)]
  · rw [hs.block b, flow, sum_words, flow]
    by_contra hfree
    exact ((hstable b hb).unknown (Bool.not_eq_true _ ▸ hfree)).1 (hsucc b)

end Reading

section Numbering

variable {g : Graph} {front : List Arc}

/-- Where the counter of an arc is; the arc into block 1 is counted at the start of the function. -/
def counterPlace (g : Graph) (a : Nat) : Place :=
  if g.source a = 0 then .functionStart else arcPlace g (g.source a) a

theorem outputProfilers_eq (next : Nat) (places : List Place) :
    outputProfilers next places = (places.zipIdx next).map Prod.swap := by
  induction places generalizing next with
  | nil => rfl
  | cons place places ih =>
    rw [outputProfilers, ih]
    rfl

/-- Of the arcs from node zero just the one into block 1 is counted. -/
theorem countedArcs_zero (hf : Flow g front) {m : Marks} (hm : TreeArcs g m) :
    countedArcs g m.arc 0 = [0] := by
  have hmem : ∀ a, a ∈ countedArcs g m.arc 0 ↔ a = 0 := by
    intro a
    rw [mem_countedArcs]
    constructor
    · rintro ⟨⟨hlt, hsource⟩, hoff⟩
      by_contra hne
      have hon : m.arc a = true := hm.fakes a hlt (hf.fake_of_source_zero hlt hne hsource)
      rw [hoff] at hon
      cases hon
    · rintro rfl
      rw [hf.length, Graph.source, hf.arc_zero]
      exact ⟨⟨by omega, rfl⟩, Bool.eq_false_iff.2 hm.entry⟩
  have hnodup : (countedArcs g m.arc 0).Nodup := (nodup_succ 0).filter _
  refine List.perm_singleton.1 ((List.perm_ext_iff_of_nodup hnodup (List.nodup_singleton 0)).2 fun a => ?_)
  rw [hmem, List.mem_singleton]

/-- The counters are numbered in the order in which the counts are read. -/
theorem instrumentArcs_eq (hf : Flow g front) {m : Marks} (hm : TreeArcs g m) (total : Nat) :
    instrumentArcs g m.arc total =
      (((readOrder g m.arc).map (counterPlace g)).zipIdx total).map Prod.swap := by
  have hentry : counterPlace g 0 = .functionStart := by
    rw [counterPlace, Graph.source, hf.arc_zero, if_pos rfl]
  have hblock : ∀ b ∈ List.range' 1 (g.numBlocks - 1),
      (countedArcs g m.arc b).map (arcPlace g b) = (countedArcs g m.arc b).map (counterPlace g) := by
    intro b hb
    refine List.map_congr_left fun a ha => ?_
    have hsource := (mem_countedArcs.1 ha).1.2
    have hpos := (List.mem_range'_1.1 hb).1
    rw [counterPlace, hsource, if_neg (by omega)]
  have hrange : List.range g.numBlocks = 0 :: List.range' 1 (g.numBlocks - 1) := by
    have hblocks := hf.blocks
    obtain ⟨n, hn⟩ := Nat.exists_eq_add_of_le' (Nat.le_trans (by decide : 1 ≤ 3) hblocks)
    rw [hn, List.range_eq_range', List.range'_succ]
    rfl
  rw [instrumentArcs, outputProfilers_eq, readOrder, hrange, List.flatMap_cons, countedArcs_zero hf hm,
    List.map_append, List.map_flatMap, List.map_singleton, hentry, List.flatMap_congr hblock]
  rfl

end Numbering

section Counts

/-- A count that an `int` holds. -/
def FitsInt (n : Int) : Prop := -2 ^ 31 ≤ n ∧ n < 2 ^ 31

theorem toInt_ofInt_eq_iff (n : Int) : (BitVec.ofInt 32 n).toInt = n ↔ FitsInt n := by
  rw [BitVec.toInt_ofInt, FitsInt]
  constructor
  · intro h
    have hlow := Int.le_bmod (x := n) (m := 2 ^ 32) (by decide)
    have hhigh := Int.bmod_lt (x := n) (m := 2 ^ 32) (by decide)
    rw [h] at hlow hhigh
    exact ⟨by omega, by omega⟩
  · rintro ⟨hlow, hhigh⟩
    exact Int.bmod_eq_of_le (by omega) (by omega)

/-- Every count of an arc and of a block is found. -/
def Found (g : Graph) (c : Nat → Int) (s : Counts) : Prop :=
  (∀ a, a < g.arcs.length → (s.arcCount a).toInt = c a) ∧
    ∀ b, b < g.numBlocks → (s.execCount b).toInt = flow g c b

/-- Every count of an arc and of a block fits. -/
def CountsFit (g : Graph) (c : Nat → Int) : Prop :=
  (∀ a, a < g.arcs.length → FitsInt (c a)) ∧ ∀ b, b < g.numBlocks → FitsInt (flow g c b)

theorem found_iff {g : Graph} {c : Nat → Int} {s : Counts}
    (harc : ∀ a, a < g.arcs.length → s.arcCount a = BitVec.ofInt 32 (c a))
    (hblock : ∀ b, b < g.numBlocks → s.execCount b = BitVec.ofInt 32 (flow g c b)) :
    Found g c s ↔ CountsFit g c := by
  refine and_congr (forall₂_congr fun a ha => ?_) (forall₂_congr fun b hb => ?_)
  · rw [harc a ha, toInt_ofInt_eq_iff]
  · rw [hblock b hb, toInt_ofInt_eq_iff]

end Counts

theorem tree_solves {insns : List Insn} (hlabels : LabelsPresent insns) {g : Graph}
    (hgraph : buildGraph insns = some g) (hmark : (markFakeArcs g).isSome) {fuel : Nat}
    (hfuel : g.arcs.length + g.numBlocks < fuel) :
    ∃ front t, Flow g front ∧ findSpanningTree g fuel = some t ∧ TreeArcs g t ∧
      Acyclic g.source g.target fun a => a < g.arcs.length ∧ t.arc a = true := by
  obtain ⟨front, hf⟩ := buildGraph_flow hlabels hgraph
  obtain ⟨m, hm⟩ := Option.isSome_iff_exists.1 hmark
  obtain ⟨t, hrun, ht⟩ := findSpanningTree_spec hf hm (Nat.lt_of_le_of_lt (Nat.le_add_left _ _) hfuel)
  exact ⟨front, t, hf, hrun, ht, ht.acyclic.mono fun a ha => ha.2⟩

/-- The solver always ends without an abort, and it has found every count exactly if every count fits an `int`; the
tree and the numbers of the counters are right for any counts. -/
theorem profile_reconstructs_iff {insns : List Insn} (hlabels : LabelsPresent insns) {g : Graph}
    (hgraph : buildGraph insns = some g) (hmark : (markFakeArcs g).isSome) {fuel : Nat}
    (hfuel : g.arcs.length + g.numBlocks < fuel) :
    ∃ t, findSpanningTree g fuel = some t ∧
      Acyclic g.source g.target (fun a => a < g.arcs.length ∧ t.arc a = true) ∧
      (∀ a, a < g.arcs.length → (g.arc a).fake = true → t.arc a = true) ∧
      (g.arc 0 = ⟨0, 1, false, true⟩ ∧ t.arc 0 = false) ∧
      (∀ c, Conserves g c → ∃ s, solveCounts g fuel t.arc ((readOrder g t.arc).map c) = some s ∧
        (Found g c s ↔ CountsFit g c)) ∧
      ∀ total, instrumentArcs g t.arc total =
        (((readOrder g t.arc).map (counterPlace g)).zipIdx total).map Prod.swap := by
  obtain ⟨front, t, hf, hrun, ht, hac⟩ := tree_solves hlabels hgraph hmark hfuel
  refine ⟨t, hrun, hac, ht.fakes, ⟨hf.arc_zero, Bool.eq_false_iff.2 ht.entry⟩, fun c hc => ?_, instrumentArcs_eq hf ht⟩
  obtain ⟨s, hsolve, harc, hblock⟩ := solveCounts_spec hf hc hac hfuel
  exact ⟨s, hsolve, found_iff harc hblock⟩

def sampleInsns : List Insn :=
  [.ordinary, .codeLabel 2, .call, .ordinary, .jump (.ifThenElse 5), .jump (.ifThenElse 2),
    .codeLabel 5, .ordinary]

def sampleGraph : Graph :=
  ⟨7, [⟨0, 1, false, true⟩, ⟨6, 0, true, false⟩, ⟨1, 2, false, true⟩, ⟨2, 6, true, false⟩,
    ⟨2, 3, false, true⟩, ⟨3, 5, false, false⟩, ⟨3, 4, false, true⟩, ⟨4, 2, false, false⟩,
    ⟨4, 5, false, true⟩, ⟨5, 6, true, false⟩]⟩

def sampleCount (rounds : Int) (a : Nat) : Int := [1, 1, 1, 0, rounds, 0, rounds, rounds - 1, 1, 1].getD a 0

theorem sample_labels : LabelsPresent sampleInsns := by
  intro pattern hjump label hlabel
  simp only [sampleInsns, List.mem_cons, Insn.jump.injEq, reduceCtorEq, List.not_mem_nil, or_false,
    false_or] at hjump
  rcases hjump with rfl | rfl <;> rw [Pattern.labels, List.mem_singleton] at hlabel <;> subst hlabel <;>
    simp [sampleInsns]

theorem profile_reconstructs_sample :
    ∃ t s, findSpanningTree sampleGraph 18 = some t ∧
      solveCounts sampleGraph 18 t.arc ((readOrder sampleGraph t.arc).map (sampleCount 3)) = some s ∧
        Found sampleGraph (sampleCount 3) s := by
  have hconserves : Conserves sampleGraph (sampleCount 3) := by
    unfold Conserves
    decide
  have hfit : CountsFit sampleGraph (sampleCount 3) := by
    unfold CountsFit FitsInt
    decide
  obtain ⟨t, hrun, -, -, -, hsolve, -⟩ :=
    @profile_reconstructs_iff sampleInsns sample_labels sampleGraph rfl (by decide) 18 (by decide)
  obtain ⟨s, hsolved, hfound⟩ := hsolve (sampleCount 3) hconserves
  exact ⟨t, s, hrun, hsolved, hfound.2 hfit⟩

/-- After 2147483648 rounds the counts of the loop are negative. -/
theorem profile_overflows : buildGraph sampleInsns = some sampleGraph ∧
    Conserves sampleGraph (sampleCount (2 ^ 31)) ∧ ∃ t s, findSpanningTree sampleGraph 18 = some t ∧
      solveCounts sampleGraph 18 t.arc ((readOrder sampleGraph t.arc).map (sampleCount (2 ^ 31))) = some s ∧
        ¬Found sampleGraph (sampleCount (2 ^ 31)) s := by
  have hconserves : Conserves sampleGraph (sampleCount (2 ^ 31)) := by
    unfold Conserves
    decide
  obtain ⟨front, t, hf, hrun, -, hac⟩ :=
    @tree_solves sampleInsns sample_labels sampleGraph rfl (by decide) 18 (by decide)
  obtain ⟨s, hsolve, harc, hblock⟩ := solveCounts_spec hf hconserves hac (by decide : 17 < 18)
  refine ⟨rfl, hconserves, t, s, hrun, hsolve, fun hfound => ?_⟩
  have hfit := ((found_iff harc hblock).1 hfound).1 4 (by decide)
  exact absurd hfit.2 (by decide)

end Z80Gcc.Profile
