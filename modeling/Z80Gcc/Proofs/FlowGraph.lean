import Z80Gcc.Spec.FlowGraph
import Z80Gcc.Proofs.Sbitmap

/-! The lists of flow.c are those of the edges, and the dominators of a block are the blocks on every way to it. -/

namespace Z80Gcc.FlowGraph

open SimpleBitmap RoundRobin

variable {m w : Nat}

section Lists

theorem mem_sPreds_add {l : Lists m} {pred succ r : BlockRef (m + 1)} {b : Fin (m + 1)} :
    r ∈ (addPredSucc pred l succ).sPreds b ↔ r ∈ l.sPreds b ∨ succ = .block b ∧ r = pred := by
  cases succ with
  | entryBlock => cases pred <;> simp [addPredSucc]
  | exitBlock => cases pred <;> simp [addPredSucc]
  | block bb =>
    have hpreds : (addPredSucc pred l (.block bb)).sPreds = Function.update l.sPreds bb (pred :: l.sPreds bb) := by
      cases pred <;> rfl
    rw [hpreds]
    by_cases hb : b = bb
    · subst hb
      simp [or_comm]
    · simp [Function.update_of_ne hb, Ne.symm hb]

theorem mem_sSuccs_add {l : Lists m} {pred succ r : BlockRef (m + 1)} {b : Fin (m + 1)} :
    r ∈ (addPredSucc pred l succ).sSuccs b ↔ r ∈ l.sSuccs b ∨ pred = .block b ∧ r = succ := by
  cases pred with
  | entryBlock => cases succ <;> simp [addPredSucc]
  | exitBlock => cases succ <;> simp [addPredSucc]
  | block bb =>
    have hsuccs : (addPredSucc (.block bb) l succ).sSuccs = Function.update l.sSuccs bb (succ :: l.sSuccs bb) := by
      cases succ <;> rfl
    rw [hsuccs]
    by_cases hb : b = bb
    · subst hb
      simp [or_comm]
    · simp [Function.update_of_ne hb, Ne.symm hb]

theorem mem_foldl_add {l : Lists m} {pred r : BlockRef (m + 1)} {b : Fin (m + 1)} (ds : List (BlockRef (m + 1))) :
    (r ∈ (ds.foldl (addPredSucc pred) l).sPreds b ↔ r ∈ l.sPreds b ∨ .block b ∈ ds ∧ r = pred) ∧
      (r ∈ (ds.foldl (addPredSucc pred) l).sSuccs b ↔ r ∈ l.sSuccs b ∨ pred = .block b ∧ r ∈ ds) := by
  induction ds generalizing l with
  | nil => simp
  | cons d ds ih =>
    obtain ⟨hpreds, hsuccs⟩ := @ih (addPredSucc pred l d)
    rw [List.foldl_cons, hpreds, hsuccs, mem_sPreds_add, mem_sSuccs_add, List.mem_cons, List.mem_cons,
      @eq_comm _ (BlockRef.block b) d]
    exact ⟨by rw [or_assoc, ← or_and_right], by rw [or_assoc, ← and_or_left]⟩

variable (succ : Fin (m + 1) → List (BlockRef (m + 1)))

def Edge (p q : Fin (m + 1)) : Prop := BlockRef.block q ∈ succ p

theorem mem_foldl_blocks {l : Lists m} {r : BlockRef (m + 1)} {b : Fin (m + 1)} (bbs : List (Fin (m + 1))) :
    (r ∈ (bbs.foldl (fun l i => (succ i).foldl (addPredSucc (.block i)) l) l).sPreds b ↔
      r ∈ l.sPreds b ∨ ∃ i ∈ bbs, Edge succ i b ∧ r = .block i) ∧
    (r ∈ (bbs.foldl (fun l i => (succ i).foldl (addPredSucc (.block i)) l) l).sSuccs b ↔
      r ∈ l.sSuccs b ∨ b ∈ bbs ∧ r ∈ succ b) := by
  induction bbs generalizing l with
  | nil => simp
  | cons i bbs ih =>
    obtain ⟨hpreds, hsuccs⟩ := @ih ((succ i).foldl (addPredSucc (.block i)) l)
    obtain ⟨hp, hs⟩ := @mem_foldl_add m l (.block i) r b (succ i)
    rw [List.foldl_cons, hpreds, hsuccs, hp, hs, List.exists_mem_cons_iff, List.mem_cons, BlockRef.block.injEq]
    refine ⟨by rw [or_assoc]; rfl, ?_⟩
    by_cases hib : i = b
    · subst hib
      rw [or_assoc, ← or_and_right]
    · have hbi : b ≠ i := Ne.symm hib
      simp only [hib, hbi, false_and, false_or, or_false]

theorem mem_sPreds {r : BlockRef (m + 1)} {b : Fin (m + 1)} :
    r ∈ (computePredsSuccs succ entryEdges).sPreds b ↔
      (∃ i, Edge succ i b ∧ r = .block i) ∨ b = 0 ∧ r = .entryBlock := by
  rw [computePredsSuccs, (mem_foldl_add entryEdges).1, (mem_foldl_blocks succ _).1, entryEdges, List.mem_singleton,
    BlockRef.block.injEq]
  simp

theorem mem_sSuccs {r : BlockRef (m + 1)} {b : Fin (m + 1)} :
    r ∈ (computePredsSuccs succ entryEdges).sSuccs b ↔ r ∈ succ b := by
  rw [computePredsSuccs, (mem_foldl_add entryEdges).2, (mem_foldl_blocks succ _).2]
  simp

theorem block_mem_sPreds {p q : Fin (m + 1)} :
    BlockRef.block p ∈ (computePredsSuccs succ entryEdges).sPreds q ↔ Edge succ p q := by
  simp [mem_sPreds]

/-- A way of `k` edges. -/
structure Walk (path : Nat → Fin (m + 1)) (k : Nat) (a b : Fin (m + 1)) : Prop where
  first : path 0 = a
  last : path k = b
  edge : ∀ i < k, Edge succ (path i) (path (i + 1))

variable {succ} in
theorem Walk.init {path : Nat → Fin (m + 1)} {k : Nat} {a b : Fin (m + 1)} (h : Walk succ path (k + 1) a b) :
    Walk succ path k a (path k) ∧ Edge succ (path k) b :=
  ⟨⟨h.first, rfl, fun i hi => h.edge i (Nat.lt_succ_of_lt hi)⟩, h.last ▸ h.edge k (Nat.lt_succ_self k)⟩

variable {succ} in
theorem Walk.tail {path : Nat → Fin (m + 1)} {k : Nat} {a b : Fin (m + 1)} (h : Walk succ path (k + 1) a b) :
    Walk succ (fun i => path (i + 1)) k (path 1) b ∧ Edge succ a (path 1) :=
  ⟨⟨rfl, h.last, fun i hi => h.edge (i + 1) (Nat.succ_lt_succ hi)⟩, h.first ▸ h.edge 0 (Nat.succ_pos k)⟩

/-- A block is on every way from block 0 to another. -/
def Dominates (d b : Fin (m + 1)) : Prop :=
  ∀ path k, Walk succ path k firstBlock b → ∃ i ≤ k, path i = d

/-- What dominates a block, and is not that block, dominates the blocks before it. -/
theorem Dominates.of_edge {d p b : Fin (m + 1)} (h : Dominates succ d b) (hedge : Edge succ p b) (hne : d ≠ b) :
    Dominates succ d p := by
  intro path k hwalk
  have hext : Walk succ (Function.update path (k + 1) b) (k + 1) 0 b := by
    refine ⟨?_, Function.update_self .., fun i hi => ?_⟩
    · rw [Function.update_of_ne (Nat.succ_ne_zero k).symm, hwalk.first]
    · rw [Function.update_of_ne hi.ne]
      by_cases hik : i = k
      · subst hik
        rw [Function.update_self, hwalk.last]
        exact hedge
      · rw [Function.update_of_ne (fun heq => hik (Nat.succ.inj heq))]
        exact hwalk.edge i (by omega)
  obtain ⟨i, hi, hpath⟩ := h _ _ hext
  by_cases hik : i = k + 1
  · rw [hik, Function.update_self] at hpath
    exact absurd hpath.symm hne
  · rw [Function.update_of_ne hik] at hpath
    exact ⟨i, by omega, hpath⟩

end Lists

section Dominators

variable [NeZero w] {succ : Fin (m + 1) → List (BlockRef (m + 1))}

theorem inSize_block (b : Fin (m + 1)) : InSize w (m + 1) b := inSize_of_lt b.isLt

/-- Block 0 is its own only dominator, and no dominator has been lost. -/
structure Kept (succ : Fin (m + 1) → List (BlockRef (m + 1))) (dominators : Fin (m + 1) → Sbitmap w (m + 1)) : Prop where
  zero : dominators 0 = setBit sbitmapZero 0
  kept : ∀ d b, Dominates succ d b → testBit (dominators b) d = true

theorem Kept.intersect {dominators : Fin (m + 1) → Sbitmap w (m + 1)} (h : Kept succ dominators) {d b : Fin (m + 1)} (hb : b ≠ 0)
    (hdom : Dominates succ d b) (temp : Sbitmap w (m + 1)) :
    testBit (setBit (sbitmapIntersectOfPredsucc temp dominators
      ((computePredsSuccs succ entryEdges).sPreds b)) b) d = true := by
  rw [testBit_setBit (inSize_block d), Bool.or_eq_true, decide_eq_true_iff]
  by_cases hdb : d = b
  · exact .inl (congrArg Fin.val hdb)
  · refine .inr ?_
    by_cases hps : HasBlock ((computePredsSuccs succ entryEdges).sPreds b)
    · rw [testBit_intersect hps]
      intro p hp
      exact h.kept d p (hdom.of_edge succ ((block_mem_sPreds succ).1 hp) hdb)
    · have hnil : (computePredsSuccs succ entryEdges).sPreds b = [] := by
        refine List.eq_nil_iff_forall_not_mem.2 fun r hr => ?_
        rcases (mem_sPreds succ).1 hr with ⟨i, -, rfl⟩ | ⟨hzero, -⟩
        · exact hps ⟨i, hr⟩
        · exact hb hzero
      rw [sbitmapIntersectOfPredsucc, ofPredsucc, hnil, List.isEmpty_nil, if_pos rfl]
      exact testBit_ones (inSize_block d)

def Meets (succ : Fin (m + 1) → List (BlockRef (m + 1))) (dominators : Fin (m + 1) → Sbitmap w (m + 1))
    (b : Fin (m + 1)) : Prop :=
  ∀ p d, Edge succ p b → d ≠ b → testBit (dominators b) d.val = true → testBit (dominators p) d.val = true

/-- Between two blocks of a pass that began with `start`. -/
structure Passing (succ : Fin (m + 1) → List (BlockRef (m + 1))) (start : Dominators m w) (done : List (Fin (m + 1)))
    (s : Dominators m w × Bool) : Prop where
  kept : Kept succ s.1.dominators
  dom_le : ∀ b, Subset (s.1.dominators b) (start.dominators b)
  pdom_le : ∀ b, Subset (s.1.postDominators b) (start.postDominators b)
  changed : s.2 = true → s.1.dominators ≠ start.dominators ∨ s.1.postDominators ≠ start.postDominators
  same : s.2 = false → s.1.dominators = start.dominators ∧ ∀ b ∈ done, Meets succ start.dominators b

/-- A vector one of whose bitmaps loses bits is below where it was, and another if it changes. -/
theorem update_subset {v start : Fin (m + 1) → Sbitmap w (m + 1)} (hle : ∀ b, Subset (v b) (start b))
    {bb : Fin (m + 1)} {x : Sbitmap w (m + 1)} (hx : Subset x (v bb)) :
    (∀ b, Subset (Function.update v bb x b) (start b)) ∧
      (x ≠ v bb ∨ v ≠ start → Function.update v bb x ≠ start) := by
  have hupdate : ∀ b, Subset (Function.update v bb x b) (v b) := by
    intro b
    by_cases hb : b = bb
    · subst hb
      rwa [Function.update_self]
    · rw [Function.update_of_ne hb]
      exact subset_refl _
  refine ⟨fun b => subset_trans (hupdate b) (hle b), fun hne heq => ?_⟩
  have hback : v = start := funext fun b => subset_antisymm (hle b) (heq ▸ hupdate b)
  rcases hne with hne | hne
  · refine hne ?_
    rw [hback, ← heq, Function.update_self]
  · exact hne hback

theorem visit_passing {start : Dominators m w} {done : List (Fin (m + 1))} {s : Dominators m w × Bool}
    (h : Passing succ start done s) {bb : Fin (m + 1)} (hbb : bb ≠ 0) :
    Passing succ start (done ++ [bb]) (visitDominators (computePredsSuccs succ entryEdges) s bb) := by
  obtain ⟨s, changed⟩ := s
  obtain ⟨hkept, hdom, hpdom, hchanged, hsame⟩ := h
  simp only at hkept hdom hpdom hchanged hsame
  rw [visitDominators]
  generalize htemp : setBit (sbitmapIntersectOfPredsucc (s.tempBitmap bb) s.dominators
    ((computePredsSuccs succ entryEdges).sPreds bb)) bb = temp
  generalize setBit (sbitmapIntersectOfPredsucc temp s.postDominators
    ((computePredsSuccs succ entryEdges).sSuccs bb)) bb = temp'
  obtain ⟨hdom', hdomne⟩ := @update_subset m w _ _ _ hdom bb _ (@subset_and_left w (m + 1) _ _ temp)
  obtain ⟨hpdom', hpdomne⟩ := @update_subset m w _ _ _ hpdom bb _ (@subset_and_left w (m + 1) _ _ temp')
  have hkept' : Kept succ (Function.update s.dominators bb (sbitmapAAndB (s.dominators bb) temp)) := by
    refine ⟨?_, fun d b hd => ?_⟩
    · rw [Function.update_of_ne (Ne.symm hbb)]
      exact hkept.zero
    · by_cases hb : b = bb
      · subst hb
        rw [Function.update_self, testBit_and, hkept.kept d b hd, ← htemp, hkept.intersect hbb hd, Bool.and_self]
      · rw [Function.update_of_ne hb]
        exact hkept.kept d b hd
  refine ⟨hkept', hdom', hpdom', fun hc => ?_, fun hc => ?_⟩
  · rw [Bool.or_eq_true, Bool.or_eq_true, bne_iff_ne, bne_iff_ne] at hc
    rcases hc with (hc | hc) | hc
    · exact (hchanged hc).imp (fun h => hdomne (.inr h)) fun h => hpdomne (.inr h)
    · exact .inl (hdomne (.inl hc))
    · exact .inr (hpdomne (.inl hc))
  · rw [Bool.or_eq_false_iff, Bool.or_eq_false_iff, bne_eq_false_iff_eq] at hc
    obtain ⟨⟨hc, heq⟩, -⟩ := hc
    obtain ⟨hback, hmeets⟩ := hsame hc
    refine ⟨?_, fun b hb => ?_⟩
    · rw [heq, Function.update_eq_self, hback]
    rcases List.mem_append.1 hb with hb | hb
    · exact hmeets b hb
    · obtain rfl := List.mem_singleton.1 hb
      intro p d hedge hne htest
      rw [← hback] at htest ⊢
      have hbit := subset_of_and_eq heq _ htest
      rw [← htemp, testBit_setBit (inSize_block d), decide_eq_false (fun h => hne (Fin.ext h)), Bool.false_or,
        testBit_intersect ⟨p, (block_mem_sPreds succ).2 hedge⟩] at hbit
      exact hbit p ((block_mem_sPreds succ).2 hedge)

theorem foldl_passing {start : Dominators m w} (bbs : List (Fin (m + 1))) (hbbs : ∀ bb ∈ bbs, bb ≠ 0)
    {done : List (Fin (m + 1))} {s : Dominators m w × Bool} (h : Passing succ start done s) :
    Passing succ start (done ++ bbs) (bbs.foldl (visitDominators (computePredsSuccs succ entryEdges)) s) := by
  induction bbs generalizing s done with
  | nil => rwa [List.append_nil]
  | cons bb bbs ih =>
    rw [List.append_cons, List.foldl_cons]
    exact ih (fun b hb => hbbs b (List.mem_cons_of_mem _ hb)) (visit_passing h (hbbs bb List.mem_cons_self))

theorem mem_finRange_tail {bb : Fin (m + 1)} : bb ∈ (List.finRange (m + 1)).tail ↔ bb ≠ 0 := by
  rw [List.finRange_succ, List.tail_cons, List.mem_map]
  constructor
  · rintro ⟨i, -, rfl⟩
    exact Fin.succ_ne_zero i
  · intro hbb
    obtain ⟨i, rfl⟩ := Fin.exists_succ_eq.2 hbb
    exact ⟨i, List.mem_finRange i, rfl⟩

theorem pass_passing {s : Dominators m w} (h : Kept succ s.dominators) :
    Passing succ s (List.finRange (m + 1)).tail (passDominators (computePredsSuccs succ entryEdges) s) :=
  @foldl_passing m w _ succ s _ (fun _ hbb => mem_finRange_tail.1 hbb) [] _
    ⟨h, fun _ => subset_refl _, fun _ => subset_refl _, fun hc => absurd hc Bool.false_ne_true,
      fun _ => ⟨rfl, fun _ hb => absurd hb List.not_mem_nil⟩⟩

/-- Blocks whose equations hold have only their dominators. -/
theorem dominates_of_meets {dominators : Fin (m + 1) → Sbitmap w (m + 1)}
    (hzero : dominators 0 = setBit sbitmapZero 0) (hmeets : ∀ b, b ≠ 0 → Meets succ dominators b)
    {d b : Fin (m + 1)} (h : testBit (dominators b) d = true) :
    Dominates succ d b := by
  intro path k hwalk
  induction k generalizing b with
  | zero =>
    have hb : b = 0 := hwalk.last.symm.trans hwalk.first
    rw [hb, hzero, testBit_setBit (inSize_block d), testBit_zero, Bool.or_false, decide_eq_true_iff] at h
    exact ⟨0, le_rfl, hwalk.first.trans (Fin.ext h.symm)⟩
  | succ k ih =>
    by_cases hb : b = 0
    · rw [hb, hzero, testBit_setBit (inSize_block d), testBit_zero, Bool.or_false, decide_eq_true_iff] at h
      exact ⟨0, Nat.zero_le _, hwalk.first.trans (Fin.ext h.symm)⟩
    · by_cases hdb : d = b
      · exact ⟨k + 1, le_rfl, hwalk.last.trans hdb.symm⟩
      · have hedge : Edge succ (path k) b := hwalk.last ▸ hwalk.edge k (Nat.lt_succ_self k)
        obtain ⟨i, hi, hpath⟩ := ih (hmeets b hb (path k) d hedge hdb h)
          ⟨hwalk.first, rfl, fun i hi => hwalk.edge i (Nat.lt_succ_of_lt hi)⟩
        exact ⟨i, Nat.le_succ_of_le hi, hpath⟩

omit [NeZero w] in
theorem start_dominators : (startDominators : Dominators m w).dominators =
    Function.update (fun _ => sbitmapOnes) 0 (setBit sbitmapZero 0) := rfl

theorem start_kept : Kept succ (startDominators : Dominators m w).dominators := by
  rw [start_dominators]
  refine ⟨Function.update_self .., fun d b hd => ?_⟩
  by_cases hb : b = 0
  · subst hb
    obtain ⟨i, -, hi⟩ := hd (fun _ => 0) 0 ⟨rfl, rfl, fun i hi => absurd hi (Nat.not_lt_zero i)⟩
    rw [Function.update_self, testBit_setBit (inSize_block d), ← hi]
    rfl
  · rw [Function.update_of_ne hb]
    exact testBit_ones (inSize_block d)

/-- A pass that changes something takes dominators away, or post-dominators. -/
theorem pass_down {s : Dominators m w} (h : Kept succ s.dominators)
    (hchanged : (passDominators (computePredsSuccs succ entryEdges) s).2 = true) :
    InvImage (Prod.Lex (fun v v' => (∀ b, SimpleBitmap.Subset (v b) (v' b)) ∧ v ≠ v')
        fun v v' => (∀ b, SimpleBitmap.Subset (v b) (v' b)) ∧ v ≠ v')
      (fun s : Dominators m w => (s.dominators, s.postDominators))
      (passDominators (computePredsSuccs succ entryEdges) s).1 s := by
  have hpass := pass_passing h
  by_cases hdom : (passDominators (computePredsSuccs succ entryEdges) s).1.dominators = s.dominators
  · have hpdom := (hpass.changed hchanged).resolve_left fun hne => hne hdom
    rw [InvImage, hdom]
    exact .right _ ⟨hpass.pdom_le, hpdom⟩
  · exact .left _ _ ⟨hpass.dom_le, hdom⟩

/-- For every flow graph the computation ends, and the dominators that it finds for a block are exactly the blocks
on every way from block 0 to it. -/
theorem compute_dominators_exact (succ : Fin (m + 1) → List (BlockRef (m + 1))) :
    ∃ N s, (∀ fuel ≥ N, computeDominators fuel (computePredsSuccs succ entryEdges) = some (s : Dominators m w)) ∧
      ∀ b d : Fin (m + 1), testBit (s.dominators b) d = true ↔ Dominates succ d b := by
  have hwf : WellFounded _ := InvImage.wf (fun s : Dominators m w => (s.dominators, s.postDominators))
    (wf_subset.prod_lex wf_subset)
  obtain ⟨N, last, hlast, hdone, hloop⟩ := whileChanged_ends
    (passDominators (computePredsSuccs succ entryEdges)) hwf (fun s => Kept succ s.dominators)
    (fun s hs => ⟨(pass_passing hs).kept, pass_down hs⟩) (s := startDominators) start_kept
  have hpass := pass_passing hlast
  obtain ⟨hsame, hmeets⟩ := hpass.same hdone
  refine ⟨N, _, hloop, fun b d => ⟨fun h => ?_, hpass.kept.kept d b⟩⟩
  rw [hsame] at h
  exact dominates_of_meets hlast.zero (fun b hb => hmeets b (mem_finRange_tail.2 hb)) h

def diamond (bb : Fin 4) : List (BlockRef 4) :=
  if bb = 0 then [.block 1, .block 2] else if bb = 3 then [.block 1, .exitBlock] else [.block 3]

theorem compute_dominators_exact_diamond :
    ∃ N s, (∀ fuel ≥ N, computeDominators fuel (computePredsSuccs diamond entryEdges) = some (s : Dominators 3 32)) ∧
      ∀ b d : Fin 4, testBit (s.dominators b) d = true ↔ Dominates diamond d b :=
  compute_dominators_exact diamond

end Dominators

end Z80Gcc.FlowGraph
