import Z80Gcc.Proofs.BlockSweep

/-! How far the expressions are delayed, and the latest places. -/

namespace Z80Gcc.Lcm

open SimpleBitmap RoundRobin FlowGraph

variable {m w nExprs : Nat}

section Delay

variable (sPreds : Fin (m + 1) → List (BlockRef (m + 1))) (antloc ae : Vec m w nExprs)

/-- The equation of `delayin`, from `delayout`. -/
def delayIn (delayout : Vec m w nExprs) (bb : Fin (m + 1)) : Sbitmap w nExprs :=
  if bb = firstBlock then ae firstBlock
  else sbitmapAOrB (ae bb) (sbitmapIntersectOfPredsucc sbitmapZero delayout (sPreds bb))

def delayOut (delayout : Vec m w nExprs) (bb : Fin (m + 1)) : Sbitmap w nExprs :=
  sbitmapAAndB (sbitmapNot (antloc bb)) (delayIn sPreds ae delayout bb)

/-- In the lists of predecessors only that of block 0 has something that is not a block. -/
def OnlyEntry : Prop := ∀ bb, bb ≠ firstBlock → sPreds bb = [] ∨ HasBlock (sPreds bb)

variable {sPreds antloc ae}

theorem visitDelay_eq (hps : OnlyEntry sPreds) {s : Delay m w nExprs} (hzero : s.delayin 0 = ae 0) (changed : Bool)
    (bb : Fin (m + 1)) :
    visitDelay sPreds antloc ae (s, changed) bb =
      ({ delayin := Function.update s.delayin bb (delayIn sPreds ae s.delayout bb)
         delayout := Function.update s.delayout bb (delayOut sPreds antloc ae s.delayout bb)
         tempBitmap := sbitmapNot (antloc bb) },
        changed || delayIn sPreds ae s.delayout bb != s.delayin bb ||
          delayOut sPreds antloc ae s.delayout bb != s.delayout bb) := by
  by_cases hbb : bb = 0
  · subst hbb
    have hin : delayIn sPreds ae s.delayout 0 = s.delayin 0 := (if_pos rfl).trans hzero.symm
    rw [visitDelay, if_pos rfl, delayOut, hin, bne_self_eq_false, Bool.or_false, Function.update_eq_self]
  · have hin : delayIn sPreds ae s.delayout bb =
        sbitmapAOrB (ae bb) (sbitmapIntersectOfPredsucc s.tempBitmap s.delayout (sPreds bb)) := by
      rw [delayIn, if_neg hbb]
      exact congrArg _ (ofPredsucc_dst _ (hps bb hbb))
    rw [visitDelay, if_neg hbb, delayOut, hin]
    simp only [Function.update_self]

variable [NeZero w]

theorem delayIn_subset {o o' : Vec m w nExprs} (h : ∀ b, Subset (o b) (o' b)) (b : Fin (m + 1)) :
    Subset (delayIn sPreds ae o b) (delayIn sPreds ae o' b) := by
  rw [delayIn, delayIn]
  split_ifs
  · exact subset_refl _
  · exact or_subset (subset_refl _) (ofPredsucc_mono subset_refl (fun _ _ _ _ => and_subset) h)

theorem delayOut_subset {o o' : Vec m w nExprs} (h : ∀ b, Subset (o b) (o' b)) (b : Fin (m + 1)) :
    Subset (delayOut sPreds antloc ae o b) (delayOut sPreds antloc ae o' b) :=
  and_subset (subset_refl _) (delayIn_subset h b)

/-- What every visit keeps: `delayout` has not come to its equation from above. -/
structure Delaying (sPreds : Fin (m + 1) → List (BlockRef (m + 1))) (antloc ae : Vec m w nExprs)
    (s : Delay m w nExprs) : Prop where
  zero : s.delayin 0 = ae 0
  le : ∀ b, Subset (s.delayout b) (delayOut sPreds antloc ae s.delayout b)

/-- Between two visits of a pass. As long as `delayout` stays, the blocks visited meet their equations, and what has
changed is a `delayin` that did not meet its own. -/
structure Passing (sPreds : Fin (m + 1) → List (BlockRef (m + 1))) (antloc ae : Vec m w nExprs)
    (start : Delay m w nExprs) (done : List (Fin (m + 1))) (s : Delay m w nExprs × Bool) : Prop where
  delaying : Delaying sPreds antloc ae s.1
  up : ∀ b, Subset (start.delayout b) (s.1.delayout b)
  same : s.1.delayout = start.delayout →
    (∀ b, s.1.delayin b = if b ∈ done then delayIn sPreds ae start.delayout b else start.delayin b) ∧
      (∀ b ∈ done, start.delayout b = delayOut sPreds antloc ae start.delayout b) ∧
        (s.2 = true → start.delayin ≠ delayIn sPreds ae start.delayout)
  unchanged : s.2 = false → s.1.delayout = start.delayout ∧ s.1.delayin = start.delayin

theorem Delaying.visit (hps : OnlyEntry sPreds) {s : Delay m w nExprs} (h : Delaying sPreds antloc ae s)
    (changed : Bool) (bb : Fin (m + 1)) :
    Delaying sPreds antloc ae (visitDelay sPreds antloc ae (s, changed) bb).1 ∧
      ∀ b, Subset (s.delayout b) ((visitDelay sPreds antloc ae (s, changed) bb).1.delayout b) := by
  have hup : ∀ b, Subset (s.delayout b)
      (Function.update s.delayout bb (delayOut sPreds antloc ae s.delayout bb) b) := by
    intro b
    by_cases hb : b = bb
    · subst hb
      rw [Function.update_self]
      exact h.le b
    · rw [Function.update_of_ne hb]
      exact subset_refl _
  rw [visitDelay_eq hps h.zero]
  refine ⟨⟨?_, fun b => ?_⟩, hup⟩
  · by_cases hbb : bb = 0
    · subst hbb
      simp only [Function.update_self]
      exact if_pos rfl
    · exact (Function.update_of_ne (Ne.symm hbb) ..).trans h.zero
  · refine subset_trans ?_ (delayOut_subset hup b)
    by_cases hb : b = bb
    · subst hb
      simp only [Function.update_self]
      exact subset_refl _
    · simp only [Function.update_of_ne hb]
      exact h.le b

theorem visitDelay_passing (hps : OnlyEntry sPreds) {start : Delay m w nExprs} {done : List (Fin (m + 1))}
    {s : Delay m w nExprs × Bool} (h : Passing sPreds antloc ae start done s) (bb : Fin (m + 1)) :
    Passing sPreds antloc ae start (done ++ [bb]) (visitDelay sPreds antloc ae s bb) := by
  obtain ⟨s, changed⟩ := s
  obtain ⟨hdelaying, hup⟩ := h.delaying.visit hps changed bb
  refine ⟨hdelaying, fun b => subset_trans (h.up b) (hup b), fun hsame => ?_, fun hunchanged => ?_⟩
  · -- what has come back to the start has not left it
    have hback : s.delayout = start.delayout :=
      funext fun b => subset_antisymm (hsame ▸ hup b) (h.up b)
    obtain ⟨hin, hout, hstale⟩ := h.same hback
    rw [visitDelay_eq hps h.delaying.zero] at hsame ⊢
    have houtbb : start.delayout bb = delayOut sPreds antloc ae start.delayout bb := by
      have := congrFun hsame bb
      simp only [Function.update_self, hback] at this
      exact this.symm
    refine ⟨fun b => ?_, fun b hb => ?_, fun hc => ?_⟩
    · simp only [hback, List.mem_append, List.mem_singleton]
      by_cases hb : b = bb
      · subst hb
        rw [Function.update_self, if_pos (.inr rfl)]
      · rw [Function.update_of_ne hb, hin b]
        simp only [hb, or_false]
    · rcases List.mem_append.1 hb with hb | hb
      · exact hout b hb
      · rw [List.mem_singleton.1 hb]
        exact houtbb
    · simp only [hback, ← houtbb, bne_self_eq_false, Bool.or_false, Bool.or_eq_true, bne_iff_ne] at hc
      rcases hc with hc | hc
      · exact hstale hc
      · intro heq
        refine hc ?_
        have hbb := hin bb
        simp only at hbb
        rw [hbb, heq, ite_self]
  · rw [visitDelay_eq hps h.delaying.zero] at hunchanged ⊢
    simp only [Bool.or_eq_false_iff, bne_eq_false_iff_eq] at hunchanged ⊢
    obtain ⟨⟨hc, hin⟩, hout⟩ := hunchanged
    rw [hin, hout, Function.update_eq_self, Function.update_eq_self]
    exact h.unchanged hc

theorem foldl_passing (hps : OnlyEntry sPreds) {start : Delay m w nExprs} (bbs : List (Fin (m + 1)))
    {done : List (Fin (m + 1))} {s : Delay m w nExprs × Bool} (h : Passing sPreds antloc ae start done s) :
    Passing sPreds antloc ae start (done ++ bbs) (bbs.foldl (visitDelay sPreds antloc ae) s) := by
  induction bbs generalizing s done with
  | nil => rwa [List.append_nil]
  | cons bb bbs ih =>
    rw [List.append_cons, List.foldl_cons]
    exact ih (visitDelay_passing hps h bb)

theorem passDelay_passing (hps : OnlyEntry sPreds) {s : Delay m w nExprs} (h : Delaying sPreds antloc ae s) :
    Passing sPreds antloc ae s (List.finRange (m + 1)) (passDelay sPreds antloc ae s) :=
  @foldl_passing m w nExprs sPreds antloc ae _ hps s _ [] (s, false)
    ⟨h, fun _ => subset_refl _, fun _ => ⟨fun _ => (if_neg List.not_mem_nil).symm,
      fun _ hb => absurd hb List.not_mem_nil, fun hc => absurd hc Bool.false_ne_true⟩, fun _ => ⟨rfl, rfl⟩⟩

/-- Whether some `delayin` does not meet its equation. -/
def stale (sPreds : Fin (m + 1) → List (BlockRef (m + 1))) (ae : Vec m w nExprs) (s : Delay m w nExprs) : Nat :=
  if s.delayin = delayIn sPreds ae s.delayout then 0 else 1

/-- A pass that changes something adds to `delayout`, or is the last to change something. -/
theorem passDelay_down (hps : OnlyEntry sPreds) {s : Delay m w nExprs} (h : Delaying sPreds antloc ae s)
    (hchanged : (passDelay sPreds antloc ae s).2 = true) :
    InvImage (Prod.Lex (fun v v' : Vec m w nExprs => (∀ b, SimpleBitmap.Subset (v' b) (v b)) ∧ v ≠ v') (· < ·))
      (fun s : Delay m w nExprs => (s.delayout, stale sPreds ae s)) (passDelay sPreds antloc ae s).1 s := by
  have hpass := passDelay_passing hps h
  by_cases hsame : (passDelay sPreds antloc ae s).1.delayout = s.delayout
  · obtain ⟨hin, -, hstale⟩ := hpass.same hsame
    have hmeets : (passDelay sPreds antloc ae s).1.delayin =
        delayIn sPreds ae (passDelay sPreds antloc ae s).1.delayout := by
      funext b
      rw [hin b, if_pos (List.mem_finRange b), hsame]
    have hafter : stale sPreds ae (passDelay sPreds antloc ae s).1 = 0 := if_pos hmeets
    have hbefore : stale sPreds ae s = 1 := if_neg (hstale hchanged)
    rw [InvImage, hsame, hafter, hbefore]
    exact .right _ Nat.zero_lt_one
  · exact .left _ _ ⟨hpass.up, hsame⟩

/-- An expression is delayed where it is anticipated and earliest, and from the ends of all blocks before that do not
compute it. -/
structure Delayed (sPreds : Fin (m + 1) → List (BlockRef (m + 1))) (antloc ae delayin : Vec m w nExprs) : Prop where
  early : ∀ b i, testBit (ae b) i = true → testBit (delayin b) i = true
  zero : ∀ i, testBit (delayin 0) i = true → testBit (ae 0) i = true
  pass : ∀ p b i, BlockRef.block p ∈ sPreds b → testBit (delayin b) i = true →
    testBit (ae b) i = true ∨ testBit (delayin p) i = true ∧ testBit (antloc p) i = false

theorem delayed_of_eq {delayin delayout : Vec m w nExprs} (hin : ∀ b, delayin b = delayIn sPreds ae delayout b)
    (hout : ∀ b, delayout b = delayOut sPreds antloc ae delayout b) : Delayed sPreds antloc ae delayin := by
  have hzero : delayin 0 = ae 0 := (hin 0).trans (if_pos rfl)
  refine ⟨fun b i hi => ?_, fun i hi => hzero ▸ hi, fun p b i hp hi => ?_⟩
  · by_cases hb : b = 0
    · subst hb
      rwa [hzero]
    · rw [hin b, delayIn, if_neg hb, testBit_or, hi, Bool.true_or]
  · by_cases hb : b = 0
    · subst hb
      exact .inl (hzero ▸ hi)
    · rw [hin b, delayIn, if_neg hb, testBit_or, Bool.or_eq_true] at hi
      refine hi.imp_right fun hi => ?_
      have hbit := (testBit_intersect ⟨p, hp⟩).1 hi p hp
      by_cases hsize : InSize w nExprs i
      · rw [hout p, delayOut, ← hin p, testBit_and, testBit_not hsize, Bool.and_eq_true, Bool.not_eq_true'] at hbit
        exact hbit.symm
      · rw [testBit_outside hsize] at hbit
        exact absurd hbit Bool.false_ne_true

theorem computeDelayinout_spec (hps : OnlyEntry sPreds) (antloc antin earlyin junk : Vec m w nExprs)
    (tempBitmap : Sbitmap w nExprs) :
    ∃ N delayin, (∀ fuel ≥ N, computeDelayinout fuel sPreds antloc antin earlyin junk tempBitmap = some delayin) ∧
      Delayed sPreds antloc (fun bb => sbitmapAAndB (antin bb) (earlyin bb)) delayin := by
  generalize hae : (fun bb => sbitmapAAndB (antin bb) (earlyin bb)) = ae
  have hwf := InvImage.wf (fun s : Delay m w nExprs => (s.delayout, stale sPreds ae s))
    (wf_superset.prod_lex Nat.lt_wfRel.wf)
  obtain ⟨N, last, hlast, hdone, hloop⟩ := whileChanged_ends (passDelay sPreds antloc ae) hwf
    (Delaying sPreds antloc ae) (fun s hs => ⟨(passDelay_passing hps hs).delaying, passDelay_down hps hs⟩)
    (s := ⟨Function.update junk 0 (ae 0), fun _ => sbitmapZero, tempBitmap⟩)
    ⟨by simp only [Function.update_self], fun _ => zero_subset⟩
  have hpass := passDelay_passing hps hlast
  obtain ⟨hsame, -⟩ := hpass.unchanged hdone
  obtain ⟨hin, hout, -⟩ := hpass.same hsame
  refine ⟨N, (passDelay sPreds antloc ae last).1.delayin, fun fuel hfuel => ?_,
    delayed_of_eq (fun b => ?_) fun b => hout b (List.mem_finRange b)⟩
  · rw [computeDelayinout, hae]
    exact congrArg (Option.map Delay.delayin) (hloop fuel hfuel)
  · rw [hin b, if_pos (List.mem_finRange b)]

end Delay

section Latein

/-- A place is latest if the expression is delayed to it and is computed there, or is not delayed to some block after;
of the blocks before the last all that it is delayed to are. -/
structure Latest (sSuccs : Fin (m + 1) → List (BlockRef (m + 1))) (antloc delayin : Vec m w nExprs)
    (b : Fin (m + 1)) (latein : Sbitmap w nExprs) : Prop where
  delay : ∀ i, testBit latein i = true → testBit (delayin b) i = true
  loc : ∀ i, testBit (delayin b) i = true → testBit (antloc b) i = true → testBit latein i = true
  inner : b ≠ Fin.last m → ∀ i, testBit (delayin b) i = true → testBit latein i = true
  last : b = Fin.last m → ∀ c i, BlockRef.block c ∈ sSuccs b → testBit (delayin b) i = true →
    testBit (delayin c) i = false → testBit latein i = true

variable [NeZero w] {sSuccs : Fin (m + 1) → List (BlockRef (m + 1))} {antloc delayin : Vec m w nExprs}

omit [NeZero w] in
theorem visitLatein_self (s : Vec m w nExprs × Sbitmap w nExprs) (b : Fin (m + 1)) :
    (visitLatein sSuccs antloc delayin s b).1 b = sbitmapAAndBOrC (delayin b) (antloc b)
      (if b = Fin.last m then sbitmapNot (sbitmapIntersectOfPredsucc s.2 delayin (sSuccs b)) else sbitmapOnes) :=
  Function.update_self b _ _

omit [NeZero w] in
theorem visitLatein_of_ne (s : Vec m w nExprs × Sbitmap w nExprs) {bb b : Fin (m + 1)} (hb : b ≠ bb) :
    (visitLatein sSuccs antloc delayin s bb).1 b = s.1 b :=
  Function.update_of_ne hb _ _

theorem visitLatein_latest (s : Vec m w nExprs × Sbitmap w nExprs) (b : Fin (m + 1)) :
    Latest sSuccs antloc delayin b ((visitLatein sSuccs antloc delayin s b).1 b) := by
  rw [visitLatein_self]
  refine ⟨fun i hi => ?_, fun i hi hloc => ?_, fun hne i hi => ?_, fun hlast c i hc hi hnot => ?_⟩
  · rw [testBit_and_or, Bool.and_eq_true] at hi
    exact hi.1
  · rw [testBit_and_or, hi, hloc]
    rfl
  · rw [testBit_and_or, hi, if_neg hne, testBit_ones (inSize_of_test hi)]
    exact Bool.or_true _
  · have hbit : testBit (sbitmapIntersectOfPredsucc s.2 delayin (sSuccs b)) i = false := by
      rw [Bool.eq_false_iff, ne_eq, testBit_intersect ⟨c, hc⟩]
      intro hall
      rw [hall c hc] at hnot
      exact Bool.noConfusion hnot
    rw [testBit_and_or, hi, if_pos hlast, testBit_not (inSize_of_test hi), hbit]
    exact Bool.or_true _

theorem foldl_visitLatein (bbs : List (Fin (m + 1))) (s : Vec m w nExprs × Sbitmap w nExprs) (b : Fin (m + 1))
    (h : b ∉ bbs → Latest sSuccs antloc delayin b (s.1 b)) :
    Latest sSuccs antloc delayin b ((bbs.foldl (visitLatein sSuccs antloc delayin) s).1 b) := by
  induction bbs generalizing s with
  | nil => exact h List.not_mem_nil
  | cons bb bbs ih =>
    refine ih _ fun hb => ?_
    by_cases hne : b = bb
    · subst hne
      exact visitLatein_latest s b
    · rw [visitLatein_of_ne s hne]
      exact h (List.not_mem_cons_of_ne_of_not_mem hne hb)

theorem computeLatein_spec (junk : Vec m w nExprs) (tempBitmap : Sbitmap w nExprs) (b : Fin (m + 1)) :
    Latest sSuccs antloc delayin b (computeLatein sSuccs antloc delayin junk tempBitmap b) :=
  foldl_visitLatein _ _ b fun hb => absurd (List.mem_finRange b) hb

end Latein

end Z80Gcc.Lcm
