import Z80Gcc.Spec.Lcm
import Z80Gcc.Proofs.Sbitmap

/-! The loops of lcm.c that pass over blocks solve their equations: what is anticipated, what is earliest and what is
isolated, bit by bit. -/

namespace Z80Gcc.Lcm

open SimpleBitmap RoundRobin FlowGraph

variable {m w nExprs : Nat}

section BlockSweep

variable {order : List (Fin (m + 1))} {skip : Bool} {edge : Fin (m + 1)} {ps : Fin (m + 1) → List (BlockRef (m + 1))}
  {op : Sbitmap w nExprs → Sbitmap w nExprs → Sbitmap w nExprs} {unit : Sbitmap w nExprs}
  {transfer : Fin (m + 1) → Sbitmap w nExprs → Sbitmap w nExprs}

def Always (skip : Bool) (ps : Fin (m + 1) → List (BlockRef (m + 1))) (bb : Fin (m + 1)) : Prop :=
  skip = false ∨ ∃ ref ∈ ps bb, ref.isBlock? = none

theorem blockSweep_test {cs : Fin (m + 1) → Bool} {bb : Fin (m + 1)} :
    (blockSweep order skip edge ps (ofPredsucc op unit) transfer).test cs bb = true ↔
      Always skip ps bb ∨ ∃ c, BlockRef.block c ∈ ps bb ∧ cs c = true := by
  rw [blockSweep, Bool.or_eq_true, List.any_eq_true, Bool.not_eq_true', Always, or_assoc]
  refine or_congr_right ⟨?_, ?_⟩
  · rintro ⟨ref, href, hchanged⟩
    cases ref with
    | block c => exact .inr ⟨c, href, hchanged⟩
    | entryBlock => exact .inl ⟨_, href, rfl⟩
    | exitBlock => exact .inl ⟨_, href, rfl⟩
  · rintro (⟨ref, href, hnone⟩ | ⟨c, hc, hchanged⟩)
    · exact ⟨ref, href, by rw [hnone]; rfl⟩
    · exact ⟨_, hc, hchanged⟩

theorem blockSweep_input (v : Vec m w nExprs) (bb : Fin (m + 1)) (a : Sbitmap w nExprs) :
    (blockSweep order skip edge ps (ofPredsucc op unit) transfer).input v bb a =
      if bb = edge then a else ofPredsucc op unit a v (ps bb) := rfl

theorem blockSweep_lawful {le : Sbitmap w nExprs → Sbitmap w nExprs → Prop} (hrefl : ∀ a, le a a)
    (htrans : ∀ a b c, le a b → le b c → le a c) (hantisymm : ∀ a b, le a b → le b a → a = b)
    (hwf : WellFounded fun v v' : Vec m w nExprs => (∀ b, le (v b) (v' b)) ∧ v ≠ v')
    (horder : ∀ bb, bb ∈ order) (hop : ∀ a a' b b', le a a' → le b b' → le (op a b) (op a' b'))
    (htransfer : ∀ bb a a', le a a' → le (transfer bb a) (transfer bb a')) :
    (blockSweep order skip edge ps (ofPredsucc op unit) transfer).Lawful le (Always skip ps)
      fun bb c => BlockRef.block c ∈ ps bb where
  complete := horder
  refl := hrefl
  trans := htrans
  antisymm := hantisymm
  wf := hwf
  test_iff _ _ := blockSweep_test
  input_input v v' bb a := by
    simp only [blockSweep_input]
    split_ifs
    · rfl
    · exact ofPredsucc_ofPredsucc v'
  input_congr v v' bb a h := by
    simp only [blockSweep_input]
    split_ifs
    · rfl
    · exact ofPredsucc_congr h
  mono v v' bb a h := by
    refine htransfer bb _ _ ?_
    simp only [blockSweep_input]
    split_ifs
    · exact hrefl a
    · exact ofPredsucc_mono hrefl hop h

end BlockSweep

variable [NeZero w] {a b c a' b' : Sbitmap w nExprs} {i : Nat}

theorem and_subset (h : Subset a a') (h' : Subset b b') : Subset (sbitmapAAndB a b) (sbitmapAAndB a' b') := by
  intro i hi
  rw [testBit_and, Bool.and_eq_true] at hi ⊢
  exact ⟨h i hi.1, h' i hi.2⟩

theorem or_subset (h : Subset a a') (h' : Subset b b') : Subset (sbitmapAOrB a b) (sbitmapAOrB a' b') := by
  intro i hi
  rw [testBit_or, Bool.or_eq_true] at hi ⊢
  exact hi.imp (h i) (h' i)

theorem or_and_subset (h : Subset c a') : Subset (sbitmapAOrBAndC a b c) (sbitmapAOrBAndC a b a') := by
  intro i hi
  rw [testBit_or_and, Bool.or_eq_true, Bool.and_eq_true] at hi ⊢
  exact hi.imp_right fun hbc => ⟨hbc.1, h i hbc.2⟩

theorem union_of_diff_subset (h : Subset b b') : Subset (sbitmapUnionOfDiff a b c) (sbitmapUnionOfDiff a b' c) := by
  intro i hi
  rw [testBit_union_of_diff, Bool.or_eq_true, Bool.and_eq_true] at hi ⊢
  exact hi.imp_right fun hbc => ⟨h i hbc.1, hbc.2⟩

theorem subset_ones : Subset a sbitmapOnes := by
  intro i hi
  exact testBit_ones (inSize_of_test hi)

theorem zero_subset : Subset sbitmapZero a := by
  intro i hi
  rw [testBit_zero] at hi
  exact absurd hi Bool.false_ne_true

theorem visited_of_mem {skip : Bool} {ps : Fin (m + 1) → List (BlockRef (m + 1))} {bb : Fin (m + 1)}
    {ref : BlockRef (m + 1)} (href : ref ∈ ps bb) : Always skip ps bb ∨ ∃ c, BlockRef.block c ∈ ps bb := by
  cases ref with
  | block c => exact .inr ⟨c, href⟩
  | entryBlock => exact .inl (.inr ⟨_, href, rfl⟩)
  | exitBlock => exact .inl (.inr ⟨_, href, rfl⟩)

section Antic

variable {sSuccs : Fin (m + 1) → List (BlockRef (m + 1))} {antloc transp : Vec m w nExprs}

/-- What is computed at the entry of a block is anticipated there, and what is anticipated is computed in the block or
passes through it to a block after it that anticipates it. -/
structure Antic (sSuccs : Fin (m + 1) → List (BlockRef (m + 1))) (antloc transp antin : Vec m w nExprs) : Prop where
  loc : ∀ b i, testBit (antloc b) i = true → testBit (antin b) i = true
  pass : ∀ b c i, BlockRef.block c ∈ sSuccs b → testBit (antin b) i = true → testBit (antloc b) i = false →
    testBit (transp b) i = true ∧ testBit (antin c) i = true
  last : ∀ i, BlockRef.exitBlock ∈ sSuccs (Fin.last m) → testBit (antin (Fin.last m)) i = true →
    testBit (antloc (Fin.last m)) i = true

theorem computeAntinout_spec (sSuccs : Fin (m + 1) → List (BlockRef (m + 1))) (antloc transp junk : Vec m w nExprs) :
    ∃ N antin, (∀ fuel ≥ N, computeAntinout fuel sSuccs antloc transp junk = some antin) ∧
      Antic sSuccs antloc transp antin := by
  have hlawful := @blockSweep_lawful m w nExprs (List.finRange (m + 1)).reverse true (Fin.last m) sSuccs
    sbitmapAAndB sbitmapOnes (fun bb antout => sbitmapAOrBAndC (antloc bb) (transp bb) antout) Subset
    subset_refl (fun _ _ _ => subset_trans) (fun _ _ => subset_antisymm) wf_subset
    (fun bb => List.mem_reverse.2 (List.mem_finRange bb)) (fun _ _ _ _ => and_subset) (fun _ _ _ => or_and_subset)
  obtain ⟨N, s, hsolve, hsolution⟩ := @Sweep.Lawful.solve_solution _ _ _ _ _ _ _ _ (fun _ => sbitmapOnes)
    (Function.update junk (Fin.last m) sbitmapZero) hlawful fun _ => subset_ones
  refine ⟨N, s.value, fun fuel hfuel => ?_, ?_⟩
  · exact congrArg (Option.map State.value) (hsolve fuel hfuel)
  · have hvalue : ∀ b i ref, ref ∈ sSuccs b → testBit (s.value b) i =
        (testBit (antloc b) i || (testBit (transp b) i && testBit (s.aux b) i)) := by
      intro b i ref href
      rw [hsolution.value_eq b (visited_of_mem href)]
      exact testBit_or_and
    have hlast : ∀ i ref, ref ∈ sSuccs (Fin.last m) → testBit (s.aux (Fin.last m)) i = false := by
      intro i ref href
      rw [hsolution.aux_eq _ (visited_of_mem href), blockSweep_input, if_pos rfl, Function.update_self, testBit_zero]
    refine ⟨fun b i hi => ?_, fun b c i hc hi hloc => ?_, fun i hexit hi => ?_⟩
    · by_cases hvisited : Always true sSuccs b ∨ ∃ c, BlockRef.block c ∈ sSuccs b
      · rw [hsolution.value_eq b hvisited]
        exact testBit_or_and.trans (by rw [hi, Bool.true_or])
      · rw [hsolution.idle b hvisited]
        exact subset_ones i hi
    · rw [hvalue b i _ hc, hloc, Bool.false_or, Bool.and_eq_true] at hi
      refine ⟨hi.1, ?_⟩
      by_cases hb : b = Fin.last m
      · subst hb
        rw [hlast i _ hc] at hi
        exact absurd hi.2 Bool.false_ne_true
      · have haux := hi.2
        rw [hsolution.aux_eq b (.inr ⟨c, hc⟩), blockSweep_input, if_neg hb] at haux
        exact (testBit_intersect ⟨c, hc⟩).1 haux c hc
    · rw [hvalue _ i _ hexit, hlast i _ hexit, Bool.and_false, Bool.or_false] at hi
      exact hi

end Antic

section Early

/-- The earliest places: block 0, after a block that changes the expression, and after an earliest place at which the
expression is not anticipated. -/
structure Early (sPreds : Fin (m + 1) → List (BlockRef (m + 1))) (transp antin earlyin : Vec m w nExprs) : Prop where
  zero : ∀ i, InSize w nExprs i → testBit (earlyin 0) i = true
  kill : ∀ p b i, InSize w nExprs i → sPreds p ≠ [] → BlockRef.block p ∈ sPreds b →
    testBit (transp p) i = false → testBit (earlyin b) i = true
  pass : ∀ p b i, sPreds p ≠ [] → BlockRef.block p ∈ sPreds b → testBit (earlyin p) i = true →
    testBit (antin p) i = false → testBit (earlyin b) i = true

theorem computeEarlyinout_spec (sPreds : Fin (m + 1) → List (BlockRef (m + 1))) (transp antin junk : Vec m w nExprs)
    (hentry : sPreds 0 ≠ []) :
    ∃ N earlyin, (∀ fuel ≥ N, computeEarlyinout fuel sPreds transp antin junk = some earlyin) ∧
      Early sPreds transp antin earlyin := by
  have hlawful := @blockSweep_lawful m w nExprs (List.finRange (m + 1)) true 0 sPreds sbitmapAOrB sbitmapZero
    (fun bb earlyin => sbitmapUnionOfDiff (sbitmapNot (transp bb)) earlyin (antin bb)) (fun a b => Subset b a)
    subset_refl (fun _ _ _ h h' => subset_trans h' h) (fun _ _ h h' => subset_antisymm h' h) wf_superset
    List.mem_finRange (fun _ _ _ _ => or_subset) (fun _ _ _ => union_of_diff_subset)
  obtain ⟨N, s, hsolve, hsolution⟩ := @Sweep.Lawful.solve_solution _ _ _ _ _ _ _ _ (fun _ => sbitmapZero)
    (Function.update junk 0 sbitmapOnes) hlawful fun _ => zero_subset
  have hvisited : ∀ p, sPreds p ≠ [] → Always true sPreds p ∨ ∃ c, BlockRef.block c ∈ sPreds p := by
    intro p hp
    obtain ⟨ref, href⟩ := List.exists_mem_of_ne_nil _ hp
    exact visited_of_mem href
  have hzero : s.aux 0 = sbitmapOnes := by
    rw [hsolution.aux_eq 0 (hvisited 0 hentry), blockSweep_input, if_pos rfl, Function.update_self]
  have hout : ∀ p b i, InSize w nExprs i → BlockRef.block p ∈ sPreds b → testBit (s.value p) i = true →
      testBit (s.aux b) i = true := by
    intro p b i hin hp hi
    by_cases hb : b = 0
    · subst hb
      rw [hzero]
      exact testBit_ones hin
    · rw [hsolution.aux_eq b (.inr ⟨p, hp⟩), blockSweep_input, if_neg hb]
      exact (testBit_union ⟨p, hp⟩).2 ⟨p, hp, hi⟩
  have hvalue : ∀ p i, sPreds p ≠ [] → testBit (s.value p) i = (testBit (sbitmapNot (transp p)) i ||
      (testBit (s.aux p) i && !testBit (antin p) i)) := by
    intro p i hp
    rw [hsolution.value_eq p (hvisited p hp)]
    exact testBit_union_of_diff
  refine ⟨N, s.aux, fun fuel hfuel => congrArg (Option.map State.aux) (hsolve fuel hfuel), fun i hin => ?_,
    fun p b i hin hp hedge hkill => ?_, fun p b i hp hedge hearly hant => ?_⟩
  · rw [hzero]
    exact testBit_ones hin
  · refine hout p b i hin hedge ?_
    rw [hvalue p i hp, testBit_not hin, hkill]
    rfl
  · refine hout p b i (inSize_of_test hearly) hedge ?_
    rw [hvalue p i hp, hearly, hant]
    exact Bool.or_true _

end Early

section Iso

/-- Isolated at the end of a block: after it, in every block, the expression is at a latest place or is isolated and
not computed. -/
structure Iso (sSuccs : Fin (m + 1) → List (BlockRef (m + 1))) (antloc latein isoout : Vec m w nExprs) : Prop where
  last : ∀ i, testBit (isoout (Fin.last m)) i = false
  pass : ∀ b c i, BlockRef.block c ∈ sSuccs b → testBit (isoout b) i = true →
    testBit (latein c) i = true ∨ testBit (isoout c) i = true ∧ testBit (antloc c) i = false

theorem computeIsoinout_spec (sSuccs : Fin (m + 1) → List (BlockRef (m + 1))) (antloc latein junk : Vec m w nExprs) :
    ∃ N isoout, (∀ fuel ≥ N, computeIsoinout fuel sSuccs antloc latein junk = some isoout) ∧
      Iso sSuccs antloc latein isoout := by
  have hlawful := @blockSweep_lawful m w nExprs (List.finRange (m + 1)).reverse false (Fin.last m) sSuccs
    sbitmapAAndB sbitmapOnes (fun bb isoout => sbitmapUnionOfDiff (latein bb) isoout (antloc bb))
    (fun a b => Subset b a) subset_refl (fun _ _ _ h h' => subset_trans h' h) (fun _ _ h h' => subset_antisymm h' h)
    wf_superset (fun bb => List.mem_reverse.2 (List.mem_finRange bb)) (fun _ _ _ _ => and_subset)
    (fun _ _ _ => union_of_diff_subset)
  obtain ⟨N, s, hsolve, hsolution⟩ := @Sweep.Lawful.solve_solution _ _ _ _ _ _ _ _ (fun _ => sbitmapZero)
    (Function.update junk (Fin.last m) sbitmapZero) hlawful fun _ => zero_subset
  have hlast : ∀ i, testBit (s.aux (Fin.last m)) i = false := by
    intro i
    rw [hsolution.aux_eq _ (.inl (.inl rfl)), blockSweep_input, if_pos rfl, Function.update_self, testBit_zero]
  refine ⟨N, s.aux, fun fuel hfuel => congrArg (Option.map State.aux) (hsolve fuel hfuel), hlast,
    fun b c i hc hi => ?_⟩
  by_cases hb : b = Fin.last m
  · subst hb
    rw [hlast i] at hi
    exact absurd hi Bool.false_ne_true
  · rw [hsolution.aux_eq b (.inl (.inl rfl)), blockSweep_input, if_neg hb] at hi
    have hvalue := (testBit_intersect ⟨c, hc⟩).1 hi c hc
    rw [hsolution.value_eq c (.inl (.inl rfl))] at hvalue
    have hbit := testBit_union_of_diff.symm.trans hvalue
    rw [Bool.or_eq_true, Bool.and_eq_true, Bool.not_eq_true'] at hbit
    exact hbit

end Iso

end Z80Gcc.Lcm
