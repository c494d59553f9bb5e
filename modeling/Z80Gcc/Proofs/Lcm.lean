import Z80Gcc.Proofs.FlowGraph
import Z80Gcc.Proofs.Delay

/-! Lazy code motion is right and safe: a computation that it takes for redundant has been made at the last place
chosen on every way to it, and a place that it chooses is one from which the expression will be computed. -/

namespace Z80Gcc.Lcm

open SimpleBitmap RoundRobin FlowGraph

variable {m w nExprs : Nat}

section Solved

variable (succ : Fin (m + 1) → List (BlockRef (m + 1))) (transp antloc : Vec m w nExprs)

structure Solved (latein isoout : Vec m w nExprs) : Prop where
  exists_delayin : ∃ antin earlyin delayin,
    Antic (computePredsSuccs succ entryEdges).sSuccs antloc transp antin ∧
    Early (computePredsSuccs succ entryEdges).sPreds transp antin earlyin ∧
    Delayed (computePredsSuccs succ entryEdges).sPreds antloc (fun bb => sbitmapAAndB (antin bb) (earlyin bb))
      delayin ∧
    ∀ b, Latest (computePredsSuccs succ entryEdges).sSuccs antloc delayin b (latein b)
  iso : Iso (computePredsSuccs succ entryEdges).sSuccs antloc latein isoout

theorem onlyEntry : OnlyEntry (computePredsSuccs succ entryEdges).sPreds := by
  intro bb hbb
  rw [or_iff_not_imp_left]
  intro hne
  obtain ⟨ref, href⟩ := List.exists_mem_of_ne_nil _ hne
  rcases (mem_sPreds succ).1 href with ⟨p, -, rfl⟩ | ⟨hzero, -⟩
  · exact ⟨p, href⟩
  · exact absurd hzero hbb

theorem sPreds_zero_ne_nil : (computePredsSuccs succ entryEdges).sPreds 0 ≠ [] :=
  List.ne_nil_of_mem ((mem_sPreds succ).2 (.inr ⟨rfl, rfl⟩))

theorem preLcm_eq {fuel : Nat} {junk : Junk m w nExprs} {antin earlyin delayin isoout : Vec m w nExprs} {l : Lists m}
    (hantin : computeAntinout fuel l.sSuccs antloc transp junk.antout = some antin)
    (hearlyin : computeEarlyinout fuel l.sPreds transp antin junk.earlyin = some earlyin)
    (hdelayin : computeDelayinout fuel l.sPreds antloc antin earlyin junk.delayin junk.delayTemp = some delayin)
    (hisoout : computeIsoinout fuel l.sSuccs antloc
      (computeLatein l.sSuccs antloc delayin junk.latein junk.lateTemp) junk.isoout = some isoout) :
    preLcm fuel junk l transp antloc = some
      (computeRedundant antloc (computeLatein l.sSuccs antloc delayin junk.latein junk.lateTemp) isoout,
        computeOptimal (computeLatein l.sSuccs antloc delayin junk.latein junk.lateTemp) isoout) := by
  simp only [preLcm, hantin, hearlyin, hdelayin, hisoout, Option.bind_eq_bind, Option.bind_some, Option.pure_def]

variable [NeZero w]

theorem preLcm_solved (junk : Junk m w nExprs) :
    ∃ N latein isoout, (∀ fuel ≥ N, preLcm fuel junk (computePredsSuccs succ entryEdges) transp antloc =
        some (computeRedundant antloc latein isoout, computeOptimal latein isoout)) ∧
      Solved succ transp antloc latein isoout := by
  obtain ⟨N₁, antin, hantin, hantic⟩ := computeAntinout_spec (computePredsSuccs succ entryEdges).sSuccs antloc transp
    junk.antout
  obtain ⟨N₂, earlyin, hearlyin, hearly⟩ := computeEarlyinout_spec (computePredsSuccs succ entryEdges).sPreds transp
    antin junk.earlyin (sPreds_zero_ne_nil succ)
  obtain ⟨N₃, delayin, hdelayin, hdelayed⟩ := computeDelayinout_spec (onlyEntry succ) antloc antin earlyin junk.delayin
    junk.delayTemp
  obtain ⟨N₄, isoout, hisoout, hiso⟩ := computeIsoinout_spec (computePredsSuccs succ entryEdges).sSuccs antloc
    (computeLatein (computePredsSuccs succ entryEdges).sSuccs antloc delayin junk.latein junk.lateTemp) junk.isoout
  refine ⟨max (max N₁ N₂) (max N₃ N₄), _, isoout, fun fuel hfuel => ?_,
    ⟨antin, earlyin, delayin, hantic, hearly, hdelayed, computeLatein_spec _ _⟩, hiso⟩
  simp only [ge_iff_le, max_le_iff] at hfuel
  exact preLcm_eq transp antloc (hantin fuel hfuel.1.1) (hearlyin fuel hfuel.1.2) (hdelayin fuel hfuel.2.1)
    (hisoout fuel hfuel.2.2)

end Solved

section Walks

variable [NeZero w] {succ : Fin (m + 1) → List (BlockRef (m + 1))}
  {transp antloc antin earlyin delayin latein isoout : Vec m w nExprs} {path : Nat → Fin (m + 1)} {k i : Nat}
  {b : Fin (m + 1)}

omit [NeZero w] in
theorem sPreds_ne_nil_of_walk (h : Walk succ path k 0 b) : (computePredsSuccs succ entryEdges).sPreds b ≠ [] := by
  cases k with
  | zero =>
    rw [← h.last, h.first]
    exact sPreds_zero_ne_nil succ
  | succ k => exact List.ne_nil_of_mem ((block_mem_sPreds succ).2 h.init.2)

/-- The end of a way is an earliest place, or the way goes through one at which the expression is anticipated and then
leaves the expression as it is. -/
theorem early_or_passed (h : Early (computePredsSuccs succ entryEdges).sPreds transp antin earlyin)
    (hin : InSize w nExprs i) (hwalk : Walk succ path k 0 b) :
    testBit (earlyin b) i = true ∨ ∃ e < k,
      testBit (sbitmapAAndB (antin (path e)) (earlyin (path e))) i = true ∧
        ∀ j, e ≤ j → j < k → testBit (transp (path j)) i = true := by
  induction k generalizing b with
  | zero =>
    rw [← hwalk.last, hwalk.first]
    exact .inl (h.zero i hin)
  | succ k ih =>
    obtain ⟨hinit, hedge⟩ := hwalk.init
    have hmem := (block_mem_sPreds succ).2 hedge
    have hne := sPreds_ne_nil_of_walk hinit
    cases hkill : testBit (transp (path k)) i with
    | false => exact .inl (h.kill (path k) b i hin hne hmem hkill)
    | true =>
      rcases ih hinit with hearly | ⟨e, he, hplace, htransp⟩
      · cases hant : testBit (antin (path k)) i with
        | false => exact .inl (h.pass (path k) b i hne hmem hearly hant)
        | true =>
          refine .inr ⟨k, Nat.lt_succ_self k, by rw [testBit_and, hant, hearly, Bool.and_self], fun j hj hlt => ?_⟩
          rwa [Nat.le_antisymm (Nat.le_of_lt_succ hlt) hj]
      · refine .inr ⟨e, Nat.lt_succ_of_lt he, hplace, fun j hj hlt => ?_⟩
        rcases Nat.lt_succ_iff_lt_or_eq.1 hlt with hlt | rfl
        · exact htransp j hj hlt
        · exact hkill

theorem exists_last {P : Nat → Prop} {e k : Nat} (he : e < k) (hP : P e) (hk : ¬P k) :
    ∃ p, e ≤ p ∧ p < k ∧ P p ∧ ∀ j, p < j → j ≤ k → ¬P j := by
  induction k with
  | zero => exact absurd he (Nat.not_lt_zero e)
  | succ k ih =>
    by_cases hlast : P k
    · refine ⟨k, Nat.le_of_lt_succ he, Nat.lt_succ_self k, hlast, fun j hj hle => ?_⟩
      rwa [Nat.le_antisymm hle hj]
    · have hne : e ≠ k := fun heq => hlast (heq ▸ hP)
      obtain ⟨p, hep, hp, hPp, hafter⟩ := ih (by omega) hlast
      refine ⟨p, hep, Nat.lt_succ_of_lt hp, hPp, fun j hj hle => ?_⟩
      rcases Nat.le_succ_iff.1 hle with hle | rfl
      · exact hafter j hj hle
      · exact hk

omit [NeZero w] in
/-- What is isolated at the end of a block is not computed after it, as long as there is no latest place. -/
theorem Iso.not_isoout (h : Iso (computePredsSuccs succ entryEdges).sSuccs antloc latein isoout)
    (hedge : ∀ j < k, Edge succ (path j) (path (j + 1))) {p : Nat} (hp : p < k)
    (hlate : ∀ j, p < j → j ≤ k → testBit (latein (path j)) i = false)
    (hloc : testBit (antloc (path k)) i = true) : testBit (isoout (path p)) i = false := by
  rw [Bool.eq_false_iff]
  intro hiso
  have hforward : ∀ j, p < j → j ≤ k →
      testBit (isoout (path j)) i = true ∧ testBit (antloc (path j)) i = false := by
    intro j hj
    induction j, hj using Nat.le_induction with
    | base =>
      intro hle
      refine (h.pass _ _ i ((mem_sSuccs succ).2 (hedge p hp)) hiso).resolve_left ?_
      rw [hlate (p + 1) (Nat.lt_succ_self p) hle]
      exact Bool.false_ne_true
    | succ j hj ih =>
      intro hle
      refine (h.pass _ _ i ((mem_sSuccs succ).2 (hedge j hle)) (ih (Nat.le_of_lt hle)).1).resolve_left ?_
      rw [hlate (j + 1) (Nat.lt_succ_of_lt hj) hle]
      exact Bool.false_ne_true
  rw [(hforward k hp le_rfl).2] at hloc
  exact Bool.false_ne_true hloc

/-- The last place chosen on a way to a redundant computation: from it to the computation the expression keeps its
value, and no other place is latest or isolated. -/
structure LastPlace (transp latein isoout : Vec m w nExprs) (path : Nat → Fin (m + 1)) (k i p : Nat) : Prop where
  lt : p < k
  late : testBit (latein (path p)) i = true
  not_late : ∀ j, p < j → j ≤ k → testBit (latein (path j)) i = false
  not_iso : ∀ j, p ≤ j → j ≤ k → testBit (isoout (path j)) i = false
  transp : ∀ j, p ≤ j → j < k → testBit (transp (path j)) i = true

theorem redundant_iff : testBit (computeRedundant antloc latein isoout b) i = true ↔
    testBit (antloc b) i = true ∧ testBit (latein b) i = false ∧ testBit (isoout b) i = false := by
  rw [computeRedundant, testBit_difference, testBit_or, Bool.and_eq_true, Bool.not_eq_true', Bool.or_eq_false_iff]

theorem optimal_iff : testBit (computeOptimal latein isoout b) i = true ↔
    testBit (latein b) i = true ∧ testBit (isoout b) i = false := by
  rw [computeOptimal, testBit_difference, Bool.and_eq_true, Bool.not_eq_true']

theorem Solved.redundant_covered (h : Solved succ transp antloc latein isoout) (hwalk : Walk succ path k 0 b)
    (hred : testBit (computeRedundant antloc latein isoout b) i = true) :
    ∃ p, LastPlace transp latein isoout path k i p := by
  obtain ⟨⟨antin, earlyin, delayin, hantic, hearly, hdelayed, hlatest⟩, hiso⟩ := h
  obtain ⟨hloc, hnotlate, hnotiso⟩ := redundant_iff.1 hred
  have hnotdelay : testBit (delayin b) i = false := by
    rw [Bool.eq_false_iff]
    intro hdelay
    rw [(hlatest b).loc i hdelay hloc] at hnotlate
    exact Bool.noConfusion hnotlate
  -- the computation itself is not at an earliest place, since it is anticipated
  obtain hplace | ⟨e, he, hplace, htransp⟩ := early_or_passed hearly (inSize_of_test hloc) hwalk
  · have hdelay := hdelayed.early b i (by rw [testBit_and, hantic.loc b i hloc, hplace, Bool.and_self])
    rw [hdelay] at hnotdelay
    exact Bool.noConfusion hnotdelay
  · obtain ⟨p, hep, hp, hdelay, hafter⟩ := @exists_last
      (fun j => testBit (delayin (path j)) i = true) _ _ he
      (hdelayed.early (path e) i hplace) (by rw [hwalk.last, hnotdelay]; exact Bool.false_ne_true)
    have hlate : ∀ j, p < j → j ≤ k → testBit (latein (path j)) i = false := by
      intro j hj hle
      rw [Bool.eq_false_iff]
      exact fun hlate => hafter j hj hle ((hlatest (path j)).delay i hlate)
    refine ⟨p, hp, ?_, hlate, fun j hj hle => ?_, fun j hj hlt => htransp j (Nat.le_trans hep hj) hlt⟩
    · by_cases hlast : path p = Fin.last m
      · exact (hlatest (path p)).last hlast _ i ((mem_sSuccs succ).2 (hwalk.edge p hp)) hdelay
          (Bool.eq_false_iff.2 (hafter (p + 1) (Nat.lt_succ_self p) hp))
      · exact (hlatest (path p)).inner hlast i hdelay
    · rcases Nat.eq_or_lt_of_le hle with rfl | hlt
      · rwa [hwalk.last]
      · exact hiso.not_isoout hwalk.edge hlt (fun j' hj' => hlate j' (Nat.lt_of_le_of_lt hj hj'))
          (by rwa [hwalk.last])

omit [NeZero w] in
theorem Solved.delay_antic {ae : Vec m w nExprs}
    (hantic : Antic (computePredsSuccs succ entryEdges).sSuccs antloc transp antin)
    (hdelayed : Delayed (computePredsSuccs succ entryEdges).sPreds antloc ae delayin)
    (hae : ∀ b i, testBit (ae b) i = true → testBit (antin b) i = true) (hwalk : Walk succ path k 0 b)
    (hdelay : testBit (delayin b) i = true) : testBit (antin b) i = true := by
  induction k generalizing b with
  | zero =>
    obtain rfl : b = 0 := hwalk.last.symm.trans hwalk.first
    exact hae 0 i (hdelayed.zero i hdelay)
  | succ k ih =>
    obtain ⟨hinit, hedge⟩ := hwalk.init
    rcases hdelayed.pass (path k) b i ((block_mem_sPreds succ).2 hedge) hdelay with hplace | ⟨hbefore, hloc⟩
    · exact hae b i hplace
    · exact (hantic.pass (path k) b i ((mem_sSuccs succ).2 hedge) (ih hinit hbefore) hloc).2

omit [NeZero w] in
/-- What is anticipated at a block is computed on every way to the end, before it is changed. -/
theorem Antic.computed (h : Antic (computePredsSuccs succ entryEdges).sSuccs antloc transp antin)
    (hexit : BlockRef.exitBlock ∈ succ (Fin.last m)) (hwalk : Walk succ path k b (Fin.last m))
    (hant : testBit (antin b) i = true) :
    ∃ j ≤ k, testBit (antloc (path j)) i = true ∧ ∀ j' < j, testBit (transp (path j')) i = true := by
  induction k generalizing b path with
  | zero =>
    obtain rfl : b = Fin.last m := hwalk.first.symm.trans hwalk.last
    refine ⟨0, le_rfl, ?_, fun j' hj' => absurd hj' (Nat.not_lt_zero j')⟩
    rw [hwalk.first]
    exact h.last i ((mem_sSuccs succ).2 hexit) hant
  | succ k ih =>
    cases hloc : testBit (antloc b) i with
    | true => exact ⟨0, Nat.zero_le _, by rwa [hwalk.first], fun j' hj' => absurd hj' (Nat.not_lt_zero j')⟩
    | false =>
      obtain ⟨htail, hedge⟩ := hwalk.tail
      obtain ⟨htransp, hnext⟩ := h.pass b _ i ((mem_sSuccs succ).2 hedge) hant hloc
      obtain ⟨j, hj, hcomputed, hbefore⟩ := ih htail hnext
      refine ⟨j + 1, Nat.succ_le_succ hj, hcomputed, fun j' hj' => ?_⟩
      cases j' with
      | zero => rwa [hwalk.first]
      | succ j' => exact hbefore j' (Nat.lt_of_succ_lt_succ hj')

end Walks

section Results

variable [NeZero w]

/-- For every flow graph, every `transp` and `antloc`, and whatever is in the memory that is allocated: `pre_lcm` ends,
no computation that it calls redundant is at a place that it calls optimal, and on every way from block 0 to a redundant
computation there is an optimal place from which on no block changes the expression. -/
theorem pre_lcm_redundant (succ : Fin (m + 1) → List (BlockRef (m + 1))) (transp antloc : Vec m w nExprs)
    (junk : Junk m w nExprs) :
    ∃ N redundant optimal, (∀ fuel ≥ N, preLcm fuel junk (computePredsSuccs succ entryEdges) transp antloc =
        some (redundant, optimal)) ∧
      ∀ b i, testBit (redundant b) i = true → testBit (optimal b) i = false ∧
        ∀ path k, Walk succ path k 0 b → ∃ p < k, testBit (optimal (path p)) i = true ∧
          ∀ j, p ≤ j → j < k → testBit (transp (path j)) i = true := by
  obtain ⟨N, latein, isoout, hloop, hsolved⟩ := preLcm_solved succ transp antloc junk
  refine ⟨N, _, _, hloop, fun b i hred => ⟨?_, fun path k hwalk => ?_⟩⟩
  · rw [Bool.eq_false_iff]
    intro hopt
    have hlate := (redundant_iff.1 hred).2.1
    rw [(optimal_iff.1 hopt).1] at hlate
    exact Bool.noConfusion hlate
  · obtain ⟨p, hp⟩ := hsolved.redundant_covered hwalk hred
    exact ⟨p, hp.lt, optimal_iff.2 ⟨hp.late, hp.not_iso p le_rfl hp.lt.le⟩, hp.transp⟩

def cleared : Junk 3 32 1 :=
  ⟨fun _ => sbitmapZero, fun _ => sbitmapZero, fun _ => sbitmapZero, fun _ => sbitmapZero, fun _ => sbitmapZero,
    sbitmapZero, sbitmapZero⟩

def diamondLoc (bb : Fin 4) : Sbitmap 32 1 := if bb.val = 1 ∨ bb.val = 3 then sbitmapOnes else sbitmapZero

theorem pre_lcm_redundant_diamond : ∃ N redundant optimal,
    (∀ fuel ≥ N, preLcm fuel cleared
        (computePredsSuccs diamond entryEdges) (fun _ => sbitmapOnes) diamondLoc =
          some (redundant, optimal)) ∧
      ∀ b i, testBit (redundant b) i = true → testBit (optimal b) i = false ∧
        ∀ path k, Walk diamond path k 0 b → ∃ p < k, testBit (optimal (path p)) i = true ∧
          ∀ j, p ≤ j → j < k → testBit (sbitmapOnes : Sbitmap 32 1) i = true :=
  pre_lcm_redundant diamond (fun _ => sbitmapOnes) diamondLoc cleared

/-- For every flow graph whose last block goes to the exit: a place that `pre_lcm` calls optimal is safe. On every way
from it to the end the expression is computed before any block changes it. -/
theorem pre_lcm_safe (succ : Fin (m + 1) → List (BlockRef (m + 1))) (transp antloc : Vec m w nExprs)
    (junk : Junk m w nExprs) (hexit : BlockRef.exitBlock ∈ succ (Fin.last m)) :
    ∃ N redundant optimal, (∀ fuel ≥ N, preLcm fuel junk (computePredsSuccs succ entryEdges) transp antloc =
        some (redundant, optimal)) ∧
      ∀ b i, testBit (optimal b) i = true → ∀ path k path' k', Walk succ path k 0 b →
        Walk succ path' k' b (Fin.last m) →
          ∃ j ≤ k', testBit (antloc (path' j)) i = true ∧ ∀ j' < j, testBit (transp (path' j')) i = true := by
  obtain ⟨N, latein, isoout, hloop, hsolved⟩ := preLcm_solved succ transp antloc junk
  obtain ⟨antin, earlyin, delayin, hantic, -, hdelayed, hlatest⟩ := hsolved.exists_delayin
  refine ⟨N, _, _, hloop, fun b i hopt path k path' k' hwalk hwalk' => ?_⟩
  have hdelay := (hlatest b).delay i (optimal_iff.1 hopt).1
  refine hantic.computed hexit hwalk' (Solved.delay_antic hantic hdelayed (fun b i hi => ?_) hwalk hdelay)
  rw [testBit_and, Bool.and_eq_true] at hi
  exact hi.1

theorem pre_lcm_safe_diamond : ∃ N redundant optimal,
    (∀ fuel ≥ N, preLcm fuel cleared
        (computePredsSuccs diamond entryEdges) (fun _ => sbitmapOnes) diamondLoc =
          some (redundant, optimal)) ∧
      ∀ b i, testBit (optimal b) i = true → ∀ path k path' k', Walk diamond path k 0 b →
        Walk diamond path' k' b (Fin.last 3) → ∃ j ≤ k', testBit (diamondLoc (path' j)) i = true ∧
          ∀ j' < j, testBit (sbitmapOnes : Sbitmap 32 1) i = true :=
  pre_lcm_safe diamond (fun _ => sbitmapOnes) diamondLoc cleared (by decide)

end Results

end Z80Gcc.Lcm
