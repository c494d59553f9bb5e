import Mathlib.Algebra.BigOperators.Group.List.Basic
import Mathlib.Data.List.Count
import Z80Gcc.Proofs.TreeFill

/-! The solver finds every count when the arcs whose counts are not in the file contain no cycle. -/

namespace Z80Gcc.Profile

open Z80Gcc.Forest

section Lists

def invalid (valid : Nat → Bool) (arcs : List Nat) : Nat := arcs.countP fun a => !valid a

theorem invalid_update {valid : Nat → Bool} {a : Nat} (ha : valid a = false) (arcs : List Nat) :
    invalid (Function.update valid a true) arcs + arcs.count a = invalid valid arcs := by
  induction arcs with
  | nil => rfl
  | cons b arcs ih =>
    unfold invalid at ih ⊢
    by_cases heq : b = a
    · subst heq
      rw [List.countP_cons_of_neg (by simp), List.count_cons_self,
        List.countP_cons_of_pos (by simp [ha])]
      omega
    · rw [List.count_cons_of_ne heq, List.countP_cons, List.countP_cons,
        Function.update_of_ne heq]
      omega

theorem sum_of_missing {M : Type} [AddCommGroup M] {valid : Nat → Bool} {count c : Nat → M} (arcs : List Nat)
    (hcount : ∀ a ∈ arcs, count a = if valid a then c a else 0) :
    (invalid valid arcs = 0 → (arcs.map count).sum = (arcs.map c).sum) ∧
      (invalid valid arcs = 1 → ∃ a, arcs.find? (fun a => !valid a) = some a ∧
        (arcs.map c).sum - (arcs.map count).sum = c a) := by
  induction arcs with
  | nil => exact ⟨fun _ => rfl, fun h => by cases h⟩
  | cons b arcs ih =>
    obtain ⟨hall, hone⟩ := ih fun a ha => hcount a (List.mem_cons_of_mem _ ha)
    have hb := hcount b (List.mem_cons_self ..)
    unfold invalid at hall hone ⊢
    rw [List.map_cons, List.map_cons, List.sum_cons, List.sum_cons]
    cases hvalid : valid b with
    | true =>
      rw [List.countP_cons_of_neg (by simp [hvalid]), List.find?_cons_of_neg (by simp [hvalid])]
      rw [hvalid, if_pos rfl] at hb
      rw [hb]
      refine ⟨fun h => by rw [hall h], fun h => ?_⟩
      obtain ⟨a, hfind, hsum⟩ := hone h
      exact ⟨a, hfind, by rw [add_sub_add_left_eq_sub, hsum]⟩
    | false =>
      rw [List.countP_cons_of_pos (by simp [hvalid]), List.find?_cons_of_pos (by simp [hvalid])]
      rw [hvalid, if_neg Bool.false_ne_true] at hb
      rw [hb]
      refine ⟨fun h => absurd h (Nat.succ_ne_zero _), fun h => ⟨b, rfl, ?_⟩⟩
      have hrest := hall (Nat.succ.inj h)
      rw [hrest, zero_add, add_sub_cancel_right]

end Lists

section Tracking

variable {M : Type} [AddCommGroup M] (g : Graph) (c : Nat → M)

/-- The true count of a block. -/
def flow (b : Nat) : M := ((g.succ b).map c).sum

/-- What enters a block leaves it. -/
def Conserves : Prop := ∀ b, b < g.numBlocks → ((g.pred b).map c).sum = flow g c b

variable (c : Nat → BitVec 32)

/-- Every count that is valid is the true one. -/
structure Tracks (s : Counts) : Prop where
  arc : ∀ a, s.arcCount a = if s.arcValid a then c a else 0
  block : ∀ b, s.blockValid b = true → s.execCount b = flow g c b
  succ : ∀ b, s.succCount b = invalid s.arcValid (g.succ b)
  pred : ∀ b, s.predCount b = invalid s.arcValid (g.pred b)

variable {g c}

theorem count_succ {a : Nat} (hlt : a < g.arcs.length) (b : Nat) :
    (g.succ b).count a = if g.source a = b then 1 else 0 := by
  have hnodup : (g.succ b).Nodup := (List.nodup_reverse.2 List.nodup_range).filter _
  rw [hnodup.count]
  simp [Graph.mem_succ, hlt]

theorem count_pred {a : Nat} (hlt : a < g.arcs.length) (b : Nat) :
    (g.pred b).count a = if g.target a = b then 1 else 0 := by
  have hnodup : (g.pred b).Nodup := (List.nodup_reverse.2 List.nodup_range).filter _
  rw [hnodup.count]
  simp [Graph.mem_pred, hlt]

theorem tracks_start : Tracks g c (.start g) where
  arc a := rfl
  block b hb := by cases hb
  succ b := by simp [Counts.start, invalid]
  pred b := by simp [Counts.start, invalid]

theorem Tracks.setBlock {s : Counts} (hs : Tracks g c s) (b : Nat) {count : BitVec 32}
    (hcount : count = flow g c b) : Tracks g c (s.setBlock b count) where
  arc := hs.arc
  block v hv := by
    by_cases heq : v = b
    · subst heq
      simp [Counts.setBlock, hcount]
    · simp only [Counts.setBlock, Function.update_of_ne heq] at hv ⊢
      exact hs.block v hv
  succ := hs.succ
  pred := hs.pred

theorem Tracks.setArc {s : Counts} (hs : Tracks g c s) {a : Nat} (hlt : a < g.arcs.length)
    (ha : s.arcValid a = false) : Tracks g c (s.setArc g a (c a)) where
  arc b := by
    by_cases heq : b = a
    · subst heq
      simp [Counts.setArc]
    · simp only [Counts.setArc, Function.update_of_ne heq]
      exact hs.arc b
  block := hs.block
  succ b := by
    have hone := invalid_update ha (g.succ b)
    have hold := hs.succ b
    rw [count_succ hlt] at hone
    by_cases heq : g.source a = b
    · subst heq
      simp only [Counts.setArc, Function.update_self, if_pos] at hone ⊢
      omega
    · rw [if_neg heq] at hone
      simp only [Counts.setArc, Function.update_of_ne (Ne.symm heq)]
      omega
  pred b := by
    have hone := invalid_update ha (g.pred b)
    have hold := hs.pred b
    rw [count_pred hlt] at hone
    by_cases heq : g.target a = b
    · subst heq
      simp only [Counts.setArc, Function.update_self, if_pos] at hone ⊢
      omega
    · rw [if_neg heq] at hone
      simp only [Counts.setArc, Function.update_of_ne (Ne.symm heq)]
      omega

/-- The counts of a file are those of the arcs in the order of reading. -/
theorem readCounts_tracks {c : Nat → Int} {arcs : List Nat} (hnodup : arcs.Nodup) {s : Counts}
    (hs : Tracks g (fun a => BitVec.ofInt 32 (c a)) s)
    (harcs : ∀ a ∈ arcs, a < g.arcs.length ∧ s.arcValid a = false) :
    Tracks g (fun a => BitVec.ofInt 32 (c a)) (readCounts g arcs (arcs.map c) s) ∧
      ∀ a, (readCounts g arcs (arcs.map c) s).arcValid a = true ↔ s.arcValid a = true ∨ a ∈ arcs := by
  induction arcs generalizing s with
  | nil => exact ⟨hs, by simp [readCounts]⟩
  | cons a arcs ih =>
    obtain ⟨hlt, ha⟩ := harcs a (List.mem_cons_self ..)
    obtain ⟨hnew, hnodup⟩ := List.nodup_cons.1 hnodup
    have hrest : ∀ b ∈ arcs, b < g.arcs.length ∧ (s.setArc g a (BitVec.ofInt 32 (c a))).arcValid b = false := by
      intro b hb
      have hne : b ≠ a := fun heq => hnew (heq ▸ hb)
      obtain ⟨hblt, hbfree⟩ := harcs b (List.mem_cons_of_mem _ hb)
      simp only [Counts.setArc, Function.update_of_ne hne]
      exact ⟨hblt, hbfree⟩
    obtain ⟨htracks, hvalid⟩ := ih hnodup (hs.setArc hlt ha) hrest
    refine ⟨htracks, fun b => (hvalid b).trans ?_⟩
    by_cases heq : b = a
    · simp [Counts.setArc, heq]
    · simp [Counts.setArc, heq]

end Tracking

section Propagation

variable (g : Graph) (c : Nat → BitVec 32)

/-- How many counts are not valid yet. -/
def Counts.left (s : Counts) : Nat :=
  invalid s.arcValid (List.range g.arcs.length) + invalid s.blockValid (List.range g.numBlocks)

/-- What a step of the solver does; a change makes some count valid. -/
structure Progress (s s' : Counts) (changed : Bool) : Prop where
  tracks : Tracks g c s'
  valid : ∀ a, s.arcValid a = true → s'.arcValid a = true
  left : s'.left g + changed.toNat ≤ s.left g
  same : changed = false → s' = s

structure Stable (s : Counts) (b : Nat) : Prop where
  unknown : s.blockValid b = false → s.succCount b ≠ 0 ∧ s.predCount b ≠ 0
  known : s.blockValid b = true → s.succCount b ≠ 1 ∧ s.predCount b ≠ 1

variable {g c}

theorem Progress.refl {s : Counts} (hs : Tracks g c s) : Progress g c s s false :=
  ⟨hs, fun _ h => h, Nat.le_refl _, fun _ => rfl⟩

theorem Progress.trans {s₁ s₂ s₃ : Counts} {c₁ c₂ : Bool} (h₁ : Progress g c s₁ s₂ c₁)
    (h₂ : Progress g c s₂ s₃ c₂) : Progress g c s₁ s₃ (c₁ || c₂) := by
  refine ⟨h₂.tracks, fun a h => h₂.valid a (h₁.valid a h), ?_, fun h => ?_⟩
  · have hle₁ := h₁.left
    have hle₂ := h₂.left
    cases c₁ <;> cases c₂ <;> simp only [Bool.or_false, Bool.or_true, Bool.toNat_false,
      Bool.toNat_true] at hle₁ hle₂ ⊢ <;> omega
  · rw [Bool.or_eq_false_iff] at h
    rw [h₂.same h.2, h₁.same h.1]

theorem progress_setBlock {s : Counts} (hs : Tracks g c s) {b : Nat} (hb : b < g.numBlocks)
    (hfree : s.blockValid b = false) {count : BitVec 32} (hcount : count = flow g c b) :
    Progress g c s (s.setBlock b count) true := by
  refine ⟨hs.setBlock b hcount, fun _ h => h, ?_, fun h => by cases h⟩
  have hone := invalid_update hfree (List.range g.numBlocks)
  rw [List.nodup_range.count, if_pos (List.mem_range.2 hb)] at hone
  simp only [Counts.left, Counts.setBlock, Bool.toNat_true]
  omega

theorem progress_setArc {s : Counts} (hs : Tracks g c s) {a : Nat} (hlt : a < g.arcs.length)
    (hfree : s.arcValid a = false) : Progress g c s (s.setArc g a (c a)) true := by
  refine ⟨hs.setArc hlt hfree, fun b h => ?_, ?_, fun h => by cases h⟩
  · by_cases heq : b = a
    · simp [Counts.setArc, heq]
    · simpa [Counts.setArc, heq] using h
  · have hone := invalid_update hfree (List.range g.arcs.length)
    rw [List.nodup_range.count, if_pos (List.mem_range.2 hlt)] at hone
    simp only [Counts.left, Counts.setArc, Bool.toNat_true]
    omega

theorem solveBlock_spec (hc : Conserves g c) {s : Counts} (hs : Tracks g c s) {b : Nat}
    (hb : b < g.numBlocks) :
    Progress g c s (solveBlock g b s).1 (solveBlock g b s).2 ∧
      ((solveBlock g b s).2 = false → s.blockValid b = false →
        s.succCount b ≠ 0 ∧ s.predCount b ≠ 0) := by
  unfold solveBlock
  split
  · rename_i hvalid
    exact ⟨.refl hs, fun _ hfree => by rw [hvalid] at hfree; cases hfree⟩
  · rename_i hfree
    rw [Bool.not_eq_true] at hfree
    split
    · rename_i hzero
      rw [hs.succ, Int.natCast_eq_zero] at hzero
      have htotal := (sum_of_missing (g.succ b) fun a _ => hs.arc a).1 hzero
      exact ⟨progress_setBlock hs hb hfree htotal, fun h => by cases h⟩
    · rename_i hsucc
      split
      · rename_i hzero
        rw [hs.pred, Int.natCast_eq_zero] at hzero
        have htotal := (sum_of_missing (g.pred b) fun a _ => hs.arc a).1 hzero
        exact ⟨progress_setBlock hs hb hfree (htotal.trans (hc b hb)), fun h => by cases h⟩
      · rename_i hpred
        exact ⟨.refl hs, fun _ _ => ⟨hsucc, hpred⟩⟩

theorem solveArc_spec {s : Counts} (hs : Tracks g c s) {b : Nat} {arcs : List Nat} {left : Int}
    (hleft : left = invalid s.arcValid arcs) (hsum : (arcs.map c).sum = flow g c b)
    (harcs : ∀ a ∈ arcs, a < g.arcs.length) :
    ∃ s' changed, solveArc g b left arcs s = some (s', changed) ∧ Progress g c s s' changed ∧
      (changed = false → s.blockValid b = true → left ≠ 1) := by
  unfold solveArc
  split
  · rename_i hcond
    have hone : invalid s.arcValid arcs = 1 := by
      have := hcond.2
      omega
    obtain ⟨a, hfind, hcount⟩ := (sum_of_missing arcs fun a _ => hs.arc a).2 hone
    have htotal : s.execCount b - s.total arcs = c a := by
      rw [hs.block b hcond.1, ← hsum]
      exact hcount
    have hfree : s.arcValid a = false := by simpa using List.find?_some hfind
    rw [htotal, hfind]
    exact ⟨_, true, rfl, progress_setArc hs (harcs a (List.mem_of_find?_eq_some hfind)) hfree,
      fun h => by cases h⟩
  · rename_i hcond
    exact ⟨s, false, rfl, .refl hs, fun _ hvalid hone => hcond ⟨hvalid, hone⟩⟩

theorem solveStep_spec (hc : Conserves g c) {s : Counts} (hs : Tracks g c s) {b : Nat}
    (hb : b < g.numBlocks) :
    ∃ s' changed, solveStep g b s = some (s', changed) ∧ Progress g c s s' changed ∧
      (changed = false → Stable s b) := by
  obtain ⟨hprog₁, hstable₁⟩ := solveBlock_spec hc hs hb
  obtain ⟨s₂, c₂, hrun₂, hprog₂, hstable₂⟩ := solveArc_spec hprog₁.tracks (hprog₁.tracks.succ b) rfl
    fun a ha => (Graph.mem_succ.1 ha).1
  obtain ⟨s₃, c₃, hrun₃, hprog₃, hstable₃⟩ := solveArc_spec hprog₂.tracks (hprog₂.tracks.pred b)
    (hc b hb) fun a ha => (Graph.mem_pred.1 ha).1
  refine ⟨s₃, _, ?_, (hprog₁.trans hprog₂).trans hprog₃, fun h => ?_⟩
  · unfold solveStep
    simp only [hrun₂, hrun₃, Option.bind_eq_bind, Option.bind_some, Option.pure_def]
  · rw [Bool.or_eq_false_iff, Bool.or_eq_false_iff] at h
    obtain ⟨⟨h₁, h₂⟩, h₃⟩ := h
    have hsame₁ := hprog₁.same h₁
    have hsame₂ := (hprog₂.same h₂).trans hsame₁
    rw [hsame₁] at hstable₂
    rw [hsame₂] at hstable₃
    exact ⟨hstable₁ h₁, fun hvalid => ⟨hstable₂ h₂ hvalid, hstable₃ h₃ hvalid⟩⟩

/-- A pass; if it changes nothing then all its blocks are done. -/
theorem solvePass_spec (hc : Conserves g c) (blocks : List Nat) (hblocks : ∀ b ∈ blocks, b < g.numBlocks)
    {s : Counts} (hs : Tracks g c s) (changes : Bool) :
    ∃ s' changed, solvePass g blocks s changes = some (s', changes || changed) ∧
      Progress g c s s' changed ∧ (changed = false → ∀ b ∈ blocks, Stable s b) := by
  induction blocks generalizing s changes with
  | nil =>
    refine ⟨s, false, by rw [Bool.or_false]; rfl, .refl hs, fun _ b hb => ?_⟩
    cases hb
  | cons b blocks ih =>
    obtain ⟨s₁, c₁, hrun₁, hprog₁, hstable₁⟩ := solveStep_spec hc hs (hblocks b (List.mem_cons_self ..))
    obtain ⟨s₂, c₂, hrun₂, hprog₂, hstable₂⟩ :=
      ih (fun b' hb' => hblocks b' (List.mem_cons_of_mem _ hb')) hprog₁.tracks (changes || c₁)
    refine ⟨s₂, c₁ || c₂, ?_, hprog₁.trans hprog₂, fun h b' hb' => ?_⟩
    · rw [solvePass, hrun₁, ← Bool.or_assoc]
      exact hrun₂
    · rw [Bool.or_eq_false_iff] at h
      rcases List.mem_cons.1 hb' with rfl | hb'
      · exact hstable₁ h.1
      · have hstable := hstable₂ h.2 b' hb'
        rwa [hprog₁.same h.1] at hstable

theorem solve_spec (hc : Conserves g c) {fuel : Nat} {s : Counts} (hs : Tracks g c s)
    (hfuel : s.left g < fuel) :
    ∃ s', solve g fuel s = some s' ∧ Tracks g c s' ∧
      (∀ a, s.arcValid a = true → s'.arcValid a = true) ∧ ∀ b, b < g.numBlocks → Stable s' b := by
  induction fuel generalizing s with
  | zero => exact absurd hfuel (Nat.not_lt_zero _)
  | succ fuel ih =>
    obtain ⟨s₁, changed, hrun, hprog, hstable⟩ := solvePass_spec hc (List.range g.numBlocks).reverse
      (fun b hb => by simpa using hb) hs false
    have hsolve : solve g (fuel + 1) s = if changed then solve g fuel s₁ else some s₁ := by
      rw [solve, hrun]
      rfl
    cases changed with
    | true =>
      have hleft := hprog.left
      rw [Bool.toNat_true] at hleft
      obtain ⟨s₂, hrun₂, htracks, hvalid, hdone⟩ := ih hprog.tracks (by omega)
      exact ⟨s₂, hsolve.trans hrun₂, htracks, fun a h => hvalid a (hprog.valid a h), hdone⟩
    | false =>
      refine ⟨s₁, hsolve, hprog.tracks, hprog.valid, fun b hb => ?_⟩
      rw [hprog.same rfl]
      exact hstable rfl b (by simpa using hb)

end Propagation

end Z80Gcc.Profile
