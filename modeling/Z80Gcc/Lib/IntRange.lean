import Mathlib.Tactic.SplitIfs

/-! Tests whether a number lies in a range or outside it, and two such tests as one. The numbers
lie between `m` and `M`; a range without lower bound has `m - 1` for it, one without upper bound
has `M + 1`. -/

namespace Z80Gcc

/-- The numbers from `low` to `high`, or all the others. -/
@[ext] structure IntRange where
  inside : Bool
  low : Int
  high : Int

namespace IntRange

def Mem (r : IntRange) (v : Int) : Prop := r.inside = true ↔ r.low ≤ v ∧ v ≤ r.high

/-- A range that starts first, or ends last where both start together. -/
def First (r0 r1 : IntRange) : Prop :=
  ¬(r0.low > r1.low ∨ r0.low = r1.low ∧ r1.high > r0.high)

instance (r0 r1 : IntRange) : Decidable (First r0 r1) := inferInstanceAs (Decidable (¬_))

/-- The range for both of two tests, the first of which starts first; `next` and `prev` step over
an end. -/
def mergeOrdered (next prev : Int → Int) (all r0 r1 : IntRange) : Option IntRange :=
  match r0.inside, r1.inside with
  | true, true =>
      if r0.high < r1.low then some all
      else if r1.high ≤ r0.high then some ⟨true, r1.low, r1.high⟩
      else some ⟨true, r1.low, r0.high⟩
  | true, false =>
      if r0.high < r1.low then some ⟨true, r0.low, r0.high⟩
      else if r0.low = r1.low ∧ r0.high = r1.high then some all
      else if r1.high ≤ r0.high ∧ r0.low = r1.low then some ⟨true, next r1.high, r0.high⟩
      else if ¬r1.high ≤ r0.high ∨ r0.high = r1.high then some ⟨true, r0.low, prev r1.low⟩
      else none
  | false, true =>
      if r0.high < r1.low then some ⟨true, r1.low, r1.high⟩
      else if r1.high ≤ r0.high then some all
      else some ⟨true, next r0.high, r1.high⟩
  | false, false =>
      if r0.high < r1.low then
        if next r0.high = r1.low then some ⟨false, r0.low, r1.high⟩ else none
      else if r1.high ≤ r0.high then some ⟨false, r0.low, r0.high⟩
      else some ⟨false, r0.low, r1.high⟩

def merge (next prev : Int → Int) (all r0 r1 : IntRange) : Option IntRange :=
  if First r0 r1 then mergeOrdered next prev all r0 r1 else mergeOrdered next prev all r1 r0

section Merge

variable {m M : Int} {r0 r1 r : IntRange}

/-- A range with bounds from `m` to `M`, each possibly omitted. -/
structure Bounded (m M : Int) (r : IntRange) : Prop where
  low_ge : m - 1 ≤ r.low
  low_le : r.low ≤ M
  high_ge : m ≤ r.high
  high_le : r.high ≤ M + 1
  ordered : r.low ≤ r.high

/-- The steps of numbers that go round at the ends. -/
structure Wraps (m M : Int) (next prev : Int → Int) : Prop where
  next_of_lt : ∀ v, v < M → next v = v + 1
  next_last : next M = m
  prev_of_gt : ∀ v, m < v → v ≤ M → prev v = v - 1
  prev_first : prev m = M

def everything (m M : Int) : IntRange := ⟨false, m - 1, M + 1⟩

/-- An excluded range reaches an end of the numbers and goes round it: it covers the included one,
which has no bound there. -/
def GoesRound (m M : Int) (incl excl : IntRange) : Prop :=
  incl.inside = true ∧ excl.inside = false ∧
    (incl.high = M + 1 ∧ excl.high = M ∧ excl.low ≤ incl.low ∨
      incl.low = m - 1 ∧ excl.low = m ∧ incl.high ≤ excl.high)

variable {next prev : Int → Int}

theorem mem_iff_of_inside (hr : r.inside = true) (v : Int) : r.Mem v ↔ r.low ≤ v ∧ v ≤ r.high := by
  simp [Mem, hr]

theorem mem_iff_of_outside (hr : r.inside = false) (v : Int) :
    r.Mem v ↔ ¬(r.low ≤ v ∧ v ≤ r.high) := by
  simp [Mem, hr]

/-- Two ranges in order: their merged range is right unless one goes round. -/
theorem mergeOrdered_mem (hw : Wraps m M next prev) (h0 : Bounded m M r0) (h1 : Bounded m M r1)
    (hf : First r0 r1) (hround : ¬(GoesRound m M r0 r1 ∨ GoesRound m M r1 r0))
    (hr : mergeOrdered next prev (everything m M) r0 r1 = some r) {v : Int} (hlo : m ≤ v)
    (hhi : v ≤ M) : r.Mem v ↔ r0.Mem v ∧ r1.Mem v := by
  obtain ⟨h0l, h0m, h0h, h0g, h0o⟩ := h0
  obtain ⟨h1l, h1m, h1h, h1g, h1o⟩ := h1
  have hnext0 := hw.next_of_lt r0.high
  have hnext1 := hw.next_of_lt r1.high
  have hprev := hw.prev_of_gt r1.low
  unfold First at hf
  unfold mergeOrdered at hr
  cases hin0 : r0.inside <;> cases hin1 : r1.inside <;>
    simp only [hin0, hin1, GoesRound, true_and, Bool.false_eq_true, false_and, or_false, false_or,
      reduceCtorEq] at hr hround
  case false.false =>
    rw [mem_iff_of_outside hin0, mem_iff_of_outside hin1]
    split_ifs at hr with hdisj hadj hsub <;> obtain rfl := Option.some.inj hr <;>
      rw [mem_iff_of_outside rfl] <;> dsimp only <;> omega
  case false.true =>
    rw [mem_iff_of_outside hin0, mem_iff_of_inside hin1]
    split_ifs at hr with hdisj hsub <;> obtain rfl := Option.some.inj hr
    · rw [mem_iff_of_inside rfl]
      dsimp only
      omega
    · rw [mem_iff_of_outside rfl]
      dsimp only [everything]
      omega
    · rw [mem_iff_of_inside rfl]
      dsimp only
      omega
  case true.false =>
    rw [mem_iff_of_inside hin0, mem_iff_of_outside hin1]
    split_ifs at hr with hdisj heq hsub hend <;> obtain rfl := Option.some.inj hr
    · rw [mem_iff_of_inside rfl]
      dsimp only
      omega
    · rw [mem_iff_of_outside rfl]
      dsimp only [everything]
      omega
    · rw [mem_iff_of_inside rfl]
      dsimp only
      omega
    · rw [mem_iff_of_inside rfl]
      dsimp only
      omega
  case true.true =>
    rw [mem_iff_of_inside hin0, mem_iff_of_inside hin1]
    split_ifs at hr with hdisj hsub <;> obtain rfl := Option.some.inj hr
    · rw [mem_iff_of_outside rfl]
      dsimp only [everything]
      omega
    · rw [mem_iff_of_inside rfl]
      dsimp only
      omega
    · rw [mem_iff_of_inside rfl]
      dsimp only
      omega

/-- A range that goes round takes in every number, though `m` is not in both ranges. -/
theorem mergeOrdered_goesRound (hle : m ≤ M) (hw : Wraps m M next prev) (h0 : Bounded m M r0)
    (h1 : Bounded m M r1) (hf : First r0 r1)
    (hround : GoesRound m M r0 r1 ∨ GoesRound m M r1 r0) :
    ∃ r, mergeOrdered next prev (everything m M) r0 r1 = some r ∧
      ¬(r.Mem m ↔ r0.Mem m ∧ r1.Mem m) := by
  obtain ⟨h0l, h0m, h0h, h0g, h0o⟩ := h0
  obtain ⟨h1l, h1m, h1h, h1g, h1o⟩ := h1
  have hlast := hw.next_last
  have hfirst := hw.prev_first
  unfold First at hf
  unfold mergeOrdered
  rcases hround with ⟨hin0, hin1, hends⟩ | ⟨hin1, hin0, hends⟩ <;> rw [hin0, hin1] <;> dsimp only
  · rw [mem_iff_of_inside hin0, mem_iff_of_outside hin1]
    rcases hends with ⟨hhigh, hlast1, hlow⟩ | ⟨hlow, hfirst1, hhigh⟩
    · refine ⟨⟨true, next r1.high, r0.high⟩, ?_, ?_⟩
      · rw [if_neg (by omega), if_neg (by omega), if_pos (by omega)]
      · rw [mem_iff_of_inside rfl, hlast1, hlast]
        dsimp only
        omega
    · refine ⟨⟨true, r0.low, prev r1.low⟩, ?_, ?_⟩
      · rw [if_neg (by omega), if_neg (by omega), if_neg (by omega), if_pos (by omega)]
      · rw [mem_iff_of_inside rfl, hfirst1, hfirst]
        dsimp only
        omega
  · rw [mem_iff_of_outside hin0, mem_iff_of_inside hin1]
    rcases hends with ⟨hhigh, hlast0, hlow⟩ | ⟨hlow, hfirst0, hhigh⟩
    · refine ⟨⟨true, next r0.high, r1.high⟩, ?_, ?_⟩
      · rw [if_neg (by omega), if_neg (by omega)]
      · rw [mem_iff_of_inside rfl, hlast0, hlast]
        dsimp only
        omega
    · omega

theorem merge_right_iff (hle : m ≤ M) (hw : Wraps m M next prev) (h0 : Bounded m M r0)
    (h1 : Bounded m M r1) :
    (∀ r, merge next prev (everything m M) r0 r1 = some r →
        ∀ v, m ≤ v → v ≤ M → (r.Mem v ↔ r0.Mem v ∧ r1.Mem v)) ↔
      ¬(GoesRound m M r0 r1 ∨ GoesRound m M r1 r0) := by
  unfold merge
  by_cases hf : First r0 r1
  · rw [if_pos hf]
    constructor
    · intro hall hround
      obtain ⟨r, hr, hwrong⟩ := mergeOrdered_goesRound hle hw h0 h1 hf hround
      exact hwrong (hall r hr m (Int.le_refl m) hle)
    · intro hround r hr v hlo hhi
      exact mergeOrdered_mem hw h0 h1 hf hround hr hlo hhi
  · have hf' : First r1 r0 := by
      unfold First at hf ⊢
      omega
    rw [if_neg hf]
    constructor
    · intro hall hround
      obtain ⟨r, hr, hwrong⟩ := mergeOrdered_goesRound hle hw h1 h0 hf' hround.symm
      exact hwrong ((hall r hr m (Int.le_refl m) hle).trans and_comm)
    · intro hround r hr v hlo hhi
      rw [and_comm (a := r0.Mem v)]
      exact mergeOrdered_mem hw h1 h0 hf' (fun hc => hround hc.symm) hr hlo hhi

end Merge

end IntRange

end Z80Gcc
