import Z80Gcc.Proofs.CaseLists

/-! The decision code. A subtree is reached only by values that lie on its side of every node
above; a test that is left out was made by one of these. -/

namespace Z80Gcc

open Z80Gcc.Asm Z80Gcc.WrapInt

variable {L : Type} {h : Host} {t : IntegerType h} {m : Nat}

section Tests

variable {index c : Int}

theorem ofInt_toNat (hm : t.precision ≤ m) (hu : t.unsignedp = true) (hc : t.wrap c = c) :
    ((BitVec.ofInt m c).toNat : Int) = c := by
  unfold IntegerType.wrap at hc
  rw [hu, wrap_true] at hc
  have hpos := (emod_eq_self_iff.1 hc).1
  have hself := emod_eq_self_mono hm hc
  rw [BitVec.toNat_ofInt]
  push_cast
  rw [hself, Int.toNat_of_nonneg hpos]

theorem ofInt_toInt (hm : t.precision ≤ m) (hu : t.unsignedp = false) (hc : t.wrap c = c) :
    (BitVec.ofInt m c).toInt = c := by
  unfold IntegerType.wrap at hc
  rw [hu, wrap_false] at hc
  rw [BitVec.toInt_ofInt]
  exact bmod_eq_self_mono hm hc

def Test.Asks (index : Int) : Test → Prop
  | always => True
  | eq c => index = c
  | gt c => c < index
  | lt c => index < c
  | ge c => c ≤ index
  | le c => index ≤ c

def Test.Of (t : IntegerType h) : Test → Prop
  | always => True
  | eq c => t.wrap c = c
  | gt c => t.wrap c = c
  | lt c => t.wrap c = c
  | ge c => t.wrap c = c
  | le c => t.wrap c = c

/-- The comparison of the index register is that of the values. -/
theorem Test.holds_iff (hm : t.precision ≤ m) (hindex : t.wrap index = index) {test : Test}
    (ht : test.Of t) :
    test.holds t.unsignedp (BitVec.ofInt m index) = true ↔ test.Asks index := by
  cases hu : t.unsignedp with
  | true =>
    have hi := ofInt_toNat hm hu hindex
    cases test with
    | always => simp [holds, Asks]
    | eq c =>
      have hc := ofInt_toNat hm hu ht
      simp only [holds, Asks, decide_eq_true_eq, BitVec.toNat_eq]
      omega
    | gt c | lt c | ge c | le c =>
      have hc := ofInt_toNat hm hu ht
      simp only [holds, Asks, if_true, BitVec.ult, BitVec.ule, decide_eq_true_eq]
      omega
  | false =>
    have hi := ofInt_toInt hm hu hindex
    cases test with
    | always => simp [holds, Asks]
    | eq c =>
      have hc := ofInt_toInt hm hu ht
      simp only [holds, Asks, decide_eq_true_eq, ← BitVec.toInt_inj]
      omega
    | gt c | lt c | ge c | le c =>
      have hc := ofInt_toInt hm hu ht
      simp only [holds, Asks, Bool.false_eq_true, if_false, BitVec.slt, BitVec.sle,
        decide_eq_true_eq]
      omega

end Tests

section Runs

variable [DecidableEq L] {u : Bool} {index : BitVec m}

/-- Where control goes from the first line: on behind the last one, or to a label outside. -/
def run (u : Bool) (index : BitVec m) (code : List (TestLine L)) : Option (Target L) :=
  ((caseIsa u m).pass code ⟨none, index⟩).seek

theorem pass_state (code : List (TestLine L)) (f : Flow (Target L) (BitVec m)) :
    ((caseIsa u m).pass code f).state = f.state := by
  induction code generalizing f with
  | nil => rfl
  | cons ln code ih =>
    rw [Isa.pass_cons, ih]
    obtain ⟨seek, state⟩ := f
    cases ln with
    | op i => cases i
    | jump c l => cases seek <;> rfl
    | label l =>
      cases seek with
      | none => rfl
      | some l' => by_cases hl : l' = l <;> simp [hl]

theorem pass_eq (code : List (TestLine L)) :
    (caseIsa u m).pass code ⟨none, index⟩ = ⟨run u index code, index⟩ :=
  Asm.Flow.ext rfl (pass_state code _)

@[simp] theorem run_nil : run u index ([] : List (TestLine L)) = none := rfl

theorem run_jump {c : Test} {l : Target L} {code : List (TestLine L)} (hl : l ∉ labels code) :
    run u index (.jump c l :: code) = if c.holds u index then some l else run u index code := by
  unfold run
  rw [Isa.pass_cons, Isa.line_jump]
  cases hc : c.holds u index <;> simp [caseIsa, hc, Isa.pass_seek_of_not_mem _ hl]

theorem run_append {a b : List (TestLine L)} {l : Target L} (hl : l ∉ labels b)
    (ha : run u index a = some l) : run u index (a ++ b) = some l := by
  unfold run
  rw [Isa.pass_append, pass_eq, ha, Isa.pass_seek_of_not_mem _ hl]

theorem run_append_fell {a b : List (TestLine L)} (ha : run u index a = none) :
    run u index (a ++ b) = run u index b := by
  unfold run
  rw [Isa.pass_append, pass_eq, ha]

theorem run_jump_over {c : Test} {l : Target L} {a b : List (TestLine L)} (ha : l ∉ labels a) :
    run u index (.jump c l :: (a ++ .label l :: b)) =
      if c.holds u index then run u index b else run u index (a ++ .label l :: b) := by
  unfold run
  rw [Isa.pass_cons, Isa.line_jump]
  cases hc : c.holds u index
  · simp [caseIsa, hc]
  · simp only [caseIsa, hc, if_true]
    rw [Isa.pass_seek _ ha]

theorem run_jumpTo {l : L} : run u index [jumpTo l] = some (.code l) := by
  rw [jumpTo, run_jump (by simp [labels])]
  rfl

/-- Behind an unconditional jump control does not fall through. -/
theorem run_emitJumpIfReachable {l : L} {code : List (TestLine L)} :
    run u index (emitJumpIfReachable l code) =
      match run u index code with
      | none => some (.code l)
      | some r => some r := by
  have happend : run u index (code ++ [jumpTo l]) =
      match run u index code with
      | none => some (.code l)
      | some r => some r := by
    cases hr : run u index code with
    | none => rw [run_append_fell hr, run_jumpTo]
    | some r => exact run_append (by simp [labels, jumpTo]) hr
  unfold emitJumpIfReachable
  split
  · next r hlast =>
    obtain ⟨init, rfl⟩ := List.getLast?_eq_some_iff.1 hlast
    cases hinit : run u index init with
    | none =>
      rw [run_append_fell hinit, run_jump (by simp [labels])]
      rfl
    | some r' => rw [run_append (by simp [labels]) hinit]
  · exact happend

omit [DecidableEq L] in
theorem labels_emitJumpIfReachable {l : L} {code : List (TestLine L)} :
    labels (emitJumpIfReachable l code) = labels code := by
  unfold emitJumpIfReachable
  split
  · rfl
  · simp [labels_append, labels, jumpTo]

end Runs

section Bounds

/-- A node above, and the value, lie so that the whole subtree is on the value's side of it. -/
def Apart (p : CaseNode L) (cs : List (CaseNode L)) (index : Int) : Prop :=
  (p.high < index ∧ ∀ c ∈ cs, p.high < c.low) ∨ (index < p.low ∧ ∀ c ∈ cs, c.high < p.low)

/-- A value of the type that comes to a subtree through the nodes above it. -/
structure Reaches (t : IntegerType h) (parents : List (CaseNode L)) (tree : CaseTree (CaseNode L))
    (index : Int) : Prop where
  has : t.Has index
  sorted : InOrder tree.toList
  of : ∀ c ∈ tree.toList, c.low ≤ c.high ∧ t.Has c.low ∧ t.Has c.high
  apart : ∀ p ∈ parents, p.low ≤ p.high ∧ Apart p tree.toList index

variable {parents : List (CaseNode L)} {left right : CaseTree (CaseNode L)} {n : CaseNode L}
  {index : Int}

theorem Reaches.node (hr : Reaches t parents (.node left n right) index) :
    n.low ≤ n.high ∧ t.Has n.low ∧ t.Has n.high :=
  hr.of n (by simp [CaseTree.toList])

theorem Reaches.below (hr : Reaches t parents (.node left n right) index) :
    ∀ c ∈ left.toList, c.high < n.low := by
  intro c hc
  exact (List.pairwise_append.1 hr.sorted).2.2 c hc n (by simp)

theorem Reaches.above (hr : Reaches t parents (.node left n right) index) :
    ∀ c ∈ right.toList, n.high < c.low :=
  (List.pairwise_cons.1 (List.pairwise_append.1 hr.sorted).2.1).1

theorem Reaches.on_left (hr : Reaches t parents (.node left n right) index) (hlt : index < n.low) :
    Reaches t (n :: parents) left index := by
  refine ⟨hr.has, (List.pairwise_append.1 hr.sorted).1, fun c hc => hr.of c (by
    simp [CaseTree.toList, hc]), List.forall_mem_cons.2 ⟨⟨hr.node.1, .inr ⟨hlt, hr.below⟩⟩, ?_⟩⟩
  intro p hp
  obtain ⟨hple, ⟨hlt', hall⟩ | ⟨hlt', hall⟩⟩ := hr.apart p hp
  · exact ⟨hple, .inl ⟨hlt', fun c hc => hall c (by simp [CaseTree.toList, hc])⟩⟩
  · exact ⟨hple, .inr ⟨hlt', fun c hc => hall c (by simp [CaseTree.toList, hc])⟩⟩

theorem Reaches.on_right (hr : Reaches t parents (.node left n right) index) (hgt : n.high < index) :
    Reaches t (n :: parents) right index := by
  refine ⟨hr.has, (List.pairwise_cons.1 (List.pairwise_append.1 hr.sorted).2.1).2, fun c hc =>
    hr.of c (by simp [CaseTree.toList, hc]),
    List.forall_mem_cons.2 ⟨⟨hr.node.1, .inl ⟨hgt, hr.above⟩⟩, ?_⟩⟩
  intro p hp
  obtain ⟨hple, ⟨hlt', hall⟩ | ⟨hlt', hall⟩⟩ := hr.apart p hp
  · exact ⟨hple, .inl ⟨hlt', fun c hc => hall c (by simp [CaseTree.toList, hc])⟩⟩
  · exact ⟨hple, .inr ⟨hlt', fun c hc => hall c (by simp [CaseTree.toList, hc])⟩⟩

/-- Where the lower test is left out, no smaller value comes, and there is nothing on the left. -/
theorem Reaches.low_bound (hr : Reaches t parents (.node left n right) index)
    (ht : t.precision ≤ 2 * h.bits) (hb : nodeHasLowBound t parents left n = true) :
    left = .nil ∧ n.low ≤ index := by
  obtain ⟨hle, ⟨hmin, -, hlow⟩, -⟩ := hr.node
  unfold nodeHasLowBound at hb
  split at hb
  · next hlowest =>
    refine ⟨?_, hlowest ▸ hr.has.1⟩
    cases left with
    | nil => rfl
    | node l c r =>
      have hmem : c ∈ (CaseTree.node l c r).toList := by simp [CaseTree.toList]
      have hbelow := hr.below c hmem
      obtain ⟨hcle, ⟨hcmin, -⟩, -⟩ := hr.of c (List.mem_append_left _ hmem)
      omega
  split at hb
  · cases hb
  · next hnil =>
    split at hb
    · cases hb
    · next hlt =>
      refine ⟨by cases left <;> simp_all [CaseTree.isNil], ?_⟩
      simp only [Bool.not_eq_true', Bool.not_eq_false] at hlt
      have hpred : t.wrap (n.low - 1) = n.low - 1 :=
        wrap_pred hlow ((t.treeIntCstLt_iff ht wrap_wrap hlow).1 hlt)
      obtain ⟨p, hp, heq⟩ := List.any_eq_true.1 hb
      rw [decide_eq_true_eq, hpred] at heq
      obtain ⟨hple, ⟨hlt', -⟩ | ⟨-, hall⟩⟩ := hr.apart p hp
      · omega
      · have := hall n (by simp [CaseTree.toList])
        omega

theorem Reaches.high_bound (hr : Reaches t parents (.node left n right) index)
    (ht : t.precision ≤ 2 * h.bits) (hmax : t.maxValue.isSome)
    (hb : nodeHasHighBound t parents n right = true) : right = .nil ∧ index ≤ n.high := by
  obtain ⟨hle, -, ⟨-, -, hhigh⟩⟩ := hr.node
  unfold nodeHasHighBound at hb
  split at hb
  · next hnone => simp [hnone] at hmax
  split at hb
  · next hhighest =>
    refine ⟨?_, hr.has.2.1 _ hhighest.symm⟩
    cases right with
    | nil => rfl
    | node l c r =>
      have hmem : c ∈ (CaseTree.node l c r).toList := by simp [CaseTree.toList]
      have habove := hr.above c hmem
      obtain ⟨hcle, -, -, hcmax, -⟩ := hr.of c (by simp [CaseTree.toList])
      have := hcmax _ hhighest.symm
      omega
  split at hb
  · cases hb
  · next hnil =>
    split at hb
    · cases hb
    · next hlt =>
      refine ⟨by cases right <;> simp_all [CaseTree.isNil], ?_⟩
      simp only [Bool.not_eq_true', Bool.not_eq_false] at hlt
      have hsucc : t.wrap (n.high + 1) = n.high + 1 :=
        wrap_succ hhigh ((t.treeIntCstLt_iff ht hhigh wrap_wrap).1 hlt)
      obtain ⟨p, hp, heq⟩ := List.any_eq_true.1 hb
      rw [decide_eq_true_eq, hsucc] at heq
      obtain ⟨hple, ⟨-, hall⟩ | ⟨hlt', -⟩⟩ := hr.apart p hp
      · have := hall n (by simp [CaseTree.toList])
        omega
      · omega

/-- A bounded root is a leaf, and only its values come. -/
theorem Reaches.bounded (hr : Reaches t parents (.node left n right) index)
    (ht : t.precision ≤ 2 * h.bits) (hmax : t.maxValue.isSome)
    (hb : nodeIsBounded t parents left n right = true) :
    left = .nil ∧ right = .nil ∧ n.Holds index := by
  rw [nodeIsBounded, Bool.and_eq_true] at hb
  obtain ⟨hleft, hlow⟩ := hr.low_bound ht hb.1
  obtain ⟨hright, hhigh⟩ := hr.high_bound ht hmax hb.2
  exact ⟨hleft, hright, hlow, hhigh⟩

end Bounds

section Routes

variable {d : L} {parents : List (CaseNode L)} {left right : CaseTree (CaseNode L)}
  {n : CaseNode L} {index : Int} {r : Option (Target L)}

/-- A value in one of the cases goes to its label; no other goes anywhere but on, or to the default
label. -/
def Routes (d : L) (cs : List (CaseNode L)) (index : Int) (r : Option (Target L)) : Prop :=
  (∀ c ∈ cs, c.Holds index → r = some (.code c.codeLabel)) ∧
    ((∀ c ∈ cs, ¬ c.Holds index) → r = none ∨ r = some (.code d))

theorem Routes.nil_fell : Routes d [] index none := by
  simp [Routes]

theorem Routes.nil_default : Routes d [] index (some (.code d)) := by
  simp [Routes]

theorem Routes.single_fell {c : CaseNode L} (hone : c.low = c.high) (hne : index ≠ c.low) :
    Routes d (CaseTree.node .nil c .nil).toList index none := by
  refine ⟨fun c' hc' hold => ?_, fun _ => .inl rfl⟩
  obtain rfl : c' = c := by simpa [CaseTree.toList] using hc'
  exact absurd (le_antisymm (hone ▸ hold.2) hold.1) hne

theorem Routes.eq_code {cs : List (CaseNode L)} {l : Target L} (h : Routes d cs index (some l)) :
    ∃ l', l = .code l' := by
  by_cases hold : ∃ c ∈ cs, c.Holds index
  · obtain ⟨c, hc, hold⟩ := hold
    exact ⟨_, Option.some.inj (h.1 c hc hold)⟩
  · obtain hr | hr := h.2 fun c hc hh => hold ⟨c, hc, hh⟩
    · cases hr
    · exact ⟨_, Option.some.inj hr⟩

theorem Routes.on_left (hr : Reaches t parents (.node left n right) index) (hlt : index < n.low)
    (h : Routes d left.toList index r) : Routes d (CaseTree.node left n right).toList index r := by
  have hout : ∀ c ∈ n :: right.toList, ¬ c.Holds index := by
    intro c hc hold
    obtain rfl | hc := List.mem_cons.1 hc
    · exact absurd hold.1 (by omega)
    · have := hr.above c hc
      have := hr.node.1
      exact absurd hold.1 (by omega)
  refine ⟨fun c hc hold => ?_, fun hnone => h.2 fun c hc => hnone c (List.mem_append_left _ hc)⟩
  obtain hc | hc := List.mem_append.1 hc
  · exact h.1 c hc hold
  · exact absurd hold (hout c hc)

theorem Routes.on_right (hr : Reaches t parents (.node left n right) index) (hgt : n.high < index)
    (h : Routes d right.toList index r) : Routes d (CaseTree.node left n right).toList index r := by
  refine ⟨fun c hc hold => ?_, fun hnone => h.2 fun c hc => hnone c (by simp [CaseTree.toList, hc])⟩
  obtain hc | hc := List.mem_append.1 hc
  · have := hr.below c hc
    have := hr.node.1
    exact absurd hold.2 (by omega)
  · obtain rfl | hc := List.mem_cons.1 hc
    · exact absurd hold.2 (by omega)
    · exact h.1 c hc hold

theorem Routes.here (hr : Reaches t parents (.node left n right) index) (hold : n.Holds index) :
    Routes d (CaseTree.node left n right).toList index (some (.code n.codeLabel)) := by
  refine ⟨fun c hc hold' => ?_, fun hnone => absurd hold (hnone n (by simp [CaseTree.toList]))⟩
  obtain hc | hc := List.mem_append.1 hc
  · have := hr.below c hc
    exact absurd (hold'.2.trans_lt this) (by have := hold.1; omega)
  · obtain rfl | hc := List.mem_cons.1 hc
    · rfl
    · have := hr.above c hc
      exact absurd (this.trans_le hold'.1) (by have := hold.2; omega)

theorem Reaches.boundedLabel {tree : CaseTree (CaseNode L)} (hr : Reaches t parents tree index)
    (ht : t.precision ≤ 2 * h.bits) (hmax : t.maxValue.isSome) {l : L}
    (hb : boundedLabel t parents tree = some l) : Routes d tree.toList index (some (.code l)) := by
  cases tree with
  | nil => cases hb
  | node left n right =>
    rw [Z80Gcc.boundedLabel] at hb
    split at hb
    · next hbounded =>
      obtain rfl := Option.some.inj hb
      exact .here hr (hr.bounded ht hmax hbounded).2.2
    · cases hb

theorem singleValue_eq {tree : CaseTree (CaseNode L)} {c : CaseNode L}
    (h : singleValue tree = some c) : tree = .node .nil c .nil ∧ c.low = c.high := by
  unfold singleValue at h
  split at h
  · split at h
    · next heq =>
      obtain rfl := Option.some.inj h
      exact ⟨rfl, heq⟩
    · cases h
  · cases h

theorem eq_nil_of_isNil {tree : CaseTree (CaseNode L)} (h : tree.isNil = true) : tree = .nil := by
  cases tree with
  | nil => rfl
  | node => cases h

/-- The test labels of a subtree are named by the places in it. -/
theorem labels_emitCaseNodes (tree : CaseTree (CaseNode L)) (parents : List (CaseNode L))
    (path : List Bool) {l : Target L} (hl : l ∈ labels (emitCaseNodes t d parents path tree)) :
    ∃ q, l = .test q ∧ path <:+ q := by
  induction tree generalizing parents path with
  | nil => cases hl
  | node left n right ihl ihr =>
    have hleft : l ∈ labels (emitCaseNodes t d (n :: parents) (false :: path) left) →
        ∃ q, l = .test q ∧ path <:+ q := by
      intro hl
      obtain ⟨q, hq, hsuf⟩ := ihl _ _ hl
      exact ⟨q, hq, (List.suffix_cons _ _).trans hsuf⟩
    have hright : l ∈ labels (emitCaseNodes t d (n :: parents) (true :: path) right) →
        ∃ q, l = .test q ∧ path <:+ q := by
      intro hl
      obtain ⟨q, hq, hsuf⟩ := ihr _ _ hl
      exact ⟨q, hq, (List.suffix_cons _ _).trans hsuf⟩
    have hsplit : l = .test path ∨
        l ∈ labels (emitCaseNodes t d (n :: parents) (false :: path) left) ∨
          l ∈ labels (emitCaseNodes t d (n :: parents) (true :: path) right) := by
      revert hl
      rw [emitCaseNodes]
      repeat' split
      all_goals
        simp [labels, labels_append, labels_emitJumpIfReachable, jumpTo]
        try tauto
    obtain rfl | hl | hl := hsplit
    · exact ⟨path, rfl, List.suffix_rfl⟩
    · exact hleft hl
    · exact hright hl

theorem code_not_mem_labels (tree : CaseTree (CaseNode L)) (parents : List (CaseNode L))
    (path : List Bool) (l : L) : Target.code l ∉ labels (emitCaseNodes t d parents path tree) := by
  intro hl
  obtain ⟨q, hq, -⟩ := labels_emitCaseNodes tree parents path hl
  cases hq

variable [DecidableEq L] {test : Test} {l : Target L} {code : List (TestLine L)}

/-- A jump out is right if it is right when taken, and the code behind it when not. -/
theorem jump_routes {cs : List (CaseNode L)} (hm : t.precision ≤ m) (hindex : t.wrap index = index)
    (hof : test.Of t) (hl : l ∉ labels code)
    (htaken : test.Asks index → Routes d cs index (some l))
    (huntaken : ¬ test.Asks index →
      Routes d cs index (run t.unsignedp (BitVec.ofInt m index) code)) :
    Routes d cs index (run t.unsignedp (BitVec.ofInt m index) (.jump test l :: code)) := by
  rw [run_jump hl]
  split
  · next hholds => exact htaken ((Test.holds_iff hm hindex hof).1 hholds)
  · next hholds => exact huntaken fun h => hholds ((Test.holds_iff hm hindex hof).2 h)

theorem jump_over_routes {cs : List (CaseNode L)} {a b : List (TestLine L)}
    (hm : t.precision ≤ m) (hindex : t.wrap index = index) (hof : test.Of t) (hl : l ∉ labels a)
    (htaken : test.Asks index → Routes d cs index (run t.unsignedp (BitVec.ofInt m index) b))
    (huntaken : ¬ test.Asks index →
      Routes d cs index (run t.unsignedp (BitVec.ofInt m index) (a ++ .label l :: b))) :
    Routes d cs index
      (run t.unsignedp (BitVec.ofInt m index) (.jump test l :: (a ++ .label l :: b))) := by
  rw [run_jump_over hl]
  split
  · next hholds => exact htaken ((Test.holds_iff hm hindex hof).1 hholds)
  · next hholds => exact huntaken fun h => hholds ((Test.holds_iff hm hindex hof).2 h)

/-- The code of the left side, made to end in a jump, is not left by falling through. -/
theorem routes_reachable {u : Bool} {reg : BitVec m} {cs : List (CaseNode L)}
    (h : Routes d cs index (run u reg code)) :
    ∃ l', run u reg (emitJumpIfReachable d code) = some (.code l') ∧
      Routes d cs index (some (.code l')) := by
  rw [run_emitJumpIfReachable]
  cases hr : run u reg code with
  | none =>
    refine ⟨d, rfl, ?_, fun _ => .inr rfl⟩
    intro c hc hold
    have := h.1 c hc hold
    rw [hr] at this
    cases this
  | some r =>
    rw [hr] at h
    obtain ⟨l', rfl⟩ := h.eq_code
    exact ⟨l', rfl, h⟩

theorem reachable_routes {u : Bool} {reg : BitVec m} {cs : List (CaseNode L)}
    {after : List (TestLine L)} (hafter : ∀ l', Target.code l' ∉ labels after)
    (h : Routes d cs index (run u reg code)) :
    Routes d cs index (run u reg (emitJumpIfReachable d code ++ after)) := by
  obtain ⟨l', hl', hroutes⟩ := routes_reachable h
  rw [run_append (hafter l') hl']
  exact hroutes

/-- A node that a value has come to, with the code for its children. -/
structure AtNode (t : IntegerType h) (d : L) (m : Nat) (parents : List (CaseNode L)) (path : List Bool)
    (left : CaseTree (CaseNode L)) (n : CaseNode L) (right : CaseTree (CaseNode L)) (index : Int)
    (onLeft onRight : List (TestLine L)) : Prop where
  reaches : Reaches t parents (.node left n right) index
  goes_left : index < n.low → Routes d left.toList index (run t.unsignedp (BitVec.ofInt m index) onLeft)
  goes_right : n.high < index → Routes d right.toList index (run t.unsignedp (BitVec.ofInt m index) onRight)
  left_labels : ∀ l, Target.code l ∉ labels onLeft
  right_labels : ∀ l, Target.code l ∉ labels onRight
  test_label : Target.test path ∉ labels onLeft

namespace AtNode

variable {path : List Bool} {onLeft onRight : List (TestLine L)} {c : CaseNode L} {l : L}

theorem low (ha : AtNode t d m parents path left n right index onLeft onRight) : t.wrap n.low = n.low :=
  ha.reaches.node.2.1.2.2

theorem high (ha : AtNode t d m parents path left n right index onLeft onRight) : t.wrap n.high = n.high :=
  ha.reaches.node.2.2.2.2

theorem to_left (ha : AtNode t d m parents path left n right index onLeft onRight) (hlt : index < n.low) :
    Routes d (CaseTree.node left n right).toList index (run t.unsignedp (BitVec.ofInt m index) onLeft) :=
  .on_left ha.reaches hlt (ha.goes_left hlt)

theorem to_right (ha : AtNode t d m parents path left n right index onLeft onRight) (hgt : n.high < index) :
    Routes d (CaseTree.node left n right).toList index (run t.unsignedp (BitVec.ofInt m index) onRight) :=
  .on_right ha.reaches hgt (ha.goes_right hgt)

theorem here (ha : AtNode t d m parents path left n right index onLeft onRight) (hgt : ¬ n.high < index)
    (hlt : ¬ index < n.low) :
    Routes d (CaseTree.node left n right).toList index (some (.code n.codeLabel)) :=
  .here ha.reaches ⟨not_lt.1 hlt, not_lt.1 hgt⟩

/-- The code of the left side, in front of that of the right one. -/
theorem reachable (ha : AtNode t d m parents path left n right index onLeft onRight) (hlt : index < n.low) :
    Routes d (CaseTree.node left n right).toList index (run t.unsignedp (BitVec.ofInt m index)
      (emitJumpIfReachable d onLeft ++ .label (.test path) :: onRight)) := by
  refine .on_left ha.reaches hlt (reachable_routes ?_ (ha.goes_left hlt))
  simp [labels, ha.right_labels]

theorem gt_label (ha : AtNode t d m parents path left n right index onLeft onRight) (hm : t.precision ≤ m)
    (ht : t.precision ≤ 2 * h.bits) (hmax : t.maxValue.isSome)
    (hbounded : boundedLabel t (n :: parents) right = some l) (hl : Target.code l ∉ labels code)
    (hrest : ¬ n.high < index →
      Routes d (CaseTree.node left n right).toList index (run t.unsignedp (BitVec.ofInt m index) code)) :
    Routes d (CaseTree.node left n right).toList index
      (run t.unsignedp (BitVec.ofInt m index) (.jump (.gt n.high) (.code l) :: code)) := by
  refine jump_routes hm ha.reaches.has.2.2 (show Test.Of t (.gt n.high) from ha.high) hl (fun hgt => ?_) hrest
  exact .on_right ha.reaches hgt ((ha.reaches.on_right hgt).boundedLabel ht hmax hbounded)

theorem lt_label (ha : AtNode t d m parents path left n right index onLeft onRight) (hm : t.precision ≤ m)
    (ht : t.precision ≤ 2 * h.bits) (hmax : t.maxValue.isSome) (hone : n.low = n.high)
    (hbounded : boundedLabel t (n :: parents) left = some l) (hl : Target.code l ∉ labels code)
    (hrest : ¬ index < n.low →
      Routes d (CaseTree.node left n right).toList index (run t.unsignedp (BitVec.ofInt m index) code)) :
    Routes d (CaseTree.node left n right).toList index
      (run t.unsignedp (BitVec.ofInt m index) (.jump (.lt n.high) (.code l) :: code)) := by
  refine jump_routes hm ha.reaches.has.2.2 (show Test.Of t (.lt n.high) from ha.high) hl (fun hlt => ?_)
    fun hlt => hrest (hone ▸ hlt)
  have hlt' : index < n.low := hone ▸ hlt
  exact .on_left ha.reaches hlt' ((ha.reaches.on_left hlt').boundedLabel ht hmax hbounded)

/-- Neither child is bounded; the code for the right one has a label. -/
theorem gt_test (ha : AtNode t d m parents path left n right index onLeft onRight) (hm : t.precision ≤ m)
    {before : List (TestLine L)} (hbefore : Target.test path ∉ labels before)
    (hrest : ¬ n.high < index → Routes d (CaseTree.node left n right).toList index
      (run t.unsignedp (BitVec.ofInt m index)
        ((before ++ emitJumpIfReachable d onLeft) ++ .label (.test path) :: onRight))) :
    Routes d (CaseTree.node left n right).toList index (run t.unsignedp (BitVec.ofInt m index)
      (.jump (.gt n.high) (.test path) ::
        ((before ++ emitJumpIfReachable d onLeft) ++ .label (.test path) :: onRight))) := by
  refine jump_over_routes hm ha.reaches.has.2.2 (show Test.Of t (.gt n.high) from ha.high) ?_
    (fun hgt => ha.to_right hgt) hrest
  rw [labels_append, labels_emitJumpIfReachable, List.mem_append, not_or]
  exact ⟨hbefore, ha.test_label⟩

theorem low_test (ha : AtNode t d m parents path left n right index onLeft onRight) (hm : t.precision ≤ m)
    (ht : t.precision ≤ 2 * h.bits) (hleft : left = .nil) {v : Int} (hv : v = n.low)
    (hd : Target.code d ∉ labels code)
    (hrest : ¬ index < n.low →
      Routes d (CaseTree.node left n right).toList index (run t.unsignedp (BitVec.ofInt m index) code)) :
    Routes d (CaseTree.node left n right).toList index (run t.unsignedp (BitVec.ofInt m index)
      ((if nodeHasLowBound t parents left n then [] else [.jump (.lt v) (.code d)]) ++ code)) := by
  subst hv
  split
  · next hbound => exact hrest (ha.reaches.low_bound ht hbound).2.not_gt
  · refine jump_routes hm ha.reaches.has.2.2 (show Test.Of t (.lt n.low) from ha.low) hd (fun hlt => ?_) hrest
    refine .on_left ha.reaches hlt ?_
    rw [hleft]
    exact .nil_default

theorem high_test (ha : AtNode t d m parents path left n right index onLeft onRight) (hm : t.precision ≤ m)
    (ht : t.precision ≤ 2 * h.bits) (hmax : t.maxValue.isSome) (hright : right = .nil)
    (hd : Target.code d ∉ labels code)
    (hrest : ¬ n.high < index →
      Routes d (CaseTree.node left n right).toList index (run t.unsignedp (BitVec.ofInt m index) code)) :
    Routes d (CaseTree.node left n right).toList index (run t.unsignedp (BitVec.ofInt m index)
      ((if nodeHasHighBound t parents n right then [] else [.jump (.gt n.high) (.code d)]) ++ code)) := by
  split
  · next hbound => exact hrest (ha.reaches.high_bound ht hmax hbound).2.not_gt
  · refine jump_routes hm ha.reaches.has.2.2 (show Test.Of t (.gt n.high) from ha.high) hd (fun hgt => ?_) hrest
    refine .on_right ha.reaches hgt ?_
    rw [hright]
    exact .nil_default

/-- The only child is a single value on the right. -/
theorem right_value (ha : AtNode t d m parents path left n right index onLeft onRight) (hm : t.precision ≤ m)
    (hleft : left = .nil) (hside : ¬ index < n.low → n.high < index) (hc : singleValue right = some c) :
    Routes d (CaseTree.node left n right).toList index
      (run t.unsignedp (BitVec.ofInt m index) [.jump (.eq c.low) (.code c.codeLabel)]) := by
  have hr := ha.reaches
  obtain ⟨rfl, hone⟩ := singleValue_eq hc
  have hlow := (hr.of c (by simp [CaseTree.toList])).2.1.2.2
  refine jump_routes hm hr.has.2.2 (show Test.Of t (.eq c.low) from hlow) (by simp [labels]) (fun heq => ?_)
    fun hne => ?_
  · have hgt : n.high < index := heq ▸ hr.above c (by simp [CaseTree.toList])
    exact .on_right hr hgt (.here (hr.on_right hgt) ⟨heq.ge, hone ▸ heq.le⟩)
  · by_cases hlt : index < n.low
    · subst hleft
      exact .on_left hr hlt .nil_fell
    · exact .on_right hr (hside hlt) (.single_fell hone hne)

/-- The only child is a single value on the left. -/
theorem left_value (ha : AtNode t d m parents path left n right index onLeft onRight) (hm : t.precision ≤ m)
    (hright : right = .nil) (hside : ¬ n.high < index → index < n.low) (hc : singleValue left = some c) :
    Routes d (CaseTree.node left n right).toList index
      (run t.unsignedp (BitVec.ofInt m index) [.jump (.eq c.low) (.code c.codeLabel)]) := by
  have hr := ha.reaches
  obtain ⟨rfl, hone⟩ := singleValue_eq hc
  have hlow := (hr.of c (by simp [CaseTree.toList])).2.1.2.2
  refine jump_routes hm hr.has.2.2 (show Test.Of t (.eq c.low) from hlow) (by simp [labels]) (fun heq => ?_)
    fun hne => ?_
  · have hlt : index < n.low := heq ▸ hone ▸ hr.below c (by simp [CaseTree.toList])
    exact .on_left hr hlt (.here (hr.on_left hlt) ⟨heq.ge, hone ▸ heq.le⟩)
  · by_cases hgt : n.high < index
    · subst hright
      exact .on_right hr hgt .nil_fell
    · exact .on_left hr (hside hgt) (.single_fell hone hne)

/-- The test for the lower end of a range whose upper end has been tested. -/
theorem ge_label (ha : AtNode t d m parents path left n right index onLeft onRight) (hm : t.precision ≤ m)
    (hgt : ¬ n.high < index) (hl : Target.code n.codeLabel ∉ labels code)
    (hrest : index < n.low →
      Routes d (CaseTree.node left n right).toList index (run t.unsignedp (BitVec.ofInt m index) code)) :
    Routes d (CaseTree.node left n right).toList index
      (run t.unsignedp (BitVec.ofInt m index) (.jump (.ge n.low) (.code n.codeLabel) :: code)) :=
  jump_routes hm ha.reaches.has.2.2 (show Test.Of t (.ge n.low) from ha.low) hl
    (fun hge => ha.here hgt (not_lt.2 hge)) fun hge => hrest (not_le.1 hge)

/-- The test for the upper end, when the lower one has been tested. -/
theorem le_label (ha : AtNode t d m parents path left n right index onLeft onRight) (hm : t.precision ≤ m)
    (hlt : ¬ index < n.low) :
    Routes d (CaseTree.node left n right).toList index
      (run t.unsignedp (BitVec.ofInt m index) (.jump (.le n.high) (.code n.codeLabel) :: onRight)) :=
  jump_routes hm ha.reaches.has.2.2 (show Test.Of t (.le n.high) from ha.high) (ha.right_labels _)
    (fun hle => ha.here (not_lt.2 hle) hlt) fun hle => ha.to_right (not_le.1 hle)

end AtNode

/-- Every value that comes to a subtree goes to the label of the range it is in, and to no label
but the default one when it is in none. -/
theorem emitCaseNodes_routes (hm : t.precision ≤ m) (ht : t.precision ≤ 2 * h.bits)
    (hmax : t.maxValue.isSome) {tree : CaseTree (CaseNode L)}
    (hr : Reaches t parents tree index) (path : List Bool) :
    Routes d tree.toList index
      (run t.unsignedp (BitVec.ofInt m index) (emitCaseNodes t d parents path tree)) := by
  induction tree generalizing parents path with
  | nil => exact .nil_fell
  | node left n right ihl ihr =>
    have htl : Target.test path ∉ labels (emitCaseNodes t d (n :: parents) (false :: path) left) := by
      intro hmem
      obtain ⟨q, hq, hsuf⟩ := labels_emitCaseNodes left (n :: parents) (false :: path) hmem
      obtain rfl := Target.test.inj hq
      have := hsuf.length_le
      simp at this
    have ha : AtNode t d m parents path left n right index (emitCaseNodes t d (n :: parents) (false :: path) left)
        (emitCaseNodes t d (n :: parents) (true :: path) right) :=
      ⟨hr, fun hlt => ihl (hr.on_left hlt) (false :: path), fun hgt => ihr (hr.on_right hgt) (true :: path),
        code_not_mem_labels left (n :: parents) (false :: path),
        code_not_mem_labels right (n :: parents) (true :: path), htl⟩
    rw [emitCaseNodes]
    generalize emitCaseNodes t d (n :: parents) (false :: path) left = onLeft at ha
    generalize emitCaseNodes t d (n :: parents) (true :: path) right = onRight at ha
    have hcl := ha.left_labels
    have hcr := ha.right_labels
    by_cases hb : nodeIsBounded t parents left n right = true
    · rw [if_pos hb, run_jumpTo]
      exact .here hr (hr.bounded ht hmax hb).2.2
    rw [if_neg hb]
    by_cases hone : n.low = n.high
    · rw [if_pos hone]
      refine jump_routes hm hr.has.2.2 (show Test.Of t (.eq n.low) from ha.low) ?_ (fun heq => ?_)
        fun hne => ?_
      · repeat' split
        all_goals simp [labels, labels_append, labels_emitJumpIfReachable, hcl, hcr]
      · exact .here hr ⟨heq.ge, by simp only [Test.Asks] at heq; omega⟩
      have hside : ¬ n.high < index → index < n.low := by
        simp only [Test.Asks] at hne
        omega
      have hside' : ¬ index < n.low → n.high < index := by
        simp only [Test.Asks] at hne
        omega
      split
      · -- children on both sides
        split
        · next l hbr => exact ha.gt_label hm ht hmax hbr (hcl l) fun hgt => ha.to_left (hside hgt)
        · next l hbr hbl =>
          exact ha.lt_label hm ht hmax hone hbl (hcr l) fun hlt => ha.to_right (hside' hlt)
        · have hnone : Target.test path ∉ labels ([] : List (TestLine L)) := List.not_mem_nil
          exact ha.gt_test hm hnone fun hgt => ha.reachable (hside hgt)
      · next hleft hright =>
        -- only a right child
        split
        · exact ha.low_test hm ht (eq_nil_of_isNil hleft) hone.symm (hcr d) fun hlt => ha.to_right (hside' hlt)
        · next c hc => exact ha.right_value hm (eq_nil_of_isNil hleft) hside' hc
      · next hleft hright =>
        -- only a left child
        split
        · exact ha.high_test hm ht hmax (eq_nil_of_isNil hright) (hcl d) fun hgt => ha.to_left (hside hgt)
        · next c hc => exact ha.left_value hm (eq_nil_of_isNil hright) hside hc
      · next hleft hright =>
        obtain rfl := eq_nil_of_isNil hleft
        obtain rfl := eq_nil_of_isNil hright
        by_cases hlt : index < n.low
        · exact .on_left hr hlt .nil_fell
        · exact .on_right hr (hside' hlt) .nil_fell
    · rw [if_neg hone]
      split
      · -- children on both sides
        split
        · next l hbr =>
          exact ha.gt_label hm ht hmax hbr (by simpa [labels] using hcl l) fun hgt =>
            ha.ge_label hm hgt (hcl _) ha.to_left
        · have hnone : Target.test path ∉ labels ([.jump (.ge n.low) (.code n.codeLabel)] : List (TestLine L)) := by
            simp [labels]
          refine ha.gt_test hm hnone fun hgt => ?_
          refine ha.ge_label hm hgt ?_ ha.reachable
          simp [labels, labels_append, labels_emitJumpIfReachable, hcl, hcr]
      · next hleft hright =>
        -- only a right child
        exact ha.low_test hm ht (eq_nil_of_isNil hleft) rfl (by simpa [labels] using hcr d) (ha.le_label hm)
      · next hleft hright =>
        -- only a left child
        exact ha.high_test hm ht hmax (eq_nil_of_isNil hright) (by simpa [labels] using hcl d) fun hgt =>
          ha.ge_label hm hgt (hcl _) ha.to_left
      · next hleft hright =>
        refine ha.high_test hm ht hmax (eq_nil_of_isNil hright) ?_ fun hgt => ?_
        · split <;> simp [labels, jumpTo]
        · refine ha.low_test hm ht (eq_nil_of_isNil hleft) rfl (by simp [labels, jumpTo]) fun hlt => ?_
          rw [run_jumpTo]
          exact ha.here hgt hlt

end Routes

end Z80Gcc
