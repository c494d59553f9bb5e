import Z80Gcc.Spec.AliasSets
import Z80Gcc.Proofs.SplayMap

/-! The trees of alias.c hold, for each set, those below it by the calls so far, so that two references are found
disjoint exactly when no calls lead from one set down to the other. -/

namespace Z80Gcc.AliasSets

open Splay

variable {w : Nat}

section Calls

variable {calls : List (BitVec 32 × BitVec 32)} {set1 set2 superset subset : BitVec 32}

theorem not_childAfter_nil : ¬ChildAfter [] set1 set2 := by
  rintro ⟨chain, hne, hsub, -⟩
  exact hne (List.sublist_nil.1 hsub)

theorem childAfter_cons : ChildAfter ((superset, subset) :: calls) set1 set2 ↔
    ChildAfter calls set1 set2 ∨ superset = set1 ∧ (subset = set2 ∨ ChildAfter calls subset set2) := by
  constructor
  · rintro ⟨chain, hne, hsub, hleads⟩
    cases hsub with
    | cons _ hsub => exact .inl ⟨chain, hne, hsub, hleads⟩
    | @cons_cons chain _ _ hsub =>
      obtain ⟨hfrom, hleads⟩ := hleads
      refine .inr ⟨hfrom, ?_⟩
      by_cases hnil : chain = []
      · subst hnil
        exact .inl hleads
      · exact .inr ⟨chain, hnil, hsub, hleads⟩
  · rintro (⟨chain, hne, hsub, hleads⟩ | ⟨rfl, rfl | ⟨chain, -, hsub, hleads⟩⟩)
    · exact ⟨chain, hne, hsub.cons _, hleads⟩
    · exact ⟨[(superset, subset)], List.cons_ne_nil _ _, (List.nil_sublist calls).cons_cons _, rfl, rfl⟩
    · exact ⟨(superset, subset) :: chain, List.cons_ne_nil _ _, hsub.cons_cons _, rfl, hleads⟩

theorem childAfter_cons_of_ne (hne : superset ≠ set1) :
    ChildAfter ((superset, subset) :: calls) set1 set2 ↔ ChildAfter calls set1 set2 := by
  rw [childAfter_cons]
  exact or_iff_left fun h => hne h.1

end Calls

theorem intKey_toKey (hw : 32 ≤ w) (a : BitVec 32) : intKey (toKey a : BitVec w) = a.toInt := by
  have h : (a.signExtend w).setWidth 32 = a := by
    refine BitVec.eq_of_getLsbD_eq fun i hi => ?_
    simp [BitVec.getElem_signExtend, hi, Nat.lt_of_lt_of_le hi hw]
  rw [intKey, toKey, h]

section Children

variable {L V : Type} [LinearOrder L] {K : Type} {rank : K → L}

theorem insertEntry_isSome (m : L → Option (K × V)) (key : K) (value : V) (x : L) :
    (insertEntry rank m key value x).isSome ↔ x = rank key ∨ (m x).isSome := by
  rw [insertEntry]
  by_cases hx : x = rank key
  · subst hx
    simp
  · rw [Function.update_of_ne hx]
    exact (or_iff_right hx).symm

omit [LinearOrder L] in
theorem represents_isSome {m : L → Option (K × V)} {es : List (K × V)} (hm : Represents rank m es) (x : L) :
    (m x).isSome ↔ ∃ e ∈ es, rank e.1 = x := by
  rw [Option.isSome_iff_exists]
  exact exists_congr fun e => hm x e

/-- Going over the entries of a tree puts their keys into another. -/
theorem visit_insert_subset {sp : SplayTree (BitVec w) Nat} {m : Int → Option (BitVec w × Nat)}
    (h : IsMap intKey sp m) (es : List (BitVec w × Nat)) :
    ∃ sp' m', visit insertSubsetChildren es (some sp) = (0, some sp') ∧ IsMap intKey sp' m' ∧
      ∀ x, (m' x).isSome ↔ (m x).isSome ∨ ∃ e ∈ es, intKey e.1 = x := by
  induction es generalizing sp m with
  | nil => exact ⟨sp, m, rfl, h, fun x => by simp⟩
  | cons e es ih =>
    obtain ⟨key, value⟩ := e
    obtain ⟨sp₁, hins, hmap⟩ := h.insert key value
    obtain ⟨sp', m', hvisit, hmap', hm'⟩ := ih hmap
    refine ⟨sp', m', ?_, hmap', fun x => ?_⟩
    · simp [visit, insertSubsetChildren, hins, hvisit]
    · rw [hm', insertEntry_isSome, List.exists_mem_cons_iff, or_assoc, or_left_comm, @eq_comm _ x]

end Children

section Sound

variable {calls : List (BitVec 32 × BitVec 32)} {s : AliasState w}

def EntryOf (s : AliasState w) (a : BitVec 32) (i : Nat) : Prop :=
  ∃ ase, s.entries[i]? = some ase ∧ ase.aliasSet = a

/-- The state after some calls: the tree finds the entry of each set that has one, and the children of an entry are
the sets below it. -/
structure Sound (calls : List (BitVec 32 × BitVec 32)) (s : AliasState w) : Prop where
  sets : ∃ m, IsMap intKey s.aliasSets m ∧ ∀ a i, (m a.toInt).map Prod.snd = some i ↔ EntryOf s a i
  children : ∀ (i : Nat) (ase : AliasSetEntry w), s.entries[i]? = some ase → ∃ c, IsMap intKey ase.children c ∧
    ∀ x : BitVec 32, (c x.toInt).isSome ↔ ChildAfter calls ase.aliasSet x
  others : ∀ a, (∀ i, ¬EntryOf s a i) → ∀ x, ¬ChildAfter calls a x

theorem sound_init : Sound [] (initAliasOnce : AliasState w) := by
  refine ⟨⟨_, isMap_new ranks_compare_ints false, fun a i => ?_⟩, fun i ase h => ?_, fun a _ x => not_childAfter_nil⟩
  · simp [initAliasOnce, EntryOf]
  · simp [initAliasOnce] at h

theorem getAliasSetEntry_sound (hw : 32 ≤ w) (h : Sound calls s) (a : BitVec 32) :
    ∃ s' o, getAliasSetEntry s a = some (s', o) ∧ Sound calls s' ∧ s'.entries = s.entries ∧
      ∀ i, o = some i ↔ EntryOf s a i := by
  obtain ⟨⟨m, hmap, hm⟩, hchildren, hothers⟩ := h
  obtain ⟨sp', nd, hlookup, hmap', hnd⟩ := hmap.lookup (toKey a)
  refine ⟨{ s with aliasSets := sp' }, nd.map fun nd => nd.value, ?_, ⟨⟨m, hmap', hm⟩, hchildren, hothers⟩, rfl,
    fun i => ?_⟩
  · rw [getAliasSetEntry, hlookup]
    rfl
  · rw [← hm, ← intKey_toKey hw, ← hnd, Option.map_map]
    rfl

/-- The children of an entry are replaced by a tree for `calls'`, which differ only in what is below its set. -/
theorem sound_setChildren {calls' : List (BitVec 32 × BitVec 32)} (h : Sound calls s) {i : Nat}
    {ase : AliasSetEntry w} (hase : s.entries[i]? = some ase) {children : SplayTree (BitVec w) Nat}
    {c : Int → Option (BitVec w × Nat)} (hmap : IsMap intKey children c)
    (hc : ∀ x : BitVec 32, (c x.toInt).isSome ↔ ChildAfter calls' ase.aliasSet x)
    (hne : ∀ a, a ≠ ase.aliasSet → ∀ x, ChildAfter calls' a x ↔ ChildAfter calls a x) :
    Sound calls' { s with entries := s.entries.modify i fun ase => { ase with children := children } } := by
  obtain ⟨⟨m, hsets, hm⟩, hchildren, hothers⟩ := h
  have hentry : ∀ a j, EntryOf { s with entries := s.entries.modify i fun ase => { ase with children := children } } a j ↔
      EntryOf s a j := by
    intro a j
    simp only [EntryOf, List.getElem?_modify]
    cases s.entries[j]? <;> by_cases hij : i = j <;> simp [hij]
  refine ⟨⟨m, hsets, fun a j => (hm a j).trans (hentry a j).symm⟩, fun j ase' hj => ?_, fun a ha x => ?_⟩
  · rw [List.getElem?_modify] at hj
    by_cases hij : i = j
    · subst hij
      rw [hase] at hj
      obtain rfl : { ase with children := children } = ase' := by simpa using hj
      exact ⟨c, hmap, hc⟩
    · have hj' : s.entries[j]? = some ase' := by simpa [hij] using hj
      obtain ⟨c', hmap', hc'⟩ := hchildren j ase' hj'
      refine ⟨c', hmap', fun x => (hc' x).trans (hne _ (fun heq => hij ?_) x).symm⟩
      have hi := (hm ase.aliasSet i).2 ⟨ase, hase, rfl⟩
      have hj := (hm ase.aliasSet j).2 ⟨ase', hj', heq⟩
      exact Option.some.inj (hi.symm.trans hj)
  · have ha' : ∀ j, ¬EntryOf s a j := fun j hj => ha j ((hentry a j).2 hj)
    have hane : a ≠ ase.aliasSet := fun heq => ha' i ⟨ase, hase, heq.symm⟩
    rw [hne a hane]
    exact hothers a ha' x

theorem isChild_sound (hw : 32 ≤ w) (h : Sound calls s) (set1 set2 : BitVec 32) :
    ∃ s' b, isChild s set1 set2 = some (s', b) ∧ Sound calls s' ∧ (b = true ↔ ChildAfter calls set1 set2) := by
  obtain ⟨s₁, o, hget, hsound, hentries, ho⟩ := getAliasSetEntry_sound hw h set1
  rw [isChild, hget]
  cases o with
  | none =>
    refine ⟨s₁, false, rfl, hsound, ⟨fun h => absurd h Bool.false_ne_true, fun hchild => ?_⟩⟩
    exact absurd hchild (h.others set1 (fun i hi => by cases (ho i).2 hi) set2)
  | some i =>
    obtain ⟨ase, hase, rfl⟩ := (ho i).1 rfl
    rw [← hentries] at hase
    obtain ⟨c, hmap, hc⟩ := hsound.children i ase hase
    obtain ⟨children, nd, hlookup, hmap', hnd⟩ := hmap.lookup (toKey set2)
    refine ⟨_, nd.isSome, ?_, sound_setChildren hsound hase hmap' hc fun a _ x => Iff.rfl, ?_⟩
    · simp only [Option.bind_eq_bind, Option.bind_some, lookupChild, hase, hlookup]
      rfl
    · rw [← hc, ← intKey_toKey hw, ← hnd, Option.isSome_map]

theorem memsInDisjointAliasSetsP_sound (hw : 32 ≤ w) (h : Sound calls s) (stdarg varargs : Bool)
    (set1 set2 : BitVec 32) :
    ∃ s' b, memsInDisjointAliasSetsP stdarg varargs s set1 set2 = some (s', b) ∧ Sound calls s' ∧
      (b = true ↔ stdarg = false ∧ varargs = false ∧ DisjointAfter calls set1 set2) := by
  rw [memsInDisjointAliasSetsP]
  by_cases hargs : (stdarg || varargs) = true
  · rw [if_pos hargs]
    refine ⟨s, false, rfl, h, ⟨fun h => absurd h Bool.false_ne_true, fun hd => ?_⟩⟩
    rw [hd.1, hd.2.1] at hargs
    exact absurd hargs Bool.false_ne_true
  rw [if_neg hargs]
  rw [Bool.not_eq_true, Bool.or_eq_false_iff] at hargs
  obtain ⟨rfl, rfl⟩ := hargs
  simp only [true_and]
  rw [DisjointAfter]
  split_ifs with h0 heq
  · refine ⟨s, false, rfl, h, ⟨fun h => absurd h Bool.false_ne_true, fun hd => ?_⟩⟩
    rcases h0 with h0 | h0
    · exact absurd h0 hd.1
    · exact absurd h0 hd.2.1
  · exact ⟨s, false, rfl, h, ⟨fun h => absurd h Bool.false_ne_true, fun hd => absurd heq hd.2.2.1⟩⟩
  · rw [not_or] at h0
    obtain ⟨s₁, b₁, h₁, hsound₁, hb₁⟩ := isChild_sound hw h set1 set2
    rw [h₁]
    cases b₁ with
    | true =>
      exact ⟨s₁, false, rfl, hsound₁, ⟨fun h => absurd h Bool.false_ne_true, fun hd => absurd (hb₁.1 rfl) hd.2.2.2.1⟩⟩
    | false =>
      obtain ⟨s₂, b₂, h₂, hsound₂, hb₂⟩ := isChild_sound hw hsound₁ set2 set1
      have hnot : ¬ChildAfter calls set1 set2 := fun hchild => by cases hb₁.2 hchild
      refine ⟨s₂, !b₂, ?_, hsound₂, ?_⟩
      · simp only [Option.bind_eq_bind, Option.bind_some, h₂]
        rfl
      · rw [Bool.not_eq_true', ← Bool.not_eq_true, hb₂]
        exact ⟨fun hn => ⟨h0.1, h0.2, heq, hnot, hn⟩, fun hd => hd.2.2.2.2⟩

theorem getElem?_concat_iff {X : Type} {xs : List X} {x y : X} {i : Nat} :
    (xs ++ [x])[i]? = some y ↔ xs[i]? = some y ∨ i = xs.length ∧ x = y := by
  rcases Nat.lt_trichotomy i xs.length with h | h | h
  · rw [List.getElem?_append_left h]
    exact (or_iff_left fun heq => h.ne heq.1).symm
  · subst h
    simp
  · rw [List.getElem?_eq_none (by simpa [Nat.succ_le_iff] using h), List.getElem?_eq_none h.le]
    simp [h.ne']

/-- The entry of a superset, which is made without children if it is not there. -/
theorem supersetEntry_sound (hw : 32 ≤ w) (h : Sound calls s) (superset : BitVec 32) :
    ∃ s' i, supersetEntry s superset = some (s', i) ∧ Sound calls s' ∧ EntryOf s' superset i := by
  obtain ⟨s₁, o, hget, hsound, hentries, ho⟩ := getAliasSetEntry_sound hw h superset
  rw [supersetEntry, hget]
  cases o with
  | some i =>
    refine ⟨s₁, i, rfl, hsound, ?_⟩
    rw [EntryOf, hentries]
    exact (ho i).1 rfl
  | none =>
    obtain ⟨⟨m, hmap, hm⟩, hchildren, hothers⟩ := hsound
    have hnone : ∀ i, ¬EntryOf s₁ superset i := by
      intro i hi
      rw [EntryOf, hentries] at hi
      exact Option.some_ne_none i ((ho i).2 hi).symm
    obtain ⟨sets, hins, hmap'⟩ := hmap.insert (toKey superset) s₁.entries.length
    refine ⟨⟨sets, s₁.entries ++ [⟨superset, splayTreeNew splayTreeCompareInts false⟩]⟩, s₁.entries.length,
      ?_, ⟨⟨_, hmap', fun a i => ?_⟩, fun i ase hi => ?_, fun a ha x => hothers a (fun i hi => ha i ?_) x⟩, ?_⟩
    · simp only [Option.bind_eq_bind, Option.bind_some, hins]
      rfl
    · simp only [EntryOf, getElem?_concat_iff, or_and_right, exists_or]
      rw [insertEntry, intKey_toKey hw]
      by_cases ha : a = superset
      · subst ha
        rw [Function.update_self]
        refine Iff.trans ?_ (or_iff_right (hnone i)).symm
        simp [eq_comm]
      · rw [Function.update_of_ne fun heq => ha (BitVec.toInt_inj.1 heq), hm]
        refine (or_iff_left ?_).symm
        rintro ⟨ase, ⟨-, rfl⟩, heq⟩
        exact ha heq.symm
    · rcases getElem?_concat_iff.1 hi with hi | ⟨-, rfl⟩
      · exact hchildren i ase hi
      · refine ⟨_, isMap_new ranks_compare_ints false, fun x => ?_⟩
        simpa using hothers superset hnone x
    · obtain ⟨ase, hase, hset⟩ := hi
      exact ⟨ase, getElem?_concat_iff.2 (.inl hase), hset⟩
    · exact ⟨_, List.getElem?_concat_length, rfl⟩

theorem recordAliasSubset_sound (hw : 32 ≤ w) (h : Sound calls s) {superset : BitVec 32} (hne : superset ≠ 0)
    (subset : BitVec 32) :
    ∃ s', recordAliasSubset s superset subset = some s' ∧ Sound ((superset, subset) :: calls) s' := by
  obtain ⟨s₁, i, hentry, hsound₁, hi⟩ := supersetEntry_sound hw h superset
  obtain ⟨s₂, o, hget, hsound₂, hentries, ho⟩ := getAliasSetEntry_sound hw hsound₁ subset
  rw [recordAliasSubset, if_neg hne, hentry]
  simp only [Option.bind_eq_bind, Option.bind_some, hget]
  obtain ⟨ase, hase, rfl⟩ := hi
  rw [← hentries] at hase
  obtain ⟨c, hmap, hc⟩ := hsound₂.children i ase hase
  have hsub : ∃ children c', subsetChildren s₂ o ase.children = some children ∧ IsMap intKey children c' ∧
      ∀ x : BitVec 32, (c' x.toInt).isSome ↔ ChildAfter calls ase.aliasSet x ∨ ChildAfter calls subset x := by
    cases o with
    | none =>
      refine ⟨ase.children, c, rfl, hmap, fun x => (hc x).trans (or_iff_left ?_).symm⟩
      exact hsound₁.others subset (fun j hj => Option.some_ne_none j ((ho j).2 hj).symm) x
    | some j =>
      obtain ⟨sub, hsub, hset⟩ := (ho j).1 rfl
      rw [← hentries] at hsub
      obtain ⟨c₁, hmap₁, hc₁⟩ := hsound₂.children j sub hsub
      obtain ⟨es, hes, hforeach⟩ := hmap₁.foreach
      obtain ⟨children, c', hvisit, hmap', hc'⟩ := visit_insert_subset hmap es
      refine ⟨children, c', ?_, hmap', fun x => ?_⟩
      · rw [subsetChildren, hsub]
        simp only [Option.bind_eq_bind, Option.bind_some, hforeach, hvisit]
      · rw [hc', hc, ← represents_isSome hes, hc₁, hset]
  obtain ⟨children, c', hsub, hmap', hc'⟩ := hsub
  obtain ⟨children', hins, hmap''⟩ := hmap'.insert (toKey subset) 0
  refine ⟨_, by rw [hase, Option.bind_some, hsub, Option.bind_some, hins]; rfl,
    sound_setChildren hsound₂ hase hmap'' (fun x => ?_) fun a ha x => childAfter_cons_of_ne (Ne.symm ha)⟩
  rw [insertEntry_isSome, intKey_toKey hw, hc', childAfter_cons, BitVec.toInt_inj]
  have hcomm : x = subset ↔ subset = x := eq_comm
  simp only [hcomm, true_and]
  tauto

/-- Over any order of calls and questions the trees stay sound and the answers are right. -/
theorem perform_sound (hw : 32 ≤ w) (h : Sound calls s) {actions : List Action}
    (hne : ∀ superset subset, Action.record superset subset ∈ actions → superset ≠ 0) :
    ∃ s' answers, perform s actions = some (s', answers) ∧ AnswersRight calls actions answers := by
  induction actions generalizing calls s with
  | nil => exact ⟨s, [], rfl, rfl⟩
  | cons action actions ih =>
    have hrest : ∀ superset subset, Action.record superset subset ∈ actions → superset ≠ 0 :=
      fun superset subset hmem => hne superset subset (List.mem_cons_of_mem _ hmem)
    cases action with
    | record superset subset =>
      obtain ⟨s₁, hrecord, hsound⟩ :=
        recordAliasSubset_sound hw h (hne superset subset List.mem_cons_self) subset
      obtain ⟨s', answers, hperform, hright⟩ := ih hsound hrest
      exact ⟨s', answers, by rw [perform, hrecord]; exact hperform, hright⟩
    | disjoint stdarg varargs set1 set2 =>
      obtain ⟨s₁, b, hmems, hsound, hb⟩ := memsInDisjointAliasSetsP_sound hw h stdarg varargs set1 set2
      obtain ⟨s', answers, hperform, hright⟩ := ih hsound hrest
      refine ⟨s', b :: answers, ?_, b, answers, rfl, hb, hright⟩
      rw [perform, hmems]
      simp only [Option.bind_eq_bind, Option.bind_some, hperform]
      rfl

end Sound

/-- In a compilation that records no subset of the set zero, and no set as its own subset, each question is answered
by whether the calls made so far lead from one set down to the other, newer calls above older ones. -/
theorem alias_sets_answer (hw : 32 ≤ w) (actions : List Action)
    (hcalls : ∀ superset subset, Action.record superset subset ∈ actions → superset ≠ 0 ∧ superset ≠ subset) :
    ∃ s answers, perform (initAliasOnce : AliasState w) actions = some (s, answers) ∧
      AnswersRight [] actions answers :=
  perform_sound hw sound_init fun superset subset hmem => (hcalls superset subset hmem).1

/-- A set put below the set 2 after that went below 1 is not found below 1, but in a function with variable arguments
that is not used. -/
theorem alias_sets_answer_late : ∃ s answers, perform (initAliasOnce : AliasState 64)
    [.record 1 2, .disjoint false false 2 1, .record 2 3, .disjoint false false 1 3, .disjoint true false 1 3] =
        some (s, answers) ∧
      AnswersRight [] [.record 1 2, .disjoint false false 2 1, .record 2 3, .disjoint false false 1 3,
        .disjoint true false 1 3] answers :=
  alias_sets_answer (by decide) _ fun superset subset hmem => by
    simp only [List.mem_cons, Action.record.injEq, reduceCtorEq, List.not_mem_nil, false_or, or_false] at hmem
    rcases hmem with ⟨rfl, rfl⟩ | ⟨rfl, rfl⟩ <;> decide

end Z80Gcc.AliasSets
