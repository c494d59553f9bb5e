import Mathlib

/-! Regions of a space that are kept apart while they are cut up and put together again. -/

namespace Z80Gcc.Regions

variable {α : Type*}

def Separate (l : List (Set α)) : Prop := l.Pairwise Disjoint

def covered (l : List (Set α)) : Set α := {x | ∃ a ∈ l, x ∈ a}

variable {a b s : Set α} {l l' m c : List (Set α)}

section Separate

theorem separate_perm (hp : l.Perm l') : Separate l ↔ Separate l' := hp.pairwise_iff fun h => h.symm

theorem separate_cons : Separate (a :: l) ↔ (∀ b ∈ l, Disjoint a b) ∧ Separate l := List.pairwise_cons

/-- Two regions are apart and together apart from the rest. -/
theorem separate_join : Separate (a :: b :: l) ↔ Disjoint a b ∧ Separate ((a ∪ b) :: l) := by
  rw [separate_cons, separate_cons, separate_cons, List.forall_mem_cons]
  constructor
  · intro ⟨⟨hab, ha⟩, hb, hl⟩
    exact ⟨hab, fun d hd => Set.disjoint_union_left.2 ⟨ha d hd, hb d hd⟩, hl⟩
  · intro ⟨hab, hunion, hl⟩
    exact ⟨⟨hab, fun d hd => (Set.disjoint_union_left.1 (hunion d hd)).1⟩,
      fun d hd => (Set.disjoint_union_left.1 (hunion d hd)).2, hl⟩

/-- A region outside a space is apart from all the regions inside it. -/
theorem Separate.cons_outside (hl : Separate l) (hinside : ∀ b ∈ l, b ⊆ s) (ha : Disjoint a s) :
    Separate (a :: l) :=
  separate_cons.2 ⟨fun b hb => ha.mono_right (hinside b hb), hl⟩

end Separate

section Covered

@[simp] theorem covered_nil : covered ([] : List (Set α)) = ∅ := by
  simp [covered]

@[simp] theorem covered_cons : covered (a :: l) = a ∪ covered l := by
  ext x
  simp [covered]

theorem covered_perm (hp : l.Perm l') : covered l = covered l' := by
  ext x
  exact ⟨fun ⟨a, ha, hx⟩ => ⟨a, hp.mem_iff.1 ha, hx⟩, fun ⟨a, ha, hx⟩ => ⟨a, hp.mem_iff.2 ha, hx⟩⟩

theorem subset_covered (ha : a ∈ l) : a ⊆ covered l := fun _ hx => ⟨a, ha, hx⟩

theorem covered_subset : covered l ⊆ s ↔ ∀ a ∈ l, a ⊆ s :=
  ⟨fun h _ ha => (subset_covered ha).trans h, fun h _ ⟨a, ha, hx⟩ => h a ha hx⟩

end Covered

/-- Regions that take the place of others, whatever is around them. -/
structure Rearranged (l l' : List (Set α)) : Prop where
  separate : ∀ c, Separate (l ++ c) → Separate (l' ++ c)
  covered : covered l = covered l'

namespace Rearranged

theorem refl (l : List (Set α)) : Rearranged l l := ⟨fun _ h => h, rfl⟩

theorem trans (h : Rearranged l l') (h' : Rearranged l' m) : Rearranged l m :=
  ⟨fun c hc => h'.separate c (h.separate c hc), h.covered.trans h'.covered⟩

theorem of_perm (hp : l.Perm l') : Rearranged l l' :=
  ⟨fun c => (separate_perm (hp.append_right c)).1, covered_perm hp⟩

theorem cons (a : Set α) (h : Rearranged l l') : Rearranged (a :: l) (a :: l') where
  separate := by
    intro c hc
    -- the region is around the others
    have hmove : ∀ l : List (Set α), ((a :: l) ++ c).Perm (l ++ a :: c) := fun l => List.perm_middle.symm
    exact (separate_perm (hmove l')).2 (h.separate (a :: c) ((separate_perm (hmove l)).1 hc))
  covered := by rw [covered_cons, covered_cons, h.covered]

theorem join (a b : Set α) (l : List (Set α)) : Rearranged (a :: b :: l) ((a ∪ b) :: l) where
  separate := fun _ hc => (separate_join.1 hc).2
  covered := by rw [covered_cons, covered_cons, covered_cons, Set.union_assoc]

theorem split (hab : Disjoint a b) (l : List (Set α)) : Rearranged ((a ∪ b) :: l) (a :: b :: l) where
  separate := fun _ hc => separate_join.2 ⟨hab, hc⟩
  covered := (join a b l).covered.symm

end Rearranged

end Z80Gcc.Regions
