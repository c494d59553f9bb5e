import Mathlib.Data.List.Chain
import Mathlib.Data.List.Nodup

/-! Linked lists in a heap. The links are functions on addresses, and a list of addresses says
which nodes are met, and in what order. -/

namespace Z80Gcc.LinkedList

variable {A : Type} {next prev next' prev' link link' : A → Option A}

/-- The nodes met from the first one on, until a link is null. -/
def Path (link : A → Option A) : List A → Prop
  | [] => True
  | a :: l => link a = l.head? ∧ Path link l

theorem Path.congr {l : List A} (h : Path link l) (heq : ∀ a ∈ l, link' a = link a) :
    Path link' l := by
  induction l with
  | nil => trivial
  | cons a l ih =>
    obtain ⟨ha, hl⟩ := List.forall_mem_cons.1 heq
    exact ⟨ha.trans h.1, ih h.2 hl⟩

/-- A segment of a doubly linked list, between the nodes `p` and `q`. -/
def Linked (next prev : A → Option A) (p : Option A) : List A → Option A → Prop
  | [], _ => True
  | a :: l, q => prev a = p ∧ next a = l.head?.or q ∧ Linked next prev (some a) l q

variable {p q p' q' : Option A} {l l₁ l₂ : List A} {x : A}

theorem linked_append : Linked next prev p (l₁ ++ l₂) q ↔
    Linked next prev p l₁ (l₂.head?.or q) ∧ Linked next prev (l₁.getLast?.or p) l₂ q := by
  induction l₁ generalizing p with
  | nil => simp [Linked]
  | cons a l₁ ih =>
    rw [List.cons_append, Linked, Linked, ih, and_assoc, and_assoc, List.head?_append,
      Option.or_assoc, List.getLast?_cons]
    simp

theorem Linked.path (h : Linked next prev p l none) : Path next l := by
  induction l generalizing p with
  | nil => trivial
  | cons a l ih => exact ⟨h.2.1.trans (by simp), ih h.2.2⟩

theorem Linked.path_reverse_append (back : List A) (h : Linked next prev back.head? l q)
    (hback : Path prev back) : Path prev (l.reverse ++ back) := by
  induction l generalizing back with
  | nil => exact hback
  | cons a l ih =>
    rw [List.reverse_cons, List.append_assoc]
    exact ih (a :: back) h.2.2 ⟨h.1, hback⟩

theorem Linked.path_back (h : Linked next prev none (l₁ ++ x :: l₂) q) :
    Path prev (x :: l₁.reverse) := by
  have hsplit : Linked next prev none ((l₁ ++ [x]) ++ l₂) q := by simpa using h
  have hseg := linked_append.1 hsplit
  have hback := hseg.1.path_reverse_append [] trivial
  rwa [List.append_nil, List.reverse_append] at hback

theorem Linked.change [DecidableEq A] (h : Linked next prev p l q) (hnodup : l.Nodup)
    (hprev : ∀ a ∈ l, prev' a = if l.head? = some a then p' else prev a)
    (hnext : ∀ a ∈ l, next' a = if l.getLast? = some a then q' else next a) :
    Linked next' prev' p' l q' := by
  induction l generalizing p p' with
  | nil => trivial
  | cons a l ih =>
    obtain ⟨ha, hl⟩ := List.nodup_cons.1 hnodup
    obtain ⟨-, hn, hrest⟩ := h
    refine ⟨by simpa using hprev a, ?_, ih hrest hl (fun b hb => ?_) fun b hb => ?_⟩
    · have hna := hnext a (by simp)
      cases l with
      | nil => simpa using hna
      | cons b l =>
        have hlast : (a :: b :: l).getLast? ≠ some a := by
          intro heq
          rw [List.getLast?_cons_cons] at heq
          exact ha (List.mem_of_getLast? heq)
        rw [if_neg hlast, hn] at hna
        simpa using hna
    · have hpb := hprev b (by simp [hb])
      have hne : a ≠ b := fun heq => ha (heq ▸ hb)
      rw [List.head?_cons, if_neg (by simpa using hne)] at hpb
      cases l with
      | nil => cases hb
      | cons c l =>
        rw [List.head?_cons]
        split
        · next heq =>
          obtain rfl := Option.some.inj heq
          exact hpb.trans hrest.1
        · exact hpb
    · have hnb := hnext b (by simp [hb])
      cases l with
      | nil => cases hb
      | cons c l => rwa [List.getLast?_cons_cons] at hnb

theorem Linked.congr (h : Linked next prev p l q) (hprev : ∀ a ∈ l, prev' a = prev a)
    (hnext : ∀ a ∈ l, next' a = next a) : Linked next' prev' p l q := by
  induction l generalizing p with
  | nil => trivial
  | cons a l ih =>
    obtain ⟨hpa, hpl⟩ := List.forall_mem_cons.1 hprev
    obtain ⟨hna, hnl⟩ := List.forall_mem_cons.1 hnext
    exact ⟨hpa.trans h.1, hna.trans h.2.1, ih h.2.2 hpl hnl⟩

theorem Linked.insert [DecidableEq A] (h : Linked next prev none (l₁ ++ l₂) none) (hnodup : (l₁ ++ l₂).Nodup)
    (hprev : ∀ a ∈ l₁, prev' a = prev a)
    (hnext : ∀ a ∈ l₁, next' a = if l₁.getLast? = some a then some x else next a)
    (hx : prev' x = l₁.getLast? ∧ next' x = l₂.head?)
    (hprev₂ : ∀ a ∈ l₂, prev' a = if l₂.head? = some a then some x else prev a)
    (hnext₂ : ∀ a ∈ l₂, next' a = next a) :
    Linked next' prev' none (l₁ ++ x :: l₂) none := by
  obtain ⟨h₁, h₂⟩ := linked_append.1 h
  obtain ⟨hn₁, hn₂, -⟩ := List.nodup_append.1 hnodup
  refine linked_append.2 ⟨?_, ?_, ?_, ?_⟩
  · refine h₁.change hn₁ (fun a ha => ?_) hnext
    rw [hprev a ha]
    split
    · next hhead =>
      cases l₁ with
      | nil => cases ha
      | cons b l₁ =>
        obtain rfl := Option.some.inj hhead
        exact h₁.1
    · rfl
  · simpa using hx.1
  · simpa using hx.2
  · refine h₂.change hn₂ hprev₂ fun a ha => ?_
    rw [hnext₂ a ha]
    split
    · next hlast =>
      obtain ⟨l, rfl⟩ := List.getLast?_eq_some_iff.1 hlast
      exact (linked_append.1 h₂).2.2.1
    · rfl

/-- A node is unlinked, and its neighbours become each other's. -/
theorem Linked.remove [DecidableEq A] (h : Linked next prev none (l₁ ++ x :: l₂) none)
    (hnodup : (l₁ ++ x :: l₂).Nodup) (hprev : ∀ a ∈ l₁, prev' a = prev a)
    (hnext : ∀ a ∈ l₁, next' a = if l₁.getLast? = some a then l₂.head? else next a)
    (hprev₂ : ∀ a ∈ l₂, prev' a = if l₂.head? = some a then l₁.getLast? else prev a)
    (hnext₂ : ∀ a ∈ l₂, next' a = next a) :
    Linked next' prev' none (l₁ ++ l₂) none := by
  obtain ⟨h₁, -, -, h₂⟩ := linked_append.1 h
  obtain ⟨hn₁, hn₂, -⟩ := List.nodup_append.1 hnodup
  refine linked_append.2 ⟨?_, ?_⟩
  · simp only [Option.or_none]
    refine h₁.change hn₁ (fun a ha => ?_) hnext
    rw [hprev a ha]
    split
    · next hhead =>
      cases l₁ with
      | nil => cases ha
      | cons b l₁ =>
        obtain rfl := Option.some.inj hhead
        exact h₁.1
    · rfl
  · simp only [Option.or_none]
    refine h₂.change (List.nodup_cons.1 hn₂).2 hprev₂ fun a ha => ?_
    rw [hnext₂ a ha]
    split
    · next hlast =>
      obtain ⟨l, rfl⟩ := List.getLast?_eq_some_iff.1 hlast
      exact (linked_append.1 h₂).2.2.1
    · rfl

/-- `for (ptr = a; link (ptr) != 0 && more (ptr, link (ptr)); ptr = link (ptr));`, with a bound on
the number of turns. -/
def walk (link : A → Option A) (more : A → A → Bool) : Nat → A → Option A
  | 0, _ => none
  | fuel + 1, a =>
    match link a with
    | none => some a
    | some b => if more a b then walk link more fuel b else some a

/-- The walk ends at the first node that is last or may not be left. -/
theorem walk_spec (more : A → A → Bool) {fuel : Nat} {a : A} (h : Path link (a :: l))
    (hfuel : l.length < fuel) :
    ∃ before e after, a :: l = before ++ e :: after ∧ walk link more fuel a = some e ∧
      (before ++ [e]).IsChain (fun b c => more b c = true) ∧
      ∀ c ∈ after.head?, more e c = false := by
  induction fuel generalizing a l with
  | zero => exact absurd hfuel (Nat.not_lt_zero _)
  | succ fuel ih =>
    rw [walk, h.1]
    cases l with
    | nil => exact ⟨[], a, [], rfl, rfl, List.IsChain.singleton _, by simp⟩
    | cons b l =>
      dsimp only [List.head?_cons]
      cases hmore : more a b with
      | false => exact ⟨[], a, b :: l, rfl, rfl, List.IsChain.singleton _, by simpa using hmore⟩
      | true =>
        obtain ⟨before, e, after, heq, hwalk, hchain, hstop⟩ :=
          @ih l b h.2 (Nat.lt_of_succ_lt_succ hfuel)
        refine ⟨a :: before, e, after, by rw [heq, List.cons_append], hwalk, ?_, hstop⟩
        refine List.isChain_cons.2 ⟨?_, hchain⟩
        intro c hc
        have hhead : (before ++ [e]).head? = some b := by
          cases before with
          | nil => simpa using (List.cons.inj heq).1.symm
          | cons d before => simpa using (List.cons.inj heq).1.symm
        obtain rfl : b = c := Option.some.inj (hhead.symm.trans hc)
        exact hmore

section Ordered

variable {K : Type} (R : K → K → Prop) [DecidableRel R] (key : A → K) (want : K) {fuel : Nat} {a : A}

/-- On an ordered list, the walk that leaves the nodes before a key finds the node of the key. -/
theorem walk_finds [Std.Irrefl R] (h : Path link (a :: l)) (hfuel : l.length < fuel)
    (hsorted : (a :: l).Pairwise fun b c => R (key b) (key c)) :
    ∃ e ∈ a :: l, walk link (fun b _ => decide (R (key b) want)) fuel a = some e ∧
      ∀ b ∈ a :: l, key b = want → b = e := by
  obtain ⟨before, e, after, heq, hwalk, hchain, hstop⟩ :=
    walk_spec (fun b _ => decide (R (key b) want)) h hfuel
  refine ⟨e, by rw [heq]; simp, hwalk, fun b hb hkey => ?_⟩
  rw [heq] at hb hsorted
  obtain hb | hb := List.mem_append.1 hb
  · obtain ⟨l₁, l₂, rfl⟩ := List.append_of_mem hb
    rw [List.append_assoc, List.cons_append] at hchain
    have hrel := (List.isChain_append.1 hchain).2.1
    cases hl₂ : l₂ ++ [e] with
    | nil => simp at hl₂
    | cons c l₃ =>
      rw [hl₂, List.isChain_cons_cons, decide_eq_true_eq, hkey] at hrel
      exact absurd hrel.1 (irrefl want)
  · obtain rfl | hb := List.mem_cons.1 hb
    · rfl
    · have hafter := (List.pairwise_cons.1 (List.pairwise_append.1 hsorted).2.1).1 b hb
      rw [hkey] at hafter
      cases after with
      | nil => cases hb
      | cons c after => exact absurd hafter (of_decide_eq_false (hstop c rfl))

/-- The walk that goes on while the next node is before a key ends where the key belongs. -/
theorem walk_splits [IsTrans K R] (h : Path link (a :: l)) (hfuel : l.length < fuel)
    (hsorted : (a :: l).Pairwise fun b c => R (key b) (key c)) (ha : R (key a) want) :
    ∃ before e after, a :: l = before ++ e :: after ∧
      walk link (fun _ c => decide (R (key c) want)) fuel a = some e ∧
      (∀ b ∈ before ++ [e], R (key b) want) ∧ ∀ b ∈ after, ¬ R (key b) want := by
  obtain ⟨before, e, after, heq, hwalk, hchain, hstop⟩ :=
    walk_spec (fun _ c => decide (R (key c) want)) h hfuel
  rw [heq] at hsorted
  obtain ⟨-, hsorted, hcross⟩ := List.pairwise_append.1 hsorted
  have he : R (key e) want := by
    obtain rfl | ⟨l₁, d, rfl⟩ := List.eq_nil_or_concat before
    · obtain rfl := (List.cons.inj heq).1
      exact ha
    · exact of_decide_eq_true ((List.isChain_append.1 hchain).2.2 d (by simp) e (by simp))
  refine ⟨before, e, after, heq, hwalk, fun b hb => ?_, fun b hb hrel => ?_⟩
  · obtain hb | hb := List.mem_append.1 hb
    · exact IsTrans.trans _ _ _ (hcross b hb e (by simp)) he
    · rwa [List.mem_singleton.1 hb]
  · cases after with
    | nil => cases hb
    | cons c after =>
      have hnot := of_decide_eq_false (hstop c rfl)
      obtain rfl | hb := List.mem_cons.1 hb
      · exact hnot hrel
      · have hlater := (List.pairwise_cons.1 (List.pairwise_cons.1 hsorted).2).1 b hb
        exact hnot (IsTrans.trans _ _ _ hlater hrel)

end Ordered

end Z80Gcc.LinkedList
