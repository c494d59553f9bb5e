import Mathlib.Data.Fintype.Card

/-! Searching a finite graph for a node, deeper first, with marks that all calls share: a node is marked when it is
looked at, and looked at only once. -/

namespace Z80Gcc.DepthFirst

variable {B : Type}

/-- What a search looks for, and the nodes that it may go through. -/
structure Search (B : Type) where
  next : B → List B
  goal : B → Bool
  through : B → Bool

/-- There is a goal next to a node, or behind nodes that may be gone through. -/
inductive Search.Finds (p : Search B) : B → Prop
  | goal {b c : B} : c ∈ p.next b → p.goal c = true → p.Finds b
  | through {b c : B} : c ∈ p.next b → p.through c = true → p.Finds c → p.Finds b

variable [DecidableEq B]

/-- The nodes of a list one after another; `find` searches from one of them. -/
def Search.scan (p : Search B) (find : B → (B → Bool) → Option (Bool × (B → Bool))) :
    List B → (B → Bool) → Option (Bool × (B → Bool))
  | [], visited => some (false, visited)
  | c :: cs, visited =>
    if visited c then
      p.scan find cs visited
    else if p.goal c then
      some (true, visited)
    else if p.through c then do
      let (found, visited) ← find c (Function.update visited c true)
      if found then some (true, visited) else p.scan find cs visited
    else
      p.scan find cs (Function.update visited c true)

def Search.search (p : Search B) : Nat → B → (B → Bool) → Option (Bool × (B → Bool))
  | 0, _, _ => none
  | fuel + 1, b, visited => p.scan (p.search fuel) (p.next b) visited

section Marks

variable [Fintype B]

/-- How many nodes are not marked. -/
def unvisited (visited : B → Bool) : Nat := (Finset.univ.filter fun b => visited b = false).card

omit [DecidableEq B] in
theorem unvisited_le {visited visited' : B → Bool} (h : ∀ b, visited b = true → visited' b = true) :
    unvisited visited' ≤ unvisited visited := by
  refine Finset.card_le_card fun b hb => ?_
  rw [Finset.mem_filter] at hb ⊢
  refine ⟨hb.1, Bool.eq_false_iff.2 fun hv => ?_⟩
  rw [h b hv] at hb
  exact Bool.noConfusion hb.2

omit [Fintype B] in
theorem update_of_visited {visited : B → Bool} (c : B) {b : B} (h : visited b = true) :
    Function.update visited c true b = true := by
  by_cases hb : b = c
  · rw [hb, Function.update_self]
  · rwa [Function.update_of_ne hb]

theorem unvisited_update {visited : B → Bool} {c : B} (h : visited c = false) :
    unvisited (Function.update visited c true) < unvisited visited := by
  refine Finset.card_lt_card (Finset.ssubset_iff_of_subset ?_ |>.2 ⟨c, ?_, ?_⟩)
  · intro b hb
    rw [Finset.mem_filter] at hb ⊢
    refine ⟨hb.1, Bool.eq_false_iff.2 fun hv => ?_⟩
    rw [update_of_visited c hv] at hb
    exact Bool.noConfusion hb.2
  · exact Finset.mem_filter.2 ⟨Finset.mem_univ c, h⟩
  · rw [Finset.mem_filter, Function.update_self]
    exact fun hc => Bool.noConfusion hc.2

end Marks

namespace Search

/-- What has come of going over some nodes. If no goal was found, none of those that were marked is one, and what is
next to those that may be gone through is marked too. -/
structure Outcome (p : Search B) (bs : List B) (visited : B → Bool) (found : Bool) (visited' : B → Bool) : Prop where
  up : ∀ c, visited c = true → visited' c = true
  finds : found = true → ∃ c ∈ bs, p.goal c = true ∨ p.through c = true ∧ p.Finds c
  marked : found = false → ∀ c ∈ bs, visited' c = true
  closed : found = false → ∀ c, visited' c = true → visited c = false →
    p.goal c = false ∧ (p.through c = true → ∀ d ∈ p.next c, visited' d = true)

variable {p : Search B} {b c : B} {cs : List B} {visited visited' visited'' : B → Bool} {found : Bool}

omit [DecidableEq B] in
theorem Outcome.nil (p : Search B) (visited : B → Bool) : p.Outcome [] visited false visited :=
  ⟨fun _ h => h, fun h => absurd h Bool.false_ne_true, fun _ _ hc => absurd hc List.not_mem_nil,
    fun _ _ h h' => absurd (h.symm.trans h') Bool.noConfusion⟩

omit [DecidableEq B] in
theorem Outcome.found_cons (hup : ∀ c, visited c = true → visited' c = true)
    (h : p.goal c = true ∨ p.through c = true ∧ p.Finds c) : p.Outcome (c :: cs) visited true visited' :=
  ⟨hup, fun _ => ⟨c, List.mem_cons_self, h⟩, fun h => Bool.noConfusion h, fun h => Bool.noConfusion h⟩

omit [DecidableEq B] in
theorem Outcome.cons (hc : visited' c = true) (hup : ∀ d, visited d = true → visited' d = true)
    (hclosed : ∀ d, visited' d = true → visited d = false → p.goal d = false ∧
      (p.through d = true → ∀ e ∈ p.next d, visited' e = true))
    (h : p.Outcome cs visited' found visited'') : p.Outcome (c :: cs) visited found visited'' := by
  refine ⟨fun d hd => h.up d (hup d hd), fun hfound => ?_, fun hnone d hd => ?_, fun hnone d hd hnew => ?_⟩
  · obtain ⟨d, hd, hfinds⟩ := h.finds hfound
    exact ⟨d, List.mem_cons_of_mem c hd, hfinds⟩
  · rcases List.mem_cons.1 hd with rfl | hd
    · exact h.up d hc
    · exact h.marked hnone d hd
  · cases hd' : visited' d with
    | false => exact h.closed hnone d hd hd'
    | true =>
      obtain ⟨hgoal, hnext⟩ := hclosed d hd' hnew
      exact ⟨hgoal, fun hthrough e he => h.up e (hnext hthrough e he)⟩

variable [Fintype B]

theorem scan_outcome {find : B → (B → Bool) → Option (Bool × (B → Bool))} {n : Nat}
    (hfind : ∀ c visited, unvisited visited < n → ∃ found visited', find c visited = some (found, visited') ∧
      p.Outcome (p.next c) visited found visited')
    (cs : List B) (visited : B → Bool) (hn : unvisited visited ≤ n) :
    ∃ found visited', p.scan find cs visited = some (found, visited') ∧ p.Outcome cs visited found visited' := by
  induction cs generalizing visited with
  | nil => exact ⟨false, visited, rfl, .nil p visited⟩
  | cons c cs ih =>
    rw [scan]
    cases hvisited : visited c with
    | true =>
      obtain ⟨found, visited', hscan, hout⟩ := ih visited hn
      refine ⟨found, visited', hscan, .cons hvisited (fun _ h => h) (fun d h h' => ?_) hout⟩
      exact absurd (h.symm.trans h') Bool.noConfusion
    | false =>
      have hlt := unvisited_update hvisited
      have hself : Function.update visited c true c = true := Function.update_self ..
      rw [if_neg Bool.false_ne_true]
      cases hgoal : p.goal c with
      | true => exact ⟨true, visited, rfl, .found_cons (fun _ h => h) (.inl hgoal)⟩
      | false =>
        have hnew : ∀ d, Function.update visited c true d = true → visited d = false → d = c := by
          intro d hd hold
          by_contra hne
          rw [Function.update_of_ne hne, hold] at hd
          exact Bool.noConfusion hd
        rw [if_neg Bool.false_ne_true]
        cases hthrough : p.through c with
        | true =>
          obtain ⟨found, visited', hscan, hout⟩ := hfind c (Function.update visited c true) (by omega)
          rw [if_pos rfl, hscan, Option.bind_eq_bind, Option.bind_some]
          cases found with
          | true =>
            refine ⟨true, visited', rfl, .found_cons (fun d h => hout.up d (update_of_visited c h)) (.inr ⟨hthrough, ?_⟩)⟩
            obtain ⟨d, hd, hfinds⟩ := hout.finds rfl
            rcases hfinds with hd' | ⟨hd', hfinds⟩
            · exact .goal hd hd'
            · exact .through hd hd' hfinds
          | false =>
            have hle : unvisited visited' ≤ n := Nat.le_trans (unvisited_le hout.up) (by omega)
            obtain ⟨found, visited'', hrest, hout'⟩ := ih visited' hle
            refine ⟨found, visited'', hrest, .cons (hout.up c hself) (fun d h => hout.up d (update_of_visited c h))
              (fun d hd hold => ?_) hout'⟩
            cases hd' : Function.update visited c true d with
            | false => exact hout.closed rfl d hd hd'
            | true =>
              obtain rfl := hnew d hd' hold
              exact ⟨hgoal, fun _ => hout.marked rfl⟩
        | false =>
          obtain ⟨found, visited', hscan, hout⟩ := ih (Function.update visited c true) (by omega)
          refine ⟨found, visited', hscan, .cons hself (fun d h => update_of_visited c h) (fun d hd hold => ?_) hout⟩
          obtain rfl := hnew d hd hold
          exact ⟨hgoal, fun h => absurd (h.symm.trans hthrough) Bool.noConfusion⟩

theorem search_outcome (fuel : Nat) (b : B) (visited : B → Bool) (hfuel : unvisited visited < fuel) :
    ∃ found visited', p.search fuel b visited = some (found, visited') ∧
      p.Outcome (p.next b) visited found visited' := by
  induction fuel generalizing b visited with
  | zero => exact absurd hfuel (Nat.not_lt_zero _)
  | succ fuel ih => exact scan_outcome ih (p.next b) visited (Nat.le_of_lt_succ hfuel)

theorem search_finds (p : Search B) (b : B) {fuel : Nat} (hfuel : Fintype.card B < fuel) :
    ∃ found visited, p.search fuel b (fun _ => false) = some (found, visited) ∧ (found = true ↔ p.Finds b) := by
  have hcard : unvisited (fun _ : B => false) ≤ Fintype.card B := Finset.card_le_univ _
  obtain ⟨found, visited, hsearch, hout⟩ := @search_outcome _ _ p _ fuel b (fun _ => false) (by omega)
  refine ⟨found, visited, hsearch, fun hfound => ?_, fun hfinds => ?_⟩
  · obtain ⟨c, hc, hgoal | ⟨hthrough, hfinds⟩⟩ := hout.finds hfound
    · exact .goal hc hgoal
    · exact .through hc hthrough hfinds
  · rw [← Bool.not_eq_false]
    intro hnone
    have hnext : ∀ d, visited d = true → p.through d = true → ∀ e ∈ p.next d, visited e = true :=
      fun d hd => (hout.closed hnone d hd rfl).2
    have hnot : ∀ d, p.Finds d → ¬∀ e ∈ p.next d, visited e = true := by
      intro d hfinds
      induction hfinds with
      | goal hc hgoal =>
        intro hall
        rw [(hout.closed hnone _ (hall _ hc) rfl).1] at hgoal
        exact Bool.noConfusion hgoal
      | through hc hthrough _ ih => exact fun hall => ih (hnext _ (hall _ hc) hthrough)
    exact hnot b hfinds (hout.marked hnone)

end Search

end Z80Gcc.DepthFirst
