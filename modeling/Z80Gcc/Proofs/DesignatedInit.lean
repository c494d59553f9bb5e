import Z80Gcc.Proofs.PendingRounds

/-! Designated initialisers in any order. Elements at one position are confused with each other: a second one
that waits there aborts, and one behind a field of the same position that is left out gets lost. An element
that is designated twice is only reported while it waits. -/

namespace Z80Gcc.PendingInit

open Z80Gcc.LinkedTree ConstructorType

section Waiting

variable (type : ConstructorType)

/-- Some field or index before has not been designated. -/
def Waits (designators : List Nat) (d : Nat) : Prop :=
  ∃ u, type.first ≤ u ∧ u < d ∧ u ∉ designators

/-- An element has to wait when its turn comes. -/
def Waited (designators : List Nat) (d : Nat) : Prop :=
  ∃ before after, designators = before ++ d :: after ∧ Waits type before d

variable {type}

theorem waited_concat {designators : List Nat} {d e : Nat} :
    Waited type (designators ++ [d]) e ↔ Waited type designators e ∨ (e = d ∧ Waits type designators d) := by
  constructor
  · rintro ⟨before, after, heq, hwaits⟩
    rcases List.eq_nil_or_concat after with rfl | ⟨after, f, rfl⟩
    · obtain ⟨rfl, hd⟩ := List.append_inj' heq rfl
      obtain rfl := List.singleton_inj.1 hd
      exact .inr ⟨rfl, hwaits⟩
    · rw [List.concat_eq_append, ← List.cons_append, ← List.append_assoc] at heq
      exact .inl ⟨before, after, (List.append_inj' heq rfl).1, hwaits⟩
  · rintro (⟨before, after, rfl, hwaits⟩ | ⟨rfl, hwaits⟩)
    · exact ⟨before, after ++ [d], by rw [List.append_assoc, List.cons_append], hwaits⟩
    · exact ⟨designators, [], rfl, hwaits⟩

end Waiting

section Steps

variable (type : ConstructorType) (incremental : Bool)

/-- After some elements: what can be output has been output, and the others wait. -/
structure Settled (elts : List (Nat × List Byte)) (st : State) : Prop where
  pending : Pending type elts st
  waited : ∀ d, (∃ a, a < st.allocated ∧ (st.node a).purpose = d) ↔ Waited type (elts.map Prod.fst) d
  low : type.first ≤ st.unfilled
  run : ∀ u, type.first ≤ u → u < st.unfilled → u ∈ elts.map Prod.fst
  next : st.unfilled ∉ elts.map Prod.fst
  filled : ∃ done, Filled type incremental elts done st
  exact : incremental = true → Exact type st

variable {type incremental} {elts : List (Nat × List Byte)} {st : State}

theorem settled_start (hb : incremental = true → type.ByteSized) :
    Settled type incremental [] (State.start type) := by
  refine ⟨⟨?_, fun a ha => absurd ha (Nat.not_lt_zero a), fun x hx => (nomatch hx)⟩, fun d => ?_,
    Nat.le_refl _, fun u hlow hu => absurd hu (Nat.not_lt_of_le hlow), List.not_mem_nil, ⟨[], ?_⟩,
    fun hinc => ?_⟩
  · exact ⟨.nil, rfl, trivial, List.Pairwise.nil, List.Perm.refl _⟩
  · refine iff_of_false (fun ⟨a, ha, _⟩ => Nat.not_lt_zero a ha) ?_
    rintro ⟨before, after, heq, -⟩
    exact absurd heq.symm (List.append_ne_nil_of_right_ne_nil _ (List.cons_ne_nil _ _))
  · refine ⟨⟨fun _ => rfl, fun _ => image_empty⟩, List.Pairwise.nil, fun x hx => (nomatch hx), ?_⟩
    refine iff_of_true (fun x hx => (nomatch hx)) fun u hu _ hlow => ?_
    exact absurd hu (Nat.not_lt_of_le hlow)
  · cases type with
    | array eltSize => exact (Nat.zero_mul eltSize).symm
    | record fields =>
      have hfirst : (ConstructorType.record fields).first = 0 := by
        cases fields with
        | nil => rfl
        | cons f fields =>
          have hnamed := (hb hinc f (List.mem_cons_self ..)).1
          rw [ConstructorType.first, List.takeWhile_cons, hnamed]
          rfl
      refine ⟨rfl, ?_⟩
      change 0 = endPos fields (ConstructorType.record fields).first
      rw [hfirst]
      rfl

/-- An element waits just when it is not the next one. -/
theorem Settled.waits_iff (hs : Settled type incremental elts st) {d : Nat} (hd : type.first ≤ d)
    (hnew : d ∉ elts.map Prod.fst) : Waits type (elts.map Prod.fst) d ↔ d ≠ st.unfilled := by
  constructor
  · rintro ⟨u, hlow, hud, hu⟩ rfl
    exact hu (hs.run u hlow hud)
  · intro hne
    refine ⟨st.unfilled, hs.low, Nat.lt_of_not_le fun hle => ?_, hs.next⟩
    exact hnew (hs.run d hd (Nat.lt_of_le_of_ne hle hne))

theorem Settled.not_member (hs : Settled type incremental elts st) {d : Nat}
    (hnew : d ∉ elts.map Prod.fst) :
    pendingInitMember type st.node d st.allocated st.pendingElts = some false := by
  obtain ⟨found, hrun, hfound⟩ := pendingInitMember_spec hs.pending.tree d
  cases found with
  | false => exact hrun
  | true =>
    obtain ⟨a, ha, hpurpose⟩ := hfound.1 rfl
    exact absurd (List.mem_map.2 ⟨_, hs.pending.node a ha, hpurpose⟩) hnew

/-- What has been output is not concerned by an element that has not been passed. -/
theorem Settled.filled_concat (hs : Settled type incremental elts st) {d : Nat} (value : List Byte)
    (hle : st.unfilled ≤ d) : ∃ done, Filled type incremental (elts ++ [(d, value)]) done st := by
  obtain ⟨done, hplaced, hsorted, hmem, hfull⟩ := hs.filled
  have hrun : ∀ u, type.first ≤ u → u < st.unfilled → u ∈ (elts ++ [(d, value)]).map Prod.fst := by
    intro u hlow hu
    rw [List.map_append]
    exact List.mem_append_left _ (hs.run u hlow hu)
  refine ⟨done, hplaced, hsorted, fun x hx => ⟨List.mem_append_left _ (hmem x hx).1, (hmem x hx).2⟩, ?_⟩
  refine iff_of_true (fun x hx hxu => ?_) fun u hu hnot hlow => absurd (hrun u hlow hu) hnot
  rcases List.mem_append.1 hx with hx | hx
  · exact hfull.2 (fun u hu hnot hlow => absurd (hs.run u hlow hu) hnot) x hx hxu
  · obtain rfl := List.mem_singleton.1 hx
    exact absurd hxu (Nat.not_lt_of_le hle)

theorem Settled.add (hs : Settled type incremental elts st) {d : Nat} {value : List Byte}
    (hd : type.first ≤ d) (hnew : d ∉ elts.map Prod.fst) (hne : d ≠ st.unfilled)
    (hfree : ∀ e, Waited type (elts.map Prod.fst) e → type.position e ≠ type.position d) :
    ∃ st', addPendingInit type d value st = some st' ∧
      Settled type incremental (elts ++ [(d, value)]) st' := by
  obtain ⟨st', hrun, htree, hadded⟩ := addPendingInit_spec hs.pending.tree value fun a ha =>
    hfree _ ((hs.waited _).1 ⟨a, ha, rfl⟩)
  have hlt : st.unfilled < d := by
    refine Nat.lt_of_not_le fun hle => hnew (hs.run d hd ?_)
    exact Nat.lt_of_le_of_ne hle hne
  have hmap : (elts ++ [(d, value)]).map Prod.fst = elts.map Prod.fst ++ [d] := List.map_append
  have hnodes : ∀ a, a < st'.allocated → (a < st.allocated ∧ (st'.node a).purpose = (st.node a).purpose ∧
      (st'.node a).value = (st.node a).value) ∨ (a = st.allocated ∧ (st'.node a).purpose = d ∧
        (st'.node a).value = value) := by
    intro a ha
    rw [hadded.allocated] at ha
    rcases Nat.lt_succ_iff_lt_or_eq.1 ha with ha | rfl
    · exact .inl ⟨ha, hadded.old a ha⟩
    · exact .inr ⟨rfl, hadded.new⟩
  have hold : ∀ a, a < st.allocated → a < st'.allocated := fun a ha => by
    rw [hadded.allocated]
    exact Nat.lt_succ_of_lt ha
  refine ⟨st', hrun, ⟨htree, fun a ha => ?_, fun x hx hxu => ?_⟩, fun e => ?_, ?_, fun u hlow hu => ?_,
    ?_, ?_, ?_⟩
  · rcases hnodes a ha with ⟨ha, hpurpose, hvalue⟩ | ⟨-, hpurpose, hvalue⟩
    · rw [hpurpose, hvalue]
      exact List.mem_append_left _ (hs.pending.node a ha)
    · rw [hpurpose, hvalue]
      exact List.mem_append_right _ (List.mem_singleton.2 rfl)
  · rw [hadded.unfilled] at hxu
    rcases List.mem_append.1 hx with hx | hx
    · obtain ⟨a, ha, hnode⟩ := hs.pending.pending x hx hxu
      refine ⟨a, hold a ha, ?_⟩
      rw [(hadded.old a ha).1, (hadded.old a ha).2]
      exact hnode
    · refine ⟨st.allocated, by rw [hadded.allocated]; exact Nat.lt_succ_self _, ?_⟩
      rw [hadded.new.1, hadded.new.2]
      exact (List.mem_singleton.1 hx).symm
  · rw [hmap, waited_concat, hs.waits_iff hd hnew, ← hs.waited]
    constructor
    · rintro ⟨a, ha, rfl⟩
      rcases hnodes a ha with ⟨ha, hpurpose, -⟩ | ⟨-, hpurpose, -⟩
      · exact .inl ⟨a, ha, hpurpose.symm⟩
      · exact .inr ⟨hpurpose, hne⟩
    · rintro (⟨a, ha, rfl⟩ | ⟨rfl, -⟩)
      · exact ⟨a, hold a ha, (hadded.old a ha).1⟩
      · exact ⟨st.allocated, by rw [hadded.allocated]; exact Nat.lt_succ_self _, hadded.new.1⟩
  · rw [hadded.unfilled]
    exact hs.low
  · rw [hadded.unfilled] at hu
    rw [hmap]
    exact List.mem_append_left _ (hs.run u hlow hu)
  · rw [hadded.unfilled, hmap, List.mem_append, List.mem_singleton]
    rintro (h | h)
    · exact hs.next h
    · exact hne h.symm
  · obtain ⟨done, hfilled⟩ := hs.filled_concat value (Nat.le_of_lt hlt)
    exact ⟨done, hfilled.congr hadded.elements hadded.out hadded.unfilled⟩
  · exact fun h => (hs.exact h).congr hadded.out hadded.bitIndex hadded.unfilled

theorem Settled.output_run (hl : type.Layout) (hd : ∀ x ∈ elts, type.Designator x.1)
    (hs : Settled type incremental elts st) (value : List Byte) :
    ∃ values next, outputPendingInitElements type incremental false
        (advance (outputElement type incremental value st)) = some (emit type incremental (value :: values) st) ∧
      Reached type (emit type incremental (value :: values) st)
        (List.range (emit type incremental (value :: values) st).allocated) next ∧
      ∀ i v, values[i]? = some v → (st.unfilled + 1 + i, v) ∈ elts := by
  obtain ⟨hnode₁, hptr₁, halloc₁, hunfilled₁, -⟩ :=
    emit_same type incremental [value] st
  obtain ⟨values, next, hrun, hcomes, hr⟩ := @seek_root type incremental _ hl
    (hs.pending.tree.congr hnode₁ hptr₁ halloc₁) (fun a ha => by
      rw [hnode₁]
      exact (hd _ (hs.pending.node a (halloc₁ ▸ ha))).2)
  change seek type incremental _ _ _ = some (emit type incremental (value :: values) st, next) at hrun
  change Reached type (emit type incremental (value :: values) st) _ next at hr
  obtain ⟨-, -, halloc, -⟩ := emit_same type incremental (value :: values) st
  rw [halloc₁, ← halloc] at hr
  refine ⟨values, next, ?_, hr, fun i v hi => ?_⟩
  · change outputPendingInitElements type incremental false (emit type incremental [value] st) = _
    rw [outputPendingInitElements, outputPending, hrun]
    cases next <;> rfl
  · obtain ⟨b, hb, hpurpose, hv⟩ := hcomes i v hi
    rw [hnode₁] at hpurpose hv
    rw [halloc₁] at hb
    have hmem := hs.pending.node b (List.mem_range.1 hb)
    rw [hpurpose, hv, hunfilled₁] at hmem
    exact hmem

theorem Settled.output (hl : type.Layout) (hb : incremental = true → type.ByteSized)
    (hs : Settled type incremental elts st) {value : List Byte}
    (he : Elements type incremental (elts ++ [(st.unfilled, value)])) :
    ∃ st', outputPendingInitElements type incremental false
        (advance (outputElement type incremental value st)) = some st' ∧
      Settled type incremental (elts ++ [(st.unfilled, value)]) st' := by
  have hmap : (elts ++ [(st.unfilled, value)]).map Prod.fst = elts.map Prod.fst ++ [st.unfilled] :=
    List.map_append
  obtain ⟨values, next, hrun, hr, hcomes⟩ := hs.output_run hl
    (fun x hx => he.designator x (List.mem_append_left _ hx)) value
  obtain ⟨hnode, hptr, halloc, hunfilled, -⟩ :=
    emit_same type incremental (value :: values) st
  rw [List.length_cons] at hunfilled
  have hvalue : ∀ i v, (value :: values)[i]? = some v →
      (st.unfilled + i, v) ∈ elts ++ [(st.unfilled, value)] := by
    intro i v hi
    cases i with
    | zero =>
      obtain rfl := Option.some.inj hi
      exact List.mem_append_right _ (List.mem_singleton.2 rfl)
    | succ i =>
      rw [Nat.add_comm i, ← Nat.add_assoc]
      exact List.mem_append_left _ (hcomes i v hi)
  have hpending : Pending type (elts ++ [(st.unfilled, value)])
      (emit type incremental (value :: values) st) := by
    refine ⟨hs.pending.tree.congr hnode hptr halloc, fun a ha => ?_, fun x hx hxu => ?_⟩
    · rw [hnode]
      exact List.mem_append_left _ (hs.pending.node a (halloc ▸ ha))
    · rw [hnode, halloc]
      rcases List.mem_append.1 hx with hx | hx
      · exact hs.pending.pending x hx (by omega)
      · rw [List.mem_singleton.1 hx] at hxu
        simp only at hxu
        omega
  refine ⟨emit type incremental (value :: values) st, hrun, hpending, fun e => ?_, ?_, fun u hlow hu => ?_,
    hpending.unfilled_not_mem hr, ?_, ?_⟩
  · have hnot : ¬ Waits type (elts.map Prod.fst) st.unfilled := fun h =>
      (hs.waits_iff hs.low hs.next).1 h rfl
    rw [hmap, waited_concat, ← hs.waited, hnode, halloc]
    exact (or_iff_left fun h => hnot h.2).symm
  · exact Nat.le_trans hs.low (by omega)
  · rw [hmap]
    rcases Nat.lt_or_ge u st.unfilled with hlt | hge
    · exact List.mem_append_left _ (hs.run u hlow hlt)
    · obtain ⟨i, rfl⟩ := Nat.exists_eq_add_of_le hge
      have hi : i < (value :: values).length := by
        rw [List.length_cons]
        omega
      rw [← hmap]
      exact List.mem_map.2 ⟨_, hvalue i _ (List.getElem?_eq_getElem hi), rfl⟩
  · obtain ⟨done, hfilled⟩ := hs.filled_concat value (Nat.le_refl st.unfilled)
    exact ⟨_, (hfilled.emit hl hb he (fun h => (hs.exact h).loose hl) hvalue).1⟩
  · obtain ⟨done, hfilled⟩ := hs.filled_concat value (Nat.le_refl st.unfilled)
    exact fun h => (hfilled.emit hl hb he (fun h => (hs.exact h).loose hl) hvalue).2 h
      (.inl (List.cons_ne_nil _ _))

theorem outputInitElement_step (hl : type.Layout) (hb : incremental = true → type.ByteSized)
    (hs : Settled type incremental elts st) {d : Nat} {value : List Byte}
    (he : Elements type incremental (elts ++ [(d, value)])) :
    (∃ st', outputInitElement type incremental value d st = some st' ∧
        Settled type incremental (elts ++ [(d, value)]) st') ∨
      (outputInitElement type incremental value d st = none ∧ Waits type (elts.map Prod.fst) d ∧
        ∃ e, Waited type (elts.map Prod.fst) e ∧ type.position e = type.position d) := by
  have hd := (he.designator _ (List.mem_append_right _ (List.mem_singleton.2 rfl))).1
  have hnew : d ∉ elts.map Prod.fst := by
    have hnodup := he.nodup
    rw [List.map_append, List.nodup_append'] at hnodup
    exact fun hmem => hnodup.2.2 hmem (List.mem_singleton.2 rfl)
  have hstep : outputInitElement type incremental value d st =
      if d ≠ st.unfilled then addPendingInit type d value st
      else outputPendingInitElements type incremental false
        (advance (outputElement type incremental value st)) := by
    rw [outputInitElement, hs.not_member hnew]
    rfl
  rw [hstep]
  split
  · next hne =>
    by_cases htaken : ∃ e, Waited type (elts.map Prod.fst) e ∧ type.position e = type.position d
    · refine .inr ⟨?_, (hs.waits_iff hd hnew).2 hne, htaken⟩
      obtain ⟨e, hwaited, hposition⟩ := htaken
      obtain ⟨a, ha, rfl⟩ := (hs.waited e).2 hwaited
      exact addPendingInit_taken hs.pending.tree value ⟨a, ha, hposition⟩
    · exact .inl (hs.add hd hnew hne fun e hwaited hposition => htaken ⟨e, hwaited, hposition⟩)
  · next heq =>
    obtain rfl : d = st.unfilled := Decidable.of_not_not heq
    exact .inl (hs.output hl hb he)

end Steps

section Repeated

variable {type : ConstructorType} {incremental : Bool} {elts : List (Nat × List Byte)} {st : State}

/-- A report, and no other change. -/
def OnlyReported (st st' : State) : Prop :=
  st.duplicates < st'.duplicates ∧ st' = { st with duplicates := st'.duplicates }

/-- Where the parser stands behind a list of designated elements. -/
def after (type : ConstructorType) (designators : List Nat) : Nat :=
  (designators.getLast?.map type.next).getD type.first

theorem Settled.report (hs : Settled type incremental elts st) (k : Nat) :
    Settled type incremental elts { st with duplicates := k } where
  pending := hs.pending.congr rfl rfl rfl (Nat.le_refl _)
  waited := hs.waited
  low := hs.low
  run := hs.run
  next := hs.next
  filled := hs.filled.imp fun _ hfilled => hfilled.congr rfl rfl rfl
  exact h := (hs.exact h).congr rfl rfl rfl

theorem Waited.mem {designators : List Nat} {d : Nat} (h : Waited type designators d) : d ∈ designators := by
  obtain ⟨before, after, rfl, -⟩ := h
  exact List.mem_append_right _ (List.mem_cons_self ..)

theorem Settled.reported (hs : Settled type incremental elts st) {d : Nat}
    (hwaited : Waited type (elts.map Prod.fst) d) (value : List Byte) :
    outputInitElement type incremental value d st = some { st with duplicates := st.duplicates + 1 } := by
  obtain ⟨found, hrun, hfound⟩ := pendingInitMember_spec hs.pending.tree d
  obtain rfl : found = true := hfound.2 ((hs.waited d).2 hwaited)
  have hne : d ≠ st.unfilled := fun heq => hs.next (heq ▸ hwaited.mem)
  rw [outputInitElement, hrun, Option.bind_eq_bind, Option.bind_some, if_pos rfl, if_pos hne, if_pos rfl]
  rfl

/-- Any other element makes a new node, or the next one is output. -/
theorem Settled.waited_of_unchanged (hl : type.Layout) (hd : ∀ x ∈ elts, type.Designator x.1)
    (hs : Settled type incremental elts st) {value : List Byte} {d k : Nat}
    (hstep : outputInitElement type incremental value d st = some { st with duplicates := k }) :
    Waited type (elts.map Prod.fst) d := by
  by_contra hnot
  obtain ⟨found, hrun, hfound⟩ := pendingInitMember_spec hs.pending.tree d
  rw [hs.waited] at hfound
  obtain rfl : found = false := by
    cases found with
    | false => rfl
    | true => exact absurd (hfound.1 rfl) hnot
  have hstep' : outputInitElement type incremental value d st =
      if d ≠ st.unfilled then addPendingInit type d value st
      else outputPendingInitElements type incremental false
        (advance (outputElement type incremental value st)) := by
    rw [outputInitElement, hrun]
    rfl
  rw [hstep'] at hstep
  split at hstep
  · by_cases htaken : ∃ a, a < st.allocated ∧ st.key type a = type.position d
    · rw [addPendingInit_taken hs.pending.tree value htaken] at hstep
      cases hstep
    · obtain ⟨st', hadd, -, hadded⟩ := addPendingInit_spec hs.pending.tree value
        fun a ha hkey => htaken ⟨a, ha, hkey⟩
      obtain rfl := Option.some.inj (hadd.symm.trans hstep)
      exact absurd hadded.allocated (Nat.ne_of_lt (Nat.lt_succ_self _))
  · obtain ⟨values, next, hout, -⟩ := hs.output_run hl hd value
    obtain ⟨-, -, -, hmore, -⟩ := emit_same type incremental (value :: values) st
    rw [Option.some.inj (hout.symm.trans hstep), List.length_cons] at hmore
    dsimp only at hmore
    omega

/-- An element handed over to `output_init_element`: nothing but a report if one for its designator had to
wait. -/
theorem Settled.reported_iff (hl : type.Layout) (hd : ∀ x ∈ elts, type.Designator x.1)
    (hs : Settled type incremental elts st) (value : List Byte) (d : Nat) :
    (∃ st', outputInitElement type incremental value d st = some st' ∧ OnlyReported st st') ↔
      Waited type (elts.map Prod.fst) d := by
  constructor
  · rintro ⟨st', hstep, -, hsame⟩
    rw [hsame] at hstep
    exact hs.waited_of_unchanged hl hd hstep
  · exact fun hwaited => ⟨_, hs.reported hwaited value, Nat.lt_succ_self _, rfl⟩

/-- What has been designated waits just when it has not been passed. -/
theorem Settled.waits_iff_le (hs : Settled type incremental elts st) {d : Nat} (hd : d ∈ elts.map Prod.fst) :
    Waits type (elts.map Prod.fst) d ↔ st.unfilled ≤ d := by
  constructor
  · rintro ⟨u, hlow, hud, hu⟩
    by_contra hlt
    exact hu (hs.run u hlow (by omega))
  · intro hle
    refine ⟨st.unfilled, hs.low, Nat.lt_of_le_of_ne hle fun heq => hs.next (heq ▸ hd), hs.next⟩

/-- An element designated once more: while it waits, it is reported. A designator that has been passed is
reported, and its value goes to where the parser stands. -/
theorem Settled.designated_twice (hl : type.Layout) (hd : ∀ x ∈ elts, type.Designator x.1)
    (hs : Settled type incremental elts st) {x : Nat × List Byte} (hx : x ∈ elts) (value : List Byte)
    (current : Nat) :
    (∃ l, designate type incremental value x.1 ⟨st, current⟩ = some l ∧ OnlyReported st l.state) ↔
      Waits type (elts.map Prod.fst) x.1 ∨ type.complete current = true ∨
        Waited type (elts.map Prod.fst) current := by
  have hmem : x.1 ∈ elts.map Prod.fst := List.mem_map.2 ⟨x, hx, rfl⟩
  rw [hs.waits_iff_le hmem]
  unfold designate setInit
  dsimp only
  split
  · next hlt =>
    rw [or_iff_right (Nat.not_le_of_lt hlt), processInitElement]
    dsimp only
    split
    · next hcomplete => exact iff_of_true ⟨_, rfl, Nat.lt_succ_self _, rfl⟩ (.inl hcomplete)
    · next hcomplete =>
      have hs' := hs.report (st.duplicates + 1)
      rw [or_iff_right hcomplete]
      constructor
      · rintro ⟨l, hstep, -, hsame⟩
        obtain ⟨st', hout, rfl⟩ := Option.map_eq_some_iff.1 hstep
        dsimp only at hsame
        rw [hsame] at hout
        exact hs'.waited_of_unchanged hl hd hout
      · intro hwaited
        refine ⟨_, Option.map_eq_some_iff.2 ⟨_, hs'.reported hwaited value, rfl⟩, ?_, rfl⟩
        dsimp only
        omega
  · next hge =>
    rw [processInitElement]
    dsimp only
    rw [if_neg (by rw [(hd x hx).2]; decide)]
    have hwaited : Waited type (elts.map Prod.fst) x.1 := by
      obtain ⟨a, ha, hnode⟩ := hs.pending.pending x hx (Nat.le_of_not_lt hge)
      exact (hs.waited x.1).1 ⟨a, ha, congrArg Prod.fst hnode⟩
    refine iff_of_true ⟨_, Option.map_eq_some_iff.2 ⟨_, hs.reported hwaited value, rfl⟩, ?_, rfl⟩
      (.inl (Nat.le_of_not_lt hge))
    exact Nat.lt_succ_self _

end Repeated

section Runs

variable {type : ConstructorType} {incremental : Bool} {elts elts' : List (Nat × List Byte)} {st : State}

theorem outputElements_append (elts elts' : List (Nat × List Byte)) (st : State) :
    outputElements type incremental (elts ++ elts') st =
      (outputElements type incremental elts st).bind (outputElements type incremental elts') := by
  induction elts generalizing st with
  | nil => rfl
  | cons x elts ih =>
    rw [List.cons_append, outputElements, outputElements, Option.bind_eq_bind, Option.bind_assoc]
    exact congrArg _ (funext ih)

theorem Elements.left (he : Elements type incremental (elts ++ elts')) : Elements type incremental elts where
  nodup := by
    have hnodup := he.nodup
    rw [List.map_append] at hnodup
    exact hnodup.of_append_left
  designator x hx := he.designator x (List.mem_append_left _ hx)
  size h x hx := he.size h x (List.mem_append_left _ hx)

/-- All elements, unless two of them wait at one position. -/
theorem outputElements_run (hl : type.Layout) (hb : incremental = true → type.ByteSized)
    (he : Elements type incremental elts) :
    (∃ st, outputElements type incremental elts (State.start type) = some st ∧
        Settled type incremental elts st) ∨
      (outputElements type incremental elts (State.start type) = none ∧
        ∃ d e, d ≠ e ∧ Waited type (elts.map Prod.fst) d ∧ Waited type (elts.map Prod.fst) e ∧
          type.position d = type.position e) := by
  induction elts using List.reverseRecOn with
  | nil => exact .inl ⟨_, rfl, settled_start hb⟩
  | append_singleton elts x ih =>
    obtain ⟨d, value⟩ := x
    rw [outputElements_append, List.map_append]
    rcases ih he.left with ⟨st, hrun, hs⟩ | ⟨hrun, e, e', hne, he', he'', hposition⟩
    · have hlast : ∀ st, outputElements type incremental [(d, value)] st =
          outputInitElement type incremental value d st := fun st => Option.bind_fun_some _
      rw [hrun, Option.bind_some, hlast]
      rcases outputInitElement_step hl hb hs he with hstep | ⟨hstep, hwaits, e, hwaited, hposition⟩
      · exact .inl hstep
      · refine .inr ⟨hstep, e, d, ?_, waited_concat.2 (.inl hwaited), waited_concat.2 (.inr ⟨rfl, hwaits⟩),
          hposition⟩
        rintro rfl
        have hnodup := he.nodup
        rw [List.map_append, List.nodup_append'] at hnodup
        obtain ⟨before, after, heq, -⟩ := hwaited
        have hmem : e ∈ elts.map Prod.fst := by
          rw [heq]
          exact List.mem_append_right _ (List.mem_cons_self ..)
        exact hnodup.2.2 hmem (List.mem_singleton.2 rfl)
    · exact .inr ⟨by rw [hrun]; rfl, e, e', hne, waited_concat.2 (.inl he'), waited_concat.2 (.inl he''),
        hposition⟩

theorem designateElements_append (elts elts' : List (Nat × List Byte)) (l : Level) :
    designateElements type incremental (elts ++ elts') l =
      (designateElements type incremental elts l).bind (designateElements type incremental elts') := by
  induction elts generalizing l with
  | nil => rfl
  | cons x elts ih =>
    rw [List.cons_append, designateElements, designateElements, Option.bind_eq_bind, Option.bind_assoc]
    exact congrArg _ (funext ih)

/-- A new designator is accepted, and its value is what `output_init_element` gets. -/
theorem Settled.designate_new (hs : Settled type incremental elts st) {d : Nat} (hd : type.Designator d)
    (hnew : d ∉ elts.map Prod.fst) (value : List Byte) (current : Nat) :
    designate type incremental value d ⟨st, current⟩ =
      (outputInitElement type incremental value d st).map fun st => ⟨st, type.next d⟩ := by
  have hle : ¬d < st.unfilled := fun hlt => hnew (hs.run d hd.1 hlt)
  unfold designate setInit processInitElement
  dsimp only
  rw [if_neg hle]
  dsimp only
  rw [if_neg (by rw [hd.2]; decide)]

/-- Designated elements are handed over one after the other. -/
theorem designateElements_run (hl : type.Layout) (hb : incremental = true → type.ByteSized)
    (he : Elements type incremental elts)
    (hrun : outputElements type incremental elts (State.start type) = some st) :
    designateElements type incremental elts (Level.start type) =
      some ⟨st, after type (elts.map Prod.fst)⟩ := by
  induction elts using List.reverseRecOn generalizing st with
  | nil =>
    obtain rfl := Option.some.inj hrun
    rfl
  | append_singleton elts x ih =>
    obtain ⟨d, value⟩ := x
    obtain ⟨st₁, hrun₁, hs⟩ | ⟨hrun₁, -⟩ := outputElements_run hl hb he.left
    · have hnew : d ∉ elts.map Prod.fst := by
        have hnodup := he.nodup
        rw [List.map_append, List.nodup_append'] at hnodup
        exact fun hmem => hnodup.2.2 hmem (List.mem_singleton.2 rfl)
      have hd := he.designator _ (List.mem_append_right _ (List.mem_singleton.2 rfl))
      have hlast : outputElements type incremental [(d, value)] st₁ =
          outputInitElement type incremental value d st₁ := Option.bind_fun_some _
      have hlast' : ∀ l, designateElements type incremental [(d, value)] l =
          designate type incremental value d l := fun l => Option.bind_fun_some _
      have hafter : after type ((elts ++ [(d, value)]).map Prod.fst) = type.next d := by
        unfold after
        rw [List.map_append, List.map_singleton, List.getLast?_concat]
        rfl
      rw [outputElements_append, hrun₁, Option.bind_some, hlast] at hrun
      rw [designateElements_append, ih he.left hrun₁, Option.bind_some, hlast', hs.designate_new hd hnew, hrun,
        hafter]
      rfl
    · rw [outputElements_append, hrun₁] at hrun
      cases hrun

theorem Settled.position_ne (hs : Settled type incremental elts st) {d e : Nat} (hne : d ≠ e)
    (hd : Waited type (elts.map Prod.fst) d) (he : Waited type (elts.map Prod.fst) e) :
    type.position d ≠ type.position e := by
  obtain ⟨a, ha, rfl⟩ := (hs.waited d).2 hd
  obtain ⟨b, hb, rfl⟩ := (hs.waited e).2 he
  intro hposition
  obtain rfl := hs.pending.tree.key_inj ha hb hposition
  exact hne rfl

/-- Everything that goes well with a list of elements. -/
structure Initialised (type : ConstructorType) (incremental : Bool) (elts : List (Nat × List Byte)) :
    Prop where
  running : ∀ before after, elts = before ++ after →
    ∃ st, outputElements type incremental before (State.start type) = some st ∧ PendingTree type st
  final : ∃ st st', outputElements type incremental elts (State.start type) = some st ∧
    outputPendingInitElements type incremental true st = some st' ∧ PendingTree type st' ∧
      (incremental = false →
        st'.elements.reverse.Perm elts ∧ st'.elements.reverse.Pairwise fun x y => x.1 < y.1) ∧
      (incremental = true → Image type.offset st'.out elts)

/-- No two elements wait at one position, and none lies at the position of a field that is left out. -/
structure NoClash (type : ConstructorType) (designators : List Nat) : Prop where
  waiting : ∀ d e, d ≠ e → Waited type designators d → Waited type designators e →
    type.position d ≠ type.position e
  leftOut : ∀ u, Free type designators u

theorem Settled.final (hl : type.Layout) (hb : incremental = true → type.ByteSized)
    (he : Elements type incremental elts) (hs : Settled type incremental elts st) :
    ∃ st' done, outputPendingInitElements type incremental true st = some st' ∧ PendingTree type st' ∧
      Finished type incremental elts done st' := by
  obtain ⟨done, hfilled⟩ := hs.filled
  refine outputPendingInitElements_finished hl hb he hs.pending hfilled hs.exact hs.low ?_ hs.next
  rcases Nat.eq_or_lt_of_le hs.low with heq | hlt
  · exact .inl heq.symm
  · exact .inr ⟨st.unfilled - 1, hs.run _ (by omega) (by omega), by omega⟩

/-- What has been output in the end is all elements just when nothing was left behind. -/
theorem Finished.perm_iff (he : Elements type incremental elts) {done : List (Nat × List Byte)}
    (hf : Finished type incremental elts done st) :
    done.Perm elts ↔ ∀ u, Free type (elts.map Prod.fst) u := by
  rw [← hf.full]
  have hdone : done.Nodup :=
    hf.sorted.imp fun {x y} hlt heq => Nat.ne_of_lt hlt (congrArg Prod.fst heq)
  constructor
  · exact fun hperm x hx => hperm.mem_iff.2 hx
  · exact fun hall => (List.perm_ext_iff_of_nodup hdone (List.Nodup.of_map _ he.nodup)).2 fun x =>
      ⟨hf.mem x, hall x⟩

/-- Designated initialisers are output right just when no two of them clash. -/
theorem initialised_iff (type : ConstructorType) (elts : List (Nat × List Byte))
    (hl : type.Layout) (hnodup : (elts.map Prod.fst).Nodup) (hd : ∀ x ∈ elts, type.Designator x.1)
    (hsize : type.ByteSized → ∀ x ∈ elts, x.2.length = type.valueSize x.1) :
    (∀ incremental, (incremental = true → type.ByteSized) → Initialised type incremental elts) ↔
      NoClash type (elts.map Prod.fst) := by
  constructor
  · intro h
    have he : Elements type false elts := ⟨hnodup, hd, fun h => absurd h Bool.false_ne_true⟩
    have hb : false = true → type.ByteSized := fun h => absurd h Bool.false_ne_true
    obtain ⟨st, st', hrun, hfinal, -, hperm, -⟩ := (h false hb).final
    rcases outputElements_run hl hb he with ⟨st₁, hrun', hs⟩ | ⟨hrun', -⟩
    · obtain rfl := Option.some.inj (hrun'.symm.trans hrun)
      obtain ⟨st₂, done, hfinal', -, hf⟩ := hs.final hl hb he
      obtain rfl := Option.some.inj (hfinal'.symm.trans hfinal)
      refine ⟨fun d e hne hwd hwe => hs.position_ne hne hwd hwe, (hf.perm_iff he).1 ?_⟩
      have helements := hf.placed.elements rfl
      rw [← List.reverse_reverse done, ← helements]
      exact (hperm rfl).1
    · rw [hrun'] at hrun
      cases hrun
  · rintro ⟨hwaiting, hleft⟩ incremental hb
    have he : Elements type incremental elts := ⟨hnodup, hd, fun h => hsize (hb h)⟩
    have hprefix : ∀ before after, elts = before ++ after → ∃ st,
        outputElements type incremental before (State.start type) = some st ∧
          Settled type incremental before st := by
      rintro before after rfl
      refine (outputElements_run hl hb he.left).resolve_right ?_
      rintro ⟨-, d, e, hne, ⟨pre, post, heq, hwd⟩, ⟨pre', post', heq', hwe⟩, hposition⟩
      rw [List.map_append] at hwaiting
      refine hwaiting d e hne ⟨pre, post ++ after.map Prod.fst, ?_, hwd⟩
        ⟨pre', post' ++ after.map Prod.fst, ?_, hwe⟩ hposition
      · rw [heq, List.append_assoc, List.cons_append]
      · rw [heq', List.append_assoc, List.cons_append]
    refine ⟨fun before after heq => ?_, ?_⟩
    · obtain ⟨st, hrun, hs⟩ := hprefix before after heq
      exact ⟨st, hrun, hs.pending.tree⟩
    · obtain ⟨st, hrun, hs⟩ := hprefix elts [] (List.append_nil _).symm
      obtain ⟨st', done, hfinal, htree, hf⟩ := hs.final hl hb he
      have hperm := (hf.perm_iff he).2 hleft
      refine ⟨st, st', hrun, hfinal, htree, fun h => ?_, fun h => ?_⟩
      · rw [hf.placed.elements h, List.reverse_reverse]
        exact ⟨hperm, hf.sorted⟩
      · have himage := hf.placed.image h
        refine ⟨fun x hx => himage.item x (hperm.mem_iff.2 hx), fun i hi hgap => ?_⟩
        exact himage.gap i hi fun x hx => hgap x (hperm.mem_iff.1 hx)

/-- Where all positions differ, as in an array, nothing clashes. -/
theorem noClash_of_position {designators : List Nat} (hd : ∀ d ∈ designators, type.Designator d)
    (hposition : ∀ i j, i < j → type.complete j = false → type.position i < type.position j) :
    NoClash type designators := by
  have hwaited : ∀ d, Waited type designators d → type.complete d = false := by
    rintro d ⟨before, after, rfl, -⟩
    exact (hd d (List.mem_append_right _ (List.mem_cons_self ..))).2
  refine ⟨fun d e hne hwd hwe => ?_, fun u _ _ _ e he hlt => ?_⟩
  · rcases Nat.lt_or_gt_of_ne hne with hlt | hlt
    · exact Nat.ne_of_lt (hposition d e hlt (hwaited e hwe))
    · exact Nat.ne_of_gt (hposition e d hlt (hwaited d hwd))
  · exact Nat.ne_of_lt (hposition u e hlt (hd e he).2)

end Runs

end Z80Gcc.PendingInit
