import Z80Gcc.Proofs.PendingInsert

/-! `output_pending_init_elements` goes through the pending tree in order of position. -/

namespace Z80Gcc.PendingInit

open Z80Gcc.LinkedTree

section Emitting

variable (type : ConstructorType) (incremental : Bool)

def emit : List (List Byte) → State → State
  | [], st => st
  | value :: values, st => emit values (advance (outputElement type incremental value st))

theorem outputElement_node (value : List Byte) (st : State) :
    (outputElement type incremental value st).node = st.node ∧
      (outputElement type incremental value st).pendingElts = st.pendingElts ∧
      (outputElement type incremental value st).allocated = st.allocated ∧
      (outputElement type incremental value st).unfilled = st.unfilled ∧
      (outputElement type incremental value st).duplicates = st.duplicates := by
  unfold outputElement
  split
  · cases type <;> exact ⟨rfl, rfl, rfl, rfl, rfl⟩
  · exact ⟨rfl, rfl, rfl, rfl, rfl⟩

theorem emit_same (values : List (List Byte)) (st : State) :
    (emit type incremental values st).node = st.node ∧
      (emit type incremental values st).pendingElts = st.pendingElts ∧
      (emit type incremental values st).allocated = st.allocated ∧
      (emit type incremental values st).unfilled = st.unfilled + values.length ∧
      (emit type incremental values st).duplicates = st.duplicates := by
  induction values generalizing st with
  | nil => exact ⟨rfl, rfl, rfl, rfl, rfl⟩
  | cons value values ih =>
    obtain ⟨hnode, hptr, halloc, hunfilled, hdup⟩ := ih (advance (outputElement type incremental value st))
    obtain ⟨hnode', hptr', halloc', hunfilled', hdup'⟩ :=
      outputElement_node type incremental value st
    refine ⟨hnode.trans hnode', hptr.trans hptr', halloc.trans halloc', hunfilled.trans ?_,
      hdup.trans hdup'⟩
    have hadvance : (advance (outputElement type incremental value st)).unfilled =
        (outputElement type incremental value st).unfilled + 1 := rfl
    rw [hadvance, hunfilled', List.length_cons]
    omega

variable {type incremental}

end Emitting

section Climbing

variable {st : State}

theorem plug_append {A : Type*} (path path' : List (Frame A)) (t : LinkTree A) :
    plug (path ++ path') t = plug path' (plug path t) := by
  induction path generalizing t with
  | nil => rfl
  | cons f path ih => exact ih _

theorem toList_plug_right {A : Type*} {path : List (Frame A)} (hright : ∀ f ∈ path, f.side = .right)
    (t : LinkTree A) : (plug path t).toList = before path ++ t.toList := by
  induction path generalizing t with
  | nil => rfl
  | cons f path ih =>
    obtain ⟨side, a, sibling⟩ := f
    obtain rfl : side = .right := hright _ (List.mem_cons_self ..)
    rw [plug, ih fun f hf => hright f (List.mem_cons_of_mem _ hf)]
    simp [LinkTree.mk, LinkTree.toList, before]

/-- `climb` leaves the subtrees of which a node is the last one. -/
theorem climb_spec {path : List (Frame Nat)} {a fuel : Nat}
    (hpath : LinkedPath st.child st.parent st.pendingElts path (st.parent a) (some a))
    (hnodup : (a :: pathElts path).Nodup) (hfuel : path.length < fuel) :
    (climb st.node fuel a = some none ∧ ∀ f ∈ path, f.side = .right) ∨
      ∃ path₁ p sibling path₂, climb st.node fuel a = some (some p) ∧
        path = path₁ ++ ⟨.left, p, sibling⟩ :: path₂ ∧ ∀ f ∈ path₁, f.side = .right := by
  induction path generalizing a fuel with
  | nil =>
    obtain ⟨hparent, -⟩ := hpath
    obtain ⟨fuel, rfl⟩ : ∃ k, fuel = k + 1 := Nat.exists_eq_add_of_le' (Nat.succ_le_of_lt hfuel)
    refine .inl ⟨?_, fun f hf => by cases hf⟩
    have hup : (st.node a).parent = none := hparent
    simp only [climb, hup]
  | cons f path ih =>
    obtain ⟨fuel, rfl⟩ := Nat.exists_eq_add_of_le' (Nat.succ_le_of_lt (Nat.zero_lt_of_lt hfuel))
    have hside := hpath.side_eq (List.nodup_cons.1 hnodup).1
    have hrest := (pathElts_cons_perm f path).nodup_iff.1 (List.nodup_cons.1 hnodup).2
    obtain ⟨hparent, hptr, hsib, hpath⟩ := hpath
    obtain ⟨side, p, sibling⟩ := f
    have hclimb : climb st.node (fuel + 1) a =
        if st.child p .right = some a then climb st.node fuel p else some (some p) := by
      have hup : (st.node a).parent = some p := hparent
      simp only [climb, hup]
      rfl
    cases side with
    | left =>
      refine .inr ⟨[], p, sibling, path, ?_, rfl, fun f hf => by cases hf⟩
      rw [hclimb, if_neg]
      intro hright
      rw [Side.other, hright] at hsib
      exact (List.nodup_cons.1 hnodup).1 (mem_pathElts_cons.2 (.inr (.inl hsib.mem_of_ptr)))
    | right =>
      rw [hclimb, if_pos hptr.symm]
      have hnodup' : (p :: pathElts path).Nodup := by
        rw [List.nodup_cons, List.mem_append, not_or] at hrest
        exact List.nodup_cons.2 ⟨hrest.1.2, (List.nodup_append.1 hrest.2).2.1⟩
      rcases ih hpath hnodup' (Nat.lt_of_succ_lt_succ hfuel) with
        ⟨hrun, hright⟩ | ⟨path₁, q, sibling', path₂, hrun, rfl, hright⟩
      · refine .inl ⟨hrun, fun f hf => ?_⟩
        rcases List.mem_cons.1 hf with rfl | hf
        · rfl
        · exact hright f hf
      · refine .inr ⟨_ :: path₁, q, sibling', path₂, hrun, rfl, fun f hf => ?_⟩
        rcases List.mem_cons.1 hf with rfl | hf
        · rfl
        · exact hright f hf

end Climbing

section Seeking

variable {type : ConstructorType} {incremental : Bool}

/-- Where a round stops: nothing in the tree comes next, and `next` is the first element behind. -/
structure Reached (type : ConstructorType) (st : State) (elts : List Nat) (next : Option Nat) : Prop where
  fresh : ∀ b ∈ elts, (st.node b).purpose ≠ st.unfilled
  stop : next = none → type.complete st.unfilled = true ∨
    ∀ b ∈ elts, st.key type b ≤ type.position st.unfilled
  gap : ∀ e, next = some e → e ∈ elts ∧ type.complete st.unfilled = false ∧
    type.position st.unfilled < st.key type e ∧
      ∀ b ∈ elts, st.key type b ≤ type.position st.unfilled ∨ st.key type e ≤ st.key type b

def Comes (st : State) (elts : List Nat) (values : List (List Byte)) : Prop :=
  ∀ i value, values[i]? = some value →
    ∃ b ∈ elts, (st.node b).purpose = st.unfilled + i ∧ (st.node b).value = value

/-- An element that need not be looked at any more. -/
def Passed (type : ConstructorType) (st : State) (b : Nat) : Prop :=
  type.complete st.unfilled = false →
    st.key type b ≤ type.position st.unfilled ∧ (st.node b).purpose ≠ st.unfilled

def pathWork : List (Frame Nat) → Nat
  | [] => 0
  | ⟨.left, _, sibling⟩ :: path => 3 + 4 * sibling.toList.length + pathWork path
  | ⟨.right, _, _⟩ :: path => pathWork path

def work (type : ConstructorType) (st : State) (path : List (Frame Nat)) (l : LinkTree Nat) (a : Nat)
    (r : LinkTree Nat) : Nat :=
  pathWork path + 4 * r.toList.length +
    if type.complete st.unfilled then 1
    else if (st.node a).purpose = st.unfilled then 2
    else if type.position st.unfilled < st.key type a then 4 * l.toList.length + 4 else 1

theorem work_pos (st : State) (path : List (Frame Nat)) (l : LinkTree Nat) (a : Nat) (r : LinkTree Nat) :
    1 ≤ work type st path l a r := by
  unfold work
  split
  · omega
  · split
    · omega
    · split <;> omega

theorem work_le (st : State) (path : List (Frame Nat)) (l : LinkTree Nat) (a : Nat) (r : LinkTree Nat) :
    work type st path l a r ≤ pathWork path + 4 * (LinkTree.node l a r).toList.length := by
  unfold work
  rw [LinkTree.toList, List.length_append, List.length_cons]
  split
  · omega
  · split
    · omega
    · split <;> omega

theorem before_append (path₁ path : List (Frame Nat)) :
    before (path₁ ++ path) = before path ++ before path₁ := by
  induction path₁ with
  | nil => exact (List.append_nil _).symm
  | cons f path₁ ih =>
    obtain ⟨side, a, sibling⟩ := f
    cases side <;> simp [before, ih]

theorem pathWork_append {path₁ : List (Frame Nat)} (hright : ∀ f ∈ path₁, f.side = .right)
    (path : List (Frame Nat)) : pathWork (path₁ ++ path) = pathWork path := by
  induction path₁ with
  | nil => rfl
  | cons f path₁ ih =>
    obtain ⟨side, a, sibling⟩ := f
    obtain rfl : side = .right := hright _ (List.mem_cons_self ..)
    exact ih fun f hf => hright f (List.mem_cons_of_mem _ hf)

theorem pathWork_le (path : List (Frame Nat)) : pathWork path ≤ 4 * (pathElts path).length := by
  induction path with
  | nil => exact Nat.zero_le _
  | cons f path ih =>
    have hlen := (pathElts_cons_perm f path).length_eq
    rw [List.length_cons, List.length_append] at hlen
    obtain ⟨side, a, sibling⟩ := f
    cases side with
    | left =>
      rw [pathWork]
      simp only at hlen
      omega
    | right =>
      rw [pathWork]
      omega

variable {st : State} {t : LinkTree Nat}

theorem Increasing.split {path : List (Frame Nat)} {l r : LinkTree Nat} {a : Nat}
    (hinc : Increasing type st (plug path (.node l a r)).toList) :
    (∀ b ∈ before path, st.key type b < st.key type a) ∧ (∀ b ∈ l.toList, st.key type b < st.key type a) ∧
      (∀ b ∈ r.toList, st.key type a < st.key type b) ∧ ∀ b ∈ after path, st.key type a < st.key type b := by
  rw [toList_plug, LinkTree.toList, Increasing] at hinc
  simp only [List.pairwise_append, List.pairwise_cons, List.mem_append, List.mem_cons] at hinc
  obtain ⟨-, ⟨⟨-, ⟨har, -⟩, hla⟩, -, hafter⟩, hbefore⟩ := hinc
  exact ⟨fun b hb => hbefore b hb a (.inl (.inr (.inl rfl))), fun b hb => hla b hb a (.inl rfl), har,
    fun b hb => hafter a (.inr (.inl rfl)) b hb⟩

theorem passed_of_lt {a b : Nat} (hlt : st.key type b < st.key type a)
    (hle : st.key type a ≤ type.position st.unfilled) : Passed type st b := by
  refine fun _ => ⟨Nat.le_trans (Nat.le_of_lt hlt) hle, fun heq => ?_⟩
  have hkey : st.key type b = type.position st.unfilled := congrArg type.position heq
  omega

/-- The first element behind the position that is filled next. -/
theorem reached_gap {path : List (Frame Nat)} {l r : LinkTree Nat} {a : Nat}
    (hinc : Increasing type st (plug path (.node l a r)).toList)
    (hcomplete : type.complete st.unfilled = false) (hlt : type.position st.unfilled < st.key type a)
    (hbefore : ∀ b ∈ before path, Passed type st b) (hl : ∀ b ∈ l.toList, Passed type st b) :
    Reached type st (plug path (.node l a r)).toList (some a) := by
  obtain ⟨-, -, hr, hafter⟩ := hinc.split
  have hmem : ∀ b ∈ (plug path (.node l a r)).toList,
      Passed type st b ∨ st.key type a ≤ st.key type b := by
    intro b hb
    rw [toList_plug, LinkTree.toList] at hb
    simp only [List.mem_append, List.mem_cons] at hb
    rcases hb with hb | (hb | rfl | hb) | hb
    · exact .inl (hbefore b hb)
    · exact .inl (hl b hb)
    · exact .inr (Nat.le_refl _)
    · exact .inr (Nat.le_of_lt (hr b hb))
    · exact .inr (Nat.le_of_lt (hafter b hb))
  refine ⟨fun b hb heq => ?_, fun hnone => absurd hnone (Option.some_ne_none a),
    fun e he => ?_⟩
  · rcases hmem b hb with hpassed | hle
    · exact (hpassed hcomplete).2 heq
    · have hkey : st.key type b = type.position st.unfilled := congrArg type.position heq
      omega
  · obtain rfl := Option.some.inj he
    refine ⟨?_, hcomplete, hlt, fun b hb => (hmem b hb).imp_left fun h => (h hcomplete).1⟩
    rw [toList_plug, LinkTree.toList]
    simp

/-- The loop at a node in its place: what comes before it has been passed. -/
structure Cursor (type : ConstructorType) (st : State) (t : LinkTree Nat) (path : List (Frame Nat)) (l : LinkTree Nat)
    (a : Nat) (r : LinkTree Nat) : Prop where
  links : Linked st.child st.parent none t st.pendingElts
  increasing : Increasing type st t.toList
  nodup : t.toList.Nodup
  fields : ∀ b ∈ t.toList, type.complete (st.node b).purpose = false
  length : t.toList.length = st.allocated
  place : plug path (.node l a r) = t
  passed : ∀ b ∈ before path, Passed type st b

namespace Cursor

variable {path : List (Frame Nat)} {l r : LinkTree Nat} {a : Nat}

theorem mem (hc : Cursor type st t path l a r) : a ∈ t.toList := by
  rw [← hc.place, toList_plug, LinkTree.toList]
  simp

theorem complete (hc : Cursor type st t path l a r) (hcomplete : type.complete st.unfilled = true) :
    Reached type st t.toList none := by
  refine ⟨fun b hb heq => ?_, fun _ => .inl hcomplete, fun e he => by cases he⟩
  have hfield := hc.fields b hb
  rw [show (st.node b).purpose = st.unfilled from heq, hcomplete] at hfield
  cases hfield

/-- The element comes next, and the loop looks at it once more. -/
theorem take (hmono : ∀ i j, i ≤ j → type.complete j = false → type.position i ≤ type.position j)
    (hc : Cursor type st t path l a r) (heq : (st.node a).purpose = st.unfilled) :
    Cursor type (emit type incremental [(st.node a).value] st) t path l a r ∧
      work type (emit type incremental [(st.node a).value] st) path l a r ≤ pathWork path + 4 * r.toList.length + 1 := by
  obtain ⟨hnode, hptr, halloc, hunfilled, -⟩ := emit_same type incremental [(st.node a).value] st
  generalize emit type incremental [(st.node a).value] st = st₁ at hnode hptr halloc hunfilled
  rw [List.length_singleton] at hunfilled
  have hchild : st₁.child = st.child := by
    unfold State.child
    rw [hnode]
  have hparent : st₁.parent = st.parent := by
    unfold State.parent
    rw [hnode]
  have hkey : st₁.key type = st.key type := by
    unfold State.key
    rw [hnode]
  have hkeya : st.key type a = type.position st.unfilled := congrArg type.position heq
  have hle : type.complete st₁.unfilled = false → st.key type a ≤ type.position st₁.unfilled := by
    intro hcomplete
    rw [hkeya]
    exact hmono _ _ (by omega) hcomplete
  obtain ⟨hbefore, -⟩ := (hc.place ▸ hc.increasing).split
  refine ⟨⟨?_, ?_, hc.nodup, ?_, hc.length.trans halloc.symm, hc.place, fun b hb hcomplete => ?_⟩, ?_⟩
  · rw [hchild, hparent, hptr]
    exact hc.links
  · rw [Increasing, hkey]
    exact hc.increasing
  · rw [hnode]
    exact hc.fields
  · exact passed_of_lt (by rw [hkey]; exact hbefore b hb) (by rw [hkey]; exact hle hcomplete) hcomplete
  · unfold work
    rw [hnode, hkey]
    split
    · exact Nat.le_refl _
    · next hcomplete =>
      rw [if_neg (by omega), if_neg (Nat.not_lt_of_le (hle (Bool.not_eq_true _ ▸ hcomplete)))]

theorem child_left (hc : Cursor type st t path l a r) :
    Linked st.child st.parent (some a) l ((st.node a).child .left) := by
  obtain ⟨p, ptr, -, -, -, hl, -⟩ := linked_plug.1 (hc.place ▸ hc.links)
  exact hl

theorem child_right (hc : Cursor type st t path l a r) :
    Linked st.child st.parent (some a) r ((st.node a).child .right) := by
  obtain ⟨p, ptr, -, -, -, -, hr⟩ := linked_plug.1 (hc.place ▸ hc.links)
  exact hr

theorem go_left {ll lr : LinkTree Nat} {b : Nat} (hc : Cursor type st t path (.node ll b lr) a r) :
    Cursor type st t (⟨.left, a, r⟩ :: path) ll b lr :=
  ⟨hc.links, hc.increasing, hc.nodup, hc.fields, hc.length, hc.place, hc.passed⟩

theorem passed_here (hc : Cursor type st t path l a r) (hne : (st.node a).purpose ≠ st.unfilled)
    (hle : st.key type a ≤ type.position st.unfilled) :
    ∀ b ∈ before path ++ (l.toList ++ [a]), Passed type st b := by
  obtain ⟨-, hl, -⟩ := (hc.place ▸ hc.increasing).split
  intro b hb
  simp only [List.mem_append, List.mem_singleton] at hb
  rcases hb with hb | hb | rfl
  · exact hc.passed b hb
  · exact passed_of_lt (hl b hb) hle
  · exact fun _ => ⟨hle, hne⟩

theorem go_right {rl rr : LinkTree Nat} {b : Nat} (hc : Cursor type st t path l a (.node rl b rr))
    (hne : (st.node a).purpose ≠ st.unfilled) (hle : st.key type a ≤ type.position st.unfilled) :
    Cursor type st t (⟨.right, a, l⟩ :: path) rl b rr :=
  ⟨hc.links, hc.increasing, hc.nodup, hc.fields, hc.length, hc.place, hc.passed_here hne hle⟩

theorem gap (hc : Cursor type st t path l a r) (hcomplete : type.complete st.unfilled = false)
    (hlt : type.position st.unfilled < st.key type a) (hl : ∀ b ∈ l.toList, Passed type st b) :
    Reached type st t.toList (some a) := by
  obtain ⟨-, hinc, -, -, -, rfl, hpassed⟩ := hc
  exact reached_gap hinc hcomplete hlt hpassed hl

/-- Behind the last node of a subtree the loop goes on at the first node above that has not been passed. -/
theorem go_up (hc : Cursor type st t path l a .nil) (hcomplete : type.complete st.unfilled = false)
    (hne : (st.node a).purpose ≠ st.unfilled) (hle : st.key type a ≤ type.position st.unfilled) :
    (climb st.node st.allocated a = some none ∧ Reached type st t.toList none) ∨
      ∃ p path' l' r', climb st.node st.allocated a = some (some p) ∧ Cursor type st t path' l' p r' ∧
        (∀ b ∈ l'.toList, Passed type st b) ∧ pathWork path = pathWork path' + 4 * r'.toList.length + 3 := by
  have hhere := hc.passed_here hne hle
  obtain ⟨hlinks, hinc, hnodup, hfields, hlen, rfl, -⟩ := hc
  obtain ⟨p, ptr, hpath, rfl, hparent, -⟩ := linked_plug.1 hlinks
  have hsub := nodup_plug.1 hnodup
  have hnodup' : (a :: pathElts path).Nodup := by
    refine List.nodup_cons.2 ⟨fun h => hsub.2.2 ?_ h, hsub.2.1⟩
    simp [LinkTree.toList]
  have hdepth : path.length < st.allocated := by
    have hle := length_path_le path
    rw [(toList_plug_perm path _).length_eq, List.length_append, LinkTree.toList, List.length_append,
      List.length_cons] at hlen
    omega
  have hpath' : LinkedPath st.child st.parent st.pendingElts path (st.parent a) (some a) := by
    rw [hparent]
    exact hpath
  rcases climb_spec hpath' hnodup' hdepth with ⟨hclimb, hall⟩ | ⟨path₁, p, sibling, path₂, hclimb, rfl, hall⟩
  · -- the whole tree has been passed
    have hpassed : ∀ b ∈ (plug path (.node l a .nil)).toList, Passed type st b := by
      rw [toList_plug_right hall, LinkTree.toList]
      exact hhere
    exact .inl ⟨hclimb, fun b hb => (hpassed b hb hcomplete).2,
      fun _ => .inr fun b hb => (hpassed b hb hcomplete).1, fun e he => by cases he⟩
  · rw [before_append, before, List.append_assoc] at hhere
    refine .inr ⟨p, path₂, plug path₁ (.node l a .nil), sibling, hclimb,
      ⟨hlinks, hinc, hnodup, hfields, hlen, (plug_append path₁ (⟨.left, p, sibling⟩ :: path₂) _).symm,
        fun b hb => hhere b (List.mem_append_left _ hb)⟩, ?_, ?_⟩
    · rw [toList_plug_right hall, LinkTree.toList]
      exact fun b hb => hhere b (List.mem_append_right _ hb)
    · rw [pathWork_append hall, pathWork]
      omega

end Cursor

theorem seek_spec (hmono : ∀ i j, i ≤ j → type.complete j = false → type.position i ≤ type.position j)
    {fuel : Nat} {path : List (Frame Nat)} {l r : LinkTree Nat} {a : Nat} (hc : Cursor type st t path l a r)
    (hfuel : work type st path l a r ≤ fuel) :
    ∃ values next, seek type incremental fuel (some a) st = some (emit type incremental values st, next) ∧
      Comes st t.toList values ∧ Reached type (emit type incremental values st) t.toList next := by
  induction fuel generalizing st path l r a with
  | zero => exact absurd (Nat.le_trans (work_pos ..) hfuel) (Nat.not_succ_le_zero 0)
  | succ fuel ih =>
    have hnone : Comes st t.toList [] := fun i value h => by simp at h
    have hbase : work type st path l a r = pathWork path + 4 * r.toList.length +
        if type.complete st.unfilled then 1
        else if (st.node a).purpose = st.unfilled then 2
        else if type.position st.unfilled < st.key type a then 4 * l.toList.length + 4 else 1 := rfl
    rw [seek]
    split
    · next hcomplete => exact ⟨[], none, rfl, hnone, hc.complete hcomplete⟩
    · next hcomplete =>
      rw [Bool.not_eq_true] at hcomplete
      rw [hbase, if_neg (by rw [hcomplete]; decide)] at hfuel
      split
      · next heq =>
        rw [if_pos heq] at hfuel
        obtain ⟨hc₁, hwork⟩ := @Cursor.take type incremental st t path l r a hmono hc heq
        obtain ⟨values, next, hrun, hcomes, hreached⟩ := ih hc₁ (by omega)
        obtain ⟨hnode, -, -, hunfilled, -⟩ := emit_same type incremental [(st.node a).value] st
        refine ⟨(st.node a).value :: values, next, hrun, fun i value hi => ?_, hreached⟩
        cases i with
        | zero =>
          rw [List.getElem?_cons_zero, Option.some.injEq] at hi
          exact ⟨a, hc.mem, heq, hi⟩
        | succ i =>
          rw [List.getElem?_cons_succ] at hi
          obtain ⟨b, hb, hpurpose, hvalue⟩ := hcomes i value hi
          rw [hunfilled, List.length_singleton] at hpurpose
          rw [hnode] at hpurpose hvalue
          exact ⟨b, hb, by omega, hvalue⟩
      · next hne =>
        rw [if_neg hne] at hfuel
        split
        · next hlt =>
          rw [if_pos (show type.position st.unfilled < st.key type a from hlt)] at hfuel
          have hchild := hc.child_left
          cases l with
          | nil =>
            rw [show (st.node a).child .left = none from hchild]
            exact ⟨[], some a, rfl, hnone, hc.gap hcomplete hlt fun b hb => by cases hb⟩
          | node ll b lr =>
            rw [hchild.1]
            have hwork := @work_le type st (⟨.left, a, r⟩ :: path) ll b lr
            rw [pathWork] at hwork
            exact ih hc.go_left (by omega)
        · next hge =>
          rw [if_neg (show ¬ type.position st.unfilled < st.key type a from hge)] at hfuel
          have hle : st.key type a ≤ type.position st.unfilled := Nat.le_of_not_lt hge
          have hchild := hc.child_right
          cases r with
          | node rl b rr =>
            rw [hchild.1]
            have hwork := @work_le type st (⟨.right, a, l⟩ :: path) rl b rr
            rw [pathWork] at hwork
            exact ih (hc.go_right hne hle) (by omega)
          | nil =>
            rw [show (st.node a).child .right = none from hchild]
            obtain ⟨hclimb, hreached⟩ | ⟨p, path', l', r', hclimb, hc', hpassed, hwork⟩ := hc.go_up hcomplete hne hle
            · rw [hclimb]
              exact ⟨[], none, rfl, hnone, hreached⟩
            · rw [hclimb, Option.bind_eq_bind, Option.bind_some]
              dsimp only
              split
              · next hlt => exact ⟨[], some p, rfl, hnone, hc'.gap hcomplete hlt hpassed⟩
              · next hge' =>
                have hwork' : work type st path' l' p r' ≤ pathWork path' + 4 * r'.toList.length + 2 := by
                  unfold work
                  rw [if_neg (by rw [hcomplete]; decide),
                    if_neg (show ¬ type.position st.unfilled < st.key type p from hge')]
                  split <;> omega
                exact ih hc' (by omega)

end Seeking

end Z80Gcc.PendingInit
