import Z80Gcc.Proofs.PendingPlacement

/-! The rounds of `output_pending_init_elements`: each one outputs a run of elements, and leaves a gap. -/

namespace Z80Gcc.PendingInit

open Z80Gcc.LinkedTree ConstructorType

section Trees

variable {type : ConstructorType} {incremental : Bool} {st st' : State}

/-- The tree does not depend on what has been output. -/
theorem PendingTree.congr (ht : PendingTree type st) (hnode : st'.node = st.node)
    (hptr : st'.pendingElts = st.pendingElts) (halloc : st'.allocated = st.allocated) :
    PendingTree type st' := by
  obtain ⟨t, hlinked, havl, hinc, hperm⟩ := ht
  have hchild : st'.child = st.child := by
    unfold State.child
    rw [hnode]
  have hparent : st'.parent = st.parent := by
    unfold State.parent
    rw [hnode]
  have hbalance : st'.balance = st.balance := by
    unfold State.balance
    rw [hnode]
  have hkey : st'.key type = st.key type := by
    unfold State.key
    rw [hnode]
  refine ⟨t, ?_, ?_, ?_, ?_⟩
  · rw [hchild, hparent, hptr]
    exact hlinked
  · rw [hbalance]
    exact havl
  · rw [Increasing, hkey]
    exact hinc
  · rw [halloc]
    exact hperm

theorem fillGap_node (type : ConstructorType) (incremental : Bool) (next : Nat) (st : State) :
    (fillGap type incremental next st).node = st.node ∧
      (fillGap type incremental next st).pendingElts = st.pendingElts ∧
      (fillGap type incremental next st).allocated = st.allocated ∧
      (fillGap type incremental next st).unfilled = next := by
  unfold fillGap
  split
  · cases type <;> exact ⟨rfl, rfl, rfl, rfl⟩
  · exact ⟨rfl, rfl, rfl, rfl⟩

theorem PendingTree.key_inj (ht : PendingTree type st) {a b : Nat} (ha : a < st.allocated)
    (hb : b < st.allocated) (hkey : st.key type a = st.key type b) : a = b := by
  obtain ⟨t, -, -, hinc, hperm⟩ := ht
  have hkeys : (t.toList.map (st.key type)).Nodup :=
    List.pairwise_map.2 (hinc.imp fun hlt => Nat.ne_of_lt hlt)
  exact List.inj_on_of_nodup_map hkeys (hperm.mem_iff.2 (List.mem_range.2 ha))
    (hperm.mem_iff.2 (List.mem_range.2 hb)) hkey

theorem Reached.congr {elts elts' : List Nat} {next : Option Nat} (h : Reached type st elts next)
    (hmem : ∀ a, a ∈ elts ↔ a ∈ elts') : Reached type st elts' next where
  fresh b hb := h.fresh b ((hmem b).2 hb)
  stop hnext := (h.stop hnext).imp_right fun hle b hb => hle b ((hmem b).2 hb)
  gap e he := by
    obtain ⟨hmem', hcomplete, hlt, hbest⟩ := h.gap e he
    exact ⟨(hmem e).1 hmem', hcomplete, hlt, fun b hb => hbest b ((hmem b).2 hb)⟩

theorem seek_plug (hl : type.Layout) {t : LinkTree Nat}
    (hlinked : Linked st.child st.parent none t st.pendingElts) (hinc : Increasing type st t.toList)
    (hperm : t.toList.Perm (List.range st.allocated))
    (hfields : ∀ a, a < st.allocated → type.complete (st.node a).purpose = false)
    {path : List (Frame Nat)} {l r : LinkTree Nat} {e : Nat} (hplug : plug path (.node l e r) = t)
    (hbefore : ∀ b ∈ before path, Passed type st b) :
    ∃ values next, seek type incremental (4 * st.allocated) (some e) st =
        some (emit type incremental values st, next) ∧
      Comes st (List.range st.allocated) values ∧
      Reached type (emit type incremental values st) (List.range st.allocated) next := by
  have hmem : ∀ a, a ∈ t.toList ↔ a < st.allocated := fun a => hperm.mem_iff.trans List.mem_range
  have hlen : t.toList.length = st.allocated := hperm.length_eq.trans List.length_range
  have hwork : work type st path l e r ≤ 4 * st.allocated := by
    have hle := @work_le type st path l e r
    have hpath := pathWork_le path
    rw [← hplug, (toList_plug_perm path _).length_eq, List.length_append] at hlen
    omega
  obtain ⟨values, next, hrun, hcomes, hreached⟩ := @seek_spec type incremental st t hl.mono
    (4 * st.allocated) path l r e ⟨hlinked, hinc, hperm.nodup_iff.2 List.nodup_range,
      fun b hb => hfields b ((hmem b).1 hb), hlen, hplug, hbefore⟩ hwork
  refine ⟨values, next, hrun, fun i value hi => ?_, hreached.congr fun a => hperm.mem_iff⟩
  obtain ⟨b, hb, hnode⟩ := hcomes i value hi
  exact ⟨b, hperm.mem_iff.1 hb, hnode⟩

theorem seek_root (hl : type.Layout) (ht : PendingTree type st)
    (hfields : ∀ a, a < st.allocated → type.complete (st.node a).purpose = false) :
    ∃ values next, seek type incremental (4 * st.allocated) st.pendingElts st =
        some (emit type incremental values st, next) ∧
      Comes st (List.range st.allocated) values ∧
      Reached type (emit type incremental values st) (List.range st.allocated) next := by
  obtain ⟨t, hlinked, -, hinc, hperm⟩ := ht
  cases t with
  | nil =>
    have halloc : st.allocated = 0 := List.range_eq_nil.1 (List.nil_perm.1 hperm)
    have hptr : st.pendingElts = none := hlinked
    refine ⟨[], none, ?_, fun i value hi => by simp at hi, ?_⟩
    · rw [hptr, seek]
      rfl
    · rw [halloc, List.range_zero]
      exact ⟨fun b hb => absurd hb List.not_mem_nil, fun _ => .inr fun b hb => absurd hb List.not_mem_nil,
        fun e he => by cases he⟩
  | node l e r =>
    have hplug : plug [] (.node l e r) = LinkTree.node l e r := rfl
    rw [hlinked.1]
    exact seek_plug hl hlinked hinc hperm hfields hplug fun b hb => absurd hb List.not_mem_nil

/-- A round from a node on that is not behind what comes next. -/
theorem seek_at (hl : type.Layout) (ht : PendingTree type st)
    (hfields : ∀ a, a < st.allocated → type.complete (st.node a).purpose = false) {e : Nat}
    (he : e < st.allocated) (hnext : (st.node e).purpose = st.unfilled) :
    ∃ values next, seek type incremental (4 * st.allocated) (some e) st =
        some (emit type incremental values st, next) ∧
      Comes st (List.range st.allocated) values ∧
      Reached type (emit type incremental values st) (List.range st.allocated) next := by
  obtain ⟨t, hlinked, -, hinc, hperm⟩ := ht
  obtain ⟨path, l, r, hplug⟩ := exists_plug (hperm.mem_iff.2 (List.mem_range.2 he)) []
  change plug path (.node l e r) = t at hplug
  have hkey : st.key type e = type.position st.unfilled := congrArg type.position hnext
  subst hplug
  exact seek_plug hl hlinked hinc hperm hfields rfl fun b hb =>
    passed_of_lt (hinc.split.1 b hb) (Nat.le_of_eq hkey)

end Trees

section Numbered

theorem mem_numbered {u : Nat} {values : List (List Byte)} {x : Nat × List Byte} :
    x ∈ numbered u values ↔ ∃ i, x.1 = u + i ∧ values[i]? = some x.2 := by
  induction values generalizing u with
  | nil => simp [numbered]
  | cons value values ih =>
    rw [numbered, List.mem_cons, ih]
    constructor
    · rintro (rfl | ⟨i, hx, hi⟩)
      · exact ⟨0, rfl, rfl⟩
      · exact ⟨i + 1, by omega, hi⟩
    · rintro ⟨i, hx, hi⟩
      cases i with
      | zero => exact .inl (Prod.ext hx (Option.some.inj hi).symm)
      | succ i => exact .inr ⟨i, by omega, hi⟩

theorem numbered_sorted (u : Nat) (values : List (List Byte)) :
    (numbered u values).Pairwise fun x y => x.1 < y.1 := by
  induction values generalizing u with
  | nil => exact List.Pairwise.nil
  | cons value values ih =>
    refine List.pairwise_cons.2 ⟨fun y hy => ?_, ih _⟩
    obtain ⟨i, hi, -⟩ := mem_numbered.1 hy
    change u < y.1
    omega

end Numbered

section Rounds

/-- When nothing comes at `u`, the loop goes on behind the position of `u`. -/
def Free (type : ConstructorType) (designators : List Nat) (u : Nat) : Prop :=
  u ∉ designators → type.first ≤ u → (u = type.first ∨ ∃ p ∈ designators, u = p + 1) →
    ∀ e ∈ designators, u < e → type.position u ≠ type.position e

variable (type : ConstructorType) (incremental : Bool) (elts : List (Nat × List Byte))

/-- Elements with different designators, and values of the right size. -/
structure Elements : Prop where
  nodup : (elts.map Prod.fst).Nodup
  designator : ∀ x ∈ elts, type.Designator x.1
  size : incremental = true → ∀ x ∈ elts, x.2.length = type.valueSize x.1

/-- The nodes are elements, and what has not been passed has a node. -/
structure Pending (st : State) : Prop where
  tree : PendingTree type st
  node : ∀ a, a < st.allocated → ((st.node a).purpose, (st.node a).value) ∈ elts
  pending : ∀ x ∈ elts, st.unfilled ≤ x.1 →
    ∃ a, a < st.allocated ∧ ((st.node a).purpose, (st.node a).value) = x

/-- What has been output is in order, and nothing is missing unless a position was not free. -/
structure Filled (done : List (Nat × List Byte)) (st : State) : Prop where
  placed : Placed type incremental done st
  sorted : done.Pairwise fun x y => x.1 < y.1
  mem : ∀ x ∈ done, x ∈ elts ∧ x.1 < st.unfilled
  full : (∀ x ∈ elts, x.1 < st.unfilled → x ∈ done) ↔
    ∀ u, u < st.unfilled → Free type (elts.map Prod.fst) u

variable {type incremental elts} {st st' : State} {done : List (Nat × List Byte)}

theorem Elements.value_eq (he : Elements type incremental elts) {x y : Nat × List Byte} (hx : x ∈ elts)
    (hy : y ∈ elts) (hxy : x.1 = y.1) : x = y :=
  List.inj_on_of_nodup_map he.nodup hx hy hxy

theorem Pending.field (hp : Pending type elts st) (he : Elements type incremental elts) (a : Nat)
    (ha : a < st.allocated) : type.complete (st.node a).purpose = false :=
  (he.designator _ (hp.node a ha)).2

theorem Pending.congr (hp : Pending type elts st) (hnode : st'.node = st.node)
    (hptr : st'.pendingElts = st.pendingElts) (halloc : st'.allocated = st.allocated)
    (hle : st.unfilled ≤ st'.unfilled) : Pending type elts st' where
  tree := hp.tree.congr hnode hptr halloc
  node a ha := by
    rw [hnode]
    exact hp.node a (halloc ▸ ha)
  pending x hx hxu := by
    rw [hnode, halloc]
    exact hp.pending x hx (Nat.le_trans hle hxu)

theorem Pending.emit (hp : Pending type elts st) (incremental : Bool) (values : List (List Byte)) :
    Pending type elts (emit type incremental values st) := by
  obtain ⟨hnode, hptr, halloc, hunfilled, -⟩ :=
    emit_same type incremental values st
  exact hp.congr hnode hptr halloc (by omega)

theorem Comes.mem (hp : Pending type elts st) {values : List (List Byte)}
    (hcomes : Comes st (List.range st.allocated) values) (i : Nat) (value : List Byte)
    (hi : values[i]? = some value) : (st.unfilled + i, value) ∈ elts := by
  obtain ⟨b, hb, hpurpose, hv⟩ := hcomes i value hi
  have hnode := hp.node b (List.mem_range.1 hb)
  rwa [hpurpose, hv] at hnode

theorem Filled.congr (hf : Filled type incremental elts done st) (helements : st'.elements = st.elements)
    (hout : st'.out = st.out) (hunfilled : st'.unfilled = st.unfilled) :
    Filled type incremental elts done st' where
  placed := ⟨fun h => helements.trans (hf.placed.elements h), fun h => hout ▸ hf.placed.image h⟩
  sorted := hf.sorted
  mem := by
    rw [hunfilled]
    exact hf.mem
  full := by
    rw [hunfilled]
    exact hf.full

theorem Filled.emit (hl : type.Layout) (hb : incremental = true → type.ByteSized)
    (he : Elements type incremental elts) (hf : Filled type incremental elts done st)
    (hloose : incremental = true → Loose type st) {values : List (List Byte)}
    (hvalue : ∀ i value, values[i]? = some value → (st.unfilled + i, value) ∈ elts) :
    Filled type incremental elts (done ++ numbered st.unfilled values) (emit type incremental values st) ∧
      (incremental = true → values ≠ [] ∨ Exact type st → Exact type (emit type incremental values st)) := by
  have hmem : ∀ x ∈ numbered st.unfilled values,
      x ∈ elts ∧ st.unfilled ≤ x.1 ∧ x.1 < st.unfilled + values.length := by
    intro x hx
    obtain ⟨i, hxi, hi⟩ := mem_numbered.1 hx
    have hlt := (List.getElem?_eq_some_iff.1 hi).1
    refine ⟨?_, by omega, by omega⟩
    rw [show x = (st.unfilled + i, x.2) from Prod.ext hxi rfl]
    exact hvalue i _ hi
  have hunfilled := (emit_same type incremental values st).2.2.2.1
  obtain ⟨hplaced, hexact⟩ := emit_placed hl hb hf.placed hloose
    (fun i hi => (he.designator _ (hvalue i _ (List.getElem?_eq_getElem hi))).2)
    (fun i value hi hinc => he.size hinc _ (hvalue i value hi))
  refine ⟨⟨hplaced, ?_, fun x hx => ?_, ?_⟩, hexact⟩
  · refine List.pairwise_append.2 ⟨hf.sorted, numbered_sorted .., fun x hx y hy => ?_⟩
    exact Nat.lt_of_lt_of_le (hf.mem x hx).2 (hmem y hy).2.1
  · rw [hunfilled]
    rcases List.mem_append.1 hx with hx | hx
    · exact ⟨(hf.mem x hx).1, Nat.lt_add_right _ (hf.mem x hx).2⟩
    · exact ⟨(hmem x hx).1, (hmem x hx).2.2⟩
  · rw [hunfilled]
    constructor
    · intro hall u hu
      rcases Nat.lt_or_ge u st.unfilled with hlow | hhigh
      · refine hf.full.1 (fun x hx hxu => ?_) u hlow
        rcases List.mem_append.1 (hall x hx (Nat.lt_add_right _ hxu)) with hdone | hnew
        · exact hdone
        · have hle := (hmem x hnew).2.1
          omega
      · obtain ⟨i, rfl⟩ := Nat.exists_eq_add_of_le hhigh
        have hget := List.getElem?_eq_getElem (Nat.lt_of_add_lt_add_left hu)
        exact fun hnot => absurd (List.mem_map.2 ⟨_, hvalue i _ hget, rfl⟩) hnot
    · intro hfree x hx hxu
      rcases Nat.lt_or_ge x.1 st.unfilled with hlow | hhigh
      · refine List.mem_append_left _ (hf.full.2 (fun u hu => hfree u ?_) x hx hlow)
        exact Nat.lt_add_right _ hu
      · obtain ⟨i, hi⟩ := Nat.exists_eq_add_of_le hhigh
        have hget := List.getElem?_eq_getElem (show i < values.length by omega)
        have heq := he.value_eq hx (hvalue i _ hget) hi
        refine List.mem_append_right _ (mem_numbered.2 ⟨i, hi, ?_⟩)
        rw [hget, congrArg Prod.snd heq]

theorem Pending.unfilled_not_mem (hp : Pending type elts st) {next : Option Nat}
    (hr : Reached type st (List.range st.allocated) next) : st.unfilled ∉ elts.map Prod.fst := by
  intro hmem
  obtain ⟨x, hx, hxu⟩ := List.mem_map.1 hmem
  obtain ⟨a, ha, hnode⟩ := hp.pending x hx (Nat.le_of_eq hxu.symm)
  refine hr.fresh a (List.mem_range.2 ha) ?_
  rw [← hxu, ← hnode]

/-- What comes behind `unfilled`, but not behind its position, is for the same position. -/
theorem Pending.position_eq (hl : type.Layout) (he : Elements type incremental elts)
    (hp : Pending type elts st) {x : Nat × List Byte} (hx : x ∈ elts) (hxu : st.unfilled ≤ x.1)
    (hkey : ∀ a, a < st.allocated → (st.node a).purpose = x.1 → st.key type a ≤ type.position st.unfilled) :
    type.position st.unfilled = type.position x.1 := by
  obtain ⟨a, ha, hnode⟩ := hp.pending x hx hxu
  have hpurpose : (st.node a).purpose = x.1 := congrArg Prod.fst hnode
  refine Nat.le_antisymm (hl.mono _ _ hxu (he.designator x hx).2) ?_
  rw [← hpurpose]
  exact hkey a ha hpurpose

theorem Filled.fillGap (hl : type.Layout) (hb : incremental = true → type.ByteSized)
    (he : Elements type incremental elts) (hp : Pending type elts st)
    (hf : Filled type incremental elts done st) (hexact : incremental = true → Exact type st)
    (hlow : type.first ≤ st.unfilled)
    (hpred : st.unfilled = type.first ∨ ∃ p ∈ elts.map Prod.fst, st.unfilled = p + 1) {e : Nat}
    (hr : Reached type st (List.range st.allocated) (some e)) :
    Filled type incremental elts done (fillGap type incremental (st.node e).purpose st) ∧
      (incremental = true → Loose type (PendingInit.fillGap type incremental (st.node e).purpose st)) ∧
      st.unfilled < (st.node e).purpose := by
  have hnot := hp.unfilled_not_mem hr
  obtain ⟨hmem, hcomplete, hlt, hbest⟩ := hr.gap e rfl
  have hea := List.mem_range.1 hmem
  have hfield := hp.field he e hea
  have hunfilled := (fillGap_node type incremental (st.node e).purpose st).2.2.2
  have hnext : st.unfilled < (st.node e).purpose := by
    refine Nat.lt_of_not_le fun hle => ?_
    have hmono := hl.mono _ _ hle hcomplete
    exact absurd hlt (Nat.not_lt_of_le hmono)
  obtain ⟨hplaced, hloose⟩ := fillGap_placed hb hf.placed hexact (Nat.le_of_lt hnext) hl hfield
  refine ⟨⟨hplaced, hf.sorted, fun x hx => ?_, ?_⟩, hloose, hnext⟩
  · rw [hunfilled]
    exact ⟨(hf.mem x hx).1, Nat.lt_trans (hf.mem x hx).2 hnext⟩
  rw [hunfilled]
  constructor
  · intro hall u hu
    rcases Nat.lt_trichotomy u st.unfilled with hlow' | rfl | hhigh
    · exact hf.full.1 (fun x hx hxu => hall x hx (Nat.lt_trans hxu hnext)) u hlow'
    · intro _ _ _ d hd hud hposition
      obtain ⟨x, hx, rfl⟩ := List.mem_map.1 hd
      rcases Nat.lt_or_ge x.1 (st.node e).purpose with hxe | hxe
      · exact absurd (hf.mem x (hall x hx hxe)).2 (Nat.not_lt_of_gt hud)
      · have hmono := hl.mono _ _ hxe (he.designator x hx).2
        have hkey : st.key type e = type.position (st.node e).purpose := rfl
        omega
    · intro _ _ hstart
      rcases hstart with rfl | ⟨p, hp', rfl⟩
      · exact absurd hlow (Nat.not_le_of_gt hhigh)
      · obtain ⟨x, hx, rfl⟩ := List.mem_map.1 hp'
        have hdone := (hf.mem x (hall x hx (Nat.lt_of_succ_lt hu))).2
        exact absurd hhigh (Nat.not_lt_of_le hdone)
  · intro hfree x hx hxe
    have hdone := hf.full.2 fun u hu => hfree u (Nat.lt_trans hu hnext)
    rcases Nat.lt_or_ge x.1 st.unfilled with hxu | hxu
    · exact hdone x hx hxu
    have hne : st.unfilled ≠ x.1 := fun heq => hnot (List.mem_map.2 ⟨x, hx, heq.symm⟩)
    refine absurd (hp.position_eq hl he hx hxu fun a ha hpurpose => ?_)
      (hfree _ hnext hnot hlow hpred _ (List.mem_map.2 ⟨x, hx, rfl⟩) (Nat.lt_of_le_of_ne hxu hne))
    refine (hbest a (List.mem_range.2 ha)).resolve_right fun hle => ?_
    have hmono := hl.mono _ _ (Nat.le_of_lt hxe) hfield
    rw [← hpurpose] at hmono hxe
    rw [hp.tree.key_inj ha hea (Nat.le_antisymm hmono hle)] at hxe
    exact Nat.lt_irrefl _ hxe

structure Finished (type : ConstructorType) (incremental : Bool) (elts done : List (Nat × List Byte))
    (st : State) : Prop where
  placed : Placed type incremental done st
  sorted : done.Pairwise fun x y => x.1 < y.1
  mem : ∀ x ∈ done, x ∈ elts
  full : (∀ x ∈ elts, x ∈ done) ↔ ∀ u, Free type (elts.map Prod.fst) u

theorem Filled.finished (hl : type.Layout) (he : Elements type incremental elts)
    (hp : Pending type elts st) (hf : Filled type incremental elts done st)
    (hlow : type.first ≤ st.unfilled)
    (hpred : st.unfilled = type.first ∨ ∃ p ∈ elts.map Prod.fst, st.unfilled = p + 1)
    (hr : Reached type st (List.range st.allocated) none) : Finished type incremental elts done st := by
  have hnot := hp.unfilled_not_mem hr
  refine ⟨hf.placed, hf.sorted, fun x hx => (hf.mem x hx).1, ?_⟩
  constructor
  · intro hall u
    rcases Nat.lt_or_ge u st.unfilled with hu | hu
    · exact hf.full.1 (fun x hx _ => hall x hx) u hu
    · intro _ _ _ d hd hud
      obtain ⟨x, hx, rfl⟩ := List.mem_map.1 hd
      have hlt := (hf.mem x (hall x hx)).2
      omega
  · intro hfree x hx
    rcases Nat.lt_or_ge x.1 st.unfilled with hxu | hxu
    · exact hf.full.2 (fun u _ => hfree u) x hx hxu
    have hne : st.unfilled ≠ x.1 := fun heq => hnot (List.mem_map.2 ⟨x, hx, heq.symm⟩)
    refine absurd (hp.position_eq hl he hx hxu fun a ha _ => ?_)
      (hfree _ hnot hlow hpred _ (List.mem_map.2 ⟨x, hx, rfl⟩) (Nat.lt_of_le_of_ne hxu hne))
    rcases hr.stop rfl with hcomplete | hle
    · exact absurd hcomplete (by rw [complete_of_le hxu (he.designator x hx).2]; decide)
    · exact hle a (List.mem_range.2 ha)

structure Ready (type : ConstructorType) (incremental : Bool) (elts done : List (Nat × List Byte))
    (st : State) (e : Nat) : Prop where
  pending : Pending type elts st
  filled : Filled type incremental elts done st
  loose : incremental = true → Loose type st
  low : type.first ≤ st.unfilled
  lt : e < st.allocated
  next : (st.node e).purpose = st.unfilled

theorem Filled.ready (hl : type.Layout) (hb : incremental = true → type.ByteSized)
    (he : Elements type incremental elts) (hp : Pending type elts st)
    (hf : Filled type incremental elts done st) (hexact : incremental = true → Exact type st)
    (hlow : type.first ≤ st.unfilled)
    (hpred : st.unfilled = type.first ∨ ∃ p ∈ elts.map Prod.fst, st.unfilled = p + 1) {e : Nat}
    (hr : Reached type st (List.range st.allocated) (some e)) :
    Ready type incremental elts done (PendingInit.fillGap type incremental (st.node e).purpose st) e := by
  obtain ⟨hf', hloose, hlt⟩ := hf.fillGap hl hb he hp hexact hlow hpred hr
  obtain ⟨hnode, hptr, halloc, hunfilled⟩ :=
    fillGap_node type incremental (st.node e).purpose st
  refine ⟨hp.congr hnode hptr halloc ?_, hf', hloose, ?_, ?_, ?_⟩
  · rw [hunfilled]
    exact Nat.le_of_lt hlt
  · rw [hunfilled]
    exact Nat.le_trans hlow (Nat.le_of_lt hlt)
  · rw [halloc]
    exact List.mem_range.1 (hr.gap e rfl).1
  · rw [hunfilled, hnode]

/-- The nodes that have not been passed. -/
def remaining (st : State) : Finset Nat :=
  (Finset.range st.allocated).filter fun a => st.unfilled ≤ (st.node a).purpose

theorem Ready.mem_remaining {e : Nat} (h : Ready type incremental elts done st e) : e ∈ remaining st :=
  Finset.mem_filter.2 ⟨Finset.mem_range.2 h.lt, Nat.le_of_eq h.next.symm⟩

theorem remaining_subset (hnode : st'.node = st.node) (halloc : st'.allocated = st.allocated)
    (hle : st.unfilled ≤ st'.unfilled) : remaining st' ⊆ remaining st := by
  intro a ha
  obtain ⟨ha, hua⟩ := Finset.mem_filter.1 ha
  rw [halloc] at ha
  rw [hnode] at hua
  exact Finset.mem_filter.2 ⟨ha, Nat.le_trans hle hua⟩

theorem outputPending_finished (hl : type.Layout) (hb : incremental = true → type.ByteSized)
    (he : Elements type incremental elts) {fuel e : Nat} (h : Ready type incremental elts done st e)
    (hfuel : (remaining st).card ≤ fuel) :
    ∃ st' done', outputPending type incremental true fuel (some e) st = some st' ∧
      PendingTree type st' ∧ Finished type incremental elts done' st' := by
  induction fuel generalizing st done e with
  | zero => exact absurd (Finset.card_pos.2 ⟨e, h.mem_remaining⟩) (Nat.not_lt_of_le hfuel)
  | succ fuel ih =>
    obtain ⟨hp, hf, hloose, hlow, hea, hnext⟩ := id h
    obtain ⟨values, next, hrun, hcomes, hr⟩ :=
      seek_at hl hp.tree (hp.field he) hea hnext
    obtain ⟨hnode, -, halloc, hunfilled, -⟩ :=
      emit_same type incremental values st
    obtain ⟨hf₁, hexact⟩ := hf.emit hl hb he hloose (hcomes.mem hp)
    have hp₁ := hp.emit incremental values
    rw [← halloc] at hr
    -- the element at which the round starts is output
    have hne : values ≠ [] := by
      rintro rfl
      exact hr.fresh e (List.mem_range.2 hea) hnext
    have hlen := List.length_pos_iff.2 hne
    have hlow₁ : type.first ≤ (emit type incremental values st).unfilled := by omega
    have hpred : ∃ p ∈ elts.map Prod.fst, (emit type incremental values st).unfilled = p + 1 := by
      obtain ⟨b, hb', hpurpose, -⟩ := hcomes (values.length - 1) _
        (List.getElem?_eq_getElem (Nat.sub_lt hlen Nat.one_pos))
      refine ⟨_, List.mem_map.2 ⟨_, hp.node b (List.mem_range.1 hb'), rfl⟩, ?_⟩
      change _ = (st.node b).purpose + 1
      omega
    rw [outputPending, hrun, Option.bind_eq_bind, Option.bind_some]
    cases next with
    | none => exact ⟨_, _, rfl, hp₁.tree, hf₁.finished hl he hp₁ hlow₁ (.inr hpred) hr⟩
    | some e' =>
      have hready := hf₁.ready hl hb he hp₁ (fun h => hexact h (.inl hne)) hlow₁ (.inr hpred) hr
      have hlt := (hf₁.fillGap hl hb he hp₁ (fun h => hexact h (.inl hne)) hlow₁ (.inr hpred) hr).2.2
      obtain ⟨hnode₂, -, halloc₂, hunfilled₂⟩ := fillGap_node type incremental
        ((emit type incremental values st).node e').purpose
        (emit type incremental values st)
      refine ih hready (Nat.le_of_lt_succ (Nat.lt_of_lt_of_le (Finset.card_lt_card ?_) hfuel))
      refine (Finset.ssubset_iff_of_subset ?_).2 ⟨e, h.mem_remaining, fun hmem => ?_⟩
      · exact remaining_subset (hnode₂.trans hnode) (halloc₂.trans halloc) (by omega)
      · have hle := (Finset.mem_filter.1 hmem).2
        rw [congrFun (hnode₂.trans hnode) e, hnext, hunfilled₂] at hle
        omega

theorem outputPendingInitElements_finished (hl : type.Layout) (hb : incremental = true → type.ByteSized)
    (he : Elements type incremental elts) (hp : Pending type elts st)
    (hf : Filled type incremental elts done st) (hexact : incremental = true → Exact type st)
    (hlow : type.first ≤ st.unfilled)
    (hpred : st.unfilled = type.first ∨ ∃ p ∈ elts.map Prod.fst, st.unfilled = p + 1)
    (hnot : st.unfilled ∉ elts.map Prod.fst) :
    ∃ st' done', outputPendingInitElements type incremental true st = some st' ∧
      PendingTree type st' ∧ Finished type incremental elts done' st' := by
  obtain ⟨values, next, hrun, hcomes, hr⟩ := seek_root hl hp.tree (hp.field he)
  -- nothing comes next
  obtain rfl : values = [] := by
    rcases values with - | ⟨value, values⟩
    · rfl
    · obtain ⟨b, hb', hpurpose, -⟩ := hcomes 0 value rfl
      exact absurd (List.mem_map.2 ⟨_, hp.node b (List.mem_range.1 hb'), hpurpose⟩) hnot
  rw [emit] at hrun hr
  rw [outputPendingInitElements, outputPending, hrun, Option.bind_eq_bind, Option.bind_some]
  cases next with
  | none => exact ⟨_, _, rfl, hp.tree, hf.finished hl he hp hlow hpred hr⟩
  | some e =>
    have hready := hf.ready hl hb he hp hexact hlow hpred hr
    refine outputPending_finished hl hb he hready (Nat.le_trans (Finset.card_filter_le _ _) ?_)
    rw [Finset.card_range]
    exact Nat.le_of_eq (fillGap_node type incremental (st.node e).purpose st).2.2.1

end Rounds

end Z80Gcc.PendingInit
