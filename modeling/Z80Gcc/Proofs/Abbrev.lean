import Z80Gcc.Spec.Abbrev
import Z80Gcc.Proofs.DebugInfo
import Z80Gcc.Proofs.Leb128

/-! The abbreviations describe every DIE, whatever its attributes; what is then written is read back by them unless there is an
address in it. -/

namespace Z80Gcc.Dwarf

section Table

variable {t : Target}

/-- Two DIEs that one abbreviation describes. -/
structure AbbrevDie.Same (t : Target) (a b : AbbrevDie) : Prop where
  tag : a.tag = b.tag
  children : a.hasChildren = b.hasChildren
  pairs : attrPairs t a.attrs = attrPairs t b.attrs

def Die.described (die : Die) (child : Dies) : AbbrevDie := ⟨die.tag, !child.isNil, die.attrs⟩

theorem matchAttrs_pairs {as ds : List Attr} (h : matchAttrs t as ds = some true) : attrPairs t as = attrPairs t ds := by
  induction as generalizing ds with
  | nil =>
    cases ds with
    | nil => rfl
    | cons d ds => simp [matchAttrs] at h
  | cons a as ih =>
    cases ds with
    | nil => simp [matchAttrs] at h
    | cons d ds =>
      rw [matchAttrs] at h
      split at h
      · cases h
      · next hname =>
        obtain ⟨fa, hfa, h⟩ := Option.bind_eq_some_iff.1 h
        obtain ⟨fd, hfd, h⟩ := Option.bind_eq_some_iff.1 h
        split at h
        · cases h
        · next hform =>
          rw [attrPairs, attrPairs, hfa, hfd, ih h, not_not.1 hname, not_not.1 hform]

/-- The search ends at an abbreviation for the DIE, or behind the table. -/
theorem findAbbrev_spec {die : AbbrevDie} {id k : Nat} {table : List AbbrevDie} (h : findAbbrev t die id table = some k) :
    (∃ i a, k = id + i ∧ table[i]? = some a ∧ a.Same t die) ∨ k = id + table.length := by
  induction table generalizing id with
  | nil => exact .inr (Option.some.inj h).symm
  | cons a table ih =>
    have hnext (h : findAbbrev t die (id + 1) table = some k) :
        (∃ i b, k = id + i ∧ (a :: table)[i]? = some b ∧ b.Same t die) ∨ k = id + (a :: table).length := by
      obtain ⟨i, b, rfl, hb, hsame⟩ | rfl := ih h
      · exact .inl ⟨i + 1, b, by omega, hb, hsame⟩
      · exact .inr (by rw [List.length_cons]; omega)
    rw [findAbbrev] at h
    split at h
    · next hcond =>
      obtain ⟨same, hmatch, h⟩ := Option.bind_eq_some_iff.1 h
      split at h
      · next hsame =>
        subst hsame
        exact .inl ⟨0, a, (Option.some.inj h).symm, rfl, hcond.1, hcond.2, matchAttrs_pairs hmatch⟩
      · exact hnext h
    · exact hnext h

/-- What a step does to the table: it grows by DIEs that satisfy `P`. -/
def Grows (P : AbbrevDie → Prop) (table table' : List AbbrevDie) : Prop := ∃ more, table' = table ++ more ∧ ∀ a ∈ more, P a

theorem Grows.refl (P : AbbrevDie → Prop) (table : List AbbrevDie) : Grows P table table := ⟨[], by simp, by simp⟩

theorem Grows.trans {P : AbbrevDie → Prop} {l₁ l₂ l₃ : List AbbrevDie} (h : Grows P l₁ l₂) (h' : Grows P l₂ l₃) : Grows P l₁ l₃ := by
  obtain ⟨more, rfl, hmore⟩ := h
  obtain ⟨more', rfl, hmore'⟩ := h'
  exact ⟨more ++ more', List.append_assoc _ _ _, List.forall_mem_append.2 ⟨hmore, hmore'⟩⟩

theorem Grows.mono {P Q : AbbrevDie → Prop} {l l' : List AbbrevDie} (h : Grows P l l') (hPQ : ∀ a, P a → Q a) : Grows Q l l' := by
  obtain ⟨more, rfl, hmore⟩ := h
  exact ⟨more, rfl, fun a ha => hPQ a (hmore a ha)⟩

def Selects (t : Target) (table : List AbbrevDie) (k : Nat) (die : AbbrevDie) : Prop :=
  ∃ i a, k = i + 1 ∧ table[i]? = some a ∧ a.Same t die

theorem Selects.grows {P : AbbrevDie → Prop} {table table' : List AbbrevDie} {k : Nat} {die : AbbrevDie}
    (h : Selects t table k die) (hgrow : Grows P table table') : Selects t table' k die := by
  obtain ⟨i, a, hk, ha, hsame⟩ := h
  obtain ⟨more, rfl, -⟩ := hgrow
  refine ⟨i, a, hk, ?_, hsame⟩
  rwa [List.getElem?_append_left (List.getElem?_eq_some_iff.1 ha).1]

theorem addAbbrev_spec {table : List AbbrevDie} {die : AbbrevDie} {p : Nat × List AbbrevDie} (h : addAbbrev t table die = some p) :
    Grows (· = die) table p.2 ∧ Selects t p.2 p.1 die := by
  obtain ⟨k, hk, rfl⟩ := Option.map_eq_some_iff.1 h
  obtain ⟨i, a, rfl, ha, hsame⟩ | rfl := findAbbrev_spec hk
  · have hlt : i < table.length := (List.getElem?_eq_some_iff.1 ha).1
    rw [if_neg (by omega)]
    exact ⟨.refl _ _, i, a, Nat.add_comm _ _, ha, hsame⟩
  · rw [if_pos (by omega)]
    refine ⟨⟨[die], rfl, by simp⟩, table.length, die, Nat.add_comm _ _, ?_, rfl, rfl, rfl⟩
    rw [List.getElem?_concat_length]

theorem buildAbbrevTable_isNil {dies dies' : Dies} {table table' : List AbbrevDie}
    (h : buildAbbrevTable t dies table = some (dies', table')) : dies'.isNil = dies.isNil := by
  cases dies with
  | nil =>
    cases h
    rfl
  | cons die child sib =>
    simp only [buildAbbrevTable, Option.bind_eq_some_iff, Option.map_eq_some_iff] at h
    obtain ⟨p, -, q, -, r, -, h⟩ := h
    cases h
    rfl

/-- Every DIE gets a number that selects an abbreviation for it, and the table holds DIEs of the tree only. -/
theorem buildAbbrevTable_spec {dies dies' : Dies} {table table' : List AbbrevDie}
    (h : buildAbbrevTable t dies table = some (dies', table')) :
    Grows (fun a => ∃ n ∈ dies'.nodes, a = n.1.described n.2) table table' ∧
      ∀ n ∈ dies'.nodes, Selects t table' n.1.dieAbbrev (n.1.described n.2) := by
  induction dies generalizing dies' table table' with
  | nil =>
    cases h
    exact ⟨.refl _ _, by simp [Dies.nodes]⟩
  | cons die child sib ihc ihs =>
    simp only [buildAbbrevTable, Option.bind_eq_some_iff, Option.map_eq_some_iff] at h
    obtain ⟨p, hp, q, hq, r, hr, h⟩ := h
    cases h
    obtain ⟨hgrow, hsel⟩ := addAbbrev_spec hp
    obtain ⟨hgrowc, hselc⟩ := ihc hq
    obtain ⟨hgrows, hsels⟩ := ihs hr
    have hnil := buildAbbrevTable_isNil hq
    simp only [Dies.nodes, List.mem_cons, List.mem_append, or_imp, forall_and, forall_eq]
    refine ⟨(hgrow.mono fun a ha => ?_).trans ((hgrowc.mono fun a ha => ?_).trans (hgrows.mono fun a ha => ?_)), ?_,
      fun n hn => (hselc n hn).grows hgrows, hsels⟩
    · refine ⟨_, .inl rfl, ?_⟩
      rw [ha, Die.described, hnil]
    · obtain ⟨n, hn, rfl⟩ := ha
      exact ⟨n, .inr (.inl hn), rfl⟩
    · obtain ⟨n, hn, rfl⟩ := ha
      exact ⟨n, .inr (.inr hn), rfl⟩
    · rw [Die.described, hnil]
      exact (hsel.grows hgrowc).grows hgrows

theorem buildAbbrevTable_described {dies dies' : Dies} {table table' : List AbbrevDie}
    (h : buildAbbrevTable t dies table = some (dies', table')) :
    dies'.nodes.map (fun n => (n.1.id, n.1.described n.2)) = dies.nodes.map fun n => (n.1.id, n.1.described n.2) := by
  induction dies generalizing dies' table table' with
  | nil =>
    cases h
    rfl
  | cons die child sib ihc ihs =>
    simp only [buildAbbrevTable, Option.bind_eq_some_iff, Option.map_eq_some_iff] at h
    obtain ⟨p, hp, q, hq, r, hr, h⟩ := h
    cases h
    simp only [Dies.nodes, List.map_cons, List.map_append, ihc hq, ihs hr]
    rw [Die.described, Die.described, buildAbbrevTable_isNil hq]

theorem forall_attrs_numbered (P : Attr → Prop) {dies dies' : Dies} {table table' : List AbbrevDie}
    (h : buildAbbrevTable t dies table = some (dies', table')) :
    (∀ n ∈ dies'.nodes, ∀ a ∈ n.1.attrs, P a) ↔ ∀ n ∈ dies.nodes, ∀ a ∈ n.1.attrs, P a := by
  have hmap (l : List (Die × Dies)) : (∀ n ∈ l, ∀ a ∈ n.1.attrs, P a) ↔
      ∀ d ∈ l.map (fun n => (n.1.id, n.1.described n.2)), ∀ a ∈ d.2.attrs, P a := by
    rw [List.forall_mem_map]
    rfl
  rw [hmap, hmap, buildAbbrevTable_described h]

theorem sizedDies_described (dies : Dies) (next : Nat) :
    (calcDieSizes t dies next).1.nodes.map (fun n => (n.1.dieAbbrev, n.1.described n.2)) =
      dies.nodes.map fun n => (n.1.dieAbbrev, n.1.described n.2) := by
  induction dies generalizing next with
  | nil => rfl
  | cons die child sib ihc ihs =>
    simp only [calcDieSizes, Dies.nodes, List.map_cons, List.map_append, ihc, ihs]
    rw [Die.described, Die.described, calcDieSizes_isNil]

theorem forall_sizedDies (P : Nat → AbbrevDie → Prop) (dies : Dies) :
    (∀ n ∈ (sizedDies t dies).nodes, P n.1.dieAbbrev (n.1.described n.2)) ↔
      ∀ n ∈ dies.nodes, P n.1.dieAbbrev (n.1.described n.2) := by
  have hmap (l : List (Die × Dies)) : (∀ n ∈ l, P n.1.dieAbbrev (n.1.described n.2)) ↔
      ∀ d ∈ l.map (fun n => (n.1.dieAbbrev, n.1.described n.2)), P d.1 d.2 := by
    rw [List.forall_mem_map]
  rw [hmap, hmap, sizedDies, sizedDies_described]

end Table

section Output

variable {t : Target}

theorem Form.code_pos (form : Form) : form.code ≠ 0 := by
  cases form <;> decide

theorem outputAbbrevAttrs_read {as : List Attr} {pairs : List (Nat × Nat)} (h : attrPairs t as = some pairs) :
    ∃ bs, outputAbbrevAttrs t as = some bs ∧ ∀ rest, ReadPairs (bs ++ rest) pairs rest := by
  induction as generalizing pairs with
  | nil =>
    cases h
    refine ⟨[0, 0], rfl, fun rest => ?_⟩
    exact .done (Leb128.decodeUnsigned_last (by decide)) (Leb128.decodeUnsigned_last (by decide))
  | cons a as ih =>
    obtain ⟨form, hform, h⟩ := Option.bind_eq_some_iff.1 h
    obtain ⟨tail, htail, rfl⟩ := Option.map_eq_some_iff.1 h
    obtain ⟨bs, hbs, hread⟩ := ih htail
    refine ⟨outputUleb128 a.name ++ (outputUleb128 form.code ++ bs), ?_, fun rest => ?_⟩
    · rw [outputAbbrevAttrs, hform, hbs]
      rfl
    · rw [List.append_assoc, List.append_assoc]
      refine .pair (decode_outputUleb128 _ _) (decode_outputUleb128 _ _) (fun h => ?_) (hread rest)
      exact form.code_pos (congrArg Prod.snd h)

def EntryOf (t : Target) (id : Nat) (a : AbbrevDie) (e : AbbrevEntry) : Prop :=
  e.code = id ∧ e.tag = a.tag ∧ e.hasChildren = a.hasChildren ∧ attrPairs t a.attrs = some e.pairs

/-- The section has the abbreviations in turn, numbered from `id`. -/
theorem outputAbbrevs_read {id : Nat} (hid : id ≠ 0) {table : List AbbrevDie}
    (h : ∀ a ∈ table, (attrPairs t a.attrs).isSome) :
    ∃ bs entries, outputAbbrevs t id table = some bs ∧ ReadAbbrevs bs entries ∧
      entries.map (·.code) = List.range' id table.length ∧
      ∀ (i : Nat) (a : AbbrevDie), table[i]? = some a → ∃ e ∈ entries, EntryOf t (id + i) a e := by
  induction table generalizing id with
  | nil => exact ⟨[0], [], rfl, .done (Leb128.decodeUnsigned_last (by decide)), rfl, by simp⟩
  | cons a table ih =>
    rw [List.forall_mem_cons] at h
    obtain ⟨pairs, hpairs⟩ := Option.isSome_iff_exists.1 h.1
    obtain ⟨attrs, hattrs, hread⟩ := outputAbbrevAttrs_read hpairs
    obtain ⟨bs, entries, hbs, hentries, hcodes, hall⟩ := ih (Nat.succ_ne_zero id) h.2
    refine ⟨outputUleb128 id ++ (outputUleb128 a.tag ++ ((if a.hasChildren then 1 else 0) :: (attrs ++ bs))),
      ⟨id, a.tag, a.hasChildren, pairs⟩ :: entries, ?_, ?_, ?_, fun i b hb => ?_⟩
    · rw [outputAbbrevs, hattrs, hbs]
      rfl
    · exact .entry (decode_outputUleb128 _ _) hid (decode_outputUleb128 _ _) (hread bs) hentries
    · rw [List.map_cons, hcodes, List.length_cons, List.range'_succ]
    · cases i with
      | zero =>
        cases hb
        exact ⟨_, List.mem_cons_self, rfl, rfl, rfl, hpairs⟩
      | succ i =>
        obtain ⟨e, he, hof⟩ := hall i b hb
        refine ⟨e, List.mem_cons_of_mem _ he, ?_⟩
        rwa [Nat.succ_add_eq_add_succ] at hof

end Output

section Written

variable {root : Dies} {die : Die} {child : Dies}

/-- The values that are written in the form they are announced with. An address is not. -/
def Value.Readable : Value → Prop
  | addr _ => False
  | lblId _ => False
  | loc locs => ∀ l ∈ locs, l.addresses = 0
  | float array => array.length < 64
  | str chars => 0 ∉ chars
  | _ => True

theorem unsignedConst_reads (v unset : BitVec 64) : ∃ form items,
    (Value.unsignedConst v unset).format z80Target = some form ∧ unsignedConst v unset = some items ∧ form.Reads z80Target items := by
  rw [Value.format, unsignedConst]
  obtain h | h | h | h := constantSize_long v <;> rw [h] <;> exact ⟨_, _, rfl, rfl, rfl⟩

theorem constantSize_eq_one {v : Nat} (h : constantSize v = 1) : v < 2 ^ 8 := by
  by_contra hge
  rw [constantSize_eq, if_neg hge] at h
  split at h
  · cases h
  · rw [Nat.pow_succ] at h
    omega

/-- A block of location operations has the length written before it when there is no address in it. -/
theorem loc_reads_iff {locs : List LocDescr} {length : Item} {ops : List Item}
    (hlength : blockLength (sizeOfLocs z80Target locs) = some length) (hops : outputLocs z80Target locs = some ops) :
    (∃ form items, (Value.loc locs).format z80Target = some form ∧ some (length :: ops) = some items ∧ form.Reads z80Target items) ↔
      ∀ l ∈ locs, l.addresses = 0 := by
  have hzero : (∀ l ∈ locs, l.addresses = 0) ↔ bytes ops = sizeOfLocs z80Target locs := by
    rw [outputLocs_bytes hops, ← List.forall_mem_map (P := (· = 0)), ← List.sum_eq_zero_iff_forall_eq_nat]
    omega
  rw [hzero]
  unfold blockLength at hlength
  split at hlength
  · next hone =>
    have hlt := constantSize_eq_one hone
    have hblock : (Value.loc locs).format z80Target = some .block1 := by simp only [Value.format, hone]
    obtain rfl := Option.some.inj hlength
    rw [hblock]
    constructor
    · intro h
      obtain ⟨form, items, hform, hitems, hreads⟩ := h
      cases hform
      cases hitems
      obtain ⟨n, rest, heq, -, hbytes⟩ := hreads
      cases heq
      exact hbytes
    · intro hbytes
      exact ⟨.block1, _, rfl, rfl, _, _, rfl, hlt, hbytes⟩
  · next htwo =>
    have hlt := (constantSize_block _).1 (.inr htwo)
    have hblock : (Value.loc locs).format z80Target = some .block2 := by simp only [Value.format, htwo]
    obtain rfl := Option.some.inj hlength
    rw [hblock]
    constructor
    · intro h
      obtain ⟨form, items, hform, hitems, hreads⟩ := h
      cases hform
      cases hitems
      obtain ⟨n, rest, heq, -, hbytes⟩ := hreads
      obtain ⟨hhead, rfl⟩ := List.cons.inj heq
      injection hhead with _ hval
      rw [hbytes]
      omega
    · intro hbytes
      exact ⟨.block2, _, rfl, rfl, _, _, rfl, hlt, hbytes⟩
  · cases hlength

/-- What is written for an attribute is in its form when it holds no address. -/
theorem Attr.reads_iff {a : Attr} {out : List Item} (h : a.output z80Target root die child = some out) :
    (∃ form items, a.value.format z80Target = some form ∧ a.output z80Target root die child = some items ∧
      form.Reads z80Target items) ↔ a.value.Readable := by
  have hsimple (form : Form) (hform : a.value.format z80Target = some form) :
      (∃ form items, a.value.format z80Target = some form ∧ a.output z80Target root die child = some items ∧
        form.Reads z80Target items) ↔ form.Reads z80Target out := by
    rw [hform, h]
    constructor
    · intro hread
      obtain ⟨form', items, hf, hi, hread⟩ := hread
      cases hf
      cases hi
      exact hread
    · exact fun hread => ⟨_, _, rfl, rfl, hread⟩
  obtain ⟨name, value⟩ := a
  cases value with
  | addr name =>
    rw [hsimple .addr rfl, ← Option.some.inj h]
    exact iff_of_false (by simp [Form.Reads]) id
  | lblId name =>
    rw [hsimple .addr rfl, ← Option.some.inj h]
    exact iff_of_false (by simp [Form.Reads]) id
  | loc locs =>
    have hloc : Attr.output z80Target root die child ⟨name, .loc locs⟩ = some out := h
    simp only [Attr.output, Option.bind_eq_bind, Option.bind_eq_some_iff, Option.pure_def, Option.some.injEq] at hloc
    obtain ⟨length, hlength, ops, hops, rfl⟩ := hloc
    rw [h]
    exact loc_reads_iff hlength hops
  | unsignedConst v unset => exact iff_of_true (unsignedConst_reads v unset) trivial
  | dieRef target =>
    obtain ⟨off, -, rfl⟩ := Option.map_eq_some_iff.1 h
    exact (hsimple .ref4 rfl).trans (iff_of_true rfl trivial)
  | float array =>
    have hwords : bytes (array.map data4) = array.length * 4 := by
      simp [bytes, Function.comp_def, List.map_const']
    rw [hsimple .block1 rfl, ← Option.some.inj h, Value.Readable]
    constructor
    · intro hread
      obtain ⟨n, rest, heq, hlt, -⟩ := hread
      cases heq
      omega
    · intro hlt
      exact ⟨_, _, rfl, by omega, hwords⟩
  | str chars =>
    rw [hsimple .string rfl, ← Option.some.inj h, Value.Readable]
    constructor
    · intro hread
      obtain ⟨chars', heq, hnul⟩ := hread
      injection heq with heq
      injection heq with heq
      rwa [List.append_cancel_right heq]
    · exact fun hnul => ⟨chars, rfl, hnul⟩
  | longLong high low =>
    obtain rfl := Option.some.inj h
    exact (hsimple .block1 rfl).trans (iff_of_true ⟨8, _, rfl, by decide, rfl⟩ trivial)
  | const v =>
    obtain rfl := Option.some.inj h
    exact (hsimple .data4 rfl).trans (iff_of_true rfl trivial)
  | flag v =>
    obtain rfl := Option.some.inj h
    exact (hsimple .flag rfl).trans (iff_of_true rfl trivial)
  | fdeRef index =>
    obtain rfl := Option.some.inj h
    exact (hsimple .data4 rfl).trans (iff_of_true rfl trivial)
  | lblOffset name =>
    obtain rfl := Option.some.inj h
    exact (hsimple .data4 rfl).trans (iff_of_true rfl trivial)

theorem Attr.format_isSome {t : Target} {a : Attr} {out : List Item} (h : a.output t root die child = some out) :
    (a.value.format t).isSome := by
  obtain ⟨name, value⟩ := a
  cases value with
  | loc locs =>
    simp only [Attr.output, Option.bind_eq_bind, Option.bind_eq_some_iff] at h
    obtain ⟨length, hlength, -⟩ := h
    have hlt := (blockLength_isSome (sizeOfLocs t locs)).1 (hlength ▸ rfl)
    rw [Value.format]
    obtain hsize | hsize := (constantSize_block _).2 hlt <;> rw [hsize] <;> rfl
  | unsignedConst v unset =>
    rw [Value.format]
    obtain hsize | hsize | hsize | hsize := constantSize_long v <;> rw [hsize] <;> rfl
  | _ => rfl

theorem attrPairs_isSome {t : Target} {as : List Attr} (h : ∀ a ∈ as, (a.value.format t).isSome) : (attrPairs t as).isSome := by
  induction as with
  | nil => rfl
  | cons a as ih =>
    rw [List.forall_mem_cons] at h
    obtain ⟨form, hform⟩ := Option.isSome_iff_exists.1 h.1
    rw [attrPairs, hform, Option.bind_some, Option.isSome_map]
    exact ih h.2

theorem outputAttrs_mem {t : Target} {as : List Attr} {out : List Item} (h : outputAttrs t root die child as = some out) :
    ∀ a ∈ as, ∃ items, a.output t root die child = some items := by
  induction as generalizing out with
  | nil => simp
  | cons a as ih =>
    simp only [outputAttrs, Option.bind_eq_bind, Option.bind_eq_some_iff] at h
    obtain ⟨here, hhere, rest, hrest, -⟩ := h
    exact List.forall_mem_cons.2 ⟨⟨here, hhere⟩, ih hrest⟩

theorem outputDies_mem {t : Target} {dies : Dies} {out : List Item} (h : outputDies t root dies = some out) :
    ∀ n ∈ dies.nodes, ∀ a ∈ n.1.attrs, ∃ items, a.output t root n.1 n.2 = some items := by
  induction dies generalizing out with
  | nil => simp [Dies.nodes]
  | cons die child sib ihc ihs =>
    simp only [outputDies, Option.bind_eq_bind, Option.bind_eq_some_iff] at h
    obtain ⟨own, hown, children, hchildren, after, hafter, -⟩ := h
    obtain ⟨attrs, hattrs, -⟩ := Option.map_eq_some_iff.1 hown
    rw [Dies.nodes, List.forall_mem_cons, List.forall_mem_append]
    exact ⟨outputAttrs_mem hattrs, ihc hchildren, ihs hafter⟩

end Written

section Results

variable {dies dies' : Dies} {table : List AbbrevDie}

/-- An abbreviation selected by a number is the only one with its number. -/
theorem Selects.unique {t : Target} {k : Nat} {a b : AbbrevDie} (ha : Selects t table k a) (hb : Selects t table k b) :
    a.Same t b := by
  obtain ⟨i, x, rfl, hx, hsamea⟩ := ha
  obtain ⟨j, y, hj, hy, hsameb⟩ := hb
  obtain rfl : i = j := Nat.succ.inj hj
  obtain rfl : x = y := Option.some.inj (hx.symm.trans hy)
  exact ⟨hsamea.tag.symm.trans hsameb.tag, hsamea.children.symm.trans hsameb.children, hsamea.pairs.symm.trans hsameb.pairs⟩

/-- The abbreviations describe what is emitted when no DIE has an address. -/
theorem abbrevs_describe_iff {out : List Item} (hbuild : buildAbbrevTable z80Target dies [] = some (dies', table))
    (hout : outputDies z80Target (sizedDies z80Target dies') (sizedDies z80Target dies') = some out) :
    AbbrevsDescribe z80Target table (sizedDies z80Target dies') ↔ ∀ n ∈ dies.nodes, ∀ a ∈ n.1.attrs, a.value.Readable := by
  have hwritten := outputDies_mem hout
  have hreads : (∀ n ∈ (sizedDies z80Target dies').nodes, ∀ a ∈ n.1.attrs, a.value.Readable) ↔
      ∀ n ∈ dies.nodes, ∀ a ∈ n.1.attrs, a.value.Readable := by
    rw [← forall_attrs_numbered (fun a => a.value.Readable) hbuild]
    exact forall_attrs_sized _ _ _
  rw [← hreads]
  constructor
  · intro hdesc n hn a ha
    obtain ⟨items, hitems⟩ := hwritten n hn a ha
    exact (Attr.reads_iff hitems).1 (hdesc.written n hn a ha)
  intro hreadable
  obtain ⟨⟨more, hmore, hgrow⟩, hsel⟩ := buildAbbrevTable_spec hbuild
  rw [List.nil_append] at hmore
  subst hmore
  rw [← forall_sizedDies (t := z80Target) (fun k d => Selects z80Target table k d)] at hsel
  -- every abbreviation is a DIE of the tree, so its forms were found
  have hforms : ∀ n ∈ dies'.nodes, (attrPairs z80Target (n.1.described n.2).attrs).isSome := by
    rw [← forall_sizedDies (t := z80Target) (fun _ d => (attrPairs z80Target d.attrs).isSome)]
    intro n hn
    refine attrPairs_isSome fun a ha => ?_
    obtain ⟨items, hitems⟩ := hwritten n hn a ha
    exact Attr.format_isSome hitems
  have htable : ∀ a ∈ table, (attrPairs z80Target a.attrs).isSome := by
    intro a ha
    obtain ⟨n, hn, rfl⟩ := hgrow a ha
    exact hforms n hn
  obtain ⟨bs, entries, hbs, hread, hcodes, hentry⟩ := outputAbbrevs_read Nat.one_ne_zero htable
  refine ⟨⟨bs, entries, hbs, hread, ?_, fun n hn => ?_⟩, fun n hn m hm hnum => ?_, fun n hn a ha => ?_⟩
  · rw [hcodes]
    exact List.nodup_range'
  · obtain ⟨i, x, hk, hx, hsame⟩ := hsel n hn
    obtain ⟨e, he, hcode, htag, hchildren, hpairs⟩ := hentry i x hx
    refine ⟨e, he, ?_, htag.trans hsame.tag, hchildren.trans hsame.children, hsame.pairs.symm.trans hpairs⟩
    rw [hcode, hk, Nat.add_comm]
  · have hsame := (hsel n hn).unique (hnum ▸ hsel m hm)
    exact ⟨hsame.tag, Bool.not_inj hsame.children, hsame.pairs⟩
  · obtain ⟨items, hitems⟩ := hwritten n hn a ha
    exact (Attr.reads_iff hitems).2 (hreadable n hn a ha)

/-- A compile unit of a given name over two base types of one byte. -/
def typesTree : Dies :=
  .cons ⟨0, 0x11, 0, 0, [⟨0x03, .str [97]⟩]⟩
    (.cons ⟨1, 0x24, 0, 0, [⟨0x0b, .unsignedConst 1 0⟩]⟩ .nil (.cons ⟨2, 0x24, 0, 0, [⟨0x0b, .unsignedConst 2 0⟩]⟩ .nil .nil)) .nil

def numberedTypes : Dies :=
  .cons ⟨0, 0x11, 1, 0, [⟨0x03, .str [97]⟩]⟩
    (.cons ⟨1, 0x24, 2, 0, [⟨0x0b, .unsignedConst 1 0⟩]⟩ .nil (.cons ⟨2, 0x24, 2, 0, [⟨0x0b, .unsignedConst 2 0⟩]⟩ .nil .nil)) .nil

theorem abbrevs_describe_types :
    AbbrevsDescribe z80Target [⟨0x11, true, [⟨0x03, .str [97]⟩]⟩, ⟨0x24, false, [⟨0x0b, .unsignedConst 1 0⟩]⟩]
        (sizedDies z80Target numberedTypes) ↔
      ∀ n ∈ typesTree.nodes, ∀ a ∈ n.1.attrs, a.value.Readable :=
  abbrevs_describe_iff (by decide +kernel) (Option.some_get (by decide +kernel)).symm

/-- The block of a variable's address is announced with 3 bytes and has 5. -/
theorem abbrevs_wrong_variable : ∃ dies' table out, buildAbbrevTable z80Target variableUnit.dies [] = some (dies', table) ∧
    outputDies z80Target (sizedDies z80Target dies') (sizedDies z80Target dies') = some out ∧
    ¬ AbbrevsDescribe z80Target table (sizedDies z80Target dies') := by
  refine ⟨variableUnit.dies, [⟨0x11, true, []⟩, ⟨0x34, false, [⟨0x02, .loc [.addr "_x"]⟩]⟩],
    (outputDies z80Target (sizedDies z80Target variableUnit.dies) (sizedDies z80Target variableUnit.dies)).getD [],
    by decide +kernel, by decide +kernel, fun h => ?_⟩
  have hnode : (⟨1, 0x34, 2, 12, [⟨0x02, .loc [.addr "_x"]⟩]⟩, Dies.nil) ∈ (sizedDies z80Target variableUnit.dies).nodes := by
    decide +kernel
  have hattr := h.written _ hnode ⟨0x02, .loc [.addr "_x"]⟩ List.mem_cons_self
  obtain ⟨form, items, hform, hitems, hreads⟩ := hattr
  have hreadable := (Attr.reads_iff hitems).1 ⟨form, items, hform, hitems, hreads⟩
  exact absurd (hreadable (.addr "_x") List.mem_cons_self) (by decide)

end Results

end Z80Gcc.Dwarf
