import Z80Gcc.Spec.Dwarf

/-! The debug-info section against the sizes computed for it. An address is sized as a pointer, two
bytes on the Z80, and written as a word of four; everything else takes the bytes it was sized with. -/

namespace Z80Gcc.Dwarf

theorem outputUleb128_length (value : Nat) :
    (outputUleb128 value).length = sizeOfUleb128 value := by
  induction value using outputUleb128.induct with
  | case1 value h =>
    rw [outputUleb128, sizeOfUleb128, if_pos h, if_pos h]
    rfl
  | case2 value h ih =>
    rw [outputUleb128, sizeOfUleb128, if_neg h, if_neg h, List.length_cons, ih, Nat.add_comm]

theorem outputSleb128_length (value : Int) :
    (outputSleb128 value).length = sizeOfSleb128 value := by
  induction value using outputSleb128.induct with
  | case1 value h =>
    rw [outputSleb128, sizeOfSleb128, dif_pos h, dif_pos h]
    rfl
  | case2 value h ih =>
    rw [outputSleb128, sizeOfSleb128, dif_neg h, dif_neg h, List.length_cons, ih, Nat.add_comm]

@[simp] theorem bytes_nil : bytes [] = 0 := rfl

@[simp] theorem bytes_cons (i : Item) (out : List Item) : bytes (i :: out) = i.bytes + bytes out := rfl

@[simp] theorem bytes_append (a b : List Item) : bytes (a ++ b) = bytes a + bytes b := by
  simp [bytes]

@[simp] theorem byte_bytes (vs : List Nat) : (Item.byte vs).bytes = vs.length := rfl

@[simp] theorem ascii_bytes (cs : List UInt8) : (Item.ascii cs).bytes = cs.length := rfl

@[simp] theorem data1_bytes (v : Nat) : (data1 v).bytes = 1 := rfl

@[simp] theorem data2_bytes (v : Int) : (data2 v).bytes = 2 := rfl

@[simp] theorem data4_bytes (v : Int) : (data4 v).bytes = 4 := rfl

@[simp] theorem data8_bytes (high low : Int) : bytes (data8 high low) = 8 := rfl

/-- On the Z80 a reference is written in its size, an address in two bytes more. -/
@[simp] theorem z80_data_bytes (v : Int) : (z80Target.data v).bytes = z80Target.offsetSize := rfl

@[simp] theorem z80_offset_bytes (name : String) :
    (z80Target.offset name).bytes = z80Target.offsetSize := rfl

@[simp] theorem z80_addr_bytes (name : String) :
    (z80Target.addr name).bytes = z80Target.ptrSize + 2 := rfl

section Sizes

/-- How many addresses a location operation, and an attribute, holds. -/
def LocDescr.addresses : LocDescr → Nat
  | addr _ => 1
  | _ => 0

def Value.addresses : Value → Nat
  | addr _ => 1
  | lblId _ => 1
  | loc locs => (locs.map LocDescr.addresses).sum
  | _ => 0

theorem LocDescr.output_bytes {loc : LocDescr} {out : List Item}
    (h : loc.output z80Target = some out) :
    bytes out = loc.size z80Target + 2 * loc.addresses := by
  obtain ⟨ops, hops, rfl⟩ := Option.map_eq_some_iff.1 h
  cases loc <;> simp only [outputOperands, Option.some.injEq, reduceCtorEq] at hops
  all_goals
    subst hops
    simp [size, addresses, outputUleb128_length, outputSleb128_length]
    try omega

theorem outputLocs_bytes {locs : List LocDescr} {out : List Item}
    (h : outputLocs z80Target locs = some out) :
    bytes out = sizeOfLocs z80Target locs + 2 * (locs.map LocDescr.addresses).sum := by
  induction locs generalizing out with
  | nil =>
    obtain rfl : [] = out := by simpa [outputLocs] using h
    rfl
  | cons loc locs ih =>
    simp only [outputLocs, Option.bind_eq_bind, Option.bind_eq_some_iff, Option.pure_def,
      Option.some.injEq] at h
    obtain ⟨here, hhere, rest, hrest, rfl⟩ := h
    rw [bytes_append, LocDescr.output_bytes hhere, ih hrest]
    simp only [sizeOfLocs, List.map_cons, List.sum_cons]
    omega

theorem outputLocs_isSome (t : Target) (locs : List LocDescr) :
    (outputLocs t locs).isSome ↔ ∀ loc ∈ locs, (loc.outputOperands t).isSome := by
  induction locs with
  | nil => simp [outputLocs]
  | cons loc locs ih =>
    rw [List.forall_mem_cons, ← ih]
    simp only [outputLocs, LocDescr.output]
    cases loc.outputOperands t <;> cases outputLocs t locs <;> simp

theorem constantSize_eq (v : Nat) : constantSize v =
    if v < 2 ^ 8 then 1 else if v < 2 ^ 16 then 2 else
      2 ^ (Nat.log 2 (Nat.log 2 v / 8) + 1) := by
  unfold constantSize
  by_cases h0 : v = 0
  · simp [h0]
  have hlog (k : Nat) : Nat.log 2 v < k ↔ v < 2 ^ k := Nat.log_lt_iff_lt_pow (by decide) h0
  simp only [h0, if_false]
  by_cases h8 : v < 2 ^ 8
  · have : Nat.log 2 v / 8 = 0 := Nat.div_eq_of_lt ((hlog 8).2 h8)
    rw [if_pos this, if_pos h8, Nat.pow_zero]
  have h8' : 8 ≤ Nat.log 2 v := Nat.le_of_not_lt fun h => h8 ((hlog 8).1 h)
  rw [if_neg (by omega : ¬ Nat.log 2 v / 8 = 0), if_neg h8]
  split
  · next h16 =>
    have : Nat.log 2 v / 8 = 1 := by
      have := (hlog 16).2 h16
      omega
    simp [this]
  · rfl

theorem constantSize_long (v : BitVec 64) :
    constantSize v.toNat = 1 ∨ constantSize v.toNat = 2 ∨ constantSize v.toNat = 4 ∨
      constantSize v.toNat = 8 := by
  by_cases h16 : v.toNat < 2 ^ 16
  · rw [constantSize_eq]
    split <;> simp
  have h0 : v.toNat ≠ 0 := by omega
  have hge : 16 ≤ Nat.log 2 v.toNat :=
    Nat.le_of_not_lt fun h => h16 ((Nat.log_lt_iff_lt_pow (by decide) h0).1 h)
  have hlt : Nat.log 2 v.toNat < 64 := (Nat.log_lt_iff_lt_pow (by decide) h0).2 v.isLt
  rw [constantSize_eq, if_neg (by omega), if_neg h16]
  have hlo : 1 ≤ Nat.log 2 (Nat.log 2 v.toNat / 8) := Nat.le_log_of_pow_le (by decide) (by omega)
  have hhi : Nat.log 2 (Nat.log 2 v.toNat / 8) < 3 := Nat.log_lt_of_lt_pow (by omega) (by omega)
  obtain h | h : Nat.log 2 (Nat.log 2 v.toNat / 8) = 1 ∨ Nat.log 2 (Nat.log 2 v.toNat / 8) = 2 := by
    omega
  · simp [h]
  · simp [h]

theorem constantSize_block (v : Nat) :
    (constantSize v = 1 ∨ constantSize v = 2) ↔ v < 2 ^ 16 := by
  by_cases h16 : v < 2 ^ 16
  · rw [constantSize_eq]
    split
    · exact iff_of_true (.inl rfl) h16
    · exact iff_of_true (.inr rfl) h16
  have hge : 16 ≤ Nat.log 2 v :=
    Nat.le_of_not_lt fun h => h16 ((Nat.log_lt_iff_lt_pow (by decide) (by omega)).1 h)
  have hlog : 1 ≤ Nat.log 2 (Nat.log 2 v / 8) :=
    Nat.le_log_of_pow_le (by decide) (by omega)
  have hpow : 2 ^ 2 ≤ 2 ^ (Nat.log 2 (Nat.log 2 v / 8) + 1) :=
    Nat.pow_le_pow_right (by decide) (by omega)
  rw [constantSize_eq, if_neg (by omega), if_neg h16]
  omega

theorem blockLength_bytes {size : Nat} {i : Item} (h : blockLength size = some i) :
    i.bytes = constantSize size := by
  unfold blockLength at h
  split at h
  · next h1 => rw [h1, ← Option.some.inj h, data1_bytes]
  · next h2 => rw [h2, ← Option.some.inj h, data2_bytes]
  · cases h

theorem blockLength_isSome (size : Nat) : (blockLength size).isSome ↔ size < 2 ^ 16 := by
  rw [← constantSize_block, blockLength]
  split
  · next h1 => simp [h1]
  · next h2 => simp [h2]
  · next h1 h2 => exact iff_of_false (by simp) fun h => h.elim h1 h2

theorem unsignedConst_bytes {v unset : BitVec 64} {out : List Item} (h : unsignedConst v unset = some out) :
    bytes out = constantSize v.toNat := by
  unfold unsignedConst at h
  split at h
  · next h1 => rw [h1, ← Option.some.inj h]; rfl
  · next h2 => rw [h2, ← Option.some.inj h]; rfl
  · next h4 => rw [h4, ← Option.some.inj h]; rfl
  · next h8 => rw [h8, ← Option.some.inj h, data8_bytes]
  · cases h

theorem unsignedConst_isSome (v unset : BitVec 64) : (unsignedConst v unset).isSome := by
  unfold unsignedConst
  obtain h | h | h | h := constantSize_long v <;> rw [h] <;> rfl

/-- `output_die` can write a location operation, and writes no address for it. -/
def LocDescr.Fits : LocDescr → Prop
  | addr _ => False
  | const8 _ _ => False
  | _ => True

def Attr.Fits (a : Attr) : Prop :=
  match a.value with
  | .addr _ => False
  | .lblId _ => False
  | .loc locs => sizeOfLocs z80Target locs < 2 ^ 16 ∧ ∀ loc ∈ locs, loc.Fits
  | .dieRef none => a.name = atSibling
  | _ => True

theorem LocDescr.fits_iff (loc : LocDescr) :
    loc.Fits ↔ (loc.outputOperands z80Target).isSome ∧ loc.addresses = 0 := by
  cases loc <;> simp [Fits, outputOperands, addresses]

theorem locs_fit_iff (locs : List LocDescr) :
    (∀ loc ∈ locs, loc.Fits) ↔
      (outputLocs z80Target locs).isSome ∧ (locs.map LocDescr.addresses).sum = 0 := by
  rw [outputLocs_isSome]
  induction locs with
  | nil => simp
  | cons loc locs ih =>
    simp only [List.forall_mem_cons, ih, loc.fits_iff, List.map_cons, List.sum_cons,
      Nat.add_eq_zero_iff]
    tauto

variable {root : Dies} {die : Die} {child : Dies}

/-- An attribute takes the bytes it was sized with, and two more for every address. -/
theorem Attr.output_bytes {a : Attr} {out : List Item}
    (h : a.output z80Target root die child = some out) :
    bytes out = a.value.size z80Target + 2 * a.value.addresses := by
  unfold Attr.output at h
  cases hv : a.value <;> simp only [hv] at h
  case loc locs =>
    simp only [Option.bind_eq_bind, Option.bind_eq_some_iff, Option.pure_def, Option.some.injEq] at h
    obtain ⟨length, hlength, ops, hops, rfl⟩ := h
    rw [bytes_cons, blockLength_bytes hlength, outputLocs_bytes hops, ← Nat.add_assoc]
    rfl
  case unsignedConst v unset =>
    rw [unsignedConst_bytes h]
    rfl
  case dieRef target =>
    obtain ⟨off, -, rfl⟩ := Option.map_eq_some_iff.1 h
    rfl
  case float array =>
    obtain rfl := Option.some.inj h
    have hwords : bytes (array.map data4) = array.length * 4 := by
      simp [bytes, Function.comp_def, List.map_const']
    simp [Value.size, Value.addresses, hwords]
  all_goals
    obtain rfl := Option.some.inj h
    simp [Value.size, Value.addresses]

theorem Dies.find_isSome (dies : Dies) (id : Nat) : (dies.find id).isSome ↔ id ∈ dies.ids := by
  simp [find, ids]

theorem Dies.find_eq_some {dies : Dies} {id : Nat} {d : Die} (h : dies.find id = some d) :
    ∃ child, (d, child) ∈ dies.nodes ∧ d.id = id := by
  obtain ⟨⟨d', child⟩, hn, rfl⟩ := Option.map_eq_some_iff.1 h
  exact ⟨child, List.mem_of_find?_eq_some hn, by simpa using List.find?_some hn⟩

/-- What is written is in the tree when its references are. -/
theorem Attr.fits_iff {a : Attr} (hclosed : ∀ id, a.value = .dieRef (some id) → id ∈ root.ids) :
    a.Fits ↔ (a.output z80Target root die child).isSome ∧ a.value.addresses = 0 := by
  unfold Attr.Fits Attr.output
  cases hv : a.value <;> simp only [Value.addresses]
  case loc locs =>
    rw [locs_fit_iff, ← blockLength_isSome]
    cases blockLength (sizeOfLocs z80Target locs) <;> cases outputLocs z80Target locs <;> simp
  case unsignedConst v unset => simp [unsignedConst_isSome]
  case dieRef target =>
    cases target with
    | none =>
      by_cases hname : a.name = atSibling <;> simp [refOffset, hname]
    | some id =>
      obtain ⟨d, hd⟩ := Option.isSome_iff_exists.1 ((root.find_isSome id).2 (hclosed id hv))
      simp [refOffset, hd]
  all_goals simp

theorem outputAttrs_bytes {as : List Attr} {out : List Item}
    (h : outputAttrs z80Target root die child as = some out) :
    bytes out = (as.map (·.value.size z80Target)).sum + 2 * (as.map (·.value.addresses)).sum := by
  induction as generalizing out with
  | nil =>
    obtain rfl : [] = out := Option.some.inj h
    rfl
  | cons a as ih =>
    simp only [outputAttrs, Option.bind_eq_bind, Option.bind_eq_some_iff, Option.pure_def,
      Option.some.injEq] at h
    obtain ⟨here, hhere, rest, hrest, rfl⟩ := h
    rw [bytes_append, Attr.output_bytes hhere, ih hrest]
    simp only [List.map_cons, List.sum_cons]
    omega

theorem attrs_fit_iff {as : List Attr}
    (hclosed : ∀ a ∈ as, ∀ id, a.value = .dieRef (some id) → id ∈ root.ids) :
    (∀ a ∈ as, a.Fits) ↔ (outputAttrs z80Target root die child as).isSome ∧
      (as.map (·.value.addresses)).sum = 0 := by
  induction as with
  | nil => simp [outputAttrs]
  | cons a as ih =>
    rw [List.forall_mem_cons] at hclosed
    rw [List.forall_mem_cons, ih hclosed.2, Attr.fits_iff hclosed.1]
    simp only [outputAttrs, List.map_cons, List.sum_cons, Nat.add_eq_zero_iff]
    cases a.output z80Target root die child <;>
      cases outputAttrs z80Target root die child as <;> simp

/-- A DIE takes the bytes it was sized with exactly when each of its attributes does. -/
theorem Die.fits_iff
    (hclosed : ∀ a ∈ die.attrs, ∀ id, a.value = .dieRef (some id) → id ∈ root.ids) :
    (∃ own, die.output z80Target root child = some own ∧ bytes own = die.size z80Target) ↔
      ∀ a ∈ die.attrs, a.Fits := by
  rw [attrs_fit_iff hclosed, Die.output, Option.isSome_iff_exists]
  constructor
  · rintro ⟨own, hown, hbytes⟩
    obtain ⟨out, hout, rfl⟩ := Option.map_eq_some_iff.1 hown
    rw [bytes_cons, byte_bytes, outputUleb128_length, outputAttrs_bytes hout, Die.size] at hbytes
    exact ⟨⟨out, hout⟩, by omega⟩
  · rintro ⟨⟨out, hout⟩, haddr⟩
    refine ⟨_, Option.map_eq_some_iff.2 ⟨out, hout, rfl⟩, ?_⟩
    rw [bytes_cons, byte_bytes, outputUleb128_length, outputAttrs_bytes hout, Die.size, haddr]
    rfl

end Sizes

section Layout

def Item.mark : Item → Option Nat
  | dieStart die => some die
  | dieEnd die => some die
  | _ => none

theorem LocDescr.output_unmarked {t : Target} {loc : LocDescr} {out : List Item}
    (h : loc.output t = some out) : ∀ i ∈ out, i.mark = none := by
  obtain ⟨ops, hops, rfl⟩ := Option.map_eq_some_iff.1 h
  cases loc <;> simp only [outputOperands, Option.some.injEq, reduceCtorEq] at hops
  all_goals
    subst hops
    simp [Item.mark, data1, data2, data4, Target.addr]

theorem outputLocs_unmarked {t : Target} {locs : List LocDescr} {out : List Item}
    (h : outputLocs t locs = some out) : ∀ i ∈ out, i.mark = none := by
  induction locs generalizing out with
  | nil => simp [← Option.some.inj h]
  | cons loc locs ih =>
    simp only [outputLocs, Option.bind_eq_bind, Option.bind_eq_some_iff, Option.pure_def,
      Option.some.injEq] at h
    obtain ⟨here, hhere, rest, hrest, rfl⟩ := h
    exact List.forall_mem_append.2 ⟨LocDescr.output_unmarked hhere, ih hrest⟩

theorem Attr.output_unmarked {t : Target} {root : Dies} {die : Die} {child : Dies} {a : Attr}
    {out : List Item} (h : a.output t root die child = some out) :
    ∀ i ∈ out, i.mark = none := by
  unfold Attr.output at h
  cases hv : a.value <;> simp only [hv] at h
  case loc locs =>
    simp only [Option.bind_eq_bind, Option.bind_eq_some_iff, Option.pure_def, Option.some.injEq] at h
    obtain ⟨length, hlength, ops, hops, rfl⟩ := h
    refine List.forall_mem_cons.2 ⟨?_, outputLocs_unmarked hops⟩
    unfold blockLength at hlength
    split at hlength
    · exact Option.some.inj hlength ▸ rfl
    · exact Option.some.inj hlength ▸ rfl
    · cases hlength
  case unsignedConst v unset =>
    unfold unsignedConst at h
    split at h
    case h_5 => cases h
    all_goals simp [← Option.some.inj h, Item.mark, data1, data2, data4, data8]
  case dieRef target =>
    obtain ⟨off, -, rfl⟩ := Option.map_eq_some_iff.1 h
    simp [Item.mark, Target.data]
  all_goals
    simp [← Option.some.inj h, Item.mark, data1, data4, data8, Target.addr, Target.offset]

theorem outputAttrs_unmarked {t : Target} {root : Dies} {die : Die} {child : Dies} {as : List Attr}
    {out : List Item} (h : outputAttrs t root die child as = some out) :
    ∀ i ∈ out, i.mark = none := by
  induction as generalizing out with
  | nil => simp [← Option.some.inj h]
  | cons a as ih =>
    simp only [outputAttrs, Option.bind_eq_bind, Option.bind_eq_some_iff, Option.pure_def,
      Option.some.injEq] at h
    obtain ⟨here, hhere, rest, hrest, rfl⟩ := h
    exact List.forall_mem_append.2 ⟨Attr.output_unmarked hhere, ih hrest⟩

theorem Die.output_unmarked {t : Target} {root : Dies} {die : Die} {child : Dies} {out : List Item}
    (h : die.output t root child = some out) : ∀ i ∈ out, i.mark = none := by
  obtain ⟨attrs, hattrs, rfl⟩ := Option.map_eq_some_iff.1 h
  exact List.forall_mem_cons.2 ⟨rfl, outputAttrs_unmarked hattrs⟩

variable {p : Item → Bool}

theorem offsetOf_append_left {a b : List Item} {k : Nat} (h : offsetOf p a = some k) :
    offsetOf p (a ++ b) = some k := by
  induction a generalizing k with
  | nil => cases h
  | cons i a ih =>
    rw [List.cons_append]
    simp only [offsetOf] at h ⊢
    split
    · next hp => rwa [if_pos hp] at h
    · next hp =>
      rw [if_neg hp] at h
      obtain ⟨k', hk', rfl⟩ := Option.map_eq_some_iff.1 h
      rw [ih hk']
      rfl

theorem offsetOf_append_right {a b : List Item} (h : ∀ i ∈ a, p i = false) :
    offsetOf p (a ++ b) = (offsetOf p b).map (bytes a + ·) := by
  induction a with
  | nil => simp
  | cons i a ih =>
    obtain ⟨hi, ha⟩ := List.forall_mem_cons.1 h
    rw [List.cons_append, offsetOf, if_neg (by simp [hi]), ih ha, Option.map_map, bytes_cons]
    congr 1
    funext k
    simp only [Function.comp_apply, Nat.add_assoc]

@[simp] theorem Dies.ids_nil : Dies.nil.ids = [] := rfl

@[simp] theorem Dies.ids_cons (die : Die) (child sib : Dies) :
    (Dies.cons die child sib).ids = die.id :: (child.ids ++ sib.ids) := by
  simp [ids, nodes]

theorem outputDies_marks {t : Target} {root dies : Dies} {out : List Item}
    (h : outputDies t root dies = some out) {i : Item} (hi : i ∈ out) {id : Nat}
    (hid : i.mark = some id) : id ∈ dies.ids := by
  induction dies generalizing out with
  | nil => simp [← Option.some.inj h] at hi
  | cons die child sib ihc ihs =>
    simp only [outputDies, Option.bind_eq_bind, Option.bind_eq_some_iff, Option.pure_def,
      Option.some.injEq] at h
    obtain ⟨own, hown, children, hchildren, after, hafter, rfl⟩ := h
    rw [Dies.ids_cons]
    simp only [List.mem_cons, List.mem_append] at hi ⊢
    obtain (((rfl | hi) | hi) | hi) | rfl | hi := hi
    · exact .inl (Option.some.inj hid).symm
    · rw [Die.output_unmarked hown i hi] at hid
      cases hid
    · exact .inr (.inl (ihc hchildren hi))
    · split at hi
      · cases hi
      · obtain rfl := List.mem_singleton.1 hi
        cases hid
    · exact .inl (Option.some.inj hid).symm
    · exact .inr (.inr (ihs hafter hi))

variable {t : Target} {root : Dies}

def Die.fixed (die : Die) : Nat × Nat × List Attr := (die.id, die.dieAbbrev, die.attrs)

theorem calcDieSizes_fixed (dies : Dies) (next : Nat) :
    (calcDieSizes t dies next).1.nodes.map (·.1.fixed) = dies.nodes.map (·.1.fixed) := by
  induction dies generalizing next with
  | nil => rfl
  | cons die child sib ihc ihs =>
    simp only [calcDieSizes, Dies.nodes, List.map_cons, List.map_append, ihc, ihs]
    rfl

theorem calcDieSizes_ids (dies : Dies) (next : Nat) :
    (calcDieSizes t dies next).1.ids = dies.ids := by
  have h := congrArg (List.map Prod.fst) (calcDieSizes_fixed (t := t) dies next)
  simpa [Dies.ids, Function.comp_def, Die.fixed] using h

theorem calcDieSizes_isNil (dies : Dies) (next : Nat) :
    (calcDieSizes t dies next).1.isNil = dies.isNil := by
  cases dies <;> rfl

/-- A statement about the attributes of every DIE is the same of the tree with offsets. -/
theorem forall_attrs_sized (P : Attr → Prop) (dies : Dies) (next : Nat) :
    (∀ n ∈ (calcDieSizes t dies next).1.nodes, ∀ a ∈ n.1.attrs, P a) ↔
      ∀ n ∈ dies.nodes, ∀ a ∈ n.1.attrs, P a := by
  have h (l : List (Die × Dies)) : (∀ n ∈ l, ∀ a ∈ n.1.attrs, P a) ↔
      ∀ f ∈ l.map (·.1.fixed), ∀ a ∈ f.2.2, P a := by
    rw [List.forall_mem_map]
    rfl
  rw [h, h, calcDieSizes_fixed]

theorem siblingOffset_sized (die : Die) (dies : Dies) (next : Nat) :
    siblingOffset t die (calcDieSizes t dies next).1 =
      if dies.isNil then die.offset + die.size t else (calcDieSizes t dies next).2 + 1 := by
  induction dies generalizing die next with
  | nil => rfl
  | cons d child sib ihc ihs =>
    simp only [calcDieSizes, siblingOffset, calcDieSizes_isNil, ihc, ihs]
    cases sib with
    | cons _ _ _ => rfl
    | nil =>
      cases child with
      | nil => rfl
      | cons _ _ _ => rfl

/-- In a text that starts at `base` the DIE begins at its offset, and ends where its next sibling
is expected. -/
def Placed (t : Target) (base : Nat) (out : List Item) (n : Die × Dies) : Prop :=
  (∃ k, offsetOf (· = .dieStart n.1.id) out = some k ∧ base + k = n.1.offset) ∧
    ∃ k, offsetOf (· = .dieEnd n.1.id) out = some k ∧ base + k = siblingOffset t n.1 n.2

theorem Placed.append_left {base : Nat} {a b : List Item} {n : Die × Dies}
    (h : Placed t base a n) : Placed t base (a ++ b) n := by
  obtain ⟨⟨k, hk, hoff⟩, l, hl, hend⟩ := h
  exact ⟨⟨k, offsetOf_append_left hk, hoff⟩, l, offsetOf_append_left hl, hend⟩

theorem Placed.append_right {base : Nat} {a b : List Item} {n : Die × Dies}
    (ha : ∀ i ∈ a, i.mark ≠ some n.1.id) (h : Placed t (base + bytes a) b n) :
    Placed t base (a ++ b) n := by
  obtain ⟨⟨k, hk, hoff⟩, l, hl, hend⟩ := h
  have hstart : ∀ i ∈ a, decide (i = .dieStart n.1.id) = false := by
    intro i hi
    exact decide_eq_false fun h => ha i hi (h ▸ rfl)
  have hstop : ∀ i ∈ a, decide (i = .dieEnd n.1.id) = false := by
    intro i hi
    exact decide_eq_false fun h => ha i hi (h ▸ rfl)
  refine ⟨⟨bytes a + k, ?_, by omega⟩, bytes a + l, ?_, by omega⟩
  · rw [offsetOf_append_right hstart, hk]
    rfl
  · rw [offsetOf_append_right hstop, hl]
    rfl

/-- Where every DIE of a list begins and ends, when each takes the bytes it was sized with. The
tree is followed as `output_die` follows it: the DIE, its children, its siblings. -/
theorem outputDies_layout (dies : Dies) (next : Nat) (hnodup : dies.ids.Nodup)
    (hown : ∀ n ∈ (calcDieSizes t dies next).1.nodes,
      ∃ own, n.1.output t root n.2 = some own ∧ bytes own = n.1.size t) :
    ∃ out, outputDies t root (calcDieSizes t dies next).1 = some out ∧
      next + bytes out = (calcDieSizes t dies next).2 ∧
      ∀ n ∈ (calcDieSizes t dies next).1.nodes, Placed t next out n := by
  induction dies generalizing next with
  | nil => exact ⟨[], rfl, rfl, by simp [calcDieSizes, Dies.nodes]⟩
  | cons die child sib ihc ihs =>
    simp only [calcDieSizes, Dies.nodes, List.forall_mem_cons, List.forall_mem_append] at hown ⊢
    obtain ⟨⟨own, hself, hsize⟩, hchild, hsib⟩ := hown
    rw [Dies.ids_cons, List.nodup_cons, List.nodup_append] at hnodup
    obtain ⟨hnew, hnodupc, hnodups, hdisjoint⟩ := hnodup
    rw [List.mem_append, not_or] at hnew
    obtain ⟨children, hchildren, hcbytes, hcat⟩ := ihc _ hnodupc hchild
    obtain ⟨after, hafter, hsbytes, hsat⟩ := ihs _ hnodups hsib
    have hsize' : bytes own = die.size t := hsize
    have hmarkc : ∀ i ∈ children, ∀ id, i.mark = some id → id ∈ child.ids := fun i hi id hid =>
      calcDieSizes_ids (t := t) child _ ▸ outputDies_marks hchildren hi hid
    have hend := siblingOffset_sized (t := t) { die with offset := next } child (next + die.size t)
    -- the head of the text ends where the next sibling starts
    obtain ⟨close, hclose⟩ : ∃ c, c = if child.isNil then [] else [data1 0] := ⟨_, rfl⟩
    have hmarkclose : ∀ i ∈ close, i.mark = none := by
      intro i hi
      rw [hclose] at hi
      split at hi
      · cases hi
      · exact List.mem_singleton.1 hi ▸ rfl
    obtain ⟨next₂, hnext₂⟩ : ∃ m, m = if child.isNil
        then (calcDieSizes t child (next + die.size t)).2
        else (calcDieSizes t child (next + die.size t)).2 + 1 := ⟨_, rfl⟩
    rw [← hnext₂] at hafter hsbytes hsat ⊢
    obtain ⟨head, hhead⟩ : ∃ h, h = .dieStart die.id :: own ++ children ++ close := ⟨_, rfl⟩
    have hheadbytes : next + bytes head = next₂ := by
      rw [hhead, hnext₂, hclose]
      simp only [bytes_append, bytes_cons, Item.bytes, hsize']
      split
      · rw [bytes_nil]
        omega
      · rw [bytes_cons, data1_bytes, bytes_nil]
        omega
    have hendhead : siblingOffset t { die with offset := next }
        (calcDieSizes t child (next + die.size t)).1 = next₂ := by
      rw [hend, hnext₂]
      cases child with
      | nil => rfl
      | cons _ _ _ => rfl
    have hnostop : ∀ i ∈ head, decide (i = .dieEnd die.id) = false := by
      intro i hi
      refine decide_eq_false fun h => ?_
      subst h
      rw [hhead] at hi
      simp only [List.mem_append, List.mem_cons, reduceCtorEq, false_or] at hi
      obtain (hi | hi) | hi := hi
      · cases Die.output_unmarked hself _ hi
      · exact hnew.1 (hmarkc _ hi _ rfl)
      · cases hmarkclose _ hi
    refine ⟨head ++ .dieEnd die.id :: after, ?_, ?_, ?_, ?_, ?_⟩
    · simp only [outputDies, hself, hchildren, hafter, calcDieSizes_isNil]
      rw [hhead, hclose]
      rfl
    · rw [bytes_append, bytes_cons, ← hsbytes, ← hheadbytes]
      simp only [Item.bytes]
      omega
    · refine ⟨⟨0, ?_, rfl⟩, bytes head, ?_, hheadbytes.trans hendhead.symm⟩
      · simp [hhead, offsetOf]
      · rw [offsetOf_append_right hnostop]
        simp [offsetOf]
    · intro n hn
      have hid : n.1.id ∈ child.ids := by
        rw [← calcDieSizes_ids (t := t) child (next + die.size t)]
        exact List.mem_map_of_mem hn
      have hne : n.1.id ≠ die.id := fun h => hnew.1 (h ▸ hid)
      rw [hhead, List.append_assoc, List.append_assoc]
      refine .append_right ?_ (.append_left ?_)
      · intro i hi h
        obtain rfl | hi := List.mem_cons.1 hi
        · exact hne (Option.some.inj h).symm
        · rw [Die.output_unmarked hself i hi] at h
          cases h
      · rw [bytes_cons, hsize']
        simpa [Item.bytes] using hcat n hn
    · intro n hn
      have hid : n.1.id ∈ sib.ids := by
        rw [← calcDieSizes_ids (t := t) sib next₂]
        exact List.mem_map_of_mem hn
      have hne : n.1.id ≠ die.id := fun h => hnew.2 (h ▸ hid)
      rw [← List.singleton_append, ← List.append_assoc]
      refine .append_right ?_ ?_
      · intro i hi h
        rw [hhead] at hi
        simp only [List.mem_append, List.mem_cons, List.not_mem_nil, or_false] at hi
        obtain (((rfl | hi) | hi) | hi) | rfl := hi
        · exact hne (Option.some.inj h).symm
        · rw [Die.output_unmarked hself i hi] at h
          cases h
        · exact hdisjoint _ (hmarkc i hi _ h) _ hid rfl
        · rw [hmarkclose i hi] at h
          cases h
        · exact hne (Option.some.inj h).symm
      · rw [bytes_append, ← Nat.add_assoc, hheadbytes]
        simpa [Item.bytes] using hsat n hn

end Layout

theorem outputHeader_bytes (next : Nat) :
    bytes (outputHeader z80Target next) = z80Target.headerSize := rfl

section CompUnit

variable (u : CompUnit)

theorem CompUnit.sized_closed : ∀ n ∈ (u.sized z80Target).1.nodes, ∀ a ∈ n.1.attrs, ∀ id,
    a.value = .dieRef (some id) → id ∈ (u.sized z80Target).1.ids := by
  have hids : (u.sized z80Target).1.ids = u.dies.ids := calcDieSizes_ids _ _
  rw [hids]
  exact (forall_attrs_sized (fun a => ∀ id, a.value = .dieRef (some id) → id ∈ u.dies.ids)
    u.dies _).2 u.closed

variable {u}

theorem CompUnit.LaidOut.fits {out : List Item} (h : u.LaidOut z80Target out) :
    ∀ n ∈ u.dies.nodes, ∀ a ∈ n.1.attrs, a.Fits := by
  refine (forall_attrs_sized (t := z80Target) Attr.Fits u.dies z80Target.headerSize).1 fun n hn => ?_
  exact (Die.fits_iff (u.sized_closed n hn)).1 (h.size n hn)

/-- Every DIE is where its offset says, in the section with its header. -/
theorem CompUnit.placed (hown : ∀ n ∈ (u.sized z80Target).1.nodes, ∃ own,
    n.1.output z80Target (u.sized z80Target).1 n.2 = some own ∧ bytes own = n.1.size z80Target) :
    ∃ out, u.output z80Target = some out ∧
      ∀ n ∈ (u.sized z80Target).1.nodes, Placed z80Target 0 out n := by
  obtain ⟨out, hout, -, hplaced⟩ := outputDies_layout u.dies z80Target.headerSize u.nodup hown
  refine ⟨_, Option.map_eq_some_iff.2 ⟨out, hout, rfl⟩, fun n hn => ?_⟩
  refine .append_right ?_ ?_
  · simp [outputHeader, Item.mark, Target.data, Target.offset, data1, data2]
  · rw [outputHeader_bytes, Nat.zero_add]
    exact hplaced n hn

/-- The section is laid out as computed exactly when no DIE has an address, and everything it has
can be written. -/
theorem debug_info_laid_out_iff (u : CompUnit) :
    (∃ out, u.output z80Target = some out ∧ u.LaidOut z80Target out) ↔
      ∀ n ∈ u.dies.nodes, ∀ a ∈ n.1.attrs, a.Fits := by
  constructor
  · rintro ⟨out, -, hlaid⟩
    exact hlaid.fits
  intro hfits
  rw [← forall_attrs_sized (t := z80Target) Attr.Fits u.dies z80Target.headerSize] at hfits
  have hown : ∀ n ∈ (u.sized z80Target).1.nodes, ∃ own,
      n.1.output z80Target (u.sized z80Target).1 n.2 = some own ∧
        bytes own = n.1.size z80Target := by
    intro n hn
    exact (Die.fits_iff (u.sized_closed n hn)).2 (hfits n hn)
  obtain ⟨out, hout, hplaced⟩ := CompUnit.placed hown
  refine ⟨out, hout, hown, ?_, ?_⟩
  · intro n hn a ha id hid
    obtain ⟨d, hd⟩ := Option.isSome_iff_exists.1
      ((Dies.find_isSome _ id).2 (u.sized_closed n hn a ha id hid))
    obtain ⟨child, hmem, rfl⟩ := Dies.find_eq_some hd
    obtain ⟨⟨k, hk, hoff⟩, -⟩ := hplaced _ hmem
    refine ⟨k, ?_, hk⟩
    rw [refOffset, hd, Option.map_some, ← hoff, Nat.zero_add]
  · intro n hn a ha hnone
    obtain ⟨-, k, hk, hoff⟩ := hplaced n hn
    have hname : a.name = atSibling := by
      have := hfits n hn a ha
      rwa [Attr.Fits, hnone] at this
    refine ⟨k, ?_, hk⟩
    rw [refOffset, if_pos hname, ← hoff, Nat.zero_add]

end CompUnit

/-- A compilation unit with one variable, at an address: `DW_TAG_compile_unit` over
`DW_TAG_variable` with `DW_AT_location`. -/
def variableUnit : CompUnit where
  dies := .cons ⟨0, 0x11, 1, 0, []⟩
    (.cons ⟨1, 0x34, 2, 0, [⟨0x02, .loc [.addr "_x"]⟩]⟩ .nil .nil) .nil
  nodup := by decide
  closed := by simp [Dies.nodes]

/-- The address takes four bytes where two were counted. -/
theorem debug_info_wrong_variable :
    ¬ ∃ out, variableUnit.output z80Target = some out ∧ variableUnit.LaidOut z80Target out := by
  rintro ⟨out, -, hlaid⟩
  have hfits := hlaid.fits (⟨1, 0x34, 2, 0, [⟨0x02, .loc [.addr "_x"]⟩]⟩, .nil)
    (by simp [variableUnit, Dies.nodes]) ⟨0x02, .loc [.addr "_x"]⟩ (by simp)
  exact hfits.2 (.addr "_x") (by simp)

end Z80Gcc.Dwarf
