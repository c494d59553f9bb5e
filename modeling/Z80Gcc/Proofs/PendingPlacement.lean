import Z80Gcc.Proofs.PendingOutput

/-! Where the elements of a constructor are put: in `constructor_elements`, or in the bytes that are
assembled. -/

namespace Z80Gcc.PendingInit

open Z80Gcc.LinkedTree

namespace ConstructorType

/-- The fields are in layout order; some may have no size. -/
def Layout : ConstructorType → Prop
  | array _ => True
  | record fields => fields.Pairwise fun f f' => f.bitpos + f.size ≤ f'.bitpos

/-- No bit fields, so that the constructor may be output incrementally. -/
def ByteSized : ConstructorType → Prop
  | array _ => True
  | record fields => ∀ f ∈ fields, f.nameless = false ∧ f.bitpos % 8 = 0 ∧ f.size % 8 = 0

/-- The offset of an element in bytes. -/
def offset : ConstructorType → Nat → Nat
  | array eltSize, index => index * eltSize
  | record fields, field => (fields.getD field ⟨0, 0, false⟩).bitpos / 8

/-- The size of an element in bytes. -/
def valueSize : ConstructorType → Nat → Nat
  | array eltSize, _ => eltSize
  | record fields, field => (fields.getD field ⟨0, 0, false⟩).size / 8

/-- A field or an index that an element may be for. -/
def Designator (type : ConstructorType) (d : Nat) : Prop :=
  type.first ≤ d ∧ type.complete d = false

variable {type : ConstructorType}

def endPos (fields : List Field) : Nat → Nat
  | 0 => 0
  | tail + 1 => (fields.getD tail ⟨0, 0, false⟩).bitpos + (fields.getD tail ⟨0, 0, false⟩).size

theorem Layout.getD {fields : List Field} (hl : (record fields).Layout) {i j : Nat} (hij : i < j)
    (hj : j < fields.length) :
    (fields.getD i ⟨0, 0, false⟩).bitpos + (fields.getD i ⟨0, 0, false⟩).size ≤
      (fields.getD j ⟨0, 0, false⟩).bitpos := by
  have hpair := List.pairwise_iff_getElem.1 hl i j (by omega) hj hij
  simpa [List.getD, List.getElem?_eq_getElem, hj, Nat.lt_trans hij hj] using hpair

theorem Layout.endPos_le {fields : List Field} (hl : (record fields).Layout) {i : Nat}
    (hi : i < fields.length) : endPos fields i ≤ (fields.getD i ⟨0, 0, false⟩).bitpos := by
  cases i with
  | zero => exact Nat.zero_le _
  | succ i => exact hl.getD (Nat.lt_succ_self i) hi

theorem Layout.mono (hl : type.Layout) (i j : Nat) (hij : i ≤ j) (hj : type.complete j = false) :
    type.position i ≤ type.position j := by
  cases type with
  | array eltSize => exact hij
  | record fields =>
    rcases Nat.eq_or_lt_of_le hij with rfl | hlt
    · exact Nat.le_refl _
    · rw [complete, decide_eq_false_iff_not, Nat.not_le] at hj
      exact Nat.le_trans (Nat.le_add_right _ _) (hl.getD hlt hj)

theorem complete_of_le {i j : Nat} (hij : i ≤ j) (hj : type.complete j = false) :
    type.complete i = false := by
  cases type with
  | array eltSize => rfl
  | record fields =>
    rw [complete, decide_eq_false_iff_not, Nat.not_le] at hj ⊢
    exact Nat.lt_of_le_of_lt hij hj

end ConstructorType

open ConstructorType

section Images

/-- Every element at its offset, and zeros in between. -/
structure Image (offset : Nat → Nat) (out : List Byte) (done : List (Nat × List Byte)) : Prop where
  item : ∀ x ∈ done, offset x.1 + x.2.length ≤ out.length ∧
    ∀ i, i < x.2.length → out[offset x.1 + i]? = x.2[i]?
  gap : ∀ i, i < out.length →
    (∀ x ∈ done, ¬ (offset x.1 ≤ i ∧ i < offset x.1 + x.2.length)) → out[i]? = some 0

variable {offset : Nat → Nat} {out : List Byte} {done : List (Nat × List Byte)}

theorem image_empty : Image offset [] [] := ⟨fun _ hx => (nomatch hx), fun i hi => absurd hi (Nat.not_lt_zero i)⟩

theorem Image.zeros (h : Image offset out done) (n : Nat) :
    Image offset (out ++ List.replicate n 0) done := by
  refine ⟨fun x hx => ?_, fun i hi hgap => ?_⟩
  · obtain ⟨hfits, hitem⟩ := h.item x hx
    refine ⟨by rw [List.length_append]; omega, fun i hi => ?_⟩
    rw [List.getElem?_append_left (by omega)]
    exact hitem i hi
  · by_cases hlow : i < out.length
    · rw [List.getElem?_append_left hlow]
      exact h.gap i hlow hgap
    · rw [List.length_append, List.length_replicate] at hi
      rw [List.getElem?_append_right (by omega), List.getElem?_replicate, if_pos (by omega)]

theorem Image.snoc (h : Image offset out done) {d : Nat} (hd : offset d = out.length)
    (value : List Byte) : Image offset (out ++ value) (done ++ [(d, value)]) := by
  refine ⟨fun x hx => ?_, fun i hi hgap => ?_⟩
  · rcases List.mem_append.1 hx with hx | hx
    · obtain ⟨hfits, hitem⟩ := h.item x hx
      refine ⟨by rw [List.length_append]; omega, fun i hi => ?_⟩
      rw [List.getElem?_append_left (by omega)]
      exact hitem i hi
    · obtain rfl := List.mem_singleton.1 hx
      refine ⟨by rw [List.length_append]; simp only; omega, fun i _ => ?_⟩
      rw [List.getElem?_append_right (by simp only; omega)]
      congr 1
      simp only
      omega
  · have hlow : i < out.length := by
      have hlast := hgap (d, value) (List.mem_append_right _ (List.mem_singleton.2 rfl))
      rw [List.length_append] at hi
      simp only at hlast
      omega
    rw [List.getElem?_append_left hlow]
    exact h.gap i hlow fun x hx => hgap x (List.mem_append_left _ hx)

end Images

section Placing

variable (type : ConstructorType) (incremental : Bool)

/-- Where an incremental output is: nothing lies behind the next element. -/
def Loose (st : State) : Prop :=
  match type with
  | .array eltSize => st.out.length = st.unfilled * eltSize
  | .record fields => st.bitIndex = 8 * st.out.length ∧
      (type.complete st.unfilled = false → st.bitIndex ≤ (fields.getD st.unfilled ⟨0, 0, false⟩).bitpos)

/-- The output ends where the element before the next one does. -/
def Exact (st : State) : Prop :=
  match type with
  | .array eltSize => st.out.length = st.unfilled * eltSize
  | .record fields => st.bitIndex = 8 * st.out.length ∧ st.bitIndex = endPos fields st.unfilled

/-- Some elements have been output. -/
structure Placed (done : List (Nat × List Byte)) (st : State) : Prop where
  elements : incremental = false → st.elements = done.reverse
  image : incremental = true → Image type.offset st.out done

def numbered : Nat → List (List Byte) → List (Nat × List Byte)
  | _, [] => []
  | u, value :: values => (u, value) :: numbered (u + 1) values

variable {type incremental}

theorem Exact.loose (hl : type.Layout) {st : State} (h : Exact type st) : Loose type st := by
  cases type with
  | array eltSize => exact h
  | record fields =>
    refine ⟨h.1, fun hcomplete => ?_⟩
    rw [complete, decide_eq_false_iff_not, Nat.not_le] at hcomplete
    rw [h.2]
    exact hl.endPos_le hcomplete

theorem Exact.congr {st st' : State} (h : Exact type st) (hout : st'.out = st.out)
    (hindex : st'.bitIndex = st.bitIndex) (hunfilled : st'.unfilled = st.unfilled) : Exact type st' := by
  cases type with
  | array eltSize =>
    change st'.out.length = st'.unfilled * eltSize
    rw [hout, hunfilled]
    exact h
  | record fields =>
    change st'.bitIndex = 8 * st'.out.length ∧ st'.bitIndex = endPos fields st'.unfilled
    rw [hout, hunfilled, hindex]
    exact h

theorem outputElement_placed (hb : incremental = true → type.ByteSized)
    {done : List (Nat × List Byte)} {st : State} (hp : Placed type incremental done st)
    (hloose : incremental = true → Loose type st) (hcomplete : type.complete st.unfilled = false)
    {value : List Byte} (hvalue : incremental = true → value.length = type.valueSize st.unfilled) :
    Placed type incremental (done ++ [(st.unfilled, value)])
        (advance (outputElement type incremental value st)) ∧
      (incremental = true → Exact type (advance (outputElement type incremental value st))) := by
  cases incremental with
  | false =>
    refine ⟨⟨fun _ => ?_, fun h => (nomatch h)⟩, fun h => nomatch h⟩
    rw [List.reverse_append, ← hp.elements rfl]
    rfl
  | true =>
    have himage := hp.image rfl
    have hloose := hloose rfl
    have hvalue := hvalue rfl
    cases type with
    | array eltSize =>
      refine ⟨⟨fun h => (nomatch h), fun _ => himage.snoc hloose.symm value⟩, fun _ => ?_⟩
      change (st.out ++ value).length = (st.unfilled + 1) * eltSize
      rw [List.length_append, hvalue, hloose, Nat.succ_mul]
      rfl
    | record fields =>
      obtain ⟨hindex, hle⟩ := hloose
      have hle := hle hcomplete
      rw [complete, decide_eq_false_iff_not, Nat.not_le] at hcomplete
      have hmem : fields.getD st.unfilled ⟨0, 0, false⟩ ∈ fields := by
        rw [List.getD, List.getElem?_eq_getElem hcomplete]
        exact List.getElem_mem _
      obtain ⟨-, hpos, hsize⟩ := hb rfl _ hmem
      change value.length = (fields.getD st.unfilled ⟨0, 0, false⟩).size / 8 at hvalue
      have hout : (advance (outputElement (.record fields) true value st)).out =
          st.out ++ List.replicate (if st.bitIndex ≠ (fields.getD st.unfilled ⟨0, 0, false⟩).bitpos then
            (fields.getD st.unfilled ⟨0, 0, false⟩).bitpos / 8 - st.bitIndex / 8 else 0) 0 ++ value := rfl
      have hgap : (if st.bitIndex ≠ (fields.getD st.unfilled ⟨0, 0, false⟩).bitpos then
          (fields.getD st.unfilled ⟨0, 0, false⟩).bitpos / 8 - st.bitIndex / 8 else 0) =
            (fields.getD st.unfilled ⟨0, 0, false⟩).bitpos / 8 - st.out.length := by
        split <;> omega
      rw [hgap] at hout
      refine ⟨⟨fun h => (nomatch h), fun _ => ?_⟩, fun _ => ⟨?_, rfl⟩⟩
      · rw [hout]
        refine (himage.zeros _).snoc ?_ value
        rw [offset, List.length_append, List.length_replicate]
        omega
      · rw [hout]
        change (fields.getD st.unfilled ⟨0, 0, false⟩).bitpos + (fields.getD st.unfilled ⟨0, 0, false⟩).size = _
        simp only [List.length_append, List.length_replicate, hvalue]
        omega

theorem emit_placed (hl : type.Layout) (hb : incremental = true → type.ByteSized)
    {values : List (List Byte)} {done : List (Nat × List Byte)} {st : State}
    (hp : Placed type incremental done st) (hloose : incremental = true → Loose type st)
    (hcomplete : ∀ i, i < values.length → type.complete (st.unfilled + i) = false)
    (hvalue : ∀ i value, values[i]? = some value → incremental = true →
      value.length = type.valueSize (st.unfilled + i)) :
    Placed type incremental (done ++ numbered st.unfilled values) (emit type incremental values st) ∧
      (incremental = true → values ≠ [] ∨ Exact type st → Exact type (emit type incremental values st)) := by
  induction values generalizing st done with
  | nil =>
    rw [numbered, List.append_nil]
    exact ⟨hp, fun _ h => h.resolve_left fun hne => hne rfl⟩
  | cons value values ih =>
    obtain ⟨hp₁, hexact₁⟩ := outputElement_placed hb hp hloose (hcomplete 0 (Nat.zero_lt_succ _))
      (hvalue 0 value rfl)
    have hunfilled : (advance (outputElement type incremental value st)).unfilled = st.unfilled + 1 :=
      congrArg (· + 1) (outputElement_node type incremental value st).2.2.2.1
    obtain ⟨hp₂, hexact₂⟩ := ih hp₁ (fun h => (hexact₁ h).loose hl)
      (fun i hi => by
        rw [hunfilled, Nat.add_assoc, Nat.add_comm 1]
        exact hcomplete (i + 1) (Nat.succ_lt_succ hi))
      (fun i v hv hinc => by
        rw [hunfilled, Nat.add_assoc, Nat.add_comm 1]
        exact hvalue (i + 1) v hv hinc)
    rw [hunfilled, List.append_assoc] at hp₂
    exact ⟨hp₂, fun h _ => hexact₂ h (.inr (hexact₁ h))⟩

theorem fillGap_placed (hb : incremental = true → type.ByteSized)
    {done : List (Nat × List Byte)} {st : State} (hp : Placed type incremental done st)
    (hexact : incremental = true → Exact type st) {next : Nat} (hle : st.unfilled ≤ next)
    (hl : type.Layout) (hcomplete : type.complete next = false) :
    Placed type incremental done (fillGap type incremental next st) ∧
      (incremental = true → Loose type (fillGap type incremental next st)) := by
  cases incremental with
  | false => exact ⟨⟨hp.elements, fun h => (nomatch h)⟩, fun h => nomatch h⟩
  | true =>
    have himage := hp.image rfl
    have hexact := hexact rfl
    cases type with
    | array eltSize =>
      refine ⟨⟨fun h => (nomatch h), fun _ => himage.zeros _⟩, fun _ => ?_⟩
      change (st.out ++ _).length = next * eltSize
      have hmul := Nat.mul_le_mul_right eltSize hle
      change st.out.length = st.unfilled * eltSize at hexact
      rw [List.length_append, List.length_replicate]
      omega
    | record fields =>
      obtain ⟨hindex, hend⟩ := hexact
      have hnext : next < fields.length := by
        rwa [complete, decide_eq_false_iff_not, Nat.not_le] at hcomplete
      have hmem : fields.getD next ⟨0, 0, false⟩ ∈ fields := by
        rw [List.getD, List.getElem?_eq_getElem hnext]
        exact List.getElem_mem _
      obtain ⟨-, hpos, -⟩ := hb rfl _ hmem
      have hle' : endPos fields st.unfilled ≤ (fields.getD next ⟨0, 0, false⟩).bitpos := by
        refine Nat.le_trans (hl.endPos_le (Nat.lt_of_le_of_lt hle hnext)) ?_
        exact hl.mono _ _ hle hcomplete
      refine ⟨⟨fun h => (nomatch h), fun _ => himage.zeros _⟩, fun _ => ⟨?_, fun _ => Nat.le_refl _⟩⟩
      have hfilled : (match st.unfilled with
          | 0 => 0
          | tail + 1 => ((fields.getD tail ⟨0, 0, false⟩).bitpos +
              (fields.getD tail ⟨0, 0, false⟩).size + 7) / 8) = st.out.length := by
        cases hu : st.unfilled with
        | zero =>
          rw [hu, endPos] at hend
          simp only
          omega
        | succ tail =>
          rw [hu, endPos] at hend
          simp only
          omega
      change (fields.getD next ⟨0, 0, false⟩).bitpos = 8 * (st.out ++ List.replicate
        (((fields.getD next ⟨0, 0, false⟩).bitpos + 7) / 8 - match st.unfilled with
          | 0 => 0
          | tail + 1 => ((fields.getD tail ⟨0, 0, false⟩).bitpos +
              (fields.getD tail ⟨0, 0, false⟩).size + 7) / 8) 0).length
      rw [hfilled, List.length_append, List.length_replicate]
      omega

end Placing

end Z80Gcc.PendingInit
