import Z80Gcc.Proofs.BitField
import Z80Gcc.Proofs.InitializerOutput

/-! When the image of a static object is what its initialiser says. -/

namespace Z80Gcc.Initializer

open Z80Gcc.BitField Z80Gcc.Placement

variable {h : Host}

section Zeros

variable {type : Aggregate} {fields : List FieldDecl}

theorem mem_copies_zero_iff {width n pos : Nat} {bit : Nat → Bool} :
    (∀ it ∈ copies width bit pos n, it.Zero) ↔ n = 0 ∨ ∀ j < width, bit j = false := by
  cases n with
  | zero => simp [copies]
  | succ n =>
    constructor
    · intro hz
      exact .inr (hz _ (List.mem_cons_self ..))
    · rintro (hn | hz) it hmem
      · cases hn
      · exact zero_of_mem_copies hz hmem

/-- The bits of an element with whole bytes are those of its value. -/
theorem width_eq_bytes {purpose : Option Purpose} {typeSize : Nat} {val : Constant h}
    (hfits : ElementFits type purpose typeSize val fields)
    (hbit : isBitField type purpose fields = false) (byIndex : Bool) (next : Nat) :
    (place byIndex type purpose fields next).width =
      8 * (place byIndex type purpose fields next).bytes := by
  by_cases harray : ∃ minIndex eltSize, type = .array minIndex eltSize
  · obtain ⟨minIndex, eltSize, rfl⟩ := harray
    have hwidth : (place byIndex (.array minIndex eltSize) purpose fields next).width =
        8 * eltSize := by
      cases purpose with
      | none => rfl
      | some p => cases p <;> rfl
    rw [Place.bytes, hwidth]
    omega
  · have hrecord : ∀ minIndex eltSize, type ≠ .array minIndex eltSize :=
      fun minIndex eltSize heq => harray ⟨minIndex, eltSize, heq⟩
    obtain ⟨decl, chain, hfields⟩ := elementFits_decl hrecord hfits
    have hwhole : decl.size % 8 = 0 := by
      cases type with
      | array minIndex eltSize => exact absurd rfl (hrecord _ _)
      | _ =>
        simp only [isBitField, hfields, List.head?_cons, Option.elim_some] at hbit
        simp only [ElementFits, hfields, hbit] at hfits
        exact hfits.2
    rw [Place.bytes, place_of_member hrecord purpose hfields]
    simp only
    omega

/-- A bit-field has the same bits whatever the positions of index ranges. -/
theorem bit_of_bitField {purpose : Option Purpose} {typeSize : Nat} {val : Constant h}
    (hfits : ElementFits type purpose typeSize val fields)
    (hbit : isBitField type purpose fields = true) (size : Nat) :
    val.bit false size = val.bit true size ∧ val.InPlace size := by
  have hint : val.intCst.isSome := by
    cases type with
    | array minIndex eltSize => cases hbit
    | _ =>
      cases hfields : fieldsFrom purpose fields with
      | nil => simp [isBitField, hfields] at hbit
      | cons decl chain =>
        simp only [isBitField, hfields, List.head?_cons, Option.elim_some] at hbit
        simp only [ElementFits, hfields, hbit] at hfits
        exact hfits.2.2
  cases val with
  | missing => exact ⟨rfl, trivial⟩
  | integer low high => exact ⟨rfl, trivial⟩
  | _ => cases hint

end Zeros

section Agreement

variable {type : Aggregate} {fields : List FieldDecl}

/-- A value that stands at its place: it is empty, or right, as its index ranges tell. -/
def Agrees (val : Constant h) (width size : Nat) : Prop :=
  ((∀ j < width, val.bit false size j = false) ↔ ∀ j < width, val.bit true size j = false) ∧
    ((∀ j < width, val.bit false size j = val.bit true size j) ↔ val.InPlace size)

theorem agrees_of_eq {val : Constant h} {size : Nat} (hbit : val.bit false size = val.bit true size)
    (hplace : val.InPlace size) (width : Nat) : Agrees val width size := by
  refine ⟨by rw [hbit], ?_⟩
  rw [hbit]
  exact ⟨fun _ => hplace, fun _ _ _ => rfl⟩

/-- The elements of an array start at multiples of their size. -/
def Aligned (type : Aggregate) (next : Nat) : Prop :=
  match type with
  | .array _ eltSize => 8 * eltSize ∣ next
  | _ => True

theorem Aligned.next {purpose : Option Purpose} {next : Nat} (hal : Aligned type next) :
    Aligned type (place false type purpose fields next).next := by
  cases type with
  | array minIndex eltSize =>
    simp only [Aligned] at hal ⊢
    cases purpose with
    | none => exact (Nat.dvd_add_iff_right hal).1 (dvd_refl _)
    | some p =>
      cases p with
      | field decl chain => exact (Nat.dvd_add_iff_right hal).1 (dvd_refl _)
      | index i => exact ⟨(i - minIndex).toNat + 1, by simp only [place]; rw [Nat.mul_succ]⟩
      | range lo hi =>
        simp only [place]
        split
        · exact hal
        · exact (Nat.dvd_add_iff_right hal).1 (Dvd.intro _ rfl)
  | _ => trivial

/-- An index range cannot start below the elements before it, and elsewhere there is no choice. -/
theorem place_below {purpose : Option Purpose} {typeSize : Nat} {val : Constant h}
    {e e' next next' : Nat} (hle : e' ≤ e) (hfollows : Follows type e' next')
    (hal : Aligned type next') (hfits : ElementFits type purpose typeSize val fields)
    (hinc : Increasing e (elementItems true type purpose val fields next)) :
    (place true type purpose fields next').pos = (place true type purpose fields next).pos ∧
      ((place false type purpose fields next').count = 0 ∨
        (place false type purpose fields next').pos = (place true type purpose fields next).pos ∨
        (place false type purpose fields next').pos + (place false type purpose fields next').width ≤
          (place true type purpose fields next).pos) := by
  by_cases harray : ∃ minIndex eltSize, type = .array minIndex eltSize
  · obtain ⟨minIndex, eltSize, rfl⟩ := harray
    obtain rfl : e' = next' := hfollows
    match purpose, hfits with
    | some (.range lo hi), _ =>
      simp only [elementItems, place, Place.items] at hinc ⊢
      refine ⟨rfl, ?_⟩
      by_cases hn : (hi - lo + 1).toNat = 0
      · exact .inl hn
      · obtain ⟨n, hn⟩ := Nat.exists_eq_succ_of_ne_zero hn
        rw [hn] at hinc
        have hpos : e ≤ 8 * eltSize * (lo - minIndex).toNat := hinc.1
        obtain ⟨q, rfl⟩ : 8 * eltSize ∣ e' := hal
        refine .inr ?_
        simp only [Bool.false_eq_true, if_false, if_true]
        rcases Nat.lt_or_ge q (lo - minIndex).toNat with hlt | hge
        · refine .inr ?_
          rw [← Nat.mul_succ]
          exact Nat.mul_le_mul_left _ hlt
        · refine .inl (Nat.le_antisymm (hle.trans hpos) (Nat.mul_le_mul_left _ hge))
    | some (.index i), _ => exact ⟨rfl, .inr (.inl rfl)⟩
  · have hrecord : ∀ minIndex eltSize, type ≠ .array minIndex eltSize :=
      fun minIndex eltSize heq => harray ⟨minIndex, eltSize, heq⟩
    obtain ⟨decl, chain, hfields⟩ := elementFits_decl hrecord hfits
    rw [place_of_member hrecord purpose hfields, place_of_member hrecord purpose hfields,
      place_of_member hrecord purpose hfields]
    exact ⟨rfl, .inr (.inl rfl)⟩

theorem elementItems_eq (purpose : Option Purpose) (val : Constant h) (byIndex : Bool)
    (next next' : Nat) : elementItems byIndex type purpose val fields next =
      copies (place false type purpose fields next').width
        (val.bit byIndex (place false type purpose fields next').bytes)
        (place byIndex type purpose fields next).pos
        (place false type purpose fields next').count := by
  obtain ⟨hwidth, hcount, -⟩ := @place_shape type fields purpose byIndex false next next'
  rw [elementItems, Place.items, Place.bytes, Place.bytes, hwidth, hcount]

theorem element_agrees {purpose : Option Purpose} {typeSize : Nat} {val : Constant h}
    {e e' next next' : Nat} {items items' : List Item} (hle : e' ≤ e)
    (hfollows : Follows type e' next') (hal : Aligned type next')
    (hfits : ElementFits type purpose typeSize val fields)
    (hinc : Increasing e (elementItems true type purpose val fields next ++ items))
    (hinc' : Increasing e' (elementItems false type purpose val fields next' ++ items'))
    (hagree : Agrees val (place false type purpose fields next').width
      (place false type purpose fields next').bytes) :
    (∀ k, image (elementItems false type purpose val fields next' ++ items') k =
        image (elementItems true type purpose val fields next ++ items) k) ↔
      ((place false type purpose fields next').count = 0 ∨
        (place false type purpose fields next').pos = (place true type purpose fields next').pos ∧
          val.InPlace (place false type purpose fields next').bytes ∨
        ∀ j < (place false type purpose fields next').width,
          val.bit true (place false type purpose fields next').bytes j = false) ∧
      ∀ k, image items' k = image items k := by
  obtain ⟨hsame, hwhere⟩ := place_below hle hfollows hal hfits (increasing_append.1 hinc).1
  rw [hsame]
  rw [elementItems_eq purpose val true next next'] at hinc ⊢
  rw [elementItems_eq purpose val false next' next'] at hinc' ⊢
  revert hinc hinc' hagree hwhere
  generalize place false type purpose fields next' = p
  generalize (place true type purpose fields next).pos = pos
  rintro hinc hinc' ⟨hzero, heq⟩ hwhere
  by_cases hcount : p.count = 0
  · simp [hcount, copies]
  obtain hpos | hbelow := hwhere.resolve_left hcount
  · rw [hpos] at hinc' ⊢
    rw [image_copies_eq_iff p.count hinc' hinc, heq]
    refine and_congr_left' ?_
    constructor
    · rintro (hz | hplace)
      · exact .inl hz
      · exact .inr (.inl ⟨rfl, hplace⟩)
    · rintro (hz | ⟨-, hplace⟩ | hz)
      · exact .inl hz
      · exact .inr hplace
      · exact .inr (heq.1 fun j hj => by rw [hz j hj, hzero.2 hz j hj])
  · rw [image_copies_below_iff hcount hbelow hinc' hinc hzero]
    refine and_congr_left' ?_
    constructor
    · exact fun hz => .inr (.inr hz)
    · rintro (hz | ⟨hpos, -⟩ | hz)
      · exact absurd hz hcount
      · have hwidth : p.width = 0 := by omega
        exact fun j hj => absurd hj (by omega)
      · exact hz

theorem aligned_start (type : Aggregate) : Aligned type 0 := by
  cases type with
  | array minIndex eltSize => exact dvd_zero _
  | _ => trivial

theorem image_below_iff {items items' : List Item} {size : Nat} (hinc : Increasing 0 items)
    (hinc' : Increasing 0 items') (hend : endOf 0 items ≤ 8 * size) (hend' : endOf 0 items' ≤ 8 * size) :
    (∀ k < 8 * size, image items k = image items' k) ↔ ∀ k, image items k = image items' k := by
  constructor
  · intro heq k
    by_cases hk : k < 8 * size
    · exact heq k hk
    · rw [hinc.image_of_ge (by omega), hinc'.image_of_ge (by omega)]
  · exact fun heq k _ => heq k

mutual

theorem constant_agrees : (c : Constant h) → (size : Nat) → c.WellFormed size →
    Agrees c (8 * size) size
  | .missing, _, _ => by
    refine agrees_of_eq rfl ?_ _
    trivial
  | .integer _ _, _, _ => by
    refine agrees_of_eq rfl ?_ _
    trivial
  | .other _, _, _ => by
    refine agrees_of_eq rfl ?_ _
    trivial
  | .string _, _, _ => by
    refine agrees_of_eq rfl ?_ _
    trivial
  | .complex re im, size, hwf => by
    obtain ⟨hzero, heq⟩ := constant_agrees re (size / 2) hwf.1
    obtain ⟨hzero', heq'⟩ := constant_agrees im (size / 2) hwf.2
    -- the bits of both parts, and padding
    have hparts : ∀ R : Bool → Bool → Prop, R false false →
        ((∀ k < 8 * size, R ((Constant.complex re im).bit false size k)
            ((Constant.complex re im).bit true size k)) ↔
          (∀ k < 8 * (size / 2), R (re.bit false (size / 2) k) (re.bit true (size / 2) k)) ∧
            ∀ k < 8 * (size / 2), R (im.bit false (size / 2) k) (im.bit true (size / 2) k)) := by
      intro R hR
      constructor
      · intro hall
        refine ⟨fun k hk => ?_, fun k hk => ?_⟩
        · have hat := hall k (by omega)
          rwa [Constant.bit, Constant.bit, if_pos hk, if_pos hk] at hat
        · have hat := hall (8 * (size / 2) + k) (by omega)
          have hlow : ¬ 8 * (size / 2) + k < 8 * (size / 2) := by omega
          have hmid : 8 * (size / 2) + k < 8 * (size / 2 * 2) := by omega
          rwa [Constant.bit, Constant.bit, if_neg hlow, if_neg hlow, if_pos hmid, if_pos hmid,
            Nat.add_sub_cancel_left] at hat
      · rintro ⟨hre, him⟩ k hk
        rw [Constant.bit, Constant.bit]
        by_cases hlow : k < 8 * (size / 2)
        · rw [if_pos hlow, if_pos hlow]
          exact hre k hlow
        · by_cases hmid : k < 8 * (size / 2 * 2)
          · rw [if_neg hlow, if_neg hlow, if_pos hmid, if_pos hmid]
            exact him _ (by omega)
          · rw [if_neg hlow, if_neg hlow, if_neg hmid, if_neg hmid]
            exact hR
    constructor
    · rw [hparts (fun x _ => x = false) rfl, hparts (fun _ y => y = false) rfl, hzero, hzero']
    · rw [hparts (· = ·) rfl, heq, heq', Constant.InPlace]
  | .constructor type elts, size, hwf => by
    obtain ⟨helts, hinc, hend⟩ := hwf
    obtain ⟨hinc', hend'⟩ := items_increasing elts helts (le_refl 0) (follows_start type) hinc
    have hempty : ∀ items, Increasing 0 items → endOf 0 items ≤ 8 * size →
        ((∀ k < 8 * size, image items k = false) ↔ ∀ it ∈ items, it.Zero) := by
      intro items hinc hend
      rw [← hinc.image_zero_iff]
      exact @image_below_iff items [] size hinc trivial hend (Nat.zero_le _)
    obtain ⟨hzero, heq⟩ := elements_agree elts helts
    constructor
    · simp only [Constant.bit]
      rw [hempty _ hinc' (hend'.trans hend), hempty _ hinc hend]
      exact hzero 0 0
    · simp only [Constant.bit]
      rw [image_below_iff hinc' hinc (hend'.trans hend) hend]
      exact heq (le_refl 0) (follows_start type) (aligned_start type) hinc

theorem elements_agree : (elts : Elements h) → {type : Aggregate} → {fields : List FieldDecl} →
    elts.WellFormed type fields →
    (∀ next next', (∀ it ∈ elts.items false type fields next', it.Zero) ↔
      ∀ it ∈ elts.items true type fields next, it.Zero) ∧
    ∀ {e e' next next' : Nat}, e' ≤ e → Follows type e' next' → Aligned type next' →
      Increasing e (elts.items true type fields next) →
      ((∀ k, image (elts.items false type fields next') k = image (elts.items true type fields next) k) ↔
        elts.InPlace type fields next')
  | .nil, _, _, _ => by
    refine ⟨fun _ _ => by simp [Elements.items], fun _ _ _ _ => ?_⟩
    simp [Elements.items, Elements.InPlace]
  | .cons purpose typeSize val rest, type, fields, hwf => by
    obtain ⟨hfits, hval, hrest⟩ := hwf
    rw [(place_shape purpose true false 0 0).2.2] at hrest
    have hfields : ∀ byIndex next, (place byIndex type purpose fields next).fields =
        (place false type purpose fields 0).fields :=
      fun byIndex next => (place_shape purpose byIndex false next 0).2.2
    obtain ⟨hzero, heq⟩ := elements_agree rest hrest
    have hagree : ∀ next, Agrees val (place false type purpose fields next).width
        (place false type purpose fields next).bytes := by
      intro next
      by_cases hbit : isBitField type purpose fields = true
      · obtain ⟨hsame, hplace⟩ := bit_of_bitField hfits hbit (place false type purpose fields next).bytes
        exact agrees_of_eq hsame hplace _
      · replace hbit : isBitField type purpose fields = false := by simpa using hbit
        rw [width_eq_bytes hfits hbit]
        have hbytes : (place true type purpose fields 0).bytes =
            (place false type purpose fields next).bytes := by
          rw [Place.bytes, Place.bytes, (place_shape purpose true false 0 next).1]
        exact constant_agrees val _ (hbytes ▸ hval hbit)
    refine ⟨fun next next' => ?_, fun {e e' next next'} hle hfollows hal hinc => ?_⟩
    · rw [items_cons, items_cons, List.forall_mem_append, List.forall_mem_append,
        elementItems_eq purpose val false next' next', elementItems_eq purpose val true next next',
        mem_copies_zero_iff, mem_copies_zero_iff, (hagree next').1, hfields false next',
        hfields true next, hzero (place true type purpose fields next).next]
    · rw [items_cons] at hinc
      obtain ⟨hinc₁, hinc₂⟩ := increasing_append.1 hinc
      obtain ⟨hinc₁', hle', hfollows'⟩ := element_increasing hle hfollows hfits hinc₁
      rw [hfields true next] at hinc₂
      obtain ⟨hinc₂', -⟩ := items_increasing rest hrest hle' hfollows' hinc₂
      rw [items_cons, items_cons, element_agrees hle hfollows hal hfits hinc
        (increasing_append.2 ⟨hinc₁', by rwa [hfields false next']⟩) (hagree next'),
        hfields false next', hfields true next, heq hle' hfollows' hal.next hinc₂,
        Elements.InPlace, hfields false next']

end

end Agreement

section Objects

/-- The memory from an address on holds an image. -/
def Holds (mm : BitMemory.Memory 16) (base : BitVec 16) (bytes : List Byte) : Prop :=
  ∀ k < 8 * bytes.length, BitMemory.bit mm base k = imageBit bytes k

/-- The image has every element at its position and zeros elsewhere, and what is extracted from it
at run time where an element of at most 32 bits is, is the element. -/
structure Initialised (h : Host) (bytes : List Byte) (items : List Item) : Prop where
  value : ∀ it ∈ items, ∀ j < it.width, imageBit bytes (it.pos + j) = it.bit j
  zero : ∀ k, (∀ it ∈ items, ¬ it.Covers k) → imageBit bytes k = false
  read : ∀ it ∈ items, 0 < it.width → it.width ≤ 32 → it.pos + it.width ≤ 8 * bytes.length →
    ∀ (fresh : (m : Mode) → BitVec m.bits) (strMode tmode : Option Mode) (mode : Mode)
      (unsignedp : Bool) (align : Nat) (mm : BitMemory.Memory 16) (base : BitVec 16),
    Holds mm base bytes → (∀ m, strMode = some m → it.pos + it.width ≤ m.bits) →
    it.width ≤ mode.bits → it.width ≤ (tmode.getD mode).bits → 0 < align →
    ∃ e, extractBitField h fresh 4 strMode base it.width it.pos unsignedp mode tmode align = some e ∧
      e.eval mm = Rtx.extend unsignedp e.mode.bits (BitMemory.ofBits it.bit it.width)

theorem initialised_iff {bytes : List Byte} {items : List Item} (hinc : Increasing 0 items) :
    Initialised h bytes items ↔ ∀ k, imageBit bytes k = image items k := by
  rw [hinc.eq_image_iff]
  constructor
  · exact fun hinit => ⟨hinit.value, hinit.zero⟩
  · rintro ⟨hvalue, hzero⟩
    refine ⟨hvalue, hzero, ?_⟩
    intro it hmem hpos hlong hin fresh strMode tmode mode unsignedp align mm base hholds hstr hmode
      htmode halign
    obtain ⟨e, hrun, -, hfield⟩ : ∃ e, extractBitField h fresh 4 strMode base it.width it.pos
        unsignedp mode tmode align = some e ∧ (e.mode = mode ∨ e.mode = tmode.getD mode) ∧
          Field base it.pos it.width unsignedp e :=
      extractBitField_field fresh (le_refl 4) hpos hlong hmode htmode hstr halign unsignedp
    refine ⟨e, hrun, ?_⟩
    have hread := (hfield mm).congr hpos fun i hi => by
      rw [field, hholds _ (by omega), hvalue it hmem i hi]
    exact hread.eval hpos

/-- The output for a constructor with its elements in increasing position is the image of these
elements if and only if no index range follows a gap, or it follows one with zeros only. -/
theorem outputConstructor_initialised_iff (hhost : h.bits % bitsPerWord = 0) (type : Aggregate)
    (elts : Elements h) (size : Nat) (hwf : elts.WellFormed type type.fields)
    (hinc : Increasing 0 (elts.items true type type.fields 0)) :
    (∃ bytes, outputConstructor type elts size = some bytes ∧ size ≤ bytes.length ∧
        Initialised h bytes (elts.items true type type.fields 0)) ↔
      elts.InPlace type type.fields 0 := by
  obtain ⟨hinc', -⟩ := items_increasing elts hwf (le_refl 0) (follows_start type) hinc
  obtain ⟨s', hrun, hs'⟩ := outputElements_at hhost elts hwf State.start_at (behind_start type) hinc'
  obtain ⟨hlength, -, hbits⟩ := hs'.finish size
  have hout : outputConstructor type elts size = some (s'.finish size) := by
    rw [outputConstructor, hrun]
    rfl
  have hagree := (elements_agree elts hwf).2 (le_refl 0) (follows_start type) (aligned_start type) hinc
  simp only [Bool.false_or] at hbits
  rw [← hagree]
  constructor
  · rintro ⟨bytes, hbytes, -, hinit⟩ k
    obtain rfl := Option.some.inj (hout.symm.trans hbytes)
    rw [← hbits k, (initialised_iff hinc).1 hinit k]
  · intro heq
    exact ⟨_, hout, hlength, (initialised_iff hinc).2 fun k => (hbits k).trans (heq k)⟩

/-- A structure with two bit-fields that share a byte, a gap, and an array with an index range. -/
def sampleType : Aggregate :=
  .record [⟨0, 3, true⟩, ⟨3, 7, true⟩, ⟨16, 32, false⟩]

def sampleElements : Elements host32 :=
  .cons none 2 (.integer 5 0) <| .cons none 2 (.integer 0x55 0) <|
    .cons none 4 (.constructor (.array 0 1)
      (.cons (some (.index 0)) 1 (.integer 1 0) (.cons (some (.range 1 3)) 1 (.integer 7 0) .nil))) .nil

theorem outputConstructor_sample : ∃ bytes, outputConstructor sampleType sampleElements 6 = some bytes ∧
    6 ≤ bytes.length ∧
      Initialised host32 bytes (sampleElements.items true sampleType sampleType.fields 0) := by
  have hbyte : ∀ v : BitVec 32, (Constant.integer v 0 : Constant host32).WellFormed 1 :=
    fun _ _ => ⟨.qi, rfl, by decide⟩
  have harray : (Constant.constructor (.array 0 1)
      (.cons (some (.index 0)) 1 (.integer 1 0) (.cons (some (.range 1 3)) 1 (.integer 7 0) .nil)) :
        Constant host32).WellFormed 4 := by
    refine ⟨⟨⟨by decide, rfl, nofun⟩, fun _ => hbyte 1, ⟨show (0 : Int) ≤ 1 by decide, fun _ => hbyte 7,
      trivial⟩⟩, ?_, by decide⟩
    exact ⟨by decide, by decide, by decide, by decide, trivial⟩
  refine (outputConstructor_initialised_iff rfl sampleType sampleElements 6 ?_ ?_).2 ?_
  · exact ⟨⟨by decide, by decide, rfl⟩, nofun, ⟨by decide, by decide, rfl⟩, nofun,
      ⟨rfl, rfl⟩, fun _ => harray, trivial⟩
  · exact ⟨by decide, by decide, by decide, trivial⟩
  · refine ⟨.inr (.inl ⟨rfl, trivial⟩), .inr (.inl ⟨rfl, trivial⟩), .inr (.inl ⟨rfl, ?_⟩), trivial⟩
    exact ⟨.inr (.inl ⟨rfl, trivial⟩), .inr (.inl ⟨rfl, trivial⟩), trivial⟩

def gapElements : Elements host32 := .cons (some (.range 2 3)) 1 (.integer 7 0) .nil

/-- The elements of the range are output in the gap. -/
theorem range_after_gap_misplaced :
    (Constant.constructor (.array 0 1) gapElements).WellFormed 5 ∧
      outputConstructor (.array 0 1) gapElements 5 = some [7, 7, 0, 0, 0] ∧
      ¬ ∃ bytes, outputConstructor (.array 0 1) gapElements 5 = some bytes ∧ 5 ≤ bytes.length ∧
        Initialised host32 bytes (gapElements.items true (.array 0 1) [] 0) := by
  refine ⟨⟨⟨show (0 : Int) ≤ 2 by decide, fun _ _ => ⟨.qi, rfl, by decide⟩, trivial⟩,
    ⟨by decide, by decide, trivial⟩, by decide⟩, rfl, ?_⟩
  rintro ⟨bytes, hbytes, -, hinit⟩
  obtain rfl : [7, 7, 0, 0, 0] = bytes := Option.some.inj hbytes
  have hvalue := hinit.value ⟨16, 8, (Constant.integer (h := host32) 7 0).bit true 1⟩
    (List.mem_cons_self ..) 0 (by decide)
  exact absurd hvalue (by decide)

end Objects

end Z80Gcc.Initializer
