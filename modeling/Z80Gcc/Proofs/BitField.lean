import Z80Gcc.Proofs.BitStore

/-! Reading a bit-field after a store, to it or to another field of the structure. -/

namespace Z80Gcc.BitField

open Z80Gcc.BitMemory

variable {h : Host}

/-- A field of at most 32 bits that lies in the structure, and in memory. -/
structure Placed (strMode : Option Mode) (bitnum bitsize : Nat) : Prop where
  pos : 0 < bitsize
  long : bitsize ≤ 32
  mem : bitnum + bitsize ≤ 8 * 2 ^ 16
  str : ∀ m, strMode = some m → bitnum + bitsize ≤ m.bits

/-- A value for a field: not narrower, in the mode of the field where that is a whole mode, and not
read from the bits that are stored to. -/
structure Storable (value : Value h) (base : BitVec 16) (bitnum bitsize : Nat)
    (fieldmode : Option Mode) : Prop where
  wide : value.Wide bitsize
  mode : ∀ m, fieldmode = some m → bitsize = m.bits → value.mode = none ∨ value.mode = some m
  apart : value.Apart base bitnum bitsize

theorem Storable.const (v : BitVec h.bits) (base : BitVec 16) (bitnum bitsize : Nat)
    (fieldmode : Option Mode) : Storable (.constInt v) base bitnum bitsize fieldmode :=
  ⟨fun _ hm => (Option.some_ne_none _ hm.symm).elim, fun _ _ _ => .inl rfl, fun _ _ _ _ _ => rfl⟩

theorem getLsbD_extend (unsignedp : Bool) {w : Nat} (w' : Nat) (x : BitVec w) {i : Nat}
    (hi : i < w') : (Rtx.extend unsignedp w' x).getLsbD i =
      if i < w then x.getLsbD i else !unsignedp && x.getLsbD (w - 1) := by
  cases unsignedp
  · rw [Rtx.extend, if_neg Bool.false_ne_true, BitVec.getLsbD_signExtend, decide_eq_true hi,
      Bool.true_and, BitVec.msb_eq_getLsbD_last]
    rfl
  · rw [Rtx.extend, if_pos rfl, BitVec.getLsbD_setWidth, decide_eq_true hi, Bool.true_and]
    split
    · rfl
    · next hge => exact BitVec.getLsbD_of_ge _ _ (not_lt.1 hge)

theorem Reads.eval {mm : Memory 16} {f : Nat → Bool} {width : Nat} {unsignedp : Bool} {e : Rtx}
    (hr : Reads mm f width unsignedp e) (hwidth : 0 < width) :
    e.eval mm = Rtx.extend unsignedp e.mode.bits (ofBits f width) := by
  refine BitVec.eq_of_getLsbD_eq fun i hi => ?_
  have hbit : (e.eval mm).getLsbD i = _ := hr.bit i hi
  rw [hbit, getLsbD_extend unsignedp _ _ hi, getLsbD_ofBits, getLsbD_ofBits,
    decide_eq_true (show width - 1 < width by omega), Bool.true_and]
  split
  · next hlt => rw [decide_eq_true hlt, Bool.true_and]
  · rfl

section Stored

variable {base : BitVec 16} {bitnum bitsize : Nat} {value : Value h} {code : List Store}

theorem Stores.field_same (hs : Stores base bitnum bitsize value.bit code)
    (hmem : bitnum + bitsize ≤ 8 * 2 ^ 16) (mm : Memory 16) {i : Nat} (hi : i < bitsize) :
    field (run code mm) base bitnum i = value.bit mm i := by
  rw [field, hs mm (bitnum + i) (by omega), if_pos (by omega), Nat.add_sub_cancel_left]

theorem Stores.field_other (hs : Stores base bitnum bitsize value.bit code) {bitnum' bitsize' : Nat}
    (hmem : bitnum' + bitsize' ≤ 8 * 2 ^ 16)
    (hdisjoint : bitnum' + bitsize' ≤ bitnum ∨ bitnum + bitsize ≤ bitnum') (mm : Memory 16) {i : Nat}
    (hi : i < bitsize') : field (run code mm) base bitnum' i = field mm base bitnum' i := by
  rw [field, hs mm (bitnum' + i) (by omega), if_neg (by omega), field]

end Stored

/-- A store of a field replaces the bits of the field by the low bits of the value and leaves all
other bits of memory alone; what is extracted is the field in memory, extended: after the store
the value reduced to the width, and for a field that is disjoint what it was before. -/
theorem store_then_extract (fresh : (m : Mode) → BitVec m.bits) {fuel : Nat} (hfuel : 5 ≤ fuel)
    {strMode fieldmode : Option Mode} {base : BitVec 16} {bitsize bitnum : Nat} {value : Value h}
    (hplaced : Placed strMode bitnum bitsize)
    (hvalue : Storable value base bitnum bitsize fieldmode) :
    ∃ code, storeBitField fuel strMode base bitsize bitnum fieldmode value = some code ∧
      (∀ mm, ∀ k < 8 * 2 ^ 16, BitMemory.bit (run code mm) base k =
        if bitnum ≤ k ∧ k < bitnum + bitsize then value.bit mm (k - bitnum)
        else BitMemory.bit mm base k) ∧
      ∀ (bitnum' bitsize' : Nat), Placed strMode bitnum' bitsize' →
        ∀ (unsignedp : Bool) (mode : Mode) (tmode : Option Mode) (align : Nat),
        bitsize' ≤ mode.bits → bitsize' ≤ (tmode.getD mode).bits → 0 < align →
        ∃ e, extractBitField h fresh fuel strMode base bitsize' bitnum' unsignedp mode tmode align =
            some e ∧ (e.mode = mode ∨ e.mode = tmode.getD mode) ∧
          (∀ mm, e.eval mm =
            Rtx.extend unsignedp e.mode.bits (ofBits (field mm base bitnum') bitsize')) ∧
          (bitnum' = bitnum → bitsize' = bitsize → ∀ mm, e.eval (run code mm) =
            Rtx.extend unsignedp e.mode.bits (ofBits (value.bit mm) bitsize)) ∧
          (bitnum' + bitsize' ≤ bitnum ∨ bitnum + bitsize ≤ bitnum' →
            ∀ mm, e.eval (run code mm) = e.eval mm) := by
  obtain ⟨code, hrun, hs⟩ := storeBitField_stores hfuel hplaced.pos hplaced.long hvalue.wide
    hplaced.mem hplaced.str hvalue.mode hvalue.apart
  refine ⟨code, hrun, hs, ?_⟩
  intro bitnum' bitsize' hplaced' unsignedp mode tmode align hmode htmode halign
  obtain ⟨e, hextract, hemode, hfield⟩ :
      ∃ e, extractBitField _ fresh fuel strMode base bitsize' bitnum' unsignedp mode tmode align =
        some e ∧ _ ∧ _ :=
    extractBitField_field fresh (by omega : 4 ≤ fuel) hplaced'.pos hplaced'.long hmode htmode
      hplaced'.str halign unsignedp
  refine ⟨e, hextract, hemode, fun mm => (hfield mm).eval hplaced'.pos, ?_, ?_⟩
  · rintro rfl rfl mm
    have hread := (hfield (run code mm)).congr hplaced.pos fun i hi =>
      hs.field_same hplaced.mem mm hi
    exact hread.eval hplaced.pos
  · intro hdisjoint mm
    have hread := (hfield (run code mm)).congr hplaced'.pos fun i hi =>
      hs.field_other hplaced'.mem hdisjoint mm hi
    rw [hread.eval hplaced'.pos, (hfield mm).eval hplaced'.pos]

/-- The five bits from the seventh bit of a structure on straddle two bytes: 21 is read back as the
signed value -11, and the six bits below the field are kept. -/
theorem store_then_extract_straddling :
    ∃ code e, storeBitField 5 none 0x8000#16 5 6 none (.constInt 21 : Value host32) = some code ∧
      extractBitField host32 (fun _ => 0) 5 none 0x8000#16 5 6 false .hi none 1 = some e ∧
      ∀ mm, (e.eval (run code mm)).toInt = -11 ∧
        ∀ k < 6, BitMemory.bit (run code mm) 0x8000#16 k = BitMemory.bit mm 0x8000#16 k := by
  have hplaced : Placed none 6 5 := ⟨by decide, by decide, by decide, fun _ hm => by cases hm⟩
  obtain ⟨code, hrun, hbits, hread⟩ := store_then_extract (fun _ => 0) (le_refl 5) hplaced
    (Storable.const (21 : BitVec host32.bits) 0x8000#16 6 5 none)
  obtain ⟨e, hextract, hemode, -, hsame, -⟩ :=
    hread 6 5 hplaced false .hi none 1 (by decide) (by decide) (by decide)
  refine ⟨code, e, hrun, hextract, fun mm => ⟨?_, fun k hk => ?_⟩⟩
  · have hmode : e.mode = .hi := hemode.elim id id
    rw [hsame rfl rfl mm, hmode]
    change (Rtx.extend false 16 (ofBits (21#32).getLsbD 5)).toInt = -11
    decide
  · rw [hbits mm k (by omega), if_neg (by omega)]

end Z80Gcc.BitField
