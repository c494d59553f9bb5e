import Mathlib
import Z80Gcc.Proofs.BitExtract

/-! The code of `store_bit_field` writes the bits of the field and no other bit of memory. -/

namespace Z80Gcc.BitField

open Z80Gcc.BitMemory

variable {h : Host}

section Values

/-- Bit `i` of a value that is stored; a constant is at least as long as any field. -/
def Value.bit (mm : Memory 16) : Value h → Nat → Bool
  | constInt v, i => v.getLsbD i
  | constDouble low _, i => low.getLsbD i
  | rtx e, i => e.bit mm i

/-- The value is at least as wide as the field. -/
def Value.Wide (value : Value h) (bitsize : Nat) : Prop :=
  ∀ m, value.mode = some m → bitsize ≤ m.bits

theorem bit_const_low {mm : Memory 16} (m : Mode) {w : Nat} (low high : BitVec w) {i : Nat}
    (hi : i < m.bits) (hw : i < w) : (Rtx.const m low high).bit mm i = low.getLsbD i := by
  rw [Rtx.bit_const, BitVec.getLsbD_signExtend, decide_eq_true hi, if_pos (by omega),
    BitVec.getLsbD_append, if_pos hw, Bool.true_and]

theorem bit_inMode {mm : Memory 16} {value : Value h} {m : Mode} {i : Nat} (hi : i < m.bits)
    (hhost : i < h.bits) : (value.inMode m).bit mm i =
      if i < value.mode.elim h.bits Mode.bits then value.bit mm i else false := by
  cases value with
  | constInt v => exact (bit_const_low m _ _ hi hhost).trans (if_pos hhost).symm
  | constDouble low high => exact (bit_const_low m _ _ hi hhost).trans (if_pos hhost).symm
  | rtx e =>
    rw [Value.inMode, Rtx.bit_convert, decide_eq_true hi, Bool.true_and]
    rfl

theorem getLsbD_lowOnes {w n : Nat} (hn : n < w) (i : Nat) :
    (1#w <<< n - 1).getLsbD i = decide (i < n) := by
  have hpow : 2 ^ n < 2 ^ w := Nat.pow_lt_pow_right (by decide) hn
  have hone : 1 < 2 ^ w := Nat.one_lt_two_pow (by omega)
  have hnat : (1#w <<< n - 1).toNat = 2 ^ n - 1 := by
    rw [BitVec.toNat_sub, BitVec.toNat_shiftLeft, BitVec.toNat_ofNat, Nat.mod_eq_of_lt hone,
      Nat.one_shiftLeft, Nat.mod_eq_of_lt hpow]
    have hle := Nat.one_le_two_pow (n := n)
    rw [show BitVec.toNat (1 : BitVec w) = 1 from Nat.mod_eq_of_lt hone,
      show 2 ^ w - 1 + 2 ^ n = 2 ^ w + (2 ^ n - 1) by omega, Nat.add_mod_left,
      Nat.mod_eq_of_lt (by omega)]
  rw [BitVec.getLsbD, hnat, Nat.testBit_two_pow_sub_one]

theorem bit_lshiftValue {mm : Memory 16} {m : Mode} (v : BitVec h.bits) {bitpos bitsize i : Nat}
    (hi : i < m.bits) (hm : m.bits ≤ h.bits) (hpos : bitpos < m.bits) (hsize : bitsize ≤ m.bits) :
    (lshiftValue m v bitpos bitsize).bit mm i =
      if bitpos ≤ i ∧ i < bitpos + bitsize then v.getLsbD (i - bitpos) else false := by
  rw [lshiftValue, if_pos (by omega), bit_const_low m _ _ hi (by omega), BitVec.getLsbD_shiftLeft,
    decide_eq_true (show i < h.bits by omega), Bool.true_and]
  by_cases hlow : i < bitpos
  · simp [hlow, show ¬ bitpos ≤ i by omega]
  · have hmasked : (if bitsize < h.bits then v &&& ~~~(BitVec.allOnes h.bits <<< bitsize)
        else v).getLsbD (i - bitpos) = (decide (i < bitpos + bitsize) && v.getLsbD (i - bitpos)) := by
      split
      · rw [BitVec.getLsbD_and, BitVec.getLsbD_not, BitVec.getLsbD_shiftLeft, BitVec.getLsbD_allOnes]
        by_cases hin : i < bitpos + bitsize
        · simp [hin, show i - bitpos < h.bits by omega, show i - bitpos < bitsize by omega]
        · simp [hin, show i - bitpos < h.bits by omega, show ¬ i - bitpos < bitsize by omega]
          omega
      · simp [show i < bitpos + bitsize by omega]
    rw [hmasked]
    by_cases hin : i < bitpos + bitsize <;> simp [hlow, hin, not_lt.1 hlow]

theorem placeValue_bit (mm : Memory 16) {m : Mode} (hm : m.bits = 8 ∨ m.bits = 16)
    {bitsize bitpos : Nat} (hsize : 0 < bitsize) (hfits : bitpos + bitsize ≤ m.bits)
    {value : Value h} (hwide : value.Wide bitsize) {i : Nat} (hi : i < m.bits) :
    (placeValue m bitsize bitpos value).1.bit mm i =
      if bitpos ≤ i ∧ i < bitpos + bitsize then value.bit mm (i - bitpos) else false := by
  have hhost := h.wide
  have hrest : ∀ e : Rtx, (∀ j < m.bits, e.bit mm j =
      if j < value.mode.elim h.bits Mode.bits then value.bit mm j else false) →
      ∀ hand : Bool, hand = decide (value.mode.elim 0 Mode.bits ≠ bitsize ∧
        bitpos + bitsize ≠ m.bits) → ∀ e₁, e₁ = (if hand then
        Rtx.and m e (maskRtx h m 0 bitsize false) else e) →
      (if 0 < bitpos then Rtx.lshift m e₁ bitpos else e₁).bit mm i =
        if bitpos ≤ i ∧ i < bitpos + bitsize then value.bit mm (i - bitpos) else false := by
    intro e he hand hhand e₁ he₁
    -- the bits above the field are clear, or they are shifted out
    have hbit₁ : ∀ j < m.bits, j + bitpos < m.bits → e₁.bit mm j =
        if j < bitsize then value.bit mm j else false := by
      intro j hj hin
      have hwidth : j < bitsize → j < value.mode.elim h.bits Mode.bits := by
        intro hlt
        cases hmode : value.mode with
        | none => simp only [Option.elim_none]; omega
        | some m' => exact lt_of_lt_of_le hlt (hwide m' hmode)
      rw [he₁]
      split
      · rw [Rtx.bit_and, decide_eq_true hj, Bool.true_and, he j hj,
          bit_maskRtx m hsize (by omega) false hj]
        by_cases hlt : j < bitsize
        · simp [hlt, hwidth hlt]
        · simp [hlt]
      · next hno =>
        rw [hhand, decide_eq_true_eq, not_and_or, not_not, not_not] at hno
        rw [he j hj]
        by_cases hlt : j < bitsize
        · rw [if_pos hlt, if_pos (hwidth hlt)]
        · rw [if_neg hlt, if_neg]
          obtain heq | heq := hno
          · cases hmode : value.mode with
            | none =>
              rw [hmode] at heq
              exact absurd heq.symm hsize.ne'
            | some m' =>
              rw [hmode] at heq
              simp only [Option.elim_some] at heq ⊢
              omega
          · omega
    split
    · rw [Rtx.bit_lshift, decide_eq_true hi, Bool.true_and]
      by_cases hlow : bitpos ≤ i
      · rw [decide_eq_true hlow, Bool.true_and, hbit₁ _ (by omega) (by omega)]
        by_cases hin : i < bitpos + bitsize
        · rw [if_pos (by omega), if_pos ⟨hlow, hin⟩]
        · rw [if_neg (by omega), if_neg (by omega)]
      · rw [decide_eq_false hlow, if_neg (by omega), Bool.false_and]
    · obtain rfl : bitpos = 0 := by omega
      rw [hbit₁ i hi (by omega)]
      simp
  cases value with
  | constInt v =>
    exact bit_lshiftValue v hi (by omega) (by omega) (by omega)
  | constDouble low high =>
    exact hrest _ (fun j hj => bit_inMode hj (by omega)) _ rfl _ (by simp)
  | rtx e =>
    exact hrest _ (fun j hj => bit_inMode hj (by omega)) _ rfl _ (by simp)

/-- A value that is found to be all zeros or all ones is so over the field. -/
theorem placeValue_flags (mm : Memory 16) (m : Mode) (bitpos : Nat) {bitsize : Nat}
    (hlong : bitsize ≤ h.bits) (value : Value h) {i : Nat} (hi : i < bitsize) :
    ((placeValue m bitsize bitpos value).2.1 = true → value.bit mm i = false) ∧
      ((placeValue m bitsize bitpos value).2.2 = true → value.bit mm i = true) := by
  cases value with
  | constInt v =>
    have hlow : (if bitsize < h.bits then v &&& (1#h.bits <<< bitsize - 1) else v).getLsbD i =
        v.getLsbD i := by
      split
      · next hlt => rw [BitVec.getLsbD_and, getLsbD_lowOnes hlt, decide_eq_true hi, Bool.and_true]
      · rfl
    simp only [placeValue, decide_eq_true_eq, Value.bit]
    constructor
    · intro hzero
      rw [← hlow, hzero]
      simp
    · rintro (⟨hlt, hones⟩ | ⟨-, hones⟩)
      · rw [← hlow, hones, getLsbD_lowOnes hlt, decide_eq_true hi]
      · rw [← hlow, hones, BitVec.getLsbD_allOnes, decide_eq_true (by omega)]
  | constDouble low high => simp [placeValue]
  | rtx e => simp [placeValue]

/-- The word that is written back: the old one with the value in the place of the field. -/
theorem storeInto_bit {mm : Memory 16} {m : Mode} (hm : m.bits = 8 ∨ m.bits = 16)
    (addr : BitVec 16) {bitsize bitpos : Nat} (hsize : 0 < bitsize)
    (hfits : bitpos + bitsize ≤ m.bits) {value : Value h} (hwide : value.Wide bitsize) {i : Nat}
    (hi : i < m.bits) :
    (storeInto m addr bitsize bitpos value).src.bit mm i =
      if bitpos ≤ i ∧ i < bitpos + bitsize then value.bit mm (i - bitpos)
      else BitMemory.bit mm addr i := by
  have hhost := h.wide
  have hplace := placeValue_bit mm hm hsize hfits hwide hi
  have hflags : bitpos ≤ i ∧ i < bitpos + bitsize → _ := fun hin =>
    placeValue_flags mm m bitpos (show bitsize ≤ h.bits by omega) value
      (show i - bitpos < bitsize by omega)
  rcases hval : placeValue m bitsize bitpos value with ⟨e, allZero, allOne⟩
  rw [hval] at hplace hflags
  have hmem : (Rtx.mem m addr).bit mm i = BitMemory.bit mm addr i := by
    rw [Rtx.bit_mem, decide_eq_true hi, Bool.true_and]
  have htemp : (if allOne then Rtx.mem m addr else .and m (.mem m addr)
      (maskRtx h m bitpos bitsize true)).bit mm i =
        (BitMemory.bit mm addr i && (allOne || !decide (bitpos ≤ i ∧ i < bitpos + bitsize))) := by
    cases allOne
    · rw [if_neg Bool.false_ne_true, Rtx.bit_and, decide_eq_true hi, hmem,
        bit_maskRtx m hsize (by omega) true hi]
      simp
    · rw [if_pos rfl, hmem]
      simp
  simp only [storeInto, hval]
  by_cases hin : bitpos ≤ i ∧ i < bitpos + bitsize
  · obtain ⟨hzero, hone⟩ := hflags hin
    rw [if_pos hin] at hplace ⊢
    cases allZero
    · rw [if_neg Bool.false_ne_true, Rtx.bit_ior, decide_eq_true hi, htemp, hplace,
        decide_eq_true hin]
      cases allOne
      · simp
      · rw [hone rfl]
        simp
    · rw [if_pos rfl, htemp, decide_eq_true hin, hzero rfl]
      cases allOne
      · simp
      · have habs := (hone rfl).symm.trans (hzero rfl)
        cases habs
  · rw [if_neg hin] at hplace ⊢
    cases allZero
    · rw [if_neg Bool.false_ne_true, Rtx.bit_ior, decide_eq_true hi, htemp, hplace,
        decide_eq_false hin]
      simp
    · rw [if_pos rfl, htemp, decide_eq_false hin]
      simp

end Values

section Code

/-- The code writes `g` to the field and nothing anywhere else in memory. -/
def Stores (base : BitVec 16) (bitnum bitsize : Nat) (g : Memory 16 → Nat → Bool)
    (code : List Store) : Prop :=
  ∀ mm, ∀ k < 8 * 2 ^ 16, BitMemory.bit (run code mm) base k =
    if bitnum ≤ k ∧ k < bitnum + bitsize then g mm (k - bitnum) else BitMemory.bit mm base k

/-- A value that storing to the field does not change. -/
def Value.Apart (value : Value h) (base : BitVec 16) (bitnum bitsize : Nat) : Prop :=
  ∀ mm mm' : Memory 16, (∀ k < 8 * 2 ^ 16, ¬ (bitnum ≤ k ∧ k < bitnum + bitsize) →
    BitMemory.bit mm' base k = BitMemory.bit mm base k) →
      ∀ i < bitsize, value.bit mm' i = value.bit mm i

theorem run_append (code₁ code₂ : List Store) (mm : Memory 16) :
    run (code₁ ++ code₂) mm = run code₂ (run code₁ mm) := List.foldl_append ..

theorem stores_unit {base : BitVec 16} {m : Mode} {offset bitnum bitsize : Nat}
    {g : Memory 16 → Nat → Bool} {src : Rtx} (hoffset : offset + m.size ≤ 2 ^ 16)
    (hlow : 8 * offset ≤ bitnum) (hhigh : bitnum + bitsize ≤ 8 * offset + m.bits)
    (hbit : ∀ mm, ∀ i < m.bits, src.bit mm i =
      if bitnum ≤ 8 * offset + i ∧ 8 * offset + i < bitnum + bitsize then
        g mm (8 * offset + i - bitnum) else BitMemory.bit mm base (8 * offset + i)) :
    Stores base bitnum bitsize g [⟨m, offsetBy base offset, src⟩] := by
  intro mm k hk
  have hbytes : m.bits / 8 = m.size := by simp [Mode.bits]
  have hmod : m.bits % 8 = 0 := by simp [Mode.bits]
  show BitMemory.bit (write mm (offsetBy base offset) ((src.eval mm).setWidth m.bits)) base k = _
  rw [bit_write mm base offset k _ hmod (by rwa [hbytes]) hk]
  split
  · next hin =>
    have hsrc := hbit mm (k - 8 * offset) (by omega)
    rw [Nat.add_sub_cancel' hin.1] at hsrc
    rw [BitVec.getLsbD_setWidth, decide_eq_true (show k - 8 * offset < m.bits by omega),
      Bool.true_and]
    exact hsrc
  · next hout => rw [if_neg (by omega)]

theorem storeFixed_fits (fuel : Nat) {m : Mode} {base : BitVec 16} {offset bitsize bitpos : Nat}
    {value : Value h} (hsize : 0 < bitsize) (hwide : value.Wide bitsize)
    (hpos : bitpos < 8 ∨ offset % 2 = 0 ∧ bitpos < 16)
    (hmem : 8 * offset + bitpos + bitsize ≤ 8 * 2 ^ 16)
    (hbest : getBestMode bitsize (bitpos + offset * 8) 8 wordMode = some m) :
    ∃ code, storeFixedBitField (fuel + 1) base offset bitsize bitpos value = some code ∧
      Stores base (8 * offset + bitpos) bitsize value.bit code := by
  obtain ⟨hbits, hfits⟩ := getBestMode_some hbest
  obtain ⟨bitpos', offset', hnorm, hsum, hbitpos', hoffset'⟩ := renormalise_spec hbits hpos
  have hle : bitpos' + bitsize ≤ m.bits := hbitpos' ▸ hfits
  refine ⟨[storeInto m (offsetBy base offset') bitsize bitpos' value], ?_, ?_⟩
  · have hbest' : getBestMode bitsize (bitpos + offset * 8) (biggestAlignment / 8 * 8) wordMode =
        some m := hbest
    simp only [storeFixedBitField, hbest', hnorm]
  · have hbound : offset' + m.size ≤ 2 ^ 16 := by
      have hsize' : m.size = m.bits / 8 := by simp [Mode.bits]
      rw [hsize']
      obtain hb | hb := hbits <;> rw [hb] at hle hoffset' ⊢ <;> omega
    refine stores_unit hbound (by omega) (by omega) fun mm i hi => ?_
    refine (storeInto_bit hbits _ hsize hle hwide hi).trans ?_
    rw [bit_offsetBy]
    by_cases hin : bitpos' ≤ i ∧ i < bitpos' + bitsize
    · rw [if_pos hin, if_pos (by omega), show 8 * offset' + i - (8 * offset + bitpos) = i - bitpos' by
        omega]
    · rw [if_neg hin, if_neg (by omega)]

/-- What a split store takes of a value: its bits from `bitsdone` on. -/
theorem Value.part_bit {fuel : Nat} {value : Value h} {bitsize bitsdone thissize : Nat}
    (hwide : value.Wide bitsize) (hword : bitsize ≤ 16) (hsize : 0 < thissize)
    (hfits : bitsdone + thissize ≤ bitsize) :
    ∃ part, value.lowWord.part (fuel + 2) bitsdone thissize = some part ∧ part.Wide thissize ∧
      ∀ mm, ∀ i < thissize, part.bit mm i = value.bit mm (bitsdone + i) := by
  have hhost := h.wide
  have hconst : ∀ v : BitVec h.bits, ∀ i < thissize,
      (v >>> bitsdone &&& (1#h.bits <<< thissize - 1)).getLsbD i = v.getLsbD (bitsdone + i) := by
    intro v i hi
    rw [BitVec.getLsbD_and, BitVec.getLsbD_ushiftRight, getLsbD_lowOnes (by omega),
      decide_eq_true hi, Bool.and_true]
  cases value with
  | constInt v =>
    refine ⟨_, rfl, fun _ hm => ?_, fun mm i hi => hconst v i hi⟩
    cases hm
  | constDouble low high =>
    refine ⟨_, rfl, fun _ hm => ?_, fun mm i hi => ?_⟩
    · cases hm
    refine (hconst _ i hi).trans ?_
    rw [BitVec.getLsbD_sshiftRight, BitVec.getLsbD_shiftLeft]
    simp only [bitsPerWord, Value.bit]
    rw [if_pos (by omega), show h.bits - 16 + (bitsdone + i) - (h.bits - 16) = bitsdone + i by omega]
    simp [show ¬ h.bits ≤ bitsdone + i by omega, show h.bits - 16 + (bitsdone + i) < h.bits by omega]
  | rtx e =>
    have he : bitsize ≤ e.mode.bits := hwide e.mode rfl
    have hreg : ∀ align, ∃ e', extractFixedBitField h (fuel + 2) wordMode (.reg e) 0 thissize
        bitsdone true align = some e' ∧ e'.mode = wordMode ∧
          ∀ mm, Reads mm (fun i => e.bit mm (bitsdone + i)) thissize true e' := by
      intro align
      have hread : ∀ mm, Reads mm (fun i => e.bit mm (bitsdone + i)) thissize true
          (extractFrom h wordMode e thissize bitsdone true) ∧
            (extractFrom h wordMode e thissize bitsdone true).mode = wordMode := fun mm =>
        extractFrom_unsigned hsize (by omega) (by omega) (by rw [bits_wordMode]; omega)
      refine ⟨_, ?_, (hread fun _ => 0).2, fun mm => (hread mm).1⟩
      rw [extractFixedBitField]
      simp only [bitsPerWord]
      rw [if_neg (by omega)]
    have hmem : ∀ addr, ∃ e', extractFixedBitField h (fuel + 2) wordMode (.mem addr) 0 thissize
        bitsdone true (modeAlignment e.mode / 8) = some e' ∧
          Field addr bitsdone thissize true e' := by
      intro addr
      have halign : 0 < modeAlignment e.mode / 8 := by cases e.mode <;> decide
      obtain ⟨e', hrun, hread⟩ := extractFixedBitField_field (h := h) addr 0 bitsdone
        (show 2 ≤ fuel + 2 by omega) hsize (by omega) (show _ ≤ wordMode.bits by
          rw [bits_wordMode]; omega) (.inr ⟨rfl, by omega⟩) halign true
      rw [Nat.mul_zero, Nat.zero_add] at hread
      exact ⟨e', hrun, hread⟩
    have hwhole : ∀ e' : Rtx, (∀ mm, ∃ f, Reads mm f thissize true e') →
        (Value.rtx e' : Value h).Wide thissize := by
      intro e' hread m hm
      obtain ⟨f, hf⟩ := hread fun _ => 0
      exact (Option.some.inj hm) ▸ hf.wide
    by_cases hcode : ∃ m addr, e = .mem m addr
    · obtain ⟨m, addr, rfl⟩ := hcode
      obtain ⟨e', hrun, hread⟩ := hmem addr
      refine ⟨.rtx e', ?_, hwhole e' fun mm => ⟨_, hread mm⟩, fun mm i hi => ?_⟩
      · simp only [Value.lowWord, Value.part]
        rw [show modeAlignment m = modeAlignment (Rtx.mem m addr).mode from rfl, hrun]
        rfl
      · have hwide' := (hread mm).wide
        show e'.bit mm i = (Rtx.mem m addr).bit mm (bitsdone + i)
        rw [(hread mm).bit i (by omega), if_pos hi, Rtx.bit_mem, field,
          decide_eq_true (show bitsdone + i < m.bits from lt_of_lt_of_le (by omega) he),
          Bool.true_and]
    · obtain ⟨e', hrun, -, hread⟩ := hreg (modeAlignment e.mode / 8)
      refine ⟨.rtx e', ?_, hwhole e' fun mm => ⟨_, hread mm⟩, fun mm i hi => ?_⟩
      · cases e <;> first | exact absurd ⟨_, _, rfl⟩ hcode | (simp only [Value.lowWord, Value.part]; rw [hrun]; rfl)
      · have hwide' := (hread mm).wide
        show e'.bit mm i = e.bit mm (bitsdone + i)
        rw [(hread mm).bit i (by omega), if_pos hi]

/-- Code for the first bits of a field, followed by code for the rest. -/
theorem Stores.append {base : BitVec 16} {bitnum n₁ n₂ : Nat} {g : Memory 16 → Nat → Bool}
    {code₁ code₂ : List Store} (h₁ : Stores base bitnum n₁ g code₁)
    (h₂ : Stores base (bitnum + n₁) n₂ (fun mm i => g mm (n₁ + i)) code₂)
    (hapart : ∀ mm mm' : Memory 16, (∀ k < 8 * 2 ^ 16, ¬ (bitnum ≤ k ∧ k < bitnum + (n₁ + n₂)) →
      BitMemory.bit mm' base k = BitMemory.bit mm base k) →
        ∀ i < n₁ + n₂, g mm' i = g mm i) :
    Stores base bitnum (n₁ + n₂) g (code₁ ++ code₂) := by
  intro mm k hk
  rw [run_append, h₂ (run code₁ mm) k hk]
  by_cases hin₂ : bitnum + n₁ ≤ k ∧ k < bitnum + n₁ + n₂
  · rw [if_pos hin₂, if_pos (by omega)]
    simp only
    rw [show n₁ + (k - (bitnum + n₁)) = k - bitnum by omega]
    refine hapart mm (run code₁ mm) (fun k' hk' hout => ?_) _ (by omega)
    rw [h₁ mm k' hk', if_neg (by omega)]
  · rw [if_neg hin₂, h₁ mm k hk]
    by_cases hin₁ : bitnum ≤ k ∧ k < bitnum + n₁
    · rw [if_pos hin₁, if_pos (by omega)]
    · rw [if_neg hin₁, if_neg (by omega)]

theorem stores_nil {base : BitVec 16} {bitnum : Nat} {g : Memory 16 → Nat → Bool} :
    Stores base bitnum 0 g [] := fun mm k _ => by
  rw [if_neg (by omega)]
  rfl

theorem Stores.congr {base : BitVec 16} {bitnum n : Nat} {g g' : Memory 16 → Nat → Bool}
    {code : List Store} (hs : Stores base bitnum n g code) (heq : ∀ mm, ∀ i < n, g mm i = g' mm i) :
    Stores base bitnum n g' code := by
  intro mm k hk
  rw [hs mm k hk]
  split
  · exact heq mm _ (by omega)
  · rfl

theorem storeParts_stores (fixed : Nat → Nat → Nat → Value h → Option (List Store))
    (part : Nat → Nat → Option (Value h)) {base : BitVec 16} {value : Value h} {bitsize bitpos : Nat}
    (hapart : value.Apart base bitpos bitsize)
    (hpart : ∀ bitsdone thissize, 0 < thissize → bitsdone + thissize ≤ bitsize →
      ∃ v, part bitsdone thissize = some v ∧ v.Wide thissize ∧
        ∀ mm, ∀ i < thissize, v.bit mm i = value.bit mm (bitsdone + i))
    (hfixed : ∀ offset size pos v, 0 < size → pos + size ≤ 8 →
      8 * offset + pos + size ≤ bitpos + bitsize → v.Wide size →
        ∃ code, fixed offset size pos v = some code ∧
          Stores base (8 * offset + pos) size v.bit code)
    (fuel : Nat) {bitsdone : Nat} (hdone : bitsdone ≤ bitsize) (hfuel : bitsize - bitsdone ≤ fuel) :
    ∃ code, storeParts fixed part bitsize bitpos 8 fuel bitsdone = some code ∧
      Stores base (bitpos + bitsdone) (bitsize - bitsdone) (fun mm i => value.bit mm (bitsdone + i))
        code := by
  induction fuel generalizing bitsdone with
  | zero =>
    obtain rfl : bitsdone = bitsize := by omega
    refine ⟨[], by simp [storeParts], ?_⟩
    rw [Nat.sub_self]
    exact stores_nil
  | succ fuel ih =>
    by_cases hlt : bitsdone < bitsize
    · obtain ⟨thissize, hthis⟩ : ∃ thissize, thissize = min (min (bitsize - bitsdone) bitsPerWord)
          (8 - (bitpos + bitsdone) % 8) := ⟨_, rfl⟩
      have hsize : 0 < thissize ∧ bitsdone + thissize ≤ bitsize ∧
          (bitpos + bitsdone) % 8 + thissize ≤ 8 := by
        rw [hthis]
        simp only [bitsPerWord]
        omega
      have hstart : 8 * ((bitpos + bitsdone) / 8 * 8 / 8) + (bitpos + bitsdone) % 8 =
          bitpos + bitsdone := by
        omega
      obtain ⟨v, hv, hvwide, hvbit⟩ := hpart bitsdone thissize hsize.1 hsize.2.1
      obtain ⟨code₁, hrun₁, hs₁⟩ := hfixed ((bitpos + bitsdone) / 8 * 8 / 8) thissize
        ((bitpos + bitsdone) % 8) v hsize.1 hsize.2.2 (by omega) hvwide
      rw [hstart] at hs₁
      obtain ⟨code₂, hrun₂, hs₂⟩ := ih (show bitsdone + thissize ≤ bitsize by omega) (by omega)
      refine ⟨code₁ ++ code₂, ?_, ?_⟩
      · rw [storeParts, if_pos hlt]
        simp only [← hthis, hv, hrun₁, hrun₂, bind, Option.bind]
        rfl
      · rw [show bitsize - bitsdone = thissize + (bitsize - (bitsdone + thissize)) by omega]
        refine (hs₁.congr hvbit).append ?_ fun mm mm' hsame i hi => ?_
        · rw [Nat.add_assoc]
          refine hs₂.congr fun mm i hi => ?_
          rw [Nat.add_assoc]
        · refine hapart mm mm' (fun k hk hout => hsame k hk ?_) _ (by omega)
          omega
    · obtain rfl : bitsdone = bitsize := by omega
      refine ⟨[], by simp [storeParts], ?_⟩
      rw [Nat.sub_self]
      exact stores_nil

/-- A field of at most a word, which may be split over several units. -/
theorem storeFixedBitField_stores (fuel : Nat) {base : BitVec 16} {offset bitsize bitpos : Nat}
    {value : Value h} (hsize : 0 < bitsize) (hword : bitsize ≤ 16) (hwide : value.Wide bitsize)
    (hpos : bitpos < 8) (hmem : 8 * offset + bitpos + bitsize ≤ 8 * 2 ^ 16)
    (hapart : value.Apart base (8 * offset + bitpos) bitsize) :
    ∃ code, storeFixedBitField (fuel + 3) base offset bitsize bitpos value = some code ∧
      Stores base (8 * offset + bitpos) bitsize value.bit code := by
  cases hbest : getBestMode bitsize (bitpos + offset * 8) 8 wordMode with
  | some m => exact storeFixed_fits (fuel + 2) hsize hwide (.inl hpos) hmem hbest
  | none =>
    have hstart : bitpos + offset * 8 = 8 * offset + bitpos := by omega
    obtain ⟨code, hrun, hs⟩ := storeParts_stores (storeFixedBitField (fuel + 2) base)
      (value.lowWord.part (fuel + 2)) hapart
      (fun bitsdone thissize hthis hfits => value.part_bit hwide hword hthis hfits)
      (fun offset' size pos v hsize' hfits hmem' hv => by
        obtain ⟨m, hbest⟩ : ∃ m, getBestMode size (pos + offset' * 8) 8 wordMode = some m :=
          getBestMode_fits le_rfl (by omega)
        exact storeFixed_fits (fuel + 1) hsize' hv (.inl (by omega)) (by omega) hbest)
      bitsize (Nat.zero_le _) le_rfl
    refine ⟨code, ?_, ?_⟩
    · rw [storeFixedBitField]
      have hbest' : getBestMode bitsize (bitpos + offset * 8) (biggestAlignment / 8 * 8) wordMode =
          none := hbest
      simp only [hbest']
      rw [hstart]
      exact hrun
    · exact hs.congr fun mm i _ => by rw [Nat.zero_add]

end Code

section Words

/-- The bits of a word of a constant, as they are shifted down. -/
theorem constSubword_shifted (low high : BitVec h.bits) (i : Nat) {j : Nat} (hj : j < 16) :
    (Value.constSubword low high i).getLsbD j =
      ((if i / (h.bits / 16) = 0 then low else high).sshiftRight
        (i % (h.bits / 16) * 16)).getLsbD j := by
  have hhost := h.wide
  have hsigned : ∀ v : BitVec h.bits,
      (if v.getLsbD 15 then v ||| BitVec.allOnes h.bits <<< 16 else v).getLsbD j = v.getLsbD j := by
    intro v
    split
    · rw [BitVec.getLsbD_or, BitVec.getLsbD_shiftLeft]
      simp [hj]
    · rfl
  have hmasked : ∀ (v : BitVec h.bits) (p : Prop) [Decidable p],
      (if p then v &&& (1#h.bits <<< 16 - 1) else v).getLsbD j = v.getLsbD j := by
    intro v p _
    split
    · rw [BitVec.getLsbD_and, getLsbD_lowOnes (by omega), decide_eq_true hj, Bool.and_true]
    · rfl
  exact (hsigned _).trans (hmasked _ _)

theorem constSubword_bit (low high : BitVec h.bits) {i j : Nat} (hi : i < 2) (hj : j < 16) :
    (Value.constSubword low high i).getLsbD j = low.getLsbD (16 * i + j) := by
  have hhost := h.wide
  rw [constSubword_shifted low high i hj, Nat.div_eq_of_lt (by omega), Nat.mod_eq_of_lt (by omega),
    if_pos rfl, BitVec.getLsbD_sshiftRight, if_pos (by omega), Nat.mul_comm]
  simp [show ¬ h.bits ≤ j by omega]

theorem operandSubword_bit {value : Value h} {bitsize i : Nat} (hword : 16 < bitsize)
    (hwide : value.Wide bitsize) (hi : i < 2) :
    ∃ word, value.operandSubword i (some .si) = some word ∧
      (word.mode = none ∨ word.mode = some wordMode) ∧
        ∀ mm, ∀ j < 16, word.bit mm j = value.bit mm (16 * i + j) := by
  have hmode : ∃ m : Mode, value.mode.or (some .si) = some m ∧ 32 ≤ m.bits := by
    cases hm : value.mode with
    | none => exact ⟨.si, rfl, by decide⟩
    | some m =>
      refine ⟨m, rfl, ?_⟩
      have hle := hwide m hm
      cases m <;> simp [Mode.bits, Mode.size] at hle ⊢ <;> omega
  obtain ⟨m, hm, hbits⟩ := hmode
  have hsize : 4 ≤ m.size := by
    simp only [Mode.bits] at hbits
    omega
  have hsmall : ¬ m.size < unitsPerWord ∧ ¬ m.size < (i + 1) * unitsPerWord ∧ m ≠ wordMode := by
    refine ⟨by simp only [unitsPerWord]; omega, by simp only [unitsPerWord]; omega, ?_⟩
    rintro rfl
    simp [wordMode, Mode.size] at hsize
  cases value with
  | constInt v =>
    refine ⟨.constInt (Value.constSubword v (Value.signWord v) i), ?_, .inl rfl,
      fun mm j hj => constSubword_bit v _ hi hj⟩
    simp only [Value.operandSubword, hm, bind, Option.bind, if_neg hsmall.1, if_neg hsmall.2.1,
      if_neg hsmall.2.2]
    rfl
  | constDouble low high =>
    refine ⟨.constInt (Value.constSubword low high i), ?_, .inl rfl,
      fun mm j hj => constSubword_bit low high hi hj⟩
    simp only [Value.operandSubword, hm, bind, Option.bind, if_neg hsmall.1, if_neg hsmall.2.1,
      if_neg hsmall.2.2]
    rfl
  | rtx e =>
    have he : e.mode = m := Option.some.inj hm
    have hsub : ∀ mm : Memory 16, ∀ j < 16,
        (Rtx.subword e i).bit mm j = e.bit mm (16 * i + j) := by
      intro mm j hj
      rw [Rtx.bit_subword, decide_eq_true hj, Bool.true_and]
    by_cases hcode : ∃ m' addr, e = .mem m' addr
    · obtain ⟨m', addr, rfl⟩ := hcode
      obtain rfl : m' = m := he
      refine ⟨.rtx (.mem wordMode (offsetBy addr (i * unitsPerWord))), ?_, .inr rfl, fun mm j hj => ?_⟩
      · simp only [Value.operandSubword, hm, bind, Option.bind, if_neg hsmall.1, if_neg hsmall.2.1,
          if_neg hsmall.2.2]
        rfl
      show (Rtx.mem wordMode (offsetBy addr (i * 2))).bit mm j = (Rtx.mem m' addr).bit mm _
      rw [Rtx.bit_mem, Rtx.bit_mem, bit_offsetBy, bits_wordMode, decide_eq_true hj,
        decide_eq_true (show 16 * i + j < m'.bits by omega), show 8 * (i * 2) = 16 * i by omega]
    · refine ⟨.rtx (.subword e i), ?_, .inr rfl, hsub⟩
      simp only [Value.operandSubword, hm, bind, Option.bind, if_neg hsmall.1, if_neg hsmall.2.1,
        if_neg hsmall.2.2]
      cases e <;> first | exact absurd ⟨_, _, rfl⟩ hcode | rfl

variable {base : BitVec 16} {strMode fieldmode : Option Mode} {bitsize bitnum : Nat} {value : Value h}

def WholeMode (fieldmode : Option Mode) (bitsize bitnum : Nat) : Prop :=
  unitsPerWord ≤ fieldmode.elim 0 Mode.size ∧ bitnum % 8 = 0 ∧
    bitsize = fieldmode.elim 0 Mode.bits

theorem storeBitField_whole (fuel : Nat) (hw : WholeMode fieldmode bitsize bitnum)
    (hlong : bitsize ≤ 32) (hmem : bitnum + bitsize ≤ 8 * 2 ^ 16)
    (hstr : ∀ m, strMode = some m → bitnum + bitsize ≤ m.bits)
    (hmode : ∀ m, fieldmode = some m → value.mode = none ∨ value.mode = some m) :
    ∃ code, storeBitField (fuel + 1) strMode base bitsize bitnum fieldmode value = some code ∧
      Stores base bitnum bitsize value.bit code := by
  have hhost := h.wide
  unfold WholeMode at hw
  obtain ⟨hunits, hbyte, hsize⟩ := hw
  cases fieldmode with
  | none => simp [unitsPerWord] at hunits
  | some m =>
    replace hsize : bitsize = m.bits := hsize
    have haddr : (if strMode ≠ m then offsetBy base (bitnum / 8) else base) =
        offsetBy base (bitnum / 8) := by
      split
      · rfl
      · next heq =>
        have hzero := hstr m (not_not.1 heq)
        rw [show bitnum / 8 = 0 by omega]
        simp [offsetBy]
    refine ⟨[⟨m, offsetBy base (bitnum / 8), value.inMode m⟩], ?_, ?_⟩
    · rw [storeBitField]
      simp only
      rw [if_pos ⟨hunits, hbyte, hsize⟩]
      simp only [bind, Option.bind]
      rw [if_pos (hmode m rfl), haddr]
      rfl
    · have hbytes : m.size = m.bits / 8 := by simp [Mode.bits]
      refine stores_unit (by rw [hbytes]; omega) (by omega) (by omega) fun mm i hi => ?_
      have hread : i < value.mode.elim h.bits Mode.bits := by
        obtain hnone | hsome := hmode m rfl
        · rw [hnone]
          exact Nat.lt_of_lt_of_le hi (show m.bits ≤ h.bits by omega)
        · rw [hsome]
          exact hi
      rw [bit_inMode hi (by omega), if_pos hread, if_pos (by omega)]
      congr 1
      omega

theorem storeBitField_narrow (fuel : Nat) (hsize : 0 < bitsize) (hword : bitsize ≤ 16)
    (hwide : value.Wide bitsize) (hmem : bitnum + bitsize ≤ 8 * 2 ^ 16)
    (hstr : ∀ m, strMode = some m → bitnum + bitsize ≤ m.bits)
    (hmode : ∀ m, fieldmode = some m → bitsize = m.bits →
      value.mode = none ∨ value.mode = some m)
    (hapart : value.Apart base bitnum bitsize) :
    ∃ code, storeBitField (fuel + 4) strMode base bitsize bitnum fieldmode value = some code ∧
      Stores base bitnum bitsize value.bit code := by
  by_cases hw : WholeMode fieldmode bitsize bitnum
  · refine storeBitField_whole (fuel + 3) hw (by omega) hmem hstr fun m hm => hmode m hm ?_
    rw [hw.2.2, hm]
    rfl
  · unfold WholeMode at hw
    rw [storeBitField]
    simp only
    rw [if_neg hw, if_neg (not_lt.2 hword)]
    have hstart : 8 * (bitnum / 8) + bitnum % 8 = bitnum := Nat.div_add_mod ..
    have hfixed : ∃ code, storeFixedBitField (fuel + 3) base (bitnum / 8) bitsize (bitnum % 8)
        value = some code ∧
          Stores base (8 * (bitnum / 8) + bitnum % 8) bitsize value.bit code :=
      storeFixedBitField_stores fuel hsize hword hwide (Nat.mod_lt _ (by decide))
        (by rw [hstart]; exact hmem) (by rw [hstart]; exact hapart)
    rwa [hstart] at hfixed

theorem storeWords_stores {piece : Nat → Option (List Store)} (n : Nat)
    (hpiece : ∀ i < n, ∃ code, piece i = some code ∧ Stores base (bitnum + 16 * i)
      (min 16 (bitsize - 16 * i)) (fun mm j => value.bit mm (16 * i + j)) code)
    (hapart : value.Apart base bitnum bitsize) :
    ∃ code, storeWords piece n = some code ∧
      Stores base bitnum (min (16 * n) bitsize) value.bit code := by
  induction n with
  | zero =>
    refine ⟨[], rfl, ?_⟩
    rw [Nat.mul_zero, Nat.zero_min]
    exact stores_nil
  | succ n ih =>
    obtain ⟨code₁, hrun₁, hs₁⟩ := ih fun i hi => hpiece i (Nat.lt_succ_of_lt hi)
    obtain ⟨code₂, hrun₂, hs₂⟩ := hpiece n (Nat.lt_succ_self n)
    refine ⟨code₁ ++ code₂, by simp [storeWords, hrun₁, hrun₂], ?_⟩
    by_cases hlt : 16 * n ≤ bitsize
    · rw [Nat.min_eq_left hlt] at hs₁
      rw [show min (16 * (n + 1)) bitsize = 16 * n + min 16 (bitsize - 16 * n) by omega]
      refine hs₁.append hs₂ fun mm mm' hsame i hi => hapart mm mm' (fun k hk hout => hsame k hk ?_) i
        (by omega)
      omega
    · rw [show min 16 (bitsize - 16 * n) = 0 by omega] at hs₂
      rw [show min (16 * (n + 1)) bitsize = min (16 * n) bitsize + 0 by omega]
      refine hs₁.append (fun mm k hk => ?_) fun mm mm' hsame i hi =>
        hapart mm mm' (fun k hk hout => hsame k hk ?_) i (by omega)
      · rw [hs₂ mm k hk, if_neg (by omega), if_neg (by omega)]
      · omega

theorem storeBitField_stores {fuel : Nat} (hfuel : 5 ≤ fuel) (hsize : 0 < bitsize)
    (hlong : bitsize ≤ 32) (hwide : value.Wide bitsize) (hmem : bitnum + bitsize ≤ 8 * 2 ^ 16)
    (hstr : ∀ m, strMode = some m → bitnum + bitsize ≤ m.bits)
    (hmode : ∀ m, fieldmode = some m → bitsize = m.bits →
      value.mode = none ∨ value.mode = some m)
    (hapart : value.Apart base bitnum bitsize) :
    ∃ code, storeBitField fuel strMode base bitsize bitnum fieldmode value = some code ∧
      Stores base bitnum bitsize value.bit code := by
  obtain ⟨fuel, rfl⟩ := Nat.exists_eq_add_of_le' hfuel
  by_cases hword : bitsize ≤ 16
  · exact storeBitField_narrow (fuel + 1) hsize hword hwide hmem hstr hmode hapart
  by_cases hw : WholeMode fieldmode bitsize bitnum
  · refine storeBitField_whole (fuel + 4) hw hlong hmem hstr fun m hm => hmode m hm ?_
    rw [hw.2.2, hm]
    rfl
  have hnwords : (bitsize + (bitsPerWord - 1)) / bitsPerWord = 2 := by
    simp only [bitsPerWord]
    omega
  have hpiece : ∀ i < 2, ∃ code, (value.operandSubword i (some .si)).bind (fun word =>
      storeBitField (fuel + 4) strMode base (min bitsPerWord (bitsize - i * bitsPerWord))
        (bitnum + i * bitsPerWord) (some wordMode) word) = some code ∧
      Stores base (bitnum + 16 * i) (min 16 (bitsize - 16 * i))
        (fun mm j => value.bit mm (16 * i + j)) code := by
    intro i hi
    obtain ⟨word, hsub, hwmode, hwbit⟩ := operandSubword_bit (not_le.1 hword) hwide hi
    rw [hsub, Option.bind_some, show min bitsPerWord (bitsize - i * bitsPerWord) =
      min 16 (bitsize - 16 * i) by rw [Nat.mul_comm], show bitnum + i * bitsPerWord =
      bitnum + 16 * i by rw [Nat.mul_comm]]
    obtain ⟨code, hrun, hs⟩ : ∃ code, storeBitField (fuel + 4) strMode base
        (min 16 (bitsize - 16 * i)) (bitnum + 16 * i) (some wordMode) word = some code ∧
          Stores base (bitnum + 16 * i) (min 16 (bitsize - 16 * i)) word.bit code := by
      refine storeBitField_narrow fuel (by omega) (by omega) (fun m hm => ?_) (by omega)
        (fun m hm => by have hle := hstr m hm; omega) (fun m hm _ => (Option.some.inj hm) ▸ hwmode)
        fun mm mm' hsame j hj => ?_
      · obtain hnone | hsome := hwmode
        · rw [hnone] at hm
          cases hm
        · obtain rfl := Option.some.inj (hsome.symm.trans hm)
          rw [bits_wordMode]
          omega
      · rw [hwbit mm' j (by omega), hwbit mm j (by omega)]
        refine hapart mm mm' (fun k hk hout => hsame k hk ?_) _ (by omega)
        omega
    exact ⟨code, hrun, hs.congr fun mm j hj => hwbit mm j (by omega)⟩
  obtain ⟨code, hrun, hs⟩ := storeWords_stores 2 hpiece hapart
  unfold WholeMode at hw
  refine ⟨code, ?_, ?_⟩
  · rw [storeBitField]
    simp only
    rw [if_neg hw, if_pos (show bitsPerWord < bitsize from not_le.1 hword), hnwords]
    exact hrun
  · rwa [show min (16 * 2) bitsize = bitsize by omega] at hs

end Words

end Z80Gcc.BitField
