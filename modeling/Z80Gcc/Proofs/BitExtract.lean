import Z80Gcc.Spec.BitField

/-! The expressions of `extract_bit_field` read the bits of the field, whichever units of memory
they are taken from. -/

namespace Z80Gcc.BitField

open Z80Gcc.BitMemory

variable {h : Host} {mm : Memory 16}

section Modes

@[simp] theorem bits_wordMode : wordMode.bits = 16 := rfl

theorem Mode.size_pos (m : Mode) : 0 < m.size := by
  cases m <;> decide

theorem Mode.bits_pos (m : Mode) : 0 < m.bits := Nat.mul_pos (by decide) m.size_pos

theorem Mode.mem_all (m : Mode) : m ∈ all := by
  cases m <;> decide

theorem Mode.all_sorted : all.Pairwise fun m m' => m.bits ≤ m'.bits := by
  decide

/-- The narrowest mode that is wide enough is at most as wide as another such mode. -/
theorem find_narrowest {n : Nat} {m : Mode} (hm : n ≤ m.bits) :
    ∃ m', Mode.all.find? (fun m => decide (n ≤ m.bits)) = some m' ∧ n ≤ m'.bits ∧
      m'.bits ≤ m.bits := by
  have hsome : (Mode.all.find? fun m => decide (n ≤ m.bits)).isSome :=
    List.find?_isSome.2 ⟨m, m.mem_all, decide_eq_true hm⟩
  obtain ⟨m', hfind⟩ := Option.isSome_iff_exists.1 hsome
  obtain ⟨hn, before, after, hall, hbefore⟩ := List.find?_eq_some_iff_append.1 hfind
  refine ⟨m', hfind, of_decide_eq_true hn, ?_⟩
  have hsorted := Mode.all_sorted
  have hmem := m.mem_all
  rw [hall] at hsorted hmem
  obtain hmem | hmem := List.mem_append.1 hmem
  · have hnot := hbefore m hmem
    simp [hm] at hnot
  · obtain rfl | hmem := List.mem_cons.1 hmem
    · exact le_rfl
    · exact (List.pairwise_cons.1 (List.pairwise_append.1 hsorted).2.1).1 m hmem

/-- The mode found contains the field, and is at most a word. -/
theorem getBestMode_some {bitsize bitpos align : Nat} {m : Mode}
    (hbest : getBestMode bitsize bitpos align wordMode = some m) :
    (m.bits = 8 ∨ m.bits = 16) ∧ bitpos % m.bits + bitsize ≤ m.bits := by
  unfold getBestMode at hbest
  split at hbest
  · cases hbest
  · next m' hfind =>
    split at hbest
    · cases hbest
    · next hsmall =>
      obtain rfl := Option.some.inj hbest
      have hfits := List.find?_some hfind
      refine ⟨?_, by simpa using hfits⟩
      rw [not_or, not_lt, not_lt, bits_wordMode] at hsmall
      have hle := hsmall.2
      cases m' <;> simp [Mode.bits, Mode.size] at hle ⊢

theorem getBestMode_fits {bitsize bitpos align : Nat} (halign : 8 ≤ align)
    (hfits : bitpos % 8 + bitsize ≤ 8 ∨ bitpos % 16 + bitsize ≤ 16) :
    ∃ m, getBestMode bitsize bitpos align wordMode = some m := by
  have hmin : ¬ (align < min 8 biggestAlignment ∨ 16 < 8) ∧
      ¬ (align < min 16 biggestAlignment ∨ 16 < 16) := by
    simp only [biggestAlignment]
    omega
  by_cases hbyte : bitpos % 8 + bitsize ≤ 8
  · refine ⟨.qi, ?_⟩
    simp only [getBestMode, Mode.all, List.find?_cons, Mode.bits, Mode.size, hbyte, decide_true]
    exact if_neg hmin.1
  · refine ⟨.hi, ?_⟩
    have hword := hfits.resolve_left hbyte
    simp only [getBestMode, Mode.all, List.find?_cons, Mode.bits, Mode.size, hbyte, hword,
      decide_true, decide_false]
    exact if_neg hmin.2

end Modes

section Bits

/-- Bit `i` of the value of an expression. -/
def Rtx.bit (mm : Memory 16) (e : Rtx) (i : Nat) : Bool := (e.eval mm).getLsbD i

namespace Rtx

variable (m : Mode) (e e₁ e₂ : Rtx) (i n : Nat)

theorem bit_of_ge (hi : e.mode.bits ≤ i) : e.bit mm i = false := BitVec.getLsbD_of_ge _ _ hi

theorem bit_mem (addr : BitVec 16) :
    (mem m addr).bit mm i = (decide (i < m.bits) && BitMemory.bit mm addr i) := getLsbD_load ..

theorem bit_const {w : Nat} (low high : BitVec w) :
    (const m low high).bit mm i = ((high ++ low).signExtend m.bits).getLsbD i := rfl

theorem bit_convert (unsignedp : Bool) : (convert m unsignedp e).bit mm i = (decide (i < m.bits) &&
    if i < e.mode.bits then e.bit mm i else !unsignedp && e.bit mm (e.mode.bits - 1)) := by
  cases unsignedp
  · show ((e.eval mm).signExtend m.bits).getLsbD i = _
    rw [BitVec.getLsbD_signExtend, BitVec.msb_eq_getLsbD_last]
    rfl
  · show ((e.eval mm).setWidth m.bits).getLsbD i = _
    rw [BitVec.getLsbD_setWidth]
    split
    · rfl
    · next hge =>
      rw [BitVec.getLsbD_of_ge _ _ (not_lt.1 hge)]
      simp

theorem bit_lshift : (lshift m e n).bit mm i =
    (decide (i < m.bits) && (decide (n ≤ i) && e.bit mm (i - n))) := by
  show ((e.eval mm).setWidth m.bits <<< n).getLsbD i = _
  rw [BitVec.getLsbD_shiftLeft, BitVec.getLsbD_setWidth]
  show _ = (_ && (_ && (e.eval mm).getLsbD (i - n)))
  by_cases hi : i < m.bits
  · simp [hi, show i - n < m.bits by omega]
    by_cases hn : i < n
    · simp [hn]
    · simp [hn, not_lt.1 hn]
  · simp [hi]

theorem bit_rshift (unsignedp : Bool) (hmode : e.mode = m) : (rshift m unsignedp e n).bit mm i =
    (decide (i < m.bits) && if i + n < m.bits then e.bit mm (i + n)
      else !unsignedp && e.bit mm (m.bits - 1)) := by
  subst hmode
  cases unsignedp
  · show (((e.eval mm).setWidth e.mode.bits).sshiftRight n).getLsbD i = _
    rw [BitVec.setWidth_eq, BitVec.getLsbD_sshiftRight, BitVec.msb_eq_getLsbD_last, Nat.add_comm n i]
    by_cases hi : i < e.mode.bits <;> simp [hi, Rtx.bit]
  · show (((e.eval mm).setWidth e.mode.bits) >>> n).getLsbD i = _
    rw [BitVec.setWidth_eq, BitVec.getLsbD_ushiftRight, Nat.add_comm n i]
    show e.bit mm (i + n) = _
    by_cases hin : i + n < e.mode.bits
    · simp [hin, show i < e.mode.bits by omega]
    · simp [hin, e.bit_of_ge (i + n) (not_lt.1 hin)]

theorem bit_and : (and m e₁ e₂).bit mm i =
    (decide (i < m.bits) && (e₁.bit mm i && e₂.bit mm i)) := by
  show ((e₁.eval mm).setWidth m.bits &&& (e₂.eval mm).setWidth m.bits).getLsbD i = _
  rw [BitVec.getLsbD_and, BitVec.getLsbD_setWidth, BitVec.getLsbD_setWidth]
  by_cases hi : i < m.bits <;> simp [hi, Rtx.bit]

theorem bit_ior : (ior m e₁ e₂).bit mm i =
    (decide (i < m.bits) && (e₁.bit mm i || e₂.bit mm i)) := by
  show ((e₁.eval mm).setWidth m.bits ||| (e₂.eval mm).setWidth m.bits).getLsbD i = _
  rw [BitVec.getLsbD_or, BitVec.getLsbD_setWidth, BitVec.getLsbD_setWidth]
  by_cases hi : i < m.bits <;> simp [hi, Rtx.bit]

theorem bit_subword :
    (subword e n).bit mm i = (decide (i < 16) && e.bit mm (bitsPerWord * n + i)) := by
  show ((e.eval mm).extractLsb' (bitsPerWord * n) wordMode.bits).getLsbD i = _
  rw [BitVec.getLsbD_extractLsb']
  rfl

theorem bit_setSubword (part : Rtx) : (setSubword e n part).bit mm i =
    (decide (i < e.mode.bits) && if bitsPerWord * n ≤ i ∧ i < bitsPerWord * (n + 1) then
      part.bit mm (i - bitsPerWord * n) else e.bit mm i) := getLsbD_ofBits ..

theorem bit_const_zero {w : Nat} (low : BitVec w) (hw : 0 < w) :
    (const m low 0).bit mm i = (decide (i < m.bits) && low.getLsbD i) := by
  have hmsb : ((0 : BitVec w) ++ low).msb = false := by
    rw [BitVec.msb_append, if_neg hw.ne']
    simp
  rw [bit_const, BitVec.getLsbD_signExtend, BitVec.getLsbD_append, hmsb]
  by_cases hi : i < w
  · rw [if_pos hi, if_pos (by omega)]
  · rw [if_neg hi, BitVec.getLsbD_of_ge low i (not_lt.1 hi)]
    simp

theorem bit_const_ones {w : Nat} (low : BitVec w) (hw : 0 < w) :
    (const m low (BitVec.allOnes w)).bit mm i =
      (decide (i < m.bits) && (low.getLsbD i || decide (w ≤ i))) := by
  have hmsb : (BitVec.allOnes w ++ low).msb = true := by
    rw [BitVec.msb_append, if_neg hw.ne', BitVec.msb_allOnes hw]
  rw [bit_const, BitVec.getLsbD_signExtend, BitVec.getLsbD_append, hmsb]
  by_cases hi : i < w
  · rw [if_pos hi, if_pos (by omega)]
    simp [not_le.2 hi]
  · rw [if_neg hi, BitVec.getLsbD_of_ge low i (not_lt.1 hi), BitVec.getLsbD_allOnes]
    by_cases hin : i < w + w
    · rw [if_pos hin]
      simp [show i - w < w by omega, not_lt.1 hi]
    · rw [if_neg hin]
      simp [not_lt.1 hi]

end Rtx

/-- A mask is ones in the place of the field, or everywhere else. -/
theorem bit_maskRtx (m : Mode) {bitpos bitsize : Nat} (hsize : 0 < bitsize)
    (hfits : bitpos + bitsize ≤ h.bits) (complement : Bool) {i : Nat} (hi : i < m.bits) :
    (maskRtx h m bitpos bitsize complement).bit mm i =
      (decide (bitpos ≤ i ∧ i < bitpos + bitsize) != complement) := by
  have hw : 0 < h.bits := by have := h.wide; omega
  have hpos : bitpos < h.bits := by omega
  obtain ⟨low, hlow⟩ : ∃ low, low = if bitpos + bitsize < h.bits then
      BitVec.allOnes h.bits <<< bitpos &&& BitVec.allOnes h.bits >>> (h.bits - bitpos - bitsize)
    else BitVec.allOnes h.bits <<< bitpos := ⟨_, rfl⟩
  have hbit : ∀ i, low.getLsbD i = decide (bitpos ≤ i ∧ i < bitpos + bitsize) := by
    intro i
    rw [hlow]
    split
    · simp only [BitVec.getLsbD_and, BitVec.getLsbD_shiftLeft, BitVec.getLsbD_ushiftRight,
        BitVec.getLsbD_allOnes]
      grind
    · simp only [BitVec.getLsbD_shiftLeft, BitVec.getLsbD_allOnes]
      grind
  have hmask : maskRtx h m bitpos bitsize complement =
      if complement then .const m (~~~low) (BitVec.allOnes h.bits) else .const m low 0 := by
    simp only [maskRtx, if_pos hpos, if_pos hpos.le, if_neg (not_lt.2 hfits), ← hlow]
    cases complement <;> simp
  cases complement
  · rw [hmask, if_neg Bool.false_ne_true, Rtx.bit_const_zero m i low hw, hbit]
    simp [hi]
  · rw [hmask, if_pos rfl, Rtx.bit_const_ones m i _ hw, BitVec.getLsbD_not, hbit]
    by_cases hin : i < h.bits
    · simp [hi, hin]
    · have hout : ¬ i < bitpos + bitsize := by omega
      simp [hi, hout, not_lt.1 hin]

end Bits

section Fixed

variable {f : Nat → Bool} {width : Nat} {unsignedp : Bool} {e : Rtx}

/-- The expression is a field of given bits, extended to its mode. -/
structure Reads (mm : Memory 16) (f : Nat → Bool) (width : Nat) (unsignedp : Bool) (e : Rtx) :
    Prop where
  wide : width ≤ e.mode.bits
  bit : ∀ i < e.mode.bits, e.bit mm i = if i < width then f i else !unsignedp && f (width - 1)

theorem Reads.convert (hr : Reads mm f width unsignedp e) (hwidth : 0 < width) {m : Mode}
    (hm : width ≤ m.bits) : Reads mm f width unsignedp (.convert m unsignedp e) := by
  refine ⟨hm, fun i (hi : i < m.bits) => ?_⟩
  have hwide := hr.wide
  rw [Rtx.bit_convert, decide_eq_true hi, Bool.true_and]
  split
  · next hlt => exact hr.bit i hlt
  · next hge =>
    rw [hr.bit _ (by omega), if_neg (show ¬ i < width by omega)]
    cases unsignedp
    · by_cases hlast : e.mode.bits - 1 < width
      · rw [if_pos hlast, show e.mode.bits - 1 = width - 1 by omega]
      · rw [if_neg hlast]
        simp
    · rfl

theorem Reads.congr {g : Nat → Bool} (hr : Reads mm f width unsignedp e) (hwidth : 0 < width)
    (hfg : ∀ i < width, f i = g i) : Reads mm g width unsignedp e := by
  refine ⟨hr.wide, fun i hi => ?_⟩
  rw [hr.bit i hi, hfg (width - 1) (by omega)]
  split
  · next hlt => exact hfg i hlt
  · rfl

/-- A field at the top of a mode is shifted down arithmetically. -/
theorem reads_signed {m : Mode} (hmode : e.mode = m) (hwidth : 0 < width) (hwide : width ≤ m.bits)
    (htop : ∀ i < width, e.bit mm (m.bits - width + i) = f i) :
    Reads mm f width false (.rshift m false e (m.bits - width)) := by
  refine ⟨hwide, fun i (hi : i < m.bits) => ?_⟩
  rw [Rtx.bit_rshift _ _ _ _ _ hmode, decide_eq_true hi, Bool.true_and]
  by_cases hlt : i < width
  · rw [if_pos (by omega), if_pos hlt, ← htop i hlt, Nat.add_comm]
  · rw [if_neg (by omega), if_neg hlt, ← htop (width - 1) (by omega),
      show m.bits - width + (width - 1) = m.bits - 1 by omega]

/-- Two shifts sign-extend a field at the bottom of a mode. -/
theorem reads_signExtended {m : Mode} (hwidth : 0 < width) (hwide : width ≤ m.bits)
    (hbit : ∀ i < width, e.bit mm i = f i) :
    Reads mm f width false
      (.rshift m false (.lshift m e (m.bits - width)) (m.bits - width)) := by
  refine reads_signed rfl hwidth hwide fun i hi => ?_
  rw [Rtx.bit_lshift, decide_eq_true (show _ < m.bits by omega), decide_eq_true (by omega),
    Bool.true_and, Bool.true_and, Nat.add_sub_cancel_left, hbit i hi]

theorem bit_shiftedDown (e : Rtx) (bitpos i : Nat) :
    (if bitpos ≠ 0 then Rtx.rshift e.mode true e bitpos else e).bit mm i =
      if i + bitpos < e.mode.bits then e.bit mm (bitpos + i) else false := by
  split
  · rw [Rtx.bit_rshift _ _ _ _ _ rfl, Nat.add_comm i bitpos]
    split
    · simp [show i < e.mode.bits by omega]
    · simp
  · next hzero =>
    obtain rfl := not_not.1 hzero
    rw [Nat.zero_add, Nat.add_zero]
    split
    · rfl
    · next hge => exact e.bit_of_ge i (not_lt.1 hge)

theorem extractFrom_unsigned {tmode : Mode} {op0 : Rtx} {bitsize bitpos : Nat} (hsize : 0 < bitsize)
    (hword : bitsize ≤ 16) (hfits : bitpos + bitsize ≤ op0.mode.bits)
    (htmode : bitsize ≤ tmode.bits) :
    Reads mm (fun i => op0.bit mm (bitpos + i)) bitsize true
        (extractFrom h tmode op0 bitsize bitpos true) ∧
      (extractFrom h tmode op0 bitsize bitpos true).mode = tmode := by
  have hhost := h.wide
  obtain ⟨op1, hop1⟩ : ∃ op1, op1 = if bitpos ≠ 0 then Rtx.rshift op0.mode true op0 bitpos else op0 :=
    ⟨_, rfl⟩
  have hmode1 : op1.mode = op0.mode := by
    rw [hop1]
    split <;> rfl
  have hbit1 : ∀ i, op1.bit mm i = if i + bitpos < op0.mode.bits then op0.bit mm (bitpos + i)
      else false := fun i => by rw [hop1, bit_shiftedDown]
  obtain ⟨op2, hop2⟩ : ∃ op2, op2 = if op0.mode ≠ tmode then Rtx.convert tmode true op1 else op1 :=
    ⟨_, rfl⟩
  have hmode2 : op2.mode = tmode := by
    rw [hop2]
    split
    · rfl
    · next heq => exact hmode1.trans (not_not.1 heq)
  have hbit2 : ∀ i < tmode.bits, op2.bit mm i = if i + bitpos < op0.mode.bits then
      op0.bit mm (bitpos + i) else false := by
    intro i hi
    rw [hop2]
    split
    · rw [Rtx.bit_convert, decide_eq_true hi, Bool.true_and, hmode1, hbit1]
      split
      · rfl
      · rw [if_neg (by omega)]
        rfl
    · exact hbit1 i
  have hrun : extractFrom h tmode op0 bitsize bitpos true =
      if op0.mode.bits ≠ bitpos + bitsize then .and op2.mode op2 (maskRtx h op2.mode 0 bitsize false)
      else op2 := by
    simp only [extractFrom, if_pos, ← hop1, ← hop2]
  rw [hrun]
  split
  · refine ⟨⟨by rw [Rtx.mode, hmode2]; exact htmode, fun i hi => ?_⟩, hmode2⟩
    replace hi : i < tmode.bits := by rwa [Rtx.mode, hmode2] at hi
    rw [Rtx.bit_and, hmode2, decide_eq_true hi, Bool.true_and, hbit2 i hi,
      bit_maskRtx tmode hsize (by omega) false hi]
    by_cases hlt : i < bitsize
    · simp [hlt, show i + bitpos < op0.mode.bits by omega]
    · simp [hlt]
  · next hfull =>
    refine ⟨⟨by rw [hmode2]; exact htmode, fun i hi => ?_⟩, hmode2⟩
    rw [hmode2] at hi
    rw [hbit2 i hi]
    by_cases hlt : i < bitsize
    · rw [if_pos (by omega), if_pos hlt]
    · rw [if_neg (by omega), if_neg hlt]
      rfl

theorem extractFrom_signed {tmode : Mode} {op0 : Rtx} {bitsize bitpos : Nat} (hsize : 0 < bitsize)
    (hfits : bitpos + bitsize ≤ op0.mode.bits) :
    Reads mm (fun i => op0.bit mm (bitpos + i)) bitsize false
      (extractFrom h tmode op0 bitsize bitpos false) := by
  obtain ⟨mode, hfind, hwide, hle⟩ := find_narrowest (show bitsize + bitpos ≤ op0.mode.bits by omega)
  obtain ⟨op1, hop1⟩ : ∃ op1, op1 = if mode.bits ≠ bitsize + bitpos then
      Rtx.lshift mode (.convert mode false op0) (mode.bits - (bitsize + bitpos))
    else .convert mode false op0 := ⟨_, rfl⟩
  have hmode1 : op1.mode = mode := by
    rw [hop1]
    split <;> rfl
  have hconvert : ∀ j < mode.bits, (Rtx.convert mode false op0).bit mm j = op0.bit mm j := by
    intro j hj
    rw [Rtx.bit_convert, decide_eq_true hj, if_pos (by omega), Bool.true_and]
  have hrun : extractFrom h tmode op0 bitsize bitpos false =
      .rshift mode false op1 (mode.bits - bitsize) := by
    simp only [extractFrom, Bool.false_eq_true, if_false, hfind, ← hop1]
  rw [hrun]
  refine reads_signed hmode1 hsize (by omega) fun i hi => ?_
  rw [hop1]
  split
  · rw [Rtx.bit_lshift, decide_eq_true (show _ < mode.bits by omega), decide_eq_true (by omega),
      Bool.true_and, Bool.true_and, hconvert _ (by omega),
      show mode.bits - bitsize + i - (mode.bits - (bitsize + bitpos)) = bitpos + i by omega]
  · rw [hconvert _ (by omega), show mode.bits - bitsize + i = bitpos + i by omega]

/-- The unit that contains a field starts at a multiple of its size. -/
theorem renormalise_spec {total offset bitpos : Nat} (htotal : total = 8 ∨ total = 16)
    (hpos : bitpos < 8 ∨ offset % 2 = 0 ∧ bitpos < 16) :
    ∃ bitpos' offset', renormalise total offset bitpos = (bitpos', offset') ∧
      8 * offset' + bitpos' = 8 * offset + bitpos ∧ bitpos' = (bitpos + offset * 8) % total ∧
      offset' % (total / 8) = 0 := by
  refine ⟨_, _, Prod.mk.eta.symm, ?_⟩
  by_cases hle : total ≤ bitpos
  · simp only [renormalise, if_pos hle]
    obtain rfl | rfl := htotal <;> simp only [Nat.reduceDiv] <;> omega
  · simp only [renormalise, if_neg hle]
    obtain rfl | rfl := htotal <;> simp only [Nat.reduceDiv] <;> omega

theorem extractFixed_fits (fuel : Nat) (tmode : Mode) {m : Mode} {base : BitVec 16}
    {offset bitsize bitpos align : Nat} (hsize : 0 < bitsize) (htmode : bitsize ≤ tmode.bits)
    (hpos : bitpos < 8 ∨ offset % 2 = 0 ∧ bitpos < 16)
    (hbest : getBestMode bitsize (bitpos + offset * 8) (align * 8) wordMode = some m)
    (unsignedp : Bool) :
    ∃ e, extractFixedBitField h (fuel + 1) tmode (.mem base) offset bitsize bitpos unsignedp align =
        some e ∧ (unsignedp = true → e.mode = tmode) ∧
      ∀ mm, Reads mm (fun i => BitMemory.bit mm base (8 * offset + bitpos + i)) bitsize unsignedp
        e := by
  obtain ⟨hbits, hfits⟩ := getBestMode_some hbest
  obtain ⟨bitpos', offset', hnorm, hsum, hbitpos', -⟩ := renormalise_spec hbits hpos
  have hle : bitpos' + bitsize ≤ m.bits := hbitpos' ▸ hfits
  obtain ⟨op0, hop0⟩ : ∃ op0, op0 = Rtx.mem m (offsetBy base offset') := ⟨_, rfl⟩
  have hmode : op0.mode = m := by rw [hop0]; rfl
  have hread : ∀ mm : Memory 16, ∀ i < bitsize,
      op0.bit mm (bitpos' + i) = BitMemory.bit mm base (8 * offset + bitpos + i) := by
    intro mm i hi
    rw [hop0, Rtx.bit_mem, decide_eq_true (by omega), Bool.true_and, bit_offsetBy, ← hsum,
      Nat.add_assoc]
  refine ⟨extractFrom h tmode op0 bitsize bitpos' unsignedp, ?_, ?_, fun mm => ?_⟩
  · simp only [extractFixedBitField, hbest, hnorm, hop0]
  · rintro rfl
    exact (@extractFrom_unsigned h (fun _ => 0) _ _ _ _ hsize (by omega) (by rwa [hmode]) htmode).2
  · cases unsignedp
    · exact (extractFrom_signed hsize (by rwa [hmode])).congr hsize (hread mm)
    · exact (extractFrom_unsigned hsize (by omega) (by rwa [hmode]) htmode).1.congr hsize (hread mm)

end Fixed

section Split

variable {base : BitVec 16}

/-- The bits of a field in memory. -/
def field (mm : Memory 16) (base : BitVec 16) (bitnum i : Nat) : Bool :=
  BitMemory.bit mm base (bitnum + i)

/-- The expression is a field in memory, whatever the memory holds. -/
def Field (base : BitVec 16) (bitnum width : Nat) (unsignedp : Bool) (e : Rtx) : Prop :=
  ∀ mm, Reads mm (field mm base bitnum) width unsignedp e

def Collected (base : BitVec 16) (bitpos bitsdone : Nat) : Option Rtx → Prop
  | none => bitsdone = 0
  | some e => e.mode = wordMode ∧ Field base bitpos bitsdone true e

theorem Collected.step {bitpos bitsdone thissize : Nat} {result : Option Rtx} {part : Rtx}
    (hc : Collected base bitpos bitsdone result) (hmode : part.mode = wordMode)
    (hpart : Field base (bitpos + bitsdone) thissize true part)
    (hfits : bitsdone + thissize ≤ 16) :
    Collected base bitpos (bitsdone + thissize) (some (match result with
      | none => if bitsdone ≠ 0 then .lshift wordMode part bitsdone else part
      | some result =>
        .ior wordMode (if bitsdone ≠ 0 then .lshift wordMode part bitsdone else part) result)) := by
  have hshifted : ∀ mm : Memory 16, ∀ i < 16,
      (if bitsdone ≠ 0 then Rtx.lshift wordMode part bitsdone else part).bit mm i =
        if i < bitsdone then false
        else if i < bitsdone + thissize then field mm base bitpos i else false := by
    intro mm i hi
    have hread : ∀ j < 16, part.bit mm j =
        if j < thissize then field mm base bitpos (bitsdone + j) else false := by
      intro j hj
      rw [(hpart mm).bit j (by rwa [hmode]), field, field, Nat.add_assoc]
      rfl
    split
    · rw [Rtx.bit_lshift, bits_wordMode, decide_eq_true hi, Bool.true_and]
      by_cases hlow : i < bitsdone
      · rw [if_pos hlow, decide_eq_false (by omega), Bool.false_and]
      · rw [if_neg hlow, decide_eq_true (not_lt.1 hlow), Bool.true_and, hread _ (by omega),
          Nat.add_sub_cancel' (not_lt.1 hlow)]
        by_cases hin : i < bitsdone + thissize
        · rw [if_pos (by omega), if_pos hin]
        · rw [if_neg (by omega), if_neg hin]
    · next hzero =>
      obtain rfl := not_not.1 hzero
      rw [hread i hi]
      simp
  have hmode' : (if bitsdone ≠ 0 then Rtx.lshift wordMode part bitsdone else part).mode =
      wordMode := by
    split
    · rfl
    · exact hmode
  cases result with
  | none =>
    obtain rfl : bitsdone = 0 := hc
    refine ⟨hmode', fun mm => ⟨by rw [hmode', bits_wordMode]; omega, fun i hi => ?_⟩⟩
    rw [hmode', bits_wordMode] at hi
    rw [hshifted mm i hi, if_neg (by omega)]
    simp
  | some result =>
    obtain ⟨hrmode, hread⟩ := hc
    refine ⟨rfl, fun mm => ⟨hfits, fun i (hi : i < 16) => ?_⟩⟩
    rw [Rtx.bit_ior, bits_wordMode, decide_eq_true hi, Bool.true_and, hshifted mm i hi,
      (hread mm).bit i (by rwa [hrmode])]
    by_cases hlow : i < bitsdone
    · rw [if_pos hlow, if_pos hlow, if_pos (by omega), Bool.false_or]
    · rw [if_neg hlow, if_neg hlow]
      split <;> simp

theorem extractParts_collected (fixed : Operand → Nat → Nat → Nat → Option Rtx)
    {bitsize bitpos unit : Nat} (hunit : unit = 8 ∨ unit = 16) (hword : bitsize ≤ 16)
    (hfixed : ∀ offset size pos, 0 < size → pos + size ≤ unit → offset % (unit / 8) = 0 →
      ∃ e, fixed (.mem base) offset size pos = some e ∧ e.mode = wordMode ∧
        Field base (8 * offset + pos) size true e)
    (fuel : Nat) {bitsdone : Nat} {result : Option Rtx} (hdone : bitsdone ≤ bitsize)
    (hfuel : bitsize - bitsdone ≤ fuel) (hc : Collected base bitpos bitsdone result) :
    ∃ result', extractParts fixed (.mem base) bitsize bitpos unit fuel bitsdone result =
      some result' ∧ Collected base bitpos bitsize result' := by
  induction fuel generalizing bitsdone result with
  | zero =>
    obtain rfl : bitsdone = bitsize := by omega
    exact ⟨result, by simp [extractParts], hc⟩
  | succ fuel ih =>
    by_cases hlt : bitsdone < bitsize
    · have hmod := Nat.mod_lt (bitpos + bitsdone) (show 0 < unit by omega)
      have hdivmod := Nat.div_add_mod (bitpos + bitsdone) unit
      obtain ⟨thissize, hthis⟩ : ∃ thissize, thissize = min (min (bitsize - bitsdone) bitsPerWord)
          (unit - (bitpos + bitsdone) % unit) := ⟨_, rfl⟩
      have hpos : 0 < thissize ∧ thissize ≤ bitsize - bitsdone ∧
          (bitpos + bitsdone) % unit + thissize ≤ unit := by
        rw [hthis]
        simp only [bitsPerWord]
        omega
      obtain ⟨part, hrun, hmode, hpart⟩ := hfixed ((bitpos + bitsdone) / unit * unit / 8) thissize
        ((bitpos + bitsdone) % unit) hpos.1 hpos.2.2 (by
          obtain rfl | rfl := hunit <;> omega)
      have hstart : 8 * ((bitpos + bitsdone) / unit * unit / 8) + (bitpos + bitsdone) % unit =
          bitpos + bitsdone := by
        obtain rfl | rfl := hunit <;> omega
      rw [hstart] at hpart
      have hstep := hc.step hmode hpart (by omega)
      obtain ⟨result', hrun', hc'⟩ := ih (by omega) (by omega) hstep
      refine ⟨result', ?_, hc'⟩
      rw [extractParts, if_pos hlt]
      simp only [← hthis, hrun, bind, Option.bind]
      cases result <;> exact hrun'
    · obtain rfl : bitsdone = bitsize := by omega
      exact ⟨result, by simp [extractParts], hc⟩

theorem extractFixedBitField_field (base : BitVec 16) {fuel : Nat} {tmode : Mode}
    (offset bitpos : Nat) {bitsize align : Nat} (hfuel : 2 ≤ fuel)
    (hsize : 0 < bitsize) (hword : bitsize ≤ 16) (htmode : bitsize ≤ tmode.bits)
    (hpos : bitpos < 8 ∨ offset % 2 = 0 ∧ bitpos < 16) (halign : 0 < align) (unsignedp : Bool) :
    ∃ e, extractFixedBitField h fuel tmode (.mem base) offset bitsize bitpos unsignedp align =
        some e ∧ Field base (8 * offset + bitpos) bitsize unsignedp e := by
  obtain ⟨fuel, rfl⟩ := Nat.exists_eq_add_of_le hfuel
  rw [Nat.add_comm]
  cases hbest : getBestMode bitsize (bitpos + offset * 8) (align * 8) wordMode with
  | some m =>
    obtain ⟨e, hrun, -, hread⟩ := extractFixed_fits (h := h) (fuel + 1) tmode hsize htmode hpos hbest
      unsignedp
    exact ⟨e, hrun, hread⟩
  | none =>
    have hunit : min (align * 8) bitsPerWord = 8 ∨ min (align * 8) bitsPerWord = 16 := by
      simp only [bitsPerWord]
      omega
    have hfixed : ∀ offset size pos, 0 < size → pos + size ≤ min (align * 8) bitsPerWord →
        offset % (min (align * 8) bitsPerWord / 8) = 0 → ∃ e, extractFixedBitField h (fuel + 1)
          wordMode (.mem base) offset size pos true align = some e ∧ e.mode = wordMode ∧
            Field base (8 * offset + pos) size true e := by
      intro offset size pos hsize hfits hoffset
      obtain ⟨m, hbest⟩ : ∃ m, getBestMode size (pos + offset * 8) (align * 8) wordMode = some m :=
        getBestMode_fits (by omega) (by
          obtain hu | hu := hunit <;> rw [hu] at hfits hoffset <;> omega)
      obtain ⟨e, hrun, hmode, hread⟩ := extractFixed_fits (h := h) fuel wordMode hsize
        (by rw [bits_wordMode]; omega) (by
          obtain hu | hu := hunit <;> rw [hu] at hfits hoffset <;> omega) hbest true
      exact ⟨e, hrun, hmode rfl, hread⟩
    obtain ⟨result, hparts, hc⟩ := extractParts_collected
      (fun op0 offset bitsize bitpos =>
        extractFixedBitField h (fuel + 1) wordMode op0 offset bitsize bitpos true align)
      hunit hword hfixed bitsize (Nat.zero_le _) le_rfl
      (show Collected base (bitpos + offset * 8) 0 none from rfl)
    cases result with
    | none => exact absurd hc hsize.ne'
    | some result =>
      obtain ⟨hmode, hread⟩ := hc
      rw [show bitpos + offset * 8 = 8 * offset + bitpos by omega] at hread
      have hrun : extractFixedBitField h (fuel + 2) tmode (.mem base) offset bitsize bitpos unsignedp
          align = if unsignedp then some result else some (.rshift wordMode false
            (.lshift wordMode result (bitsPerWord - bitsize)) (bitsPerWord - bitsize)) := by
        rw [extractFixedBitField]
        simp only [hbest, extractSplitBitField, hparts, bind, Option.bind]
        cases unsignedp <;> rfl
      rw [hrun]
      cases unsignedp
      · exact ⟨_, rfl, fun mm => reads_signExtended hsize (by rwa [bits_wordMode]) fun i hi => by
          rw [(hread mm).bit i (by rw [hmode, bits_wordMode]; omega), if_pos hi]⟩
      · exact ⟨_, rfl, hread⟩

theorem modeForSize_some {size : Nat} {m : Mode} (hfind : modeForSize size = some m) :
    m.bits = size := by
  simpa using List.find?_some hfind

theorem field_mem (base : BitVec 16) {strMode : Option Mode} {bitsize bitnum : Nat} {m : Mode} (hm : m.bits = bitsize)
    (hstr : ∀ m, strMode = some m → bitnum + bitsize ≤ m.bits) (hbitpos : bitnum % 8 = 0)
    (unsignedp : Bool) :
    Field base bitnum bitsize unsignedp
      (.mem m (if m ≠ strMode then offsetBy base (bitnum / 8) else base)) := by
  have haddr : (if m ≠ strMode then offsetBy base (bitnum / 8) else base) =
      offsetBy base (bitnum / 8) := by
    split
    · rfl
    · next heq =>
      have hzero := hstr m (not_not.1 heq).symm
      rw [show bitnum / 8 = 0 by omega]
      simp [offsetBy]
  rw [haddr]
  refine fun mm => ⟨hm.ge, fun i (hi : i < m.bits) => ?_⟩
  rw [Rtx.bit_mem, decide_eq_true hi, Bool.true_and, bit_offsetBy, if_pos (hm ▸ hi), field,
    show 8 * (bitnum / 8) = bitnum by omega]

theorem modeForSize_bits (m : Mode) : modeForSize m.bits = some m := by
  cases m <;> rfl

/-- The condition of the case that needs no shifts and masks. -/
def Whole (bitsize bitnum : Nat) (mode : Mode) : Prop :=
  bitsPerWord ≤ bitsize ∧ bitsize = mode.bits ∧ bitnum % 8 % bitsPerWord = 0 ∨
    (modeForSize bitsize).isSome ∧ bitnum % 8 = 0

theorem Whole.mode_and_byte {bitsize bitnum : Nat} {mode : Mode} (hw : Whole bitsize bitnum mode) :
    (∃ m, modeForSize bitsize = some m) ∧ bitnum % 8 = 0 := by
  obtain ⟨-, rfl, hzero⟩ | ⟨hsome, hzero⟩ := hw
  · refine ⟨⟨mode, modeForSize_bits mode⟩, ?_⟩
    rwa [Nat.mod_eq_of_lt (by simp only [bitsPerWord]; omega)] at hzero
  · exact ⟨Option.isSome_iff_exists.1 hsome, hzero⟩

section Extract

variable (fresh : (m : Mode) → BitVec m.bits) {strMode tmode : Option Mode}
  {bitsize bitnum align : Nat} {mode : Mode}

theorem extractBitField_whole (fuel : Nat) (hw : Whole bitsize bitnum mode) (hsize : 0 < bitsize)
    (htmode : bitsize ≤ (tmode.getD mode).bits)
    (hstr : ∀ m, strMode = some m → bitnum + bitsize ≤ m.bits) (unsignedp : Bool) :
    ∃ e, extractBitField h fresh (fuel + 1) strMode base bitsize bitnum unsignedp mode tmode align =
        some e ∧ (e.mode = mode ∨ e.mode = tmode.getD mode) ∧
      Field base bitnum bitsize unsignedp e := by
  obtain ⟨⟨m, hm⟩, hbitpos⟩ := hw.mode_and_byte
  have hread := field_mem base (modeForSize_some hm) hstr hbitpos unsignedp
  unfold Whole at hw
  rw [extractBitField]
  simp only
  rw [if_pos hw]
  simp only [hm, bind, Option.bind]
  by_cases heq : m = mode
  · rw [if_neg (not_not.2 heq)]
    exact ⟨_, rfl, .inl heq, hread⟩
  · rw [if_pos heq]
    exact ⟨_, rfl, .inr rfl, fun mm => (hread mm).convert hsize htmode⟩

theorem extractBitField_narrow (fuel : Nat) (hsize : 0 < bitsize) (hword : bitsize ≤ 16)
    (htmode : bitsize ≤ (tmode.getD mode).bits)
    (hstr : ∀ m, strMode = some m → bitnum + bitsize ≤ m.bits) (halign : 0 < align)
    (unsignedp : Bool) :
    ∃ e, extractBitField h fresh (fuel + 3) strMode base bitsize bitnum unsignedp mode tmode align =
        some e ∧ (e.mode = mode ∨ e.mode = tmode.getD mode) ∧
      Field base bitnum bitsize unsignedp e := by
  by_cases hw : Whole bitsize bitnum mode
  · exact extractBitField_whole fresh (fuel + 2) hw hsize htmode hstr unsignedp
  obtain ⟨e, hrun, hread⟩ := extractFixedBitField_field (h := h) base (bitnum / 8) (bitnum % 8)
    (show 2 ≤ fuel + 2 by omega) hsize hword htmode (.inl (Nat.mod_lt _ (by decide))) halign
    unsignedp
  rw [Nat.div_add_mod] at hread
  unfold Whole at hw
  rw [extractBitField]
  simp only
  rw [if_neg hw, if_neg (show ¬ bitsPerWord < bitsize from not_lt.2 hword)]
  simp only [hrun, bind, Option.bind]
  split
  · exact ⟨_, rfl, .inr rfl, fun mm => (hread mm).convert hsize htmode⟩
  · next hneither =>
    refine ⟨e, rfl, ?_, hread⟩
    tauto

end Extract

theorem moveWords_field {piece : Nat → Option Rtx} (target : Rtx) {bitsize bitnum : Nat} (n : Nat)
    (hpiece : ∀ i < n, ∃ e, piece i = some e ∧ ∀ mm, ∀ j < 16,
      e.bit mm j = if 16 * i + j < bitsize then field mm base bitnum (16 * i + j) else false) :
    ∃ e, moveWords piece target n = some e ∧ e.mode = target.mode ∧ ∀ mm, ∀ i < target.mode.bits,
      i < 16 * n → e.bit mm i = if i < bitsize then field mm base bitnum i else false := by
  induction n with
  | zero => exact ⟨target, rfl, rfl, fun _ i _ hi => by omega⟩
  | succ n ih =>
    obtain ⟨e, hrun, hmode, hbit⟩ := ih fun i hi => hpiece i (Nat.lt_succ_of_lt hi)
    obtain ⟨part, hpart, hbits⟩ := hpiece n (Nat.lt_succ_self n)
    refine ⟨.setSubword e n part, by simp [moveWords, hrun, hpart], hmode, fun mm i hi hlt => ?_⟩
    rw [Rtx.bit_setSubword, hmode, decide_eq_true hi, Bool.true_and]
    by_cases hin : 16 * n ≤ i
    · have hbit' := hbits mm (i - 16 * n) (by omega)
      rw [Nat.add_sub_cancel' hin] at hbit'
      exact (if_pos ⟨hin, hlt⟩).trans hbit'
    · exact (if_neg fun hboth => hin hboth.1).trans (hbit mm i hi (not_le.1 hin))

theorem zeroWords_field (target : Rtx) (nwords n : Nat) :
    (zeroWords target nwords n).mode = target.mode ∧ ∀ mm, ∀ i < target.mode.bits,
      (zeroWords target nwords n).bit mm i =
        if 16 * nwords ≤ i ∧ i < 16 * (nwords + n) then false else target.bit mm i := by
  induction n with
  | zero => exact ⟨rfl, fun mm i hi => by rw [if_neg (by omega)]; rfl⟩
  | succ n ih =>
    obtain ⟨hmode, hbit⟩ := ih
    refine ⟨hmode, fun mm i hi => ?_⟩
    rw [zeroWords, Rtx.bit_setSubword, hmode, decide_eq_true hi, Bool.true_and, hbit mm i hi,
      Rtx.bit_const_zero _ _ _ (by decide)]
    by_cases hin : 16 * (nwords + n) ≤ i ∧ i < 16 * (nwords + n + 1)
    · refine (if_pos hin).trans ?_
      rw [if_pos (by omega)]
      simp
    · refine (if_neg hin).trans ?_
      by_cases hlow : 16 * nwords ≤ i ∧ i < 16 * (nwords + n)
      · rw [if_pos hlow, if_pos (by omega)]
      · rw [if_neg hlow, if_neg (by omega)]

section Extract

variable (fresh : (m : Mode) → BitVec m.bits) {strMode tmode : Option Mode}
  {bitsize bitnum align : Nat} {mode : Mode}

theorem extractBitField_wide (fuel : Nat) (hword : 16 < bitsize) (hlong : bitsize ≤ 32)
    (hw : ¬ Whole bitsize bitnum mode) (hmode : bitsize ≤ mode.bits)
    (hstr : ∀ m, strMode = some m → bitnum + bitsize ≤ m.bits) (halign : 0 < align)
    (unsignedp : Bool) :
    ∃ e, extractBitField h fresh (fuel + 4) strMode base bitsize bitnum unsignedp mode tmode align =
        some e ∧ e.mode = mode ∧ Field base bitnum bitsize unsignedp e := by
  have hnwords : (bitsize + (bitsPerWord - 1)) / bitsPerWord = 2 := by
    simp only [bitsPerWord]
    omega
  have hpiece : ∀ i < 2, ∃ e, extractBitField h fresh (fuel + 3) strMode base
      (min bitsPerWord (bitsize - i * bitsPerWord)) (bitnum + i * bitsPerWord) true mode
        (some wordMode) align = some e ∧ ∀ mm, ∀ j < 16,
      e.bit mm j = if 16 * i + j < bitsize then field mm base bitnum (16 * i + j) else false := by
    intro i hi
    have hmin : min bitsPerWord (bitsize - i * bitsPerWord) = min 16 (bitsize - 16 * i) := by
      rw [Nat.mul_comm]
    have hpos : bitnum + i * bitsPerWord = bitnum + 16 * i := by
      rw [Nat.mul_comm]
    obtain ⟨size, hsize⟩ : ∃ size, size = min 16 (bitsize - 16 * i) := ⟨_, rfl⟩
    obtain ⟨e, hrun, hemode, hread⟩ : ∃ e, extractBitField h fresh (fuel + 3) strMode base size
        (bitnum + 16 * i) true mode (some wordMode) align = some e ∧
          (e.mode = mode ∨ e.mode = wordMode) ∧ Field base (bitnum + 16 * i) size true e :=
      extractBitField_narrow fresh fuel (by omega) (by omega) (show size ≤ 16 by omega)
        (fun m hm => by have hle := hstr m hm; omega) halign true
    refine ⟨e, by rw [hmin, hpos, ← hsize]; exact hrun, fun mm j hj => ?_⟩
    have hjmode : j < e.mode.bits := by
      obtain hemode | hemode := hemode <;> rw [hemode]
      · omega
      · exact hj
    rw [(hread mm).bit j hjmode, field, field, Nat.add_assoc]
    by_cases hin : 16 * i + j < bitsize
    · rw [if_pos (by omega), if_pos hin]
      rfl
    · rw [if_neg (by omega), if_neg hin]
      rfl
  obtain ⟨target, hmove, htarget, hbit⟩ := moveWords_field (.reg mode (fresh mode)) 2 hpiece
  replace htarget : target.mode = mode := htarget
  replace hbit : ∀ mm, ∀ i < mode.bits, i < 32 → target.bit mm i =
    if i < bitsize then field mm base bitnum i else false := hbit
  unfold Whole at hw
  rw [extractBitField]
  simp only
  rw [if_neg hw, if_pos (show bitsPerWord < bitsize from hword), hnwords, hmove]
  simp only [bind, Option.bind]
  cases unsignedp
  · exact ⟨_, rfl, rfl, fun mm => reads_signExtended (by omega) hmode fun i hi => by
      rw [hbit mm i (by omega) (by omega), if_pos hi]⟩
  · obtain ⟨hzmode, hzbit⟩ := zeroWords_field target 2 (mode.size / unitsPerWord - 2)
    have hsize : mode.bits = 16 * (mode.size / unitsPerWord) := by
      cases mode <;> simp [Mode.bits, Mode.size, unitsPerWord] at hmode ⊢
      omega
    refine ⟨_, rfl, hzmode.trans htarget, fun mm => ⟨by rw [hzmode, htarget]; exact hmode,
      fun i hi => ?_⟩⟩
    rw [hzmode, htarget] at hi
    rw [hzbit mm i (by rwa [htarget])]
    by_cases hlow : i < 32
    · rw [if_neg (by omega), hbit mm i hi hlow]
      rfl
    · rw [if_pos (by omega), if_neg (by omega)]
      rfl

theorem extractBitField_field {fuel : Nat} (hfuel : 4 ≤ fuel) (hsize : 0 < bitsize)
    (hlong : bitsize ≤ 32) (hmode : bitsize ≤ mode.bits) (htmode : bitsize ≤ (tmode.getD mode).bits)
    (hstr : ∀ m, strMode = some m → bitnum + bitsize ≤ m.bits) (halign : 0 < align)
    (unsignedp : Bool) :
    ∃ e, extractBitField h fresh fuel strMode base bitsize bitnum unsignedp mode tmode align =
        some e ∧ (e.mode = mode ∨ e.mode = tmode.getD mode) ∧
      Field base bitnum bitsize unsignedp e := by
  obtain ⟨fuel, rfl⟩ := Nat.exists_eq_add_of_le' hfuel
  by_cases hword : bitsize ≤ 16
  · exact extractBitField_narrow fresh (fuel + 1) hsize hword htmode hstr halign unsignedp
  · by_cases hw : Whole bitsize bitnum mode
    · exact extractBitField_whole fresh (fuel + 3) hw hsize htmode hstr unsignedp
    · obtain ⟨e, hrun, hemode, hread⟩ : ∃ e, extractBitField h fresh (fuel + 4) strMode base bitsize
          bitnum unsignedp mode tmode align = some e ∧ e.mode = mode ∧
            Field base bitnum bitsize unsignedp e :=
        extractBitField_wide fresh fuel (not_le.1 hword) hlong hw hmode hstr halign unsignedp
      exact ⟨e, hrun, .inl hemode, hread⟩

end Extract

end Split

end Z80Gcc.BitField
