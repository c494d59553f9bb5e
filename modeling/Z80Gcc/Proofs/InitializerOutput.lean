import Mathlib
import Z80Gcc.Spec.InitializerImage
import Z80Gcc.Proofs.BitStore

/-! `output_constructor` puts every element at its place, with index ranges behind the elements before
them. -/

namespace Z80Gcc.Initializer

open Z80Gcc.BitField Z80Gcc.Placement

variable {h : Host}

section Bytes

theorem imageBit_of_ge {bytes : List Byte} {k : Nat} (hk : 8 * bytes.length ≤ k) :
    imageBit bytes k = false := by
  rw [imageBit, List.getD_eq_default _ _ (by omega)]
  simp

theorem imageBit_append (bytes bytes' : List Byte) (k : Nat) : imageBit (bytes ++ bytes') k =
    if k < 8 * bytes.length then imageBit bytes k else imageBit bytes' (k - 8 * bytes.length) := by
  rw [imageBit]
  split
  · rw [List.getD_append _ _ _ _ (by omega), imageBit]
  · rw [List.getD_append_right _ _ _ _ (by omega), imageBit,
      show k / 8 - bytes.length = (k - 8 * bytes.length) / 8 by omega,
      show (k - 8 * bytes.length) % 8 = k % 8 by omega]

theorem imageBit_zeros (size k : Nat) : imageBit (assembleZeros size) k = false := by
  rw [imageBit, assembleZeros, List.getD_eq_getElem?_getD, List.getElem?_replicate]
  split <;> simp

theorem imageBit_append_zeros (bytes : List Byte) (size k : Nat) :
    imageBit (bytes ++ assembleZeros size) k = imageBit bytes k := by
  rw [imageBit_append, imageBit_zeros]
  split
  · rfl
  · next hge => exact (imageBit_of_ge (not_lt.1 hge)).symm

theorem imageBit_take (bytes : List Byte) (size k : Nat) :
    imageBit (bytes.take size) k = (decide (k < 8 * size) && imageBit bytes k) := by
  rw [imageBit, imageBit, List.getD_eq_getElem?_getD, List.getElem?_take, List.getD_eq_getElem?_getD]
  by_cases hk : k < 8 * size
  · rw [if_pos (by omega), decide_eq_true hk, Bool.true_and]
  · rw [if_neg (by omega), decide_eq_false hk, Bool.false_and]
    simp

theorem length_leBytes {w : Nat} (x : BitVec w) (size : Nat) : (leBytes x size).length = size := by
  simp [leBytes]

theorem imageBit_leBytes {w : Nat} (x : BitVec w) (size k : Nat) :
    imageBit (leBytes x size) k = (decide (k < 8 * size) && x.getLsbD k) := by
  by_cases hk : k < 8 * size
  · rw [decide_eq_true hk, Bool.true_and, imageBit, leBytes, List.getD_eq_getElem?_getD,
      List.getElem?_map, List.getElem?_range (by omega)]
    simp [Nat.mod_lt k (show 0 < 8 by decide), Nat.div_add_mod]
  · rw [decide_eq_false hk, Bool.false_and, imageBit_of_ge]
    rw [length_leBytes]
    omega

end Bytes

section Integers

def words : Value h → BitVec (h.bits + h.bits)
  | .constInt v => Value.signWord v ++ v
  | .constDouble low high => high ++ low
  | .rtx _ => 0

def IsConst : Value h → Prop
  | .rtx _ => False
  | _ => True

theorem getLsbD_words_constInt (v : BitVec h.bits) {k : Nat} (hk : k < h.bits + h.bits) :
    (words (.constInt v)).getLsbD k = if k < h.bits then v.getLsbD k else v.msb := by
  rw [words, BitVec.getLsbD_append]
  split
  · rfl
  · unfold Value.signWord
    split
    · next hmsb => simp [hmsb, show k - h.bits < h.bits by omega]
    · next hmsb => simp [hmsb]

theorem directive_bit {x : Value h} (hx : IsConst x) {size : Nat} (hsize : 8 * size ≤ 2 * h.bits) :
    ∃ bytes, directive x size = some bytes ∧ bytes.length = size ∧
      ∀ k < 8 * size, imageBit bytes k = (words x).getLsbD k := by
  cases x with
  | constInt v =>
    refine ⟨_, rfl, length_leBytes _ _, fun k hk => ?_⟩
    rw [imageBit_leBytes, decide_eq_true hk, Bool.true_and, getLsbD_words_constInt v (by omega),
      BitVec.getLsbD_signExtend, decide_eq_true hk, Bool.true_and]
  | constDouble low high =>
    refine ⟨_, rfl, length_leBytes _ _, fun k hk => ?_⟩
    rw [imageBit_leBytes, decide_eq_true hk, Bool.true_and, BitVec.getLsbD_signExtend,
      decide_eq_true hk, Bool.true_and, if_pos (by omega), words]
  | rtx e => exact hx.elim

theorem clearBits_bit (low high : BitVec h.bits) (width : Nat) :
    (∀ k < width, (clearBits low high width).1.getLsbD k = low.getLsbD k) ∧
      (h.bits < width → (clearBits low high width).2 = high) := by
  unfold clearBits
  simp only
  split
  · next hmask =>
    refine ⟨fun k hk => ?_, fun hlt => absurd hlt (not_lt.2 hmask.1.le)⟩
    rw [BitVec.getLsbD_and, getLsbD_lowOnes hmask.1, decide_eq_true hk, Bool.and_true]
  · split
    · next heq => exact ⟨fun _ _ => rfl, fun hlt => absurd heq.1 hlt.ne'⟩
    · exact ⟨fun _ _ => rfl, fun _ => rfl⟩

theorem immedDoubleConst_bit (low high : BitVec h.bits) {m : Mode} (hm : m.bits ≤ 2 * h.bits) :
    ∃ x, immedDoubleConst low high m = some x ∧ IsConst x ∧
      ∀ k < m.bits, (words x).getLsbD k = (high ++ low).getLsbD k := by
  obtain ⟨hlow, hhigh⟩ := clearBits_bit low high m.bits
  have hext : ∀ k < m.bits, (if m.bits = bitsPerWord ∧
      (clearBits low high m.bits).1.getLsbD (m.bits - 1) then
        (clearBits low high m.bits).1 ||| BitVec.allOnes h.bits <<< m.bits
      else (clearBits low high m.bits).1).getLsbD k = low.getLsbD k := by
    intro k hk
    split
    · rw [BitVec.getLsbD_or, hlow k hk, BitVec.getLsbD_shiftLeft]
      simp [hk]
    · exact hlow k hk
  unfold immedDoubleConst
  simp only
  rw [if_neg (by omega)]
  refine ⟨_, rfl, ?_⟩
  revert hext
  generalize (if m.bits = bitsPerWord ∧ (clearBits low high m.bits).1.getLsbD (m.bits - 1) then
    (clearBits low high m.bits).1 ||| BitVec.allOnes h.bits <<< m.bits
    else (clearBits low high m.bits).1) = i0
  intro hext
  have hwords : ∀ k < m.bits, ((if m.bits ≤ h.bits then Value.signWord i0
      else (clearBits low high m.bits).2) ++ i0).getLsbD k = (high ++ low).getLsbD k := by
    intro k hk
    rw [BitVec.getLsbD_append, BitVec.getLsbD_append]
    split
    · exact hext k hk
    · rw [if_neg (by omega), hhigh (by omega)]
  revert hwords
  generalize (if m.bits ≤ h.bits then Value.signWord i0 else (clearBits low high m.bits).2) = i1
  intro hwords
  split
  · next heq =>
    refine ⟨trivial, fun k hk => ?_⟩
    rw [words, ← heq, hwords k hk]
  · exact ⟨trivial, fun k hk => by rw [words, hwords k hk]⟩

theorem constSubword_words (low high : BitVec h.bits) (hhost : h.bits % bitsPerWord = 0) {i j : Nat}
    (hi : 16 * i + j < 2 * h.bits) (hj : j < 16) :
    (Value.constSubword low high i).getLsbD j = (high ++ low).getLsbD (16 * i + j) := by
  have hwide := h.wide
  have hratio : h.bits = 16 * (h.bits / 16) := by
    unfold bitsPerWord at hhost
    omega
  obtain ⟨r, hr⟩ : ∃ r, r = h.bits / 16 := ⟨_, rfl⟩
  rw [← hr] at hratio
  have hmod : i % r < r := Nat.mod_lt _ (by omega)
  have hdiv := Nat.div_add_mod i r
  have hhalf : i / r = 0 ∨ i / r = 1 :=
    Nat.le_one_iff_eq_zero_or_eq_one.1 (Nat.lt_succ_iff.1 (Nat.div_lt_of_lt_mul (by omega)))
  rw [constSubword_shifted low high i hj, ← hr, BitVec.getLsbD_sshiftRight, if_pos (by omega),
    decide_eq_false (by omega), Bool.not_false, Bool.true_and, BitVec.getLsbD_append]
  obtain hlow | hhigh := hhalf
  · rw [hlow, Nat.mul_zero, Nat.zero_add] at hdiv
    rw [if_pos hlow, if_pos (by omega)]
    congr 1
    omega
  · rw [hhigh, Nat.mul_one] at hdiv
    rw [if_neg (by omega), if_neg (by omega)]
    congr 1
    omega

theorem operandSubword_const {x : Value h} (hx : IsConst x) (hhost : h.bits % bitsPerWord = 0)
    {m : Mode} (hm : m.bits ≤ 2 * h.bits) {i : Nat} (hi : 16 * (i + 1) ≤ m.bits)
    (hword : m ≠ wordMode) :
    ∃ word, x.operandSubword i (some m) = some word ∧ IsConst word ∧
      ∀ j < 16, (words word).getLsbD j = (words x).getLsbD (16 * i + j) := by
  have hwide := h.wide
  have hsize : m.bits = 8 * m.size := rfl
  have hrun : ∀ low high : BitVec h.bits, words x = high ++ low →
      x.operandSubword i (some m) = some (.constInt (Value.constSubword low high i)) →
      ∃ word, x.operandSubword i (some m) = some word ∧ IsConst word ∧
        ∀ j < 16, (words word).getLsbD j = (words x).getLsbD (16 * i + j) := by
    intro low high hwords hrun
    refine ⟨_, hrun, trivial, fun j hj => ?_⟩
    rw [getLsbD_words_constInt _ (by omega), if_pos (by omega), hwords,
      constSubword_words low high hhost (by omega) hj]
  have hsmall : ¬ m.size < unitsPerWord ∧ ¬ m.size < (i + 1) * unitsPerWord := by
    simp only [unitsPerWord]
    omega
  cases x with
  | constInt v =>
    refine hrun v (Value.signWord v) rfl ?_
    simp only [Value.operandSubword, Value.mode, Option.none_or, Option.bind_eq_bind, Option.bind_some,
      if_neg hsmall.1, if_neg hsmall.2, if_neg hword]
    rfl
  | constDouble low high =>
    refine hrun low high rfl ?_
    simp only [Value.operandSubword, Value.mode, Option.none_or, Option.bind_eq_bind, Option.bind_some,
      if_neg hsmall.1, if_neg hsmall.2, if_neg hword]
    rfl
  | rtx e => exact hx.elim

theorem assembleWords_bit {word : Nat → Option (List Byte)} {f : Nat → Bool} (n : Nat)
    (hword : ∀ i < n, ∃ bytes, word i = some bytes ∧ bytes.length = 2 ∧
      ∀ j < 16, imageBit bytes j = f (16 * i + j)) :
    ∃ bytes, assembleWords word n = some bytes ∧ bytes.length = 2 * n ∧
      ∀ k < 16 * n, imageBit bytes k = f k := by
  induction n with
  | zero => exact ⟨[], rfl, rfl, fun k hk => absurd hk (by omega)⟩
  | succ n ih =>
    obtain ⟨bytes, hrun, hlength, hbit⟩ := ih fun i hi => hword i (Nat.lt_succ_of_lt hi)
    obtain ⟨bytes', hrun', hlength', hbit'⟩ := hword n (Nat.lt_succ_self n)
    refine ⟨bytes ++ bytes', by simp [assembleWords, hrun, hrun'], ?_, fun k hk => ?_⟩
    · rw [List.length_append, hlength, hlength', Nat.mul_succ]
    · rw [imageBit_append, hlength]
      split
      · exact hbit k (by omega)
      · rw [hbit' _ (by omega)]
        congr 1
        omega

theorem assembleInteger_bit (hhost : h.bits % bitsPerWord = 0) {x : Value h} (hx : IsConst x)
    {m : Mode} (hm : m.bits ≤ 2 * h.bits) :
    ∃ bytes, assembleInteger x m.size = some bytes ∧ bytes.length = m.size ∧
      ∀ k < m.bits, imageBit bytes k = (words x).getLsbD k := by
  have hwide := h.wide
  have hbits : m.bits = 8 * m.size := rfl
  unfold assembleInteger
  by_cases hsmall : m.size = 1 ∨ m.size = 2 ∨ m.size = 4
  · rw [if_pos hsmall]
    exact directive_bit hx (by omega)
  · have hlarge : m.size % 2 = 0 ∧ 4 < m.size := by
      cases m <;> simp [Mode.size] at hsmall ⊢
    have hword : m ≠ wordMode := by
      rintro rfl
      exact hsmall (.inr (.inl rfl))
    rw [if_neg hsmall, if_pos (show unitsPerWord < m.size by unfold unitsPerWord; omega),
      ← hbits, modeForSize_bits]
    have hpiece : ∀ i < m.size / unitsPerWord, ∃ bytes,
        (do directive (← x.operandSubword i (some m)) unitsPerWord) = some bytes ∧
          bytes.length = 2 ∧ ∀ j < 16, imageBit bytes j = (words x).getLsbD (16 * i + j) := by
      intro i hi
      obtain ⟨word, hsub, hconst, hwbit⟩ := operandSubword_const hx hhost hm
        (show 16 * (i + 1) ≤ m.bits by unfold unitsPerWord at hi; omega) hword
      obtain ⟨bytes, hdir, hlen, hdbit⟩ := directive_bit hconst (show 8 * 2 ≤ 2 * h.bits by omega)
      exact ⟨bytes, by simp [hsub, hdir], hlen, fun j hj => (hdbit j (by omega)).trans (hwbit j hj)⟩
    obtain ⟨bytes, hrun, hlength, hbit⟩ := assembleWords_bit _ hpiece
    refine ⟨bytes, hrun, ?_, fun k hk => hbit k ?_⟩
    · rw [hlength, unitsPerWord]
      omega
    · unfold unitsPerWord
      omega

end Integers

section Output

/-- The bits up to `e` are output or buffered, with the image so far. -/
structure State.At (s : State) (e : Nat) (f : Nat → Bool) : Prop where
  total : s.totalBytes = s.out.length
  bits : ∀ k, imageBit s.flush.out k = f k
  pos : if s.byteBufferInUse then 8 * s.totalBytes < e ∧ e ≤ 8 * s.totalBytes + 8
    else e = 8 * s.totalBytes
  above : ∀ k, e ≤ k → f k = false

variable {s : State} {e : Nat} {f : Nat → Bool}

theorem State.start_at : State.start.At 0 fun _ => false :=
  ⟨rfl, fun _ => imageBit_of_ge (Nat.zero_le _), rfl, fun _ _ => rfl⟩

theorem State.At.unbuffered (hs : s.At e f) (huse : s.byteBufferInUse = false) :
    e = 8 * s.totalBytes ∧ s.flush = s ∧ ∀ k, imageBit s.out k = f k := by
  have hflush : s.flush = s := by
    rw [State.flush, huse]
    rfl
  refine ⟨?_, hflush, fun k => ?_⟩
  · have hpos := hs.pos
    rwa [huse] at hpos
  · rw [← hs.bits k, hflush]

theorem State.at_of_unbuffered (huse : s.byteBufferInUse = false)
    (htotal : s.totalBytes = s.out.length) (hbits : ∀ k, imageBit s.out k = f k) :
    s.At (8 * s.totalBytes) f := by
  refine ⟨htotal, fun k => ?_, by simp [huse], fun k hk => ?_⟩
  · rw [State.flush, huse]
    exact hbits k
  · rw [← hbits k, imageBit_of_ge (by omega)]

theorem State.At.flush (hs : s.At e f) : s.flush.At (8 * s.flush.totalBytes) f ∧
    s.flush.byteBufferInUse = false ∧ e ≤ 8 * s.flush.totalBytes ∧ 8 * s.flush.totalBytes < e + 8 := by
  by_cases huse : s.byteBufferInUse = true
  · have hflush : s.flush = ⟨s.out ++ [s.byte], s.totalBytes + 1, false, s.byte⟩ := if_pos huse
    have hpos := hs.pos
    have htotal := hs.total
    have hbits := hs.bits
    rw [if_pos huse] at hpos
    rw [hflush] at hbits ⊢
    refine ⟨State.at_of_unbuffered rfl ?_ hbits, rfl, ?_, ?_⟩
    · simp [htotal]
    · simp only
      omega
    · simp only
      omega
  · obtain ⟨hpos, hflush, hbits⟩ := hs.unbuffered (Bool.not_eq_true _ ▸ huse)
    rw [hflush, ← hpos]
    exact ⟨hs, Bool.not_eq_true _ ▸ huse, le_refl e, by omega⟩

theorem State.At.advance (hs : s.At e f) (huse : s.byteBufferInUse = false) {bytes : Nat}
    (hle : e ≤ 8 * bytes) :
    (s.advance bytes).At (8 * bytes) f ∧ (s.advance bytes).byteBufferInUse = false := by
  obtain ⟨hpos, -, hbits⟩ := hs.unbuffered huse
  have htotal := hs.total
  unfold State.advance
  split
  · refine ⟨State.at_of_unbuffered huse ?_ fun k => ?_, huse⟩
    · simp only [State.assemble, assembleZeros, List.length_append, List.length_replicate]
      omega
    · exact (imageBit_append_zeros ..).trans (hbits k)
  · next heq =>
    obtain rfl := not_not.1 heq
    exact ⟨State.at_of_unbuffered huse htotal hbits, huse⟩

theorem State.At.outputBytes (hs : s.At e f) (huse : s.byteBufferInUse = false)
    {bytes : List Byte} {fieldsize : Nat} (hlength : bytes.length = fieldsize) {bit : Nat → Bool}
    (hbit : ∀ k, imageBit bytes k = bit k) :
    (s.outputBytes bytes fieldsize).At (e + 8 * fieldsize)
        (fun k => f k || Item.alone ⟨e, 8 * fieldsize, bit⟩ k) ∧
      (s.outputBytes bytes fieldsize).byteBufferInUse = false := by
  obtain ⟨hpos, -, hbits⟩ := hs.unbuffered huse
  have htotal := hs.total
  have hend : e + 8 * fieldsize = 8 * (s.outputBytes bytes fieldsize).totalBytes := by
    simp only [State.outputBytes]
    omega
  rw [hend]
  refine ⟨State.at_of_unbuffered huse ?_ fun k => ?_, huse⟩
  · simp only [State.outputBytes, State.assemble, List.length_append]
    omega
  · rw [← hbits k]
    refine (imageBit_append ..).trans ?_
    rw [← htotal, ← hpos]
    by_cases hin : e ≤ k ∧ k < e + 8 * fieldsize
    · rw [if_neg (by omega), hbit, imageBit_of_ge (by omega), Bool.false_or, Item.alone_mk,
        decide_eq_true hin, Bool.true_and]
    · rw [Item.alone_mk, decide_eq_false hin, Bool.false_and, Bool.or_false]
      split
      · rfl
      · next hge => rw [imageBit_of_ge (by omega), imageBit_of_ge (by omega)]

theorem outputRange_at {output : Option (List Byte)} {bytes : List Byte} {fieldsize : Nat}
    (houtput : output = some bytes) (hlength : bytes.length = fieldsize) {bit : Nat → Bool}
    (hbit : ∀ k, imageBit bytes k = bit k) (n : Nat) (hs : s.At e f)
    (huse : s.byteBufferInUse = false) :
    ∃ s', outputRange output fieldsize n s = some s' ∧ s'.byteBufferInUse = false ∧
      s'.At (e + 8 * fieldsize * n)
        (fun k => f k || image (copies (8 * fieldsize) bit e n) k) := by
  subst houtput
  induction n generalizing s e f with
  | zero => exact ⟨s, rfl, huse, by simpa [copies] using hs⟩
  | succ n ih =>
    obtain ⟨hs₁, huse₁⟩ := hs.outputBytes huse hlength hbit
    obtain ⟨s', hrun, huse', hs'⟩ := ih hs₁ huse₁
    refine ⟨s', by simp [outputRange, hrun], huse', ?_⟩
    rw [show e + 8 * fieldsize * (n + 1) = e + 8 * fieldsize + 8 * fieldsize * n by
      rw [Nat.mul_succ]; omega]
    simpa [copies, Bool.or_assoc] using hs'

/-- A byte is being filled; the bits up to `p` are. -/
structure State.Filling (s : State) (p : Nat) (f : Nat → Bool) : Prop where
  total : s.totalBytes = s.out.length
  bits : ∀ k, imageBit (s.out ++ [s.byte]) k = f k
  low : 8 * s.totalBytes ≤ p
  high : p ≤ 8 * s.totalBytes + 8
  above : ∀ k, p ≤ k → f k = false

theorem imageBit_singleton (bytes : List Byte) (byte : Byte) {k : Nat}
    (hge : 8 * bytes.length ≤ k) :
    imageBit (bytes ++ [byte]) k = byte.getLsbD (k - 8 * bytes.length) := by
  rw [imageBit_append, if_neg (by omega), imageBit]
  by_cases hk : k - 8 * bytes.length < 8
  · rw [Nat.div_eq_of_lt hk, Nat.mod_eq_of_lt hk]
    rfl
  · rw [BitVec.getLsbD_of_ge byte _ (by omega), List.getD_eq_default _ _ (by simp; omega)]
    simp

theorem State.Filling.nextBytes {p : Nat} (hs : s.Filling p f) :
    (s.nextBytes (p / 8 - s.totalBytes)).Filling p f ∧
      (s.nextBytes (p / 8 - s.totalBytes)).totalBytes = p / 8 := by
  obtain ⟨htotal, hbits, hlow, hhigh, habove⟩ := hs
  by_cases hfull : p = 8 * s.totalBytes + 8
  · rw [show p / 8 - s.totalBytes = 1 by omega]
    refine ⟨⟨by simp [State.nextBytes, htotal], fun k => ?_, ?_, ?_, habove⟩, ?_⟩
    · rw [← hbits k]
      exact imageBit_append_zeros (s.out ++ [s.byte]) 1 k
    all_goals simp only [State.nextBytes]; omega
  · rw [show p / 8 - s.totalBytes = 0 by omega]
    exact ⟨⟨htotal, hbits, hlow, hhigh, habove⟩, show s.totalBytes = p / 8 by omega⟩

theorem State.Filling.piece {p : Nat} (hs : s.Filling p f) (htotal : s.totalBytes = p / 8)
    {thisTime : Nat} (htime : thisTime ≤ 8 - p % 8) {piece : BitVec h.bits} {bit : Nat → Bool}
    (hpiece : ∀ j, piece.getLsbD j = (decide (j < thisTime) && bit j)) (inUse : Bool) :
    (State.mk s.out s.totalBytes inUse (s.byte ||| (piece <<< (p % 8)).setWidth 8)).Filling
      (p + thisTime) fun k => f k || Item.alone ⟨p, thisTime, bit⟩ k := by
  have hhost := h.wide
  obtain ⟨hlen, hbits, hlow, hhigh, habove⟩ := hs
  refine ⟨hlen, fun k => ?_, ?_, ?_, fun k hk => ?_⟩
  · rw [Item.alone_mk]
    by_cases hk : 8 * s.out.length ≤ k
    · have hold := hbits k
      rw [imageBit_singleton _ _ hk] at hold
      rw [imageBit_singleton _ _ hk, BitVec.getLsbD_or, hold, BitVec.getLsbD_setWidth,
        BitVec.getLsbD_shiftLeft, hpiece]
      congr 1
      by_cases hin : p ≤ k ∧ k < p + thisTime
      · rw [decide_eq_true hin, decide_eq_true (show k - 8 * s.out.length < 8 by omega),
          decide_eq_true (show k - 8 * s.out.length < h.bits by omega),
          decide_eq_false (show ¬ k - 8 * s.out.length < p % 8 by omega),
          decide_eq_true (show k - 8 * s.out.length - p % 8 < thisTime by omega),
          show k - 8 * s.out.length - p % 8 = k - p by omega]
        rfl
      · rw [decide_eq_false hin, Bool.false_and]
        by_cases hbelow : k - 8 * s.out.length < p % 8
        · simp [hbelow]
        · simp [show ¬ k - 8 * s.out.length - p % 8 < thisTime by omega]
    · have hold := hbits k
      have hin : k < 8 * s.out.length := not_le.1 hk
      rw [imageBit_append, if_pos hin] at hold ⊢
      rw [hold, decide_eq_false (by omega), Bool.false_and, Bool.or_false]
  · simp only
    omega
  · simp only
    omega
  · rw [habove k (by omega), Item.alone_mk, decide_eq_false (by omega), Bool.false_and,
      Bool.false_or]

theorem piece_bit (low : BitVec h.bits) {shift thisTime : Nat} (htime : thisTime ≤ 8)
    (hshift : shift + thisTime ≤ 32) (j : Nat) :
    (low.sshiftRight shift &&& (1#h.bits <<< thisTime - 1)).getLsbD j =
      (decide (j < thisTime) && low.getLsbD (shift + j)) := by
  have hhost := h.wide
  rw [BitVec.getLsbD_and, getLsbD_lowOnes (by omega), Bool.and_comm]
  by_cases hj : j < thisTime
  · rw [decide_eq_true hj, BitVec.getLsbD_sshiftRight, if_pos (by omega), decide_eq_false (by omega)]
    rfl
  · rw [decide_eq_false hj, Bool.false_and, Bool.false_and]

theorem outputPieces_filling (low high : BitVec h.bits) {bitpos size : Nat} (hsize : size ≤ 32)
    (fuel : Nat) {p : Nat} (hs : s.Filling p f) (hstart : bitpos ≤ p) (hend : p ≤ bitpos + size)
    (hfuel : bitpos + size - p ≤ fuel) :
    ∃ s', outputPieces low high bitpos (bitpos + size) fuel p s = some s' ∧
      s'.Filling (bitpos + size) (fun k => f k || Item.alone ⟨p, bitpos + size - p,
        fun j => low.getLsbD (p - bitpos + j)⟩ k) ∧
      (s.byteBufferInUse = true ∧ 8 * s.totalBytes < p ∨ p < bitpos + size →
        s'.byteBufferInUse = true ∧ 8 * s'.totalBytes < bitpos + size) := by
  have hhost := h.wide
  induction fuel generalizing s f p with
  | zero =>
    obtain rfl : p = bitpos + size := by omega
    refine ⟨s, by simp [outputPieces], by simpa using hs, fun huse => ?_⟩
    exact huse.resolve_right (lt_irrefl _)
  | succ fuel ih =>
    rw [outputPieces]
    by_cases hlt : p < bitpos + size
    · obtain ⟨hs₁, htotal₁⟩ := hs.nextBytes
      obtain ⟨thisTime, htime⟩ : ∃ t, t = min (bitpos + size - p) (8 - p % 8) := ⟨_, rfl⟩
      have hs₂ := hs₁.piece htotal₁ (show thisTime ≤ 8 - p % 8 by omega)
        (piece_bit low (by omega) (show p - bitpos + thisTime ≤ 32 by omega)) true
      obtain ⟨s', hrun, hs', huse⟩ := ih hs₂ (by omega) (by omega) (by omega)
      refine ⟨s', ?_, ?_, fun _ => huse (.inl ⟨rfl, ?_⟩)⟩
      · simp only
        rw [if_pos hlt, ← htime, if_neg (show ¬ (p - bitpos < h.bits ∧
          h.bits < p - bitpos + thisTime) by omega)]
        simp only
        rw [if_pos (show p - bitpos < h.bits by omega)]
        exact hrun
      · have hsplit : ∀ k, (Item.alone ⟨p, thisTime, fun j => low.getLsbD (p - bitpos + j)⟩ k ||
            Item.alone ⟨p + thisTime, bitpos + size - (p + thisTime),
              fun j => low.getLsbD (p + thisTime - bitpos + j)⟩ k) =
            Item.alone ⟨p, bitpos + size - p, fun j => low.getLsbD (p - bitpos + j)⟩ k := by
          intro k
          have hadd : ∀ j, p + thisTime - bitpos + j = p - bitpos + (thisTime + j) := by omega
          simp only [hadd]
          rw [Item.alone_split p thisTime _ (fun j => low.getLsbD (p - bitpos + j)) k,
            show thisTime + (bitpos + size - (p + thisTime)) = bitpos + size - p by omega]
        simpa only [Bool.or_assoc, hsplit] using hs'
      · simp only
        omega
    · obtain rfl : p = bitpos + size := by omega
      rw [if_neg hlt]
      exact ⟨s, rfl, by simpa using hs, fun huse => huse.resolve_right hlt⟩

/-- The byte where a bit-field starts, cleared unless there are bit-fields in it. -/
theorem State.At.filling (hs : s.At e f) {p : Nat} (hpos : e ≤ p) (htotal : p / 8 = s.totalBytes) :
    State.Filling (if s.byteBufferInUse then s else { s with byte := 0 }) p f := by
  have hlen := hs.total
  have hmod := Nat.div_add_mod p 8
  have hlt := Nat.mod_lt p (show 0 < 8 by decide)
  have habove : ∀ k, p ≤ k → f k = false := fun k hk => hs.above k (by omega)
  split
  · next huse =>
    refine ⟨hlen, fun k => ?_, by omega, by omega, habove⟩
    have hbit := hs.bits k
    rwa [State.flush, if_pos huse] at hbit
  · next huse =>
    obtain ⟨-, -, hbits⟩ := hs.unbuffered (Bool.not_eq_true _ ▸ huse)
    refine ⟨hlen, fun k => ?_, ?_, ?_, habove⟩
    · exact (imageBit_append_zeros s.out 1 k).trans (hbits k)
    all_goals simp only; omega

theorem State.Filling.at_end {p : Nat} (hs : s.Filling p f)
    (huse : s.byteBufferInUse = true ∧ 8 * s.totalBytes < p) : s.At p f := by
  refine ⟨hs.total, fun k => ?_, ?_, hs.above⟩
  · rw [State.flush, if_pos huse.1]
    exact hs.bits k
  · rw [if_pos huse.1]
    exact ⟨huse.2, hs.high⟩

theorem outputBitField_at (low high : BitVec h.bits) {field : FieldDecl} (hs : s.At e f)
    (hpos : e ≤ field.bitpos) (hnonempty : 0 < field.size) (hsize : field.size ≤ 32) :
    ∃ s', outputBitField low high field s = some s' ∧ s'.At (field.bitpos + field.size)
      fun k => f k || Item.alone ⟨field.bitpos, field.size, low.getLsbD⟩ k := by
  -- the state after the bytes before the field are done
  obtain ⟨s₁, hs₁, e₁, hat, hle, htotal⟩ : ∃ s₁, s₁ = (if field.bitpos / 8 ≠ s.totalBytes then
      s.flush.advance (field.bitpos / 8) else s) ∧ ∃ e₁, s₁.At e₁ f ∧ e₁ ≤ field.bitpos ∧
        field.bitpos / 8 = s₁.totalBytes := by
    refine ⟨_, rfl, ?_⟩
    split
    · next hne =>
      obtain ⟨hflush, huse, hlow, hhigh⟩ := hs.flush
      have hbyte : 8 * s.flush.totalBytes ≤ 8 * (field.bitpos / 8) := by
        have hstart := hs.pos
        unfold State.flush
        split at hstart
        · next hin =>
          rw [if_pos hin]
          simp only
          omega
        · next hin =>
          rw [if_neg hin]
          omega
      obtain ⟨hadv, huse'⟩ := hflush.advance huse hbyte
      refine ⟨_, hadv, by omega, ?_⟩
      obtain ⟨heq, -, -⟩ := hadv.unbuffered huse'
      omega
    · next heq => exact ⟨e, hs, hpos, not_not.1 heq⟩
  obtain ⟨s', hrun, hfill, huse⟩ := outputPieces_filling low high hsize field.size
    (hat.filling hle htotal) (le_refl _) (Nat.le_add_right ..) (by omega)
  refine ⟨s', ?_, ?_⟩
  · rw [outputBitField, ← hs₁]
    exact hrun
  · have hend := hfill.at_end (huse (.inr (by omega)))
    simpa using hend

theorem State.At.ordinary (hs : s.At e f) {offset fieldsize : Nat} (hpos : e ≤ 8 * offset)
    {bytes : List Byte} (hlength : bytes.length = fieldsize) {bit : Nat → Bool}
    (hbit : ∀ k, imageBit bytes k = bit k) :
    ((s.flush.advance offset).outputBytes bytes fieldsize).At (8 * offset + 8 * fieldsize)
        (fun k => f k || Item.alone ⟨8 * offset, 8 * fieldsize, bit⟩ k) ∧
      ((s.flush.advance offset).outputBytes bytes fieldsize).byteBufferInUse = false := by
  obtain ⟨hflush, huse, -, hhigh⟩ := hs.flush
  obtain ⟨hadv, huse'⟩ := hflush.advance huse (show _ ≤ 8 * offset by omega)
  exact hadv.outputBytes huse' hlength hbit

end Output

section Elements

variable {type : Aggregate} {fields : List FieldDecl} {s : State} {e : Nat} {f : Nat → Bool}

/-- An element of an array starts with no bit-fields in the buffer, behind the element before it. -/
def Behind (type : Aggregate) (s : State) (e next : Nat) : Prop :=
  match type with
  | .array _ _ => s.byteBufferInUse = false ∧ e = next
  | _ => True

def Outputs (val : Constant h) (output : Nat → Option (List Byte)) (size : Nat) : Prop :=
  ∃ bytes, output size = some bytes ∧ bytes.length = size ∧
    ∀ k, imageBit bytes k = val.bit false size k

def elementItems (byIndex : Bool) (type : Aggregate) (purpose : Option Purpose) (val : Constant h)
    (fields : List FieldDecl) (next : Nat) : List Item :=
  let p := place byIndex type purpose fields next
  p.items (val.bit byIndex p.bytes)

def PutsElement (purpose : Option Purpose) (typeSize : Nat) (val : Constant h)
    (output : Nat → Option (List Byte)) (type : Aggregate) (fields : List FieldDecl) (s : State)
    (e : Nat) (f : Nat → Bool) (next : Nat) : Prop :=
  ∃ s', outputElement type purpose typeSize val output fields s =
      some ((place false type purpose fields next).fields, s') ∧
    Behind type s' (endOf e (elementItems false type purpose val fields next))
      (place false type purpose fields next).next ∧
    s'.At (endOf e (elementItems false type purpose val fields next))
      fun k => f k || image (elementItems false type purpose val fields next) k

theorem intCst_bit {val : Constant h} {low high : BitVec h.bits} (hval : val.intCst = some (low, high))
    {size j : Nat} (hj : j < 8 * size) (hword : j < h.bits) (byIndex : Bool) :
    val.bit byIndex size j = low.getLsbD j := by
  cases val with
  | missing =>
    cases hval
    simp [Constant.bit]
  | integer low' high' =>
    cases hval
    rw [Constant.bit, BitVec.getLsbD_signExtend, decide_eq_true hj, if_pos (by omega),
      BitVec.getLsbD_append, if_pos hword, Bool.true_and]
  | _ => cases hval

theorem putsElement_array {minIndex : Int} {eltSize : Nat} {purpose : Option Purpose}
    {typeSize : Nat} {val : Constant h} {output : Nat → Option (List Byte)} {next : Nat}
    (hs : s.At e f) (hbehind : Behind (.array minIndex eltSize) s e next)
    (hfits : ElementFits (.array minIndex eltSize) purpose typeSize val fields)
    (hval : Outputs val output eltSize)
    (hinc : Increasing e (elementItems false (.array minIndex eltSize) purpose val fields next)) :
    PutsElement purpose typeSize val output (.array minIndex eltSize) fields s e f next := by
  obtain ⟨bytes, houtput, hlength, hbit⟩ := hval
  obtain ⟨huse, rfl⟩ := hbehind
  have hbytes : (8 * eltSize + 7) / 8 = eltSize := by omega
  match purpose, hfits with
  | some (.range lo hi), _ =>
    obtain ⟨s', hrun, huse', hs'⟩ := outputRange_at houtput hlength hbit (hi - lo + 1).toNat hs huse
    have hitems : elementItems false (.array minIndex eltSize) (some (.range lo hi)) val fields e =
        copies (8 * eltSize) (val.bit false eltSize) e (hi - lo + 1).toNat := by
      simp only [elementItems, place, Place.items, Place.bytes, hbytes]
      rfl
    have hend : endOf e (elementItems false (.array minIndex eltSize) (some (.range lo hi)) val fields e) =
        e + 8 * eltSize * (hi - lo + 1).toNat := by
      rw [hitems, endOf_copies]
      split
      · next hz => simp [hz]
      · rfl
    refine ⟨s', by simp [outputElement, hrun, place], ⟨huse', ?_⟩, ?_⟩
    · rw [hend]
      simp only [place]
      split
      · next hz => simp [hz]
      · rfl
    · rw [hend, hitems]
      exact hs'
  | some (.index i), hfits =>
    obtain ⟨-, rfl, hne⟩ := hfits
    have hitems : elementItems false (.array minIndex typeSize) (some (.index i)) val fields e =
        [⟨8 * (typeSize * (i - minIndex).toNat), 8 * typeSize, val.bit false typeSize⟩] := by
      simp only [elementItems, place, Place.items, Place.bytes, hbytes, copies, Nat.mul_assoc]
    rw [hitems] at hinc
    obtain ⟨hs', huse'⟩ := hs.ordinary hinc.1 hlength hbit
    refine ⟨_, ?_, ⟨huse', ?_⟩, ?_⟩
    · cases val with
      | missing => exact absurd rfl hne
      | _ => simp only [outputElement, houtput]; rfl
    · rw [hitems]
      simp only [endOf, place, Nat.mul_assoc]
    · rw [hitems]
      simpa [endOf] using hs'

theorem elementFits_decl (hrecord : ∀ minIndex eltSize, type ≠ .array minIndex eltSize)
    {purpose : Option Purpose} {typeSize : Nat} {val : Constant h}
    (hfits : ElementFits type purpose typeSize val fields) :
    ∃ decl chain, fieldsFrom purpose fields = decl :: chain := by
  cases hfields : fieldsFrom purpose fields with
  | nil => cases type <;> simp_all [ElementFits]
  | cons decl chain => exact ⟨decl, chain, rfl⟩

/-- The position of an element does not depend on the one before it, but for index ranges. -/
theorem place_of_member (hrecord : ∀ minIndex eltSize, type ≠ .array minIndex eltSize)
    (purpose : Option Purpose) {decl : FieldDecl} {chain : List FieldDecl}
    (hfields : fieldsFrom purpose fields = decl :: chain) (byIndex : Bool) (next : Nat) :
    place byIndex type purpose fields next =
      ⟨decl.bitpos, decl.size, 1, decl.bitpos + decl.size, chain⟩ := by
  cases type with
  | array minIndex eltSize => exact absurd rfl (hrecord _ _)
  | _ => simp only [place, hfields]

theorem putsElement_member (hrecord : ∀ minIndex eltSize, type ≠ .array minIndex eltSize)
    {purpose : Option Purpose} {typeSize : Nat} {val : Constant h}
    {output : Nat → Option (List Byte)} {next : Nat} (hs : s.At e f)
    (hfits : ElementFits type purpose typeSize val fields)
    (hval : isBitField type purpose fields = false →
      Outputs val output (place false type purpose fields next).bytes)
    (hinc : Increasing e (elementItems false type purpose val fields next)) :
    PutsElement purpose typeSize val output type fields s e f next := by
  obtain ⟨decl, chain, hfields⟩ := elementFits_decl hrecord hfits
  have hplace := place_of_member hrecord purpose hfields false next
  have hfits' : if decl.bitField then 0 < decl.size ∧ decl.size ≤ 32 ∧ val.intCst.isSome
      else decl.bitpos % 8 = 0 ∧ decl.size % 8 = 0 := by
    cases type with
    | array minIndex eltSize => exact absurd rfl (hrecord _ _)
    | _ => simpa only [ElementFits, hfields] using hfits
  have hbehind : ∀ s' e' next', Behind type s' e' next' := by
    cases type with
    | array minIndex eltSize => exact absurd rfl (hrecord _ _)
    | _ => exact fun _ _ _ => trivial
  have hrun : outputElement type purpose typeSize val output fields s =
      if decl.bitField then val.intCst.bind fun c => do
        return (chain, ← outputBitField c.1 c.2 decl s)
      else do
        let s := s.flush.advance (decl.bitpos / 8)
        return (chain, s.outputBytes (← output ((decl.size + 7) / 8)) ((decl.size + 7) / 8)) := by
    cases type with
    | array minIndex eltSize => exact absurd rfl (hrecord _ _)
    | _ =>
      simp only [outputElement, hfields]
      rfl
  have hitems : elementItems false type purpose val fields next =
      [⟨decl.bitpos, decl.size, val.bit false ((decl.size + 7) / 8)⟩] := by
    simp only [elementItems, hplace, Place.items, Place.bytes, copies]
  unfold PutsElement
  rw [hitems] at hinc ⊢
  rw [hplace, hrun]
  simp only [endOf, image_cons, image_nil, Bool.or_false]
  by_cases hbit : decl.bitField = true
  · rw [if_pos hbit] at hfits' ⊢
    obtain ⟨hnonempty, hsize, hint⟩ := hfits'
    obtain ⟨⟨low, high⟩, hcst⟩ := Option.isSome_iff_exists.1 hint
    obtain ⟨s', hrun', hs'⟩ := outputBitField_at low high hs hinc.1 hnonempty hsize
    refine ⟨s', by simp [hcst, hrun'], hbehind _ _ _, ?_⟩
    have halone : ∀ k, Item.alone ⟨decl.bitpos, decl.size, low.getLsbD⟩ k =
        Item.alone ⟨decl.bitpos, decl.size, val.bit false ((decl.size + 7) / 8)⟩ k := by
      intro k
      have hhost := h.wide
      rw [Item.alone_mk, Item.alone_mk]
      by_cases hk : decl.bitpos ≤ k ∧ k < decl.bitpos + decl.size
      · rw [intCst_bit hcst (by omega) (by omega)]
      · rw [decide_eq_false hk, Bool.false_and, Bool.false_and]
    simpa only [halone] using hs'
  · rw [if_neg hbit] at hfits' ⊢
    obtain ⟨hpos, hsize⟩ := hfits'
    obtain ⟨bytes, houtput, hlength, hbits⟩ := hval (by
      cases type with
      | array minIndex eltSize => exact absurd rfl (hrecord _ _)
      | _ => simpa [isBitField, hfields] using hbit)
    rw [hplace, Place.bytes] at houtput hlength hbits
    simp only at houtput hlength hbits
    have hle : e ≤ decl.bitpos := hinc.1
    have hle' : e ≤ 8 * (decl.bitpos / 8) := by omega
    obtain ⟨hs', -⟩ := hs.ordinary hle' hlength hbits
    refine ⟨(s.flush.advance (decl.bitpos / 8)).outputBytes bytes ((decl.size + 7) / 8),
      by simp [houtput], hbehind _ _ _, ?_⟩
    rwa [show 8 * (decl.bitpos / 8) = decl.bitpos by omega,
      show 8 * ((decl.size + 7) / 8) = decl.size by omega] at hs'

theorem outputElement_at {purpose : Option Purpose} {typeSize : Nat} {val : Constant h}
    {output : Nat → Option (List Byte)} {next : Nat} (hs : s.At e f)
    (hbehind : Behind type s e next) (hfits : ElementFits type purpose typeSize val fields)
    (hval : isBitField type purpose fields = false →
      Outputs val output (place false type purpose fields next).bytes)
    (hinc : Increasing e (elementItems false type purpose val fields next)) :
    PutsElement purpose typeSize val output type fields s e f next := by
  cases type with
  | array minIndex eltSize =>
    have hbytes : (place false (.array minIndex eltSize) purpose fields next).bytes = eltSize := by
      have hwidth : (place false (.array minIndex eltSize) purpose fields next).width = 8 * eltSize := by
        cases purpose with
        | none => rfl
        | some p => cases p <;> rfl
      rw [Place.bytes, hwidth]
      omega
    rw [hbytes] at hval
    exact putsElement_array hs hbehind hfits (hval rfl) hinc
  | _ => exact putsElement_member (by simp) hs hfits hval hinc

/-- What an element takes, and the fields behind it, depend on its own field only. -/
theorem place_shape (purpose : Option Purpose) (byIndex byIndex' : Bool) (next next' : Nat) :
    (place byIndex type purpose fields next).width = (place byIndex' type purpose fields next').width ∧
    (place byIndex type purpose fields next).count = (place byIndex' type purpose fields next').count ∧
    (place byIndex type purpose fields next).fields =
      (place byIndex' type purpose fields next').fields := by
  cases type with
  | array minIndex eltSize =>
    cases purpose with
    | none => exact ⟨rfl, rfl, rfl⟩
    | some p => cases p <;> exact ⟨rfl, rfl, rfl⟩
  | _ => cases hfields : fieldsFrom purpose fields <;> simp [place, hfields]

def Follows (type : Aggregate) (e next : Nat) : Prop :=
  match type with
  | .array _ _ => e = next
  | _ => True

/-- Elements with increasing positions stay so where index ranges move down. -/
theorem element_increasing {purpose : Option Purpose} {typeSize : Nat} {val : Constant h}
    {e' next next' : Nat} (hle : e' ≤ e) (hfollows : Follows type e' next')
    (hfits : ElementFits type purpose typeSize val fields)
    (hinc : Increasing e (elementItems true type purpose val fields next)) :
    Increasing e' (elementItems false type purpose val fields next') ∧
      endOf e' (elementItems false type purpose val fields next') ≤
        endOf e (elementItems true type purpose val fields next) ∧
      Follows type (endOf e' (elementItems false type purpose val fields next'))
        (place false type purpose fields next').next := by
  by_cases harray : ∃ minIndex eltSize, type = .array minIndex eltSize
  · obtain ⟨minIndex, eltSize, rfl⟩ := harray
    obtain rfl : e' = next' := hfollows
    match purpose, hfits with
    | some (.range lo hi), _ =>
      simp only [elementItems, place, Place.items, endOf_copies, Follows] at hinc ⊢
      refine ⟨increasing_copies _ _ _ _, ?_, trivial⟩
      split
      · exact hle
      · next hne =>
        obtain ⟨n, hn⟩ := Nat.exists_eq_succ_of_ne_zero hne
        rw [hn] at hinc
        have hpos := hinc.1
        simp only [Bool.false_eq_true, if_false, if_true] at hpos ⊢
        omega
    | some (.index i), _ =>
      simp only [elementItems, place, Place.items, copies, endOf, Follows] at hinc ⊢
      exact ⟨⟨hle.trans hinc.1, trivial⟩, le_refl _, trivial⟩
  · have hrecord : ∀ minIndex eltSize, type ≠ .array minIndex eltSize :=
      fun minIndex eltSize heq => harray ⟨minIndex, eltSize, heq⟩
    obtain ⟨decl, chain, hfields⟩ := elementFits_decl hrecord hfits
    simp only [elementItems, place_of_member hrecord purpose hfields, Place.items, copies, endOf]
      at hinc ⊢
    refine ⟨⟨hle.trans hinc.1, trivial⟩, le_refl _, ?_⟩
    cases type with
    | array minIndex eltSize => exact absurd rfl (hrecord _ _)
    | _ => trivial

theorem items_cons (byIndex : Bool) (purpose : Option Purpose) (typeSize : Nat) (val : Constant h)
    (rest : Elements h) (next : Nat) :
    (Elements.cons purpose typeSize val rest).items byIndex type fields next =
      elementItems byIndex type purpose val fields next ++ rest.items byIndex type
        (place byIndex type purpose fields next).fields (place byIndex type purpose fields next).next :=
  rfl

theorem items_increasing : (elts : Elements h) → {fields : List FieldDecl} → {e e' next next' : Nat} →
    elts.WellFormed type fields → e' ≤ e → Follows type e' next' →
    Increasing e (elts.items true type fields next) →
    Increasing e' (elts.items false type fields next') ∧
      endOf e' (elts.items false type fields next') ≤ endOf e (elts.items true type fields next)
  | .nil, _, _, _, _, _, _, hle, _, _ => ⟨trivial, hle⟩
  | .cons purpose typeSize val rest, fields, e, e', next, next', hwf, hle, hfollows, hinc => by
    obtain ⟨hfits, -, hrest⟩ := hwf
    rw [items_cons, increasing_append] at hinc
    obtain ⟨hinc₁, hinc₂⟩ := hinc
    obtain ⟨hinc₁', hle', hfollows'⟩ := element_increasing hle hfollows hfits hinc₁
    rw [(place_shape purpose true true 0 next).2.2] at hrest
    obtain ⟨hinc₂', hend⟩ := items_increasing rest hrest hle' hfollows' hinc₂
    rw [items_cons, items_cons, increasing_append, endOf_append, endOf_append,
      ← (place_shape purpose true false next next').2.2]
    exact ⟨⟨hinc₁', hinc₂'⟩, hend⟩

end Elements

section Constants

theorem State.At.finish {s : State} {e : Nat} {f : Nat → Bool} (hs : s.At e f) (size : Nat) :
    size ≤ (s.finish size).length ∧ (e ≤ 8 * size → (s.finish size).length = size) ∧
      ∀ k, imageBit (s.finish size) k = f k := by
  obtain ⟨hflush, -, -, hhigh⟩ := hs.flush
  have htotal := hflush.total
  refine ⟨?_, fun hle => ?_, fun k => ?_⟩
  · simp only [State.finish, assembleZeros, List.length_append, List.length_replicate]
    omega
  · simp only [State.finish, assembleZeros, List.length_append, List.length_replicate]
    omega
  · rw [State.finish, imageBit_append_zeros, hs.bits]

theorem follows_start (type : Aggregate) : Follows type 0 0 := by
  cases type <;> trivial

theorem behind_start (type : Aggregate) : Behind type .start 0 0 := by
  cases type <;> first | exact ⟨rfl, rfl⟩ | trivial

mutual

/-- `output_constant` puts out exactly the size, with index ranges behind the elements before them. -/
theorem outputConstant_outputs (hhost : h.bits % bitsPerWord = 0) : (c : Constant h) → (size : Nat) → c.WellFormed size →
    Outputs c (outputConstant c) size
  | .missing, size, _ =>
    ⟨assembleZeros size, by rw [outputConstant], by simp [assembleZeros], imageBit_zeros size⟩
  | .integer low high, size, hwf => by
    by_cases hzero : size = 0
    · subst hzero
      exact ⟨[], by simp [outputConstant], rfl, fun k => by simp [imageBit, Constant.bit]⟩
    · obtain ⟨m, rfl, hm⟩ := hwf hzero
      obtain ⟨x, hx, hconst, hbit⟩ := immedDoubleConst_bit low high hm
      obtain ⟨bytes, hrun, hlength, hbits⟩ := assembleInteger_bit hhost hconst hm
      refine ⟨bytes, ?_, hlength, fun k => ?_⟩
      · rw [outputConstant, if_neg hzero, show 8 * m.size = m.bits from rfl, modeForSize_bits]
        simp [hx, hrun]
      · rw [Constant.bit]
        by_cases hk : k < m.bits
        · rw [hbits k hk, hbit k hk, BitVec.getLsbD_signExtend,
            decide_eq_true (show k < 8 * m.size from hk), if_pos (by omega), Bool.true_and]
        · rw [imageBit_of_ge (by rw [hlength]; exact not_lt.1 hk)]
          exact (BitVec.getLsbD_of_ge _ _ (not_lt.1 hk)).symm
  | .other bytes, size, hwf => by
    obtain rfl : bytes.length = size := hwf
    refine ⟨bytes, ?_, rfl, fun _ => rfl⟩
    rw [outputConstant]
    split
    · next hzero => rw [List.length_eq_zero_iff.1 hzero]
    · rfl
  | .complex re im, size, hwf => by
    obtain ⟨bytes, hre, hlenre, hbitre⟩ := outputConstant_outputs hhost re (size / 2) hwf.1
    obtain ⟨bytes', him, hlenim, hbitim⟩ := outputConstant_outputs hhost im (size / 2) hwf.2
    refine ⟨bytes ++ bytes' ++ assembleZeros (size - size / 2 * 2), ?_, ?_, fun k => ?_⟩
    · rw [outputConstant]
      split
      · next hzero =>
        subst hzero
        simp [List.length_eq_zero_iff.1 hlenre, List.length_eq_zero_iff.1 hlenim, assembleZeros]
      · simp [hre, him]
    · simp only [List.length_append, hlenre, hlenim, assembleZeros, List.length_replicate]
      omega
    · rw [imageBit_append_zeros, imageBit_append, hlenre, hbitre, Constant.bit]
      split
      · rfl
      · split
        · rw [hbitim]
        · exact imageBit_of_ge (by omega)
  | .string chars, size, _ => by
    refine ⟨_, by rw [outputConstant], ?_, fun k => ?_⟩
    · split
      · simp only [List.length_append, assembleZeros, List.length_replicate]
        omega
      · rw [List.length_take]
        omega
    · rw [Constant.bit]
      split
      · rw [imageBit_append_zeros]
        by_cases hk : k < 8 * size
        · rw [decide_eq_true hk, Bool.true_and]
        · rw [decide_eq_false hk, Bool.false_and, imageBit_of_ge (by omega)]
      · exact imageBit_take chars size k
  | .constructor type elts, size, hwf => by
    obtain ⟨helts, hinc, hend⟩ := hwf
    obtain ⟨hinc', hend'⟩ := items_increasing elts helts (le_refl 0) (follows_start type) hinc
    obtain ⟨s', hrun, hs'⟩ := outputElements_at hhost elts helts State.start_at (behind_start type) hinc'
    simp only [Bool.false_or] at hs'
    obtain ⟨-, hlength, hbits⟩ := hs'.finish size
    have hlen := hlength (hend'.trans hend)
    refine ⟨s'.finish size, ?_, hlen, hbits⟩
    match elts, hrun with
    | .nil, hrun =>
      have hs : State.start = s' := by simpa [outputElements] using hrun
      subst hs
      rw [outputConstant]
      split
      · next hzero => rw [List.length_eq_zero_iff.1 (hlen.trans hzero)]
      · rfl
    | .cons .., hrun =>
      rw [outputConstant, hrun]
      · split
        · next hzero => rw [List.length_eq_zero_iff.1 (hlen.trans hzero)]
        · rfl
      · simp

theorem outputElements_at (hhost : h.bits % bitsPerWord = 0) : (elts : Elements h) → {type : Aggregate} → {fields : List FieldDecl} →
    {s : State} → {e next : Nat} → {f : Nat → Bool} → elts.WellFormed type fields → s.At e f →
    Behind type s e next → Increasing e (elts.items false type fields next) →
    ∃ s', outputElements elts type fields s = some s' ∧
      s'.At (endOf e (elts.items false type fields next))
        fun k => f k || image (elts.items false type fields next) k
  | .nil, _, _, s, _, _, _, _, hs, _, _ => ⟨s, by rw [outputElements], by simpa [Elements.items, endOf] using hs⟩
  | .cons purpose typeSize val rest, type, fields, s, e, next, f, hwf, hs, hbehind, hinc => by
    obtain ⟨hfits, hval, hrest⟩ := hwf
    rw [items_cons, increasing_append] at hinc
    have hputs : PutsElement purpose typeSize val (outputConstant val) type fields s e f next :=
      outputElement_at hs hbehind hfits (fun hbit => by
        have hbytes : (place true type purpose fields 0).bytes =
            (place false type purpose fields next).bytes := by
          rw [Place.bytes, Place.bytes, (place_shape purpose true false 0 next).1]
        exact outputConstant_outputs hhost val _ (hbytes ▸ hval hbit)) hinc.1
    obtain ⟨s₁, hrun₁, hbehind₁, hs₁⟩ := hputs
    rw [(place_shape purpose true false 0 next).2.2] at hrest
    obtain ⟨s', hrun, hs'⟩ := outputElements_at hhost rest hrest hs₁ hbehind₁ hinc.2
    refine ⟨s', by simp [outputElements, hrun₁, hrun], ?_⟩
    rw [items_cons, endOf_append]
    simpa only [image_append, Bool.or_assoc] using hs'

end

end Constants

end Z80Gcc.Initializer
