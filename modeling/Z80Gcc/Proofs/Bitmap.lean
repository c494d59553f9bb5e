import Mathlib.Data.Set.Basic
import Z80Gcc.Proofs.BitmapHeap

/-! Bitmaps denote sets of integers. -/

namespace Z80Gcc.Bitmap

open Z80Gcc.LinkedList

variable {h : Host} {B : Type}

section Bits

theorem bit_eq_iff (bit bit' : BitVec 32) : bit' = bit ↔
    indxOf h bit' = indxOf h bit ∧ wordNum h bit' = wordNum h bit ∧ bitNum h bit' = bitNum h bit := by
  refine ⟨fun heq => heq ▸ ⟨rfl, rfl, rfl⟩, fun ⟨hindx, hword, hnum⟩ => ?_⟩
  have hword := congrArg Fin.val hword
  simp only [indxOf, wordNum, bitNum, Nat.mul_comm 2] at hindx hword hnum
  rw [← Nat.div_div_eq_div_mul, ← Nat.div_div_eq_div_mul] at hindx
  have hquot : bit'.toNat / h.bits = bit.toNat / h.bits := by omega
  have hsplit := Nat.div_add_mod bit'.toNat h.bits
  rw [hquot, hnum, Nat.div_add_mod] at hsplit
  exact BitVec.eq_of_toNat_eq hsplit.symm

theorem bitNum_lt (bit : BitVec 32) : bitNum h bit < h.bits :=
  Nat.mod_lt _ (by have := h.wide; omega)

theorem indxOf_lt (bit : BitVec 32) : indxOf h bit < 2 ^ 32 - 1 := by
  have hwide := h.wide
  have hlt := bit.isLt
  have hle : indxOf h bit ≤ bit.toNat / 2 := Nat.div_le_div_left (by omega) (by decide)
  omega

theorem getLsbD_bitVal (bit : BitVec 32) {i : Nat} (hi : i < h.bits) :
    (bitVal h bit).getLsbD i = decide (i = bitNum h bit) := by
  have hwide := h.wide
  unfold bitVal
  rw [BitVec.getLsbD_shiftLeft]
  by_cases heq : i = bitNum h bit
  · subst heq
    simp [hi]
    omega
  · by_cases hlt : i < bitNum h bit
    · simp [hlt, heq]
    · have hne : i - bitNum h bit ≠ 0 := by omega
      simp [heq, hne]

theorem and_bitVal_ne_zero (x : BitVec h.bits) (bit : BitVec 32) :
    x &&& bitVal h bit ≠ 0 ↔ x.getLsbD (bitNum h bit) = true := by
  constructor
  · intro hne
    by_contra hbit
    refine hne (BitVec.eq_of_getLsbD_eq fun i hi => ?_)
    rw [BitVec.getLsbD_and, getLsbD_bitVal bit hi]
    by_cases heq : i = bitNum h bit
    · rw [heq, Bool.eq_false_iff.2 hbit]
      simp
    · simp [heq]
  · intro hbit hzero
    have := congrArg (fun y => y.getLsbD (bitNum h bit)) hzero
    simp [hbit, getLsbD_bitVal bit (bitNum_lt bit)] at this

theorem zerop_iff (e : Element h) : e.zerop = true ↔ ∀ i, e.bits i = 0 := by
  rw [Element.zerop, decide_eq_true_eq, Fin.forall_fin_two]
  exact BitVec.or_eq_zero_iff

namespace BitmapBits

/-- The operation on truth values. -/
def Holds : BitmapBits → Prop → Prop → Prop
  | and, p, q => p ∧ q
  | andCompl, p, q => p ∧ ¬ q
  | ior, p, q => p ∨ q

theorem getLsbD_words (op : BitmapBits) {w i : Nat} (x y : BitVec w) (hi : i < w) :
    (op.words x y).getLsbD i = true ↔ op.Holds (x.getLsbD i = true) (y.getLsbD i = true) := by
  cases op <;> simp [words, Holds, hi]

end BitmapBits

end Bits

section Holds

variable {elt elt' : Nat → Element h} {l l₁ l₂ : List Nat} {bit : BitVec 32}

/-- The bit is set in one of the elements. -/
def Holds (elt : Nat → Element h) (l : List Nat) (bit : BitVec 32) : Prop :=
  ∃ a ∈ l, (elt a).indx = indxOf h bit ∧ ((elt a).bits (wordNum h bit)).getLsbD (bitNum h bit) = true

theorem holds_congr (heq : ∀ a ∈ l, (elt' a).indx = (elt a).indx ∧ (elt' a).bits = (elt a).bits) :
    Holds elt' l bit ↔ Holds elt l bit := by
  constructor
  · rintro ⟨a, ha, hindx, hbit⟩
    obtain ⟨hi, hb⟩ := heq a ha
    exact ⟨a, ha, hi ▸ hindx, hb ▸ hbit⟩
  · rintro ⟨a, ha, hindx, hbit⟩
    obtain ⟨hi, hb⟩ := heq a ha
    exact ⟨a, ha, hi.trans hindx, hb ▸ hbit⟩

@[simp] theorem holds_nil : ¬ Holds elt [] bit := by
  simp [Holds]

theorem holds_insert {a : Nat} : Holds elt (l₁ ++ a :: l₂) bit ↔ Holds elt (l₁ ++ l₂) bit ∨
    (elt a).indx = indxOf h bit ∧
      ((elt a).bits (wordNum h bit)).getLsbD (bitNum h bit) = true := by
  simp only [Holds, List.mem_append, List.mem_cons]
  constructor
  · rintro ⟨c, hc | rfl | hc, hbit⟩
    · exact .inl ⟨c, .inl hc, hbit⟩
    · exact .inr hbit
    · exact .inl ⟨c, .inr hc, hbit⟩
  · rintro (⟨c, hc | hc, hbit⟩ | hbit)
    · exact ⟨c, .inl hc, hbit⟩
    · exact ⟨c, .inr (.inr hc), hbit⟩
    · exact ⟨a, .inr (.inl rfl), hbit⟩

theorem holds_remove {a : Nat} (hzero : (elt a).zerop = true) :
    Holds elt (l₁ ++ a :: l₂) bit ↔ Holds elt (l₁ ++ l₂) bit := by
  rw [holds_insert]
  simp [(zerop_iff _).1 hzero]

end Holds

/-- The lists of the bitmaps hold the sets, and no element on them is all zero. -/
structure Denotes (st : State h B) (sets : B → Set (BitVec 32)) (own : Nat → Owner B)
    (lists : B → List Nat) (free : List Nat) : Prop where
  shape : Shape st own lists free
  nonzero : ∀ b, ∀ a ∈ lists b, (st.elt a).zerop = false
  holds : ∀ b bit, bit ∈ sets b ↔ Holds st.elt (lists b) bit

section Single

variable {st : State h B} {sets : B → Set (BitVec 32)} {own : Nat → Owner B}
  {lists : B → List Nat} {free : List Nat}

def State.setBits (st : State h B) (a : Nat) (bits : Fin 2 → BitVec h.bits) : State h B :=
  st.setElt a { st.elt a with bits := bits }

theorem Shape.setBits (hs : Shape st own lists free) (a : Nat) (bits : Fin 2 → BitVec h.bits) :
    Shape (st.setBits a bits) own lists free := by
  have hsame : ∀ c, ((st.setBits a bits).elt c).next = (st.elt c).next ∧
      ((st.setBits a bits).elt c).prev = (st.elt c).prev ∧
      ((st.setBits a bits).elt c).indx = (st.elt c).indx := by
    intro c
    by_cases hca : c = a <;> simp [State.setBits, State.setElt, hca]
  refine ⟨fun b => ?_, hs.bitmaps_own, hs.free_head,
    hs.free_path.congr fun c _ => (hsame c).1, hs.free_nodup, hs.free_own, hs.allocated⟩
  have hl := hs.bitmaps b
  refine ⟨hl.linked.congr (fun c _ => (hsame c).2.1) (fun c _ => (hsame c).1), hl.first,
    hl.increasing.imp fun {c d} hcd => ?_, fun c hc => ?_, fun c hc => ?_, hl.no_current⟩
  · rwa [(hsame c).2.2, (hsame d).2.2]
  · rw [(hsame c).2.2]
    exact hl.small c hc
  · simp only [(hsame _).2.2]
    exact hl.current c hc

variable [DecidableEq B]

/-- Looking for a bit changes no set, and finds the element that would hold it. -/
theorem Denotes.find (hd : Denotes st sets own lists free) (b : B) (bit : BitVec 32) :
    ∃ r head, bitmapFindBit b bit st = some (r, st.setHead b head) ∧
      Denotes (st.setHead b head) sets own lists free ∧ Exact st.elt head ∧
      ∀ a, r = some a ↔ a ∈ lists b ∧ (st.elt a).indx = indxOf h bit := by
  obtain ⟨r, head, hrun, hs, hexact, hr, -⟩ := hd.shape.find b bit
  exact ⟨r, head, hrun, ⟨hs, hd.nonzero, hd.holds⟩, hexact, hr⟩

omit [DecidableEq B] in
theorem Shape.holds_iff (hs : Shape st own lists free) {b : B} {bit : BitVec 32} {a : Nat}
    (ha : a ∈ lists b) (hindx : (st.elt a).indx = indxOf h bit) :
    Holds st.elt (lists b) bit ↔
      ((st.elt a).bits (wordNum h bit)).getLsbD (bitNum h bit) = true := by
  constructor
  · rintro ⟨c, hc, hcindx, hbit⟩
    rwa [(hs.bitmaps b).eq_of_indx ha hc (hindx.trans hcindx.symm)]
  · intro hbit
    exact ⟨a, ha, hindx, hbit⟩

theorem Denotes.bitP (hd : Denotes st sets own lists free) (b : B) (bit : BitVec 32) :
    ∃ r head, bitmapBitP b bit st = some (r, st.setHead b head) ∧
      Denotes (st.setHead b head) sets own lists free ∧ (r = true ↔ bit ∈ sets b) := by
  obtain ⟨r, head, hrun, hd', -, hr⟩ := hd.find b bit
  cases r with
  | none =>
    refine ⟨false, head, by rw [bitmapBitP, hrun]; rfl, hd', ?_⟩
    rw [hd.holds]
    simp only [Bool.false_eq_true, false_iff]
    rintro ⟨a, ha, hindx, -⟩
    cases (hr a).2 ⟨ha, hindx⟩
  | some a =>
    obtain ⟨ha, hindx⟩ := (hr a).1 rfl
    refine ⟨_, head, by rw [bitmapBitP, hrun]; rfl, hd', ?_⟩
    rw [hd.holds, hd.shape.holds_iff ha hindx, decide_eq_true_eq]
    exact and_bitVal_ne_zero _ bit

theorem Shape.holds_setBits (hs : Shape st own lists free) {b : B} {a : Nat} (ha : a ∈ lists b)
    (bits : Fin 2 → BitVec h.bits) (b' : B) (bit' : BitVec 32) :
    Holds (st.setBits a bits).elt (lists b') bit' ↔
      if b' = b ∧ (st.elt a).indx = indxOf h bit' then
        (bits (wordNum h bit')).getLsbD (bitNum h bit') = true
      else Holds st.elt (lists b') bit' := by
  have hs' := hs.setBits a bits
  have hindx : ((st.setBits a bits).elt a).indx = (st.elt a).indx := by
    simp [State.setBits, State.setElt]
  have hbits : ((st.setBits a bits).elt a).bits = bits := by
    simp [State.setBits, State.setElt]
  have hne : ∀ c, c ≠ a → (st.setBits a bits).elt c = st.elt c :=
    fun c hc => Function.update_of_ne hc ..
  split
  · next hcase =>
    obtain ⟨rfl, hcase⟩ := hcase
    rw [hs'.holds_iff ha (hindx.trans hcase), hbits]
  · next hcase =>
    have hskip : ∀ c ∈ lists b', (st.elt c).indx = indxOf h bit' → c ≠ a := by
      rintro c hc hci rfl
      refine hcase ⟨?_, hci⟩
      have howns := (hs.bitmaps_own b' c hc).symm.trans (hs.bitmaps_own b c ha)
      exact Owner.bitmap.inj howns
    constructor
    · rintro ⟨c, hc, hci, hbit⟩
      by_cases hca : c = a
      · subst hca
        exact absurd rfl (hskip c hc (hindx.symm.trans hci))
      · rw [hne c hca] at hci hbit
        exact ⟨c, hc, hci, hbit⟩
    · rintro ⟨c, hc, hci, hbit⟩
      have hca := hskip c hc hci
      rw [← hne c hca] at hci hbit
      exact ⟨c, hc, hci, hbit⟩

/-- The bits of one element are changed to hold or not to hold one bit. -/
theorem getLsbD_setBit (e : Element h) (bit bit' : BitVec 32) (hindx : e.indx = indxOf h bit)
    (hindx' : e.indx = indxOf h bit') :
    ((Function.update e.bits (wordNum h bit) (e.bits (wordNum h bit) ||| bitVal h bit))
      (wordNum h bit')).getLsbD (bitNum h bit') = true ↔
        bit' = bit ∨ (e.bits (wordNum h bit')).getLsbD (bitNum h bit') = true := by
  have hlt := bitNum_lt (h := h) bit'
  rw [bit_eq_iff (h := h) bit bit', ← hindx, ← hindx']
  by_cases hword : wordNum h bit' = wordNum h bit
  · rw [hword, Function.update_self, BitVec.getLsbD_or, getLsbD_bitVal bit hlt]
    simp [or_comm]
  · simp [hword]

theorem getLsbD_clearBit (e : Element h) (bit bit' : BitVec 32) (hindx : e.indx = indxOf h bit)
    (hindx' : e.indx = indxOf h bit') :
    ((Function.update e.bits (wordNum h bit) (e.bits (wordNum h bit) &&& ~~~bitVal h bit))
      (wordNum h bit')).getLsbD (bitNum h bit') = true ↔
        (e.bits (wordNum h bit')).getLsbD (bitNum h bit') = true ∧ bit' ≠ bit := by
  have hlt := bitNum_lt (h := h) bit'
  rw [Ne, bit_eq_iff (h := h) bit bit', ← hindx, ← hindx']
  by_cases hword : wordNum h bit' = wordNum h bit
  · rw [hword, Function.update_self, BitVec.getLsbD_and, BitVec.getLsbD_not,
      getLsbD_bitVal bit hlt]
    simp [hlt]
  · simp [hword]

theorem bitmapElementFree_content (b : B) (a c : Nat) :
    ((bitmapElementFree b a st).elt c).indx = (st.elt c).indx ∧
      ((bitmapElementFree b a st).elt c).bits = (st.elt c).bits := by
  have hnext : ∀ (st : State h B) (d : Nat) (n : Option Nat),
      ((st.setNext d n).elt c).indx = (st.elt c).indx ∧
        ((st.setNext d n).elt c).bits = (st.elt c).bits := by
    intro st d n
    by_cases hcd : c = d <;> simp [State.setNext, State.setElt, hcd]
  have hprev : ∀ (st : State h B) (d : Nat) (n : Option Nat),
      ((st.setPrev d n).elt c).indx = (st.elt c).indx ∧
        ((st.setPrev d n).elt c).bits = (st.elt c).bits := by
    intro st d n
    by_cases hcd : c = d <;> simp [State.setPrev, State.setElt, hcd]
  cases hp : (st.elt a).prev <;> cases hn : (st.elt a).next <;>
    simp only [bitmapElementFree, hp, hn, State.setFree, hnext, hprev, setHead_elt, and_self]

theorem Denotes.update {st' : State h B} {own' : Nat → Owner B} {lists' : B → List Nat}
    {free' : List Nat} {b : B} {set : Set (BitVec 32)} (hd : Denotes st sets own lists free)
    (hs : Shape st' own' lists' free')
    (hother : ∀ b', b' ≠ b → lists' b' = lists b' ∧ ∀ a ∈ lists b',
      (st'.elt a).indx = (st.elt a).indx ∧ (st'.elt a).bits = (st.elt a).bits)
    (hnonzero : ∀ a ∈ lists' b, (st'.elt a).zerop = false)
    (hholds : ∀ bit, bit ∈ set ↔ Holds st'.elt (lists' b) bit) :
    Denotes st' (Function.update sets b set) own' lists' free' := by
  refine ⟨hs, fun b' a ha => ?_, fun b' bit => ?_⟩
  · by_cases hb : b' = b
    · subst hb
      exact hnonzero a ha
    · obtain ⟨hlist, hsame⟩ := hother b' hb
      rw [hlist] at ha
      have hz := hd.nonzero b' a ha
      rwa [Element.zerop, ← (hsame a ha).2] at hz
  · by_cases hb : b' = b
    · subst hb
      rw [Function.update_self]
      exact hholds bit
    · obtain ⟨hlist, hsame⟩ := hother b' hb
      rw [Function.update_of_ne hb, hlist, hd.holds]
      exact (holds_congr hsame).symm

theorem Denotes.clear (hd : Denotes st sets own lists free) (b : B) :
    ∃ st' own' free', bitmapClear b st = some st' ∧
      Denotes st' (Function.update sets b ∅) own' (Function.update lists b []) free' ∧
      (∀ c, own c ≠ .bitmap b → own' c = own c ∧ st'.elt c = st.elt c) ∧
      (∀ b', b' ≠ b → st'.head b' = st.head b') ∧ (st'.head b).current = none ∧
      st'.allocated = st.allocated := by
  obtain ⟨st', free', hrun, hs, hframe, hhead, hcurrent, halloc⟩ := hd.shape.clear b
  have hnot : ∀ c, own c ≠ .bitmap b → c ∉ lists b := fun c hc hmem =>
    hc (hd.shape.bitmaps_own b c hmem)
  refine ⟨st', _, free', hrun, hd.update hs (fun b' hb => ⟨Function.update_of_ne hb .., ?_⟩) ?_ ?_,
    fun c hc => ⟨if_neg (hnot c hc), hframe c (hnot c hc)⟩, hhead, hcurrent, halloc⟩
  · intro a ha
    rw [hframe a (hnot a (by rw [hd.shape.bitmaps_own b' a ha]; simpa using hb))]
    exact ⟨rfl, rfl⟩
  · simp
  · simp

theorem Denotes.clearBit (hd : Denotes st sets own lists free) (b : B) (bit : BitVec 32) :
    ∃ st' own' lists' free', bitmapClearBit b bit st = some st' ∧
      Denotes st' (Function.update sets b (sets b \ {bit})) own' lists' free' := by
  obtain ⟨r, head, hrun, hd', -, hr⟩ := hd.find b bit
  cases r with
  | none =>
    refine ⟨st.setHead b head, own, lists, free, by rw [bitmapClearBit, hrun]; rfl,
      hd'.update hd'.shape (fun _ _ => ⟨rfl, fun _ _ => ⟨rfl, rfl⟩⟩) (hd'.nonzero b) fun bit' => ?_⟩
    rw [← hd'.holds, Set.mem_sdiff, Set.mem_singleton_iff, and_iff_left_iff_imp]
    rintro hbit rfl
    obtain ⟨a, ha, hindx, -⟩ := (hd.holds b bit').1 hbit
    cases (hr a).2 ⟨ha, hindx⟩
  | some a =>
    obtain ⟨ha, hindx⟩ := (hr a).1 rfl
    -- the state in which the bit is cleared, and the element may be all zero
    have hs₁ := hd'.shape.setBits a (Function.update (st.elt a).bits (wordNum h bit)
      ((st.elt a).bits (wordNum h bit) &&& ~~~bitVal h bit))
    have hset : ∀ bit', bit' ∈ sets b \ {bit} ↔ Holds ((st.setHead b head).setBits a
        (Function.update (st.elt a).bits (wordNum h bit)
          ((st.elt a).bits (wordNum h bit) &&& ~~~bitVal h bit))).elt (lists b) bit' := by
      intro bit'
      rw [hd'.shape.holds_setBits ha, Set.mem_sdiff, Set.mem_singleton_iff, hd.holds]
      split
      · next hcase =>
        exact (hd.shape.holds_iff ha hcase.2).and Iff.rfl |>.trans
          (getLsbD_clearBit _ bit bit' hindx hcase.2).symm
      · next hcase =>
        simp only [setHead_elt, and_iff_left_iff_imp]
        rintro - rfl
        exact hcase ⟨rfl, hindx⟩
    have hne : ∀ b', b' ≠ b → ∀ c ∈ lists b', c ≠ a := by
      rintro b' hb' c hc rfl
      have howns := (hd.shape.bitmaps_own b' c hc).symm.trans (hd.shape.bitmaps_own b c ha)
      exact hb' (Owner.bitmap.inj howns)
    generalize hbits : Function.update (st.elt a).bits (wordNum h bit)
      ((st.elt a).bits (wordNum h bit) &&& ~~~bitVal h bit) = bits at *
    have hrun' : bitmapClearBit b bit st = some (if (((st.setHead b head).setBits a bits).elt a).zerop
        then bitmapElementFree b a ((st.setHead b head).setBits a bits)
        else (st.setHead b head).setBits a bits) := by
      rw [bitmapClearBit, hrun, ← hbits]
      rfl
    have hsame : ∀ c, c ≠ a → ((st.setHead b head).setBits a bits).elt c = st.elt c :=
      fun c hc => Function.update_of_ne hc ..
    have hnonzero : ∀ c ∈ lists b, c ≠ a →
        (((st.setHead b head).setBits a bits).elt c).zerop = false := by
      intro c hc hca
      rw [hsame c hca]
      exact hd.nonzero b c hc
    cases hzero : (((st.setHead b head).setBits a bits).elt a).zerop with
    | true =>
      rw [hzero, if_pos rfl] at hrun'
      obtain ⟨l₁, l₂, hlist⟩ := List.append_of_mem ha
      have hnodup := (hd.shape.bitmaps b).nodup
      have hcontent : ∀ c,
          ((bitmapElementFree b a ((st.setHead b head).setBits a bits)).elt c).indx = _ ∧ _ :=
        bitmapElementFree_content b a
      refine ⟨_, _, _, _, hrun', hd.update (hs₁.unlink hlist) (fun b' hb' => ⟨?_, fun c hc => ?_⟩)
        (fun c hc => ?_) fun bit' => ?_⟩
      · exact Function.update_of_ne hb' ..
      · rw [(hcontent c).1, (hcontent c).2, hsame c (hne b' hb' c hc)]
        exact ⟨rfl, rfl⟩
      · rw [Function.update_self] at hc
        rw [hlist] at hnodup hnonzero
        rw [Element.zerop, (hcontent c).2]
        refine hnonzero c ?_ ?_
        · simp only [List.mem_append, List.mem_cons] at hc ⊢
          tauto
        · rintro rfl
          rw [List.nodup_middle, List.nodup_cons] at hnodup
          exact hnodup.1 hc
      · rw [hset bit', Function.update_self, hlist, holds_remove hzero]
        exact (holds_congr fun c _ => hcontent c).symm
    | false =>
      rw [hzero, if_neg Bool.false_ne_true] at hrun'
      refine ⟨_, _, _, _, hrun', hd.update hs₁ (fun b' hb' => ⟨rfl, fun c hc => ?_⟩)
        (fun c hc => ?_) hset⟩
      · rw [hsame c (hne b' hb' c hc)]
        exact ⟨rfl, rfl⟩
      · by_cases hca : c = a
        · rw [hca, hzero]
        · exact hnonzero c hc hca

/-- The bit is set in the element that has its index. -/
theorem Denotes.setFound {b : B} {bit : BitVec 32} {head : Head} {a : Nat} (hd : Denotes st sets own lists free)
    (hd' : Denotes (st.setHead b head) sets own lists free) (ha : a ∈ lists b)
    (hindx : (st.elt a).indx = indxOf h bit) :
    Denotes ((st.setHead b head).setBits a (Function.update (st.elt a).bits (wordNum h bit)
        ((st.elt a).bits (wordNum h bit) ||| bitVal h bit)))
      (Function.update sets b (insert bit (sets b))) own lists free := by
  have hs₁ := hd'.shape.setBits a (Function.update (st.elt a).bits (wordNum h bit)
    ((st.elt a).bits (wordNum h bit) ||| bitVal h bit))
  have hset : ∀ bit', bit' ∈ insert bit (sets b) ↔ Holds ((st.setHead b head).setBits a
      (Function.update (st.elt a).bits (wordNum h bit)
        ((st.elt a).bits (wordNum h bit) ||| bitVal h bit))).elt (lists b) bit' := by
    intro bit'
    rw [hd'.shape.holds_setBits ha, Set.mem_insert_iff, hd.holds]
    split
    · next hcase =>
      exact (Iff.rfl.or (hd.shape.holds_iff ha hcase.2)).trans
        (getLsbD_setBit _ bit bit' hindx hcase.2).symm
    · next hcase =>
      simp only [setHead_elt, or_iff_right_iff_imp]
      rintro rfl
      exact absurd ⟨rfl, hindx⟩ hcase
  have hsame : ∀ c, c ≠ a → ((st.setHead b head).setBits a
      (Function.update (st.elt a).bits (wordNum h bit)
        ((st.elt a).bits (wordNum h bit) ||| bitVal h bit))).elt c = st.elt c :=
    fun c hc => Function.update_of_ne hc ..
  refine hd.update hs₁ (fun b' hb' => ⟨rfl, fun c hc => ?_⟩) (fun c hc => ?_) hset
  · rw [hsame c]
    · exact ⟨rfl, rfl⟩
    · rintro rfl
      have howns := (hd.shape.bitmaps_own b' c hc).symm.trans (hd.shape.bitmaps_own b c ha)
      exact hb' (Owner.bitmap.inj howns)
  · by_cases hca : c = a
    · -- it holds the bit
      subst hca
      have hbit := (hd'.shape.setBits c _).holds_iff ha
        (show _ = indxOf h bit by simpa [State.setBits, State.setElt] using hindx) |>.1
          ((hset bit).1 (Set.mem_insert bit (sets b)))
      by_contra hz
      rw [Bool.not_eq_false] at hz
      rw [(zerop_iff _).1 hz] at hbit
      simp at hbit
    · rw [hsame c hca]
      exact hd.nonzero b c hc

theorem Denotes.setBit (hd : Denotes st sets own lists free) (b : B) (bit : BitVec 32) :
    ∃ st' own' lists' free', bitmapSetBit b bit st = some st' ∧
      Denotes st' (Function.update sets b (insert bit (sets b))) own' lists' free' := by
  obtain ⟨r, head, hrun, hd', hexact, hr⟩ := hd.find b bit
  cases r with
  | none =>
    obtain ⟨a, st₁, free', halloc, hs₁, hown, hzero, hsame, hhead, -⟩ := hd'.shape.allocate
    have hout : ∀ b', ∀ c ∈ lists b', c ≠ a := by
      rintro b' c hc rfl
      rw [hd.shape.bitmaps_own b' c hc] at hown
      simp at hown
    -- the new element with its one bit, before it is linked in
    obtain ⟨st₂, hst₂⟩ : ∃ st₂, st₂ = st₁.setElt a { st₁.elt a with
        indx := indxOf h bit
        bits := Function.update (st₁.elt a).bits (wordNum h bit) (bitVal h bit) } := ⟨_, rfl⟩
    have hsame₂ : ∀ c, c ≠ a → st₂.elt c = st.elt c := by
      intro c hc
      rw [hst₂, State.setElt]
      exact (Function.update_of_ne hc ..).trans (hsame c hc)
    have hindx : (st₂.elt a).indx = indxOf h bit := by simp [hst₂, State.setElt]
    have hbits : ∀ bit', indxOf h bit' = indxOf h bit →
        (((st₂.elt a).bits (wordNum h bit')).getLsbD (bitNum h bit') = true ↔ bit' = bit) := by
      intro bit' hindx'
      have hmem := getLsbD_setBit (st₁.elt a |> fun e => { e with indx := indxOf h bit }) bit bit' rfl
        hindx'.symm
      simpa [hst₂, State.setElt, hzero] using hmem
    have hs₂ : Shape st₂ (Function.update own a .pending) lists free' := by
      refine hs₁.congr (fun c _ hp _ => ?_) (by rw [hst₂]; rfl) (by rw [hst₂]; rfl)
        (by rw [hst₂]; rfl)
      rw [hst₂]
      refine Function.update_of_ne ?_ ..
      rintro rfl
      exact hp (Function.update_self ..)
    have hhead₂ : st₂.head b = head := by
      rw [hst₂]
      exact (congrFun hhead b).trans (setHead_self b head)
    obtain ⟨st', l₁, l₂, hlink, hlist, hs', -, hcontent, -, -, -⟩ := hs₂.link (b := b) (a := a)
      (Function.update_self ..) (hindx ▸ indxOf_lt bit) (fun c hc => by
        rw [hhead₂] at hc ⊢
        have hmem := ((hd'.shape.bitmaps b).current c (by rwa [setHead_self])).1
        rw [hsame₂ c (hout b c hmem)]
        exact hexact c hc) (fun c hc heq => by
        rw [hsame₂ c (hout b c hc), hindx] at heq
        cases (hr c).2 ⟨hc, heq⟩)
    refine ⟨st', _, _, free', ?_, hd.update hs' (fun b' hb' => ⟨?_, fun c hc => ?_⟩)
      (fun c hc => ?_) fun bit' => ?_⟩
    · rw [bitmapSetBit, hrun]
      simp only [bind, Option.bind, halloc]
      rw [← hst₂]
      exact hlink
    · exact Function.update_of_ne hb' ..
    · rw [(hcontent c).1, (hcontent c).2, hsame₂ c (hout b' c hc)]
      exact ⟨rfl, rfl⟩
    · rw [Element.zerop, (hcontent c).2]
      by_cases hca : c = a
      · rw [hca]
        have hset := (hbits bit rfl).2 rfl
        by_contra hz
        rw [Bool.not_eq_false] at hz
        rw [(zerop_iff (st₂.elt a)).1 hz] at hset
        simp at hset
      · rw [hsame₂ c hca]
        refine hd.nonzero b c ?_
        rw [Function.update_self] at hc
        rw [hlist]
        simp only [List.mem_append, List.mem_cons, hca, false_or] at hc ⊢
        exact hc
    · rw [Function.update_self, holds_congr (fun c _ => hcontent c), holds_insert, ← hlist,
        @holds_congr h st.elt st₂.elt (lists b) bit'
          (fun c hc => by rw [hsame₂ c (hout b c hc)]; exact ⟨rfl, rfl⟩),
        ← hd.holds, Set.mem_insert_iff, or_comm, hindx]
      refine Iff.rfl.or ⟨?_, ?_⟩
      · rintro rfl
        exact ⟨rfl, (hbits bit' rfl).2 rfl⟩
      · rintro ⟨heq, hbit⟩
        exact (hbits bit' heq.symm).1 hbit
  | some a =>
    obtain ⟨ha, hindx⟩ := (hr a).1 rfl
    exact ⟨_, _, _, _, by rw [bitmapSetBit, hrun]; rfl, hd.setFound hd' ha hindx⟩

end Single

end Z80Gcc.Bitmap
