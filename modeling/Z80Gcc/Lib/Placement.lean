import Mathlib.Data.List.Basic

/-! Bit strings put into an image at given positions; every other bit of the image is zero. -/

namespace Z80Gcc.Placement

structure Item where
  pos : Nat
  width : Nat
  bit : Nat → Bool

namespace Item

def Covers (it : Item) (k : Nat) : Prop := it.pos ≤ k ∧ k < it.pos + it.width

instance (it : Item) (k : Nat) : Decidable (it.Covers k) := inferInstanceAs (Decidable (_ ∧ _))

def alone (it : Item) (k : Nat) : Bool := decide (it.Covers k) && it.bit (k - it.pos)

def Zero (it : Item) : Prop := ∀ j < it.width, it.bit j = false

theorem alone_mk (pos width : Nat) (bit : Nat → Bool) (k : Nat) :
    alone ⟨pos, width, bit⟩ k = (decide (pos ≤ k ∧ k < pos + width) && bit (k - pos)) := rfl

@[simp] theorem alone_empty (pos : Nat) (bit : Nat → Bool) (k : Nat) :
    alone ⟨pos, 0, bit⟩ k = false := by
  rw [alone_mk, decide_eq_false (by omega), Bool.false_and]

theorem alone_split (pos width width' : Nat) (bit : Nat → Bool) (k : Nat) :
    (alone ⟨pos, width, bit⟩ k || alone ⟨pos + width, width', fun j => bit (width + j)⟩ k) =
      alone ⟨pos, width + width', bit⟩ k := by
  rw [alone_mk, alone_mk, alone_mk]
  by_cases hlow : k < pos + width
  · rw [decide_eq_false (show ¬ (pos + width ≤ k ∧ k < pos + width + width') by omega),
      Bool.false_and, Bool.or_false]
    congr 2
    simp only [eq_iff_iff]
    omega
  · rw [decide_eq_false (show ¬ (pos ≤ k ∧ k < pos + width) by omega), Bool.false_and, Bool.false_or]
    by_cases hhigh : k < pos + (width + width')
    · rw [decide_eq_true (by omega), decide_eq_true (by omega),
        show width + (k - (pos + width)) = k - pos by omega]
    · rw [decide_eq_false (by omega), decide_eq_false (by omega), Bool.false_and, Bool.false_and]

theorem alone_of_not_covers {it : Item} {k : Nat} (hk : ¬ it.Covers k) : it.alone k = false := by
  rw [alone, decide_eq_false hk, Bool.false_and]

theorem alone_pos_add {it : Item} {j : Nat} (hj : j < it.width) : it.alone (it.pos + j) = it.bit j := by
  rw [alone, decide_eq_true ⟨Nat.le_add_right .., Nat.add_lt_add_left hj _⟩, Bool.true_and,
    Nat.add_sub_cancel_left]

theorem Zero.alone {it : Item} (hz : it.Zero) (k : Nat) : it.alone k = false := by
  by_cases hk : it.Covers k
  · rw [Item.alone, hz _ (by unfold Covers at hk; omega), Bool.and_false]
  · exact alone_of_not_covers hk

end Item

def image (items : List Item) (k : Nat) : Bool := items.any fun it => it.alone k

@[simp] theorem image_nil (k : Nat) : image [] k = false := rfl

@[simp] theorem image_cons (it : Item) (items : List Item) (k : Nat) :
    image (it :: items) k = (it.alone k || image items k) := rfl

@[simp] theorem image_append (items items' : List Item) (k : Nat) :
    image (items ++ items') k = (image items k || image items' k) := List.any_append

/-- The items follow each other, the first one from position `e` on. -/
def Increasing : Nat → List Item → Prop
  | _, [] => True
  | e, it :: items => e ≤ it.pos ∧ Increasing (it.pos + it.width) items

def endOf : Nat → List Item → Nat
  | e, [] => e
  | _, it :: items => endOf (it.pos + it.width) items

theorem Increasing.mono {items : List Item} {e e' : Nat} (hinc : Increasing e items) (he : e' ≤ e) :
    Increasing e' items := by
  cases items with
  | nil => trivial
  | cons it items => exact ⟨Nat.le_trans he hinc.1, hinc.2⟩

theorem increasing_append {items items' : List Item} {e : Nat} :
    Increasing e (items ++ items') ↔ Increasing e items ∧ Increasing (endOf e items) items' := by
  induction items generalizing e with
  | nil => simp [Increasing, endOf]
  | cons it items ih => simp [Increasing, endOf, ih, and_assoc]

theorem endOf_append (items items' : List Item) (e : Nat) :
    endOf e (items ++ items') = endOf (endOf e items) items' := by
  induction items generalizing e with
  | nil => rfl
  | cons it items ih => exact ih _

theorem Increasing.le_endOf {items : List Item} {e : Nat} (hinc : Increasing e items) :
    e ≤ endOf e items := by
  induction items generalizing e with
  | nil => exact Nat.le_refl e
  | cons it items ih =>
    have hle := ih hinc.2
    have hpos := hinc.1
    rw [endOf]
    omega

theorem Increasing.image_of_lt {items : List Item} {e k : Nat} (hinc : Increasing e items)
    (hk : k < e) : image items k = false := by
  induction items generalizing e with
  | nil => rfl
  | cons it items ih =>
    have hpos := hinc.1
    rw [image_cons, ih hinc.2 (by omega), Bool.or_false]
    exact Item.alone_of_not_covers fun hc => by
      unfold Item.Covers at hc
      omega

theorem Increasing.image_of_ge {items : List Item} {e k : Nat} (hinc : Increasing e items)
    (hk : endOf e items ≤ k) : image items k = false := by
  induction items generalizing e with
  | nil => rfl
  | cons it items ih =>
    have hle := hinc.2.le_endOf
    rw [endOf] at hk
    rw [image_cons, ih hinc.2 hk, Bool.or_false]
    exact Item.alone_of_not_covers fun hc => by
      unfold Item.Covers at hc
      omega

theorem Increasing.image_first {it : Item} {items : List Item} {e j : Nat}
    (hinc : Increasing e (it :: items)) (hj : j < it.width) :
    image (it :: items) (it.pos + j) = it.bit j := by
  rw [image_cons, Item.alone_pos_add hj, hinc.2.image_of_lt (by omega), Bool.or_false]

theorem Increasing.image_mem {items : List Item} {e : Nat} (hinc : Increasing e items) {it : Item}
    (hmem : it ∈ items) {j : Nat} (hj : j < it.width) : image items (it.pos + j) = it.bit j := by
  induction items generalizing e with
  | nil => cases hmem
  | cons it' items ih =>
    rcases List.mem_cons.1 hmem with rfl | hmem
    · exact hinc.image_first hj
    · have hlow : ¬ it'.Covers (it.pos + j) := by
        intro hc
        unfold Item.Covers at hc
        have hge : ∀ items' : List Item, ∀ e', Increasing e' items' → it ∈ items' → e' ≤ it.pos := by
          intro items' e' hinc' hmem'
          induction items' generalizing e' with
          | nil => cases hmem'
          | cons it'' items' ih' =>
            rcases List.mem_cons.1 hmem' with rfl | hmem'
            · exact hinc'.1
            · have hle := ih' _ hinc'.2 hmem'
              have hpos := hinc'.1
              omega
        have hle := hge items _ hinc.2 hmem
        omega
      rw [image_cons, Item.alone_of_not_covers hlow, Bool.false_or]
      exact ih hinc.2 hmem

theorem image_of_uncovered {items : List Item} {k : Nat} (hk : ∀ it ∈ items, ¬ it.Covers k) :
    image items k = false :=
  List.any_eq_false.2 fun it hmem => by
    rw [Item.alone_of_not_covers (hk it hmem)]
    exact Bool.false_ne_true

/-- An image that has every item at its position and zeros elsewhere. -/
theorem Increasing.eq_image_iff {items : List Item} {e : Nat} (hinc : Increasing e items)
    (f : Nat → Bool) : (∀ k, f k = image items k) ↔
      (∀ it ∈ items, ∀ j < it.width, f (it.pos + j) = it.bit j) ∧
        ∀ k, (∀ it ∈ items, ¬ it.Covers k) → f k = false := by
  constructor
  · intro heq
    exact ⟨fun it hmem j hj => (heq _).trans (hinc.image_mem hmem hj),
      fun k hk => (heq k).trans (image_of_uncovered hk)⟩
  · rintro ⟨hvalues, hzeros⟩ k
    by_cases hcov : ∃ it ∈ items, it.Covers k
    · obtain ⟨it, hmem, hc⟩ := hcov
      unfold Item.Covers at hc
      obtain ⟨j, rfl⟩ := Nat.exists_eq_add_of_le hc.1
      rw [hvalues it hmem j (by omega), hinc.image_mem hmem (by omega)]
    · have hnone : ∀ it ∈ items, ¬ it.Covers k := fun it hmem hc => hcov ⟨it, hmem, hc⟩
      rw [hzeros k hnone, image_of_uncovered hnone]

theorem Increasing.image_zero_iff {items : List Item} {e : Nat} (hinc : Increasing e items) :
    (∀ k, image items k = false) ↔ ∀ it ∈ items, it.Zero := by
  constructor
  · intro hz it hmem j hj
    rw [← hinc.image_mem hmem hj, hz]
  · intro hz k
    exact List.any_eq_false.2 fun it hmem => by
      rw [(hz it hmem).alone]
      exact Bool.false_ne_true

/-- Two images that begin with an item at the same position agree if and only if the items and the
rests do. -/
theorem image_cons_eq_iff {it it' : Item} {items items' : List Item} {e e' : Nat}
    (hinc : Increasing e (it :: items)) (hinc' : Increasing e' (it' :: items'))
    (hpos : it'.pos = it.pos) (hwidth : it'.width = it.width) :
    (∀ k, image (it :: items) k = image (it' :: items') k) ↔
      (∀ j < it.width, it.bit j = it'.bit j) ∧ ∀ k, image items k = image items' k := by
  constructor
  · intro heq
    refine ⟨fun j hj => ?_, fun k => ?_⟩
    · rw [← hinc.image_first hj, heq, ← hpos, hinc'.image_first (hwidth ▸ hj)]
    · by_cases hk : k < it.pos + it.width
      · rw [hinc.2.image_of_lt hk, hinc'.2.image_of_lt (by rwa [hpos, hwidth])]
      · have hrest := heq k
        have hout : ¬ it.Covers k := fun hc => hk hc.2
        have hout' : ¬ it'.Covers k := by
          unfold Item.Covers
          omega
        rwa [image_cons, image_cons, Item.alone_of_not_covers hout, Item.alone_of_not_covers hout',
          Bool.false_or, Bool.false_or] at hrest
  · rintro ⟨hbit, hrest⟩ k
    rw [image_cons, image_cons, hrest]
    congr 1
    rw [Item.alone, Item.alone]
    have hiff : it.Covers k ↔ it'.Covers k := by
      unfold Item.Covers
      rw [hpos, hwidth]
    by_cases hc : it.Covers k
    · rw [decide_eq_true hc, decide_eq_true (hiff.1 hc), hpos]
      exact congrArg _ (hbit _ (by unfold Item.Covers at hc; omega))
    · rw [decide_eq_false hc, decide_eq_false (mt hiff.2 hc), Bool.false_and, Bool.false_and]

def copies (width : Nat) (bit : Nat → Bool) : Nat → Nat → List Item
  | _, 0 => []
  | pos, n + 1 => ⟨pos, width, bit⟩ :: copies width bit (pos + width) n

theorem increasing_copies (width : Nat) (bit : Nat → Bool) (pos n : Nat) :
    Increasing pos (copies width bit pos n) := by
  induction n generalizing pos with
  | zero => trivial
  | succ n ih => exact ⟨Nat.le_refl pos, ih _⟩

theorem endOf_copies (width : Nat) (bit : Nat → Bool) (e pos n : Nat) :
    endOf e (copies width bit pos n) = if n = 0 then e else pos + width * n := by
  induction n generalizing e pos with
  | zero => rfl
  | succ n ih =>
    rw [copies, endOf, ih, if_neg (Nat.succ_ne_zero n)]
    split
    · next hn => simp [hn]
    · rw [Nat.mul_succ]
      omega

theorem zero_of_mem_copies {width : Nat} {bit : Nat → Bool} (hz : ∀ j < width, bit j = false)
    {pos n : Nat} {it : Item} (hmem : it ∈ copies width bit pos n) : it.Zero := by
  induction n generalizing pos with
  | zero => cases hmem
  | succ n ih =>
    rcases List.mem_cons.1 hmem with rfl | hmem
    · exact hz
    · exact ih hmem

theorem image_copies_zero {width : Nat} {bit : Nat → Bool} (hz : ∀ j < width, bit j = false)
    (pos n k : Nat) : image (copies width bit pos n) k = false :=
  (increasing_copies width bit pos n).image_zero_iff.2 (fun _ hmem => zero_of_mem_copies hz hmem) k

/-- Copies at the same place agree if and only if one does. -/
theorem image_copies_eq_iff {width : Nat} {bit bit' : Nat → Bool} {items items' : List Item} (n : Nat)
    {pos e e' : Nat} (hinc : Increasing e (copies width bit pos n ++ items))
    (hinc' : Increasing e' (copies width bit' pos n ++ items')) :
    (∀ k, image (copies width bit pos n ++ items) k = image (copies width bit' pos n ++ items') k) ↔
      (n = 0 ∨ ∀ j < width, bit j = bit' j) ∧ ∀ k, image items k = image items' k := by
  induction n generalizing pos e e' with
  | zero => simp [copies]
  | succ n ih =>
    rw [copies, copies, List.cons_append, List.cons_append] at *
    rw [image_cons_eq_iff hinc hinc' rfl rfl, ih hinc.2 hinc'.2]
    simp only [Nat.succ_ne_zero, false_or]
    constructor
    · rintro ⟨hbit, -, hrest⟩
      exact ⟨hbit, hrest⟩
    · rintro ⟨hbit, hrest⟩
      exact ⟨hbit, .inr hbit, hrest⟩

/-- Copies further down agree if and only if they are all zeros. -/
theorem image_copies_below_iff {width : Nat} {bit bit' : Nat → Bool} {items items' : List Item}
    {n : Nat} (hn : n ≠ 0) {pos pos' e e' : Nat} (hbelow : pos + width ≤ pos')
    (hinc : Increasing e (copies width bit pos n ++ items))
    (hinc' : Increasing e' (copies width bit' pos' n ++ items'))
    (hzero : (∀ j < width, bit j = false) ↔ ∀ j < width, bit' j = false) :
    (∀ k, image (copies width bit pos n ++ items) k = image (copies width bit' pos' n ++ items') k) ↔
      (∀ j < width, bit' j = false) ∧ ∀ k, image items k = image items' k := by
  have hsame : (∀ j < width, bit' j = false) →
      ((∀ k, image (copies width bit pos n ++ items) k = image (copies width bit' pos' n ++ items') k) ↔
        ∀ k, image items k = image items' k) := by
    intro hz
    simp only [image_append, image_copies_zero hz, image_copies_zero (hzero.2 hz), Bool.false_or]
  obtain ⟨m, rfl⟩ := Nat.exists_eq_succ_of_ne_zero hn
  constructor
  · intro heq
    have hz : ∀ j < width, bit' j = false := hzero.1 fun j hj => by
      have hlow : Increasing pos' (copies width bit' pos' (m + 1) ++ items') :=
        ⟨Nat.le_refl pos', hinc'.2⟩
      have hat := heq (pos + j)
      rw [hlow.image_of_lt (by omega)] at hat
      exact (@Increasing.image_first ⟨pos, width, bit⟩ _ _ _ hinc hj).symm.trans hat
    exact ⟨hz, (hsame hz).1 heq⟩
  · rintro ⟨hz, hrest⟩
    exact (hsame hz).2 hrest

end Z80Gcc.Placement
