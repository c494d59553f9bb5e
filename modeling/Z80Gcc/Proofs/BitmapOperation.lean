import Mathlib
import Z80Gcc.Proofs.Bitmap

/-! The loop of `bitmap_operation`, with any aliasing of the destination and the operands. -/

namespace Z80Gcc.Bitmap

open Z80Gcc.LinkedList

variable {h : Host} {B : Type}

section Operands

variable {st st' : State h B} {own own' : Nat → Owner B} {l l₁ l₂ : List Nat} {to' : B}

/-- An operand list, from where the loop is: nothing the loop does touches it. -/
structure Source (st : State h B) (own : Nat → Owner B) (to' : B) (l : List Nat) : Prop where
  path : Path (fun a => (st.elt a).next) l
  increasing : l.Pairwise fun a b => (st.elt a).indx < (st.elt b).indx
  small : ∀ a ∈ l, (st.elt a).indx < 2 ^ 32 - 1
  held : ∀ a ∈ l, own a = .loose ∨ ∃ b, b ≠ to' ∧ own a = .bitmap b

/-- What holds no element of the destination stays as it is. -/
def Kept (to' : B) (own : Nat → Owner B) (st : State h B) (own' : Nat → Owner B) (st' : State h B) :
    Prop :=
  ∀ c, (own c = .loose ∨ ∃ b, b ≠ to' ∧ own c = .bitmap b) → own' c = own c ∧ st'.elt c = st.elt c

theorem Kept.trans {st'' : State h B} {own'' : Nat → Owner B} (h₁ : Kept to' own st own' st')
    (h₂ : Kept to' own' st' own'' st'') : Kept to' own st own'' st'' := by
  intro c hc
  obtain ⟨hown, helt⟩ := h₁ c hc
  obtain ⟨hown', helt'⟩ := h₂ c (hown ▸ hc)
  exact ⟨hown'.trans hown, helt'.trans helt⟩

theorem Source.kept (hl : Source st own to' l) (hk : Kept to' own st own' st') :
    Source st' own' to' l := by
  have hsame : ∀ a ∈ l, own' a = own a ∧ st'.elt a = st.elt a := fun a ha => hk a (hl.held a ha)
  refine ⟨hl.path.congr fun a ha => by rw [(hsame a ha).2],
    hl.increasing.imp_of_mem fun {a b} ha hb hab => ?_, fun a ha => ?_, fun a ha => ?_⟩
  · rwa [(hsame a ha).2, (hsame b hb).2]
  · rw [(hsame a ha).2]
    exact hl.small a ha
  · rw [(hsame a ha).1]
    exact hl.held a ha

theorem Source.tail {a : Nat} (hl : Source st own to' (a :: l)) : Source st own to' l :=
  ⟨hl.path.2, (List.pairwise_cons.1 hl.increasing).2, fun c hc => hl.small c (by simp [hc]),
    fun c hc => hl.held c (by simp [hc])⟩

def Operands.at (st : State h B) (l₁ l₂ : List Nat) : Operands :=
  ⟨l₁.head?, l₂.head?, indxOr st l₁.head?, indxOr st l₂.head?⟩

/-- What one turn takes from the two lists: the elements with the least index. -/
structure Taken (st : State h B) (turn : Turn) (l₁ l₂ r₁ r₂ : List Nat) : Prop where
  first : l₁ = turn.tmp1.toList ++ r₁
  second : l₂ = turn.tmp2.toList ++ r₂
  rest : turn.rest = Operands.at st r₁ r₂
  taken : turn.tmp1 ≠ none ∨ turn.tmp2 ≠ none
  indx : ∀ a, turn.tmp1 = some a ∨ turn.tmp2 = some a → (st.elt a).indx = turn.indx
  above : ∀ a ∈ r₁ ++ r₂, turn.indx < (st.elt a).indx

theorem Source.indx_lt {a : Nat} (hl : Source st own to' (a :: l)) :
    ∀ c ∈ l, (st.elt a).indx < (st.elt c).indx :=
  (List.pairwise_cons.1 hl.increasing).1

theorem takeElements_taken (h₁ : Source st own to' l₁) (h₂ : Source st own to' l₂)
    (hne : l₁ ≠ [] ∨ l₂ ≠ []) :
    ∃ turn r₁ r₂, takeElements st (Operands.at st l₁ l₂) = some turn ∧ Taken st turn l₁ l₂ r₁ r₂ ∧
      Source st own to' r₁ ∧ Source st own to' r₂ := by
  cases l₁ with
  | nil =>
    cases l₂ with
    | nil => simp at hne
    | cons a₂ r₂ =>
      have hsmall := h₂.small a₂ (by simp)
      have hneq : (2 : Nat) ^ 32 - 1 ≠ (st.elt a₂).indx := by omega
      have hnext : (st.elt a₂).next = r₂.head? := h₂.path.1
      refine ⟨⟨(st.elt a₂).indx, none, some a₂, Operands.at st [] r₂⟩, [], r₂, ?_, ?_, h₁, h₂.tail⟩
      · simp only [takeElements, Operands.at, List.head?_nil, List.head?_cons, indxOr, hneq,
          if_false, not_lt.2 hsmall.le, Option.map_some, hnext]
        rfl
      · refine ⟨rfl, rfl, rfl, .inr (by simp), ?_, h₂.indx_lt⟩
        rintro a (⟨⟨⟩⟩ | ⟨⟨⟩⟩)
        rfl
  | cons a₁ r₁ =>
    have hsmall₁ := h₁.small a₁ (by simp)
    have hnext₁ : (st.elt a₁).next = r₁.head? := h₁.path.1
    cases l₂ with
    | nil =>
      have hneq : (st.elt a₁).indx ≠ 2 ^ 32 - 1 := by omega
      refine ⟨⟨(st.elt a₁).indx, some a₁, none, Operands.at st r₁ []⟩, r₁, [], ?_, ?_, h₁.tail, h₂⟩
      · simp only [takeElements, Operands.at, List.head?_nil, List.head?_cons, indxOr, hneq,
          if_false, hsmall₁, if_true, Option.map_some, hnext₁]
        rfl
      · refine ⟨rfl, rfl, rfl, .inl (by simp), ?_, ?_⟩
        · rintro a (⟨⟨⟩⟩ | ⟨⟨⟩⟩)
          rfl
        · simpa using h₁.indx_lt
    | cons a₂ r₂ =>
      have hnext₂ : (st.elt a₂).next = r₂.head? := h₂.path.1
      obtain hlt | heq | hgt := lt_trichotomy (st.elt a₁).indx (st.elt a₂).indx
      · refine ⟨⟨(st.elt a₁).indx, some a₁, none, Operands.at st r₁ (a₂ :: r₂)⟩, r₁, a₂ :: r₂, ?_, ?_,
          h₁.tail, h₂⟩
        · simp only [takeElements, Operands.at, List.head?_cons, indxOr, hlt.ne, if_false, hlt,
            if_true, Option.map_some, hnext₁]
          rfl
        · refine ⟨rfl, rfl, rfl, .inl (by simp), ?_, fun c hc => ?_⟩
          · rintro a (⟨⟨⟩⟩ | ⟨⟨⟩⟩)
            rfl
          · obtain hc | hc := List.mem_append.1 hc
            · exact h₁.indx_lt c hc
            · obtain rfl | hc := List.mem_cons.1 hc
              · exact hlt
              · exact hlt.trans (h₂.indx_lt c hc)
      · refine ⟨⟨(st.elt a₁).indx, some a₁, some a₂, Operands.at st r₁ r₂⟩, r₁, r₂, ?_, ?_, h₁.tail,
          h₂.tail⟩
        · simp only [takeElements, Operands.at, List.head?_cons, indxOr, heq, if_true,
            Option.map_some, hnext₁, hnext₂]
          rfl
        · refine ⟨rfl, rfl, rfl, .inl (by simp), ?_, fun c hc => ?_⟩
          · rintro a (⟨⟨⟩⟩ | ⟨⟨⟩⟩)
            · rfl
            · exact heq.symm
          · obtain hc | hc := List.mem_append.1 hc
            · exact h₁.indx_lt c hc
            · exact heq ▸ h₂.indx_lt c hc
      · refine ⟨⟨(st.elt a₂).indx, none, some a₂, Operands.at st (a₁ :: r₁) r₂⟩, a₁ :: r₁, r₂, ?_, ?_,
          h₁, h₂.tail⟩
        · simp only [takeElements, Operands.at, List.head?_cons, indxOr, hgt.ne', if_false,
            not_lt.2 hgt.le, Option.map_some, hnext₂]
          rfl
        · refine ⟨rfl, rfl, rfl, .inr (by simp), ?_, fun c hc => ?_⟩
          · rintro a (⟨⟨⟩⟩ | ⟨⟨⟩⟩)
            rfl
          · obtain hc | hc := List.mem_append.1 hc
            · obtain rfl | hc := List.mem_cons.1 hc
              · exact hgt
              · exact hgt.trans (h₁.indx_lt c hc)
            · exact h₂.indx_lt c hc

/-- The least index is in at most one element of either list. -/
theorem Taken.holds {turn : Turn} {r₁ r₂ : List Nat} (ht : Taken st turn l₁ l₂ r₁ r₂)
    (op : BitmapBits) (bit : BitVec 32) :
    op.Holds (Holds st.elt l₁ bit) (Holds st.elt l₂ bit) ↔
      turn.indx = indxOf h bit ∧ (op.words (bitsOf st turn.tmp1 (wordNum h bit))
        (bitsOf st turn.tmp2 (wordNum h bit))).getLsbD (bitNum h bit) = true ∨
      op.Holds (Holds st.elt r₁ bit) (Holds st.elt r₂ bit) := by
  have hsplit : ∀ (tmp : Option Nat) (r : List Nat), (∀ a, tmp = some a → (st.elt a).indx = turn.indx) →
      (∀ a ∈ r, turn.indx < (st.elt a).indx) →
      (Holds st.elt (tmp.toList ++ r) bit ↔ (turn.indx = indxOf h bit ∧
        (bitsOf st tmp (wordNum h bit)).getLsbD (bitNum h bit) = true) ∨ Holds st.elt r bit) ∧
      (turn.indx = indxOf h bit → ¬ Holds st.elt r bit) := by
    intro tmp r htmp hr
    refine ⟨?_, fun heq => ?_⟩
    · cases tmp with
      | none => simp [bitsOf, bitmapZero]
      | some a =>
        rw [Option.toList_some, ← List.nil_append ([a] ++ r), List.singleton_append, holds_insert,
          List.nil_append, htmp a rfl, or_comm]
        rfl
    · rintro ⟨a, ha, hindx, -⟩
      have := hr a ha
      omega
  obtain ⟨hiff₁, hnot₁⟩ := hsplit turn.tmp1 r₁ (fun a ha => ht.indx a (.inl ha))
    fun a ha => ht.above a (List.mem_append_left _ ha)
  obtain ⟨hiff₂, hnot₂⟩ := hsplit turn.tmp2 r₂ (fun a ha => ht.indx a (.inr ha))
    fun a ha => ht.above a (List.mem_append_right _ ha)
  rw [ht.first, ht.second, hiff₁, hiff₂, op.getLsbD_words _ _ (bitNum_lt bit)]
  cases op <;> simp only [BitmapBits.Holds] <;> grind

theorem Source.operands_kept (h₁ : Source st own to' l₁) (h₂ : Source st own to' l₂)
    (hk : Kept to' own st own' st') : Operands.at st' l₁ l₂ = Operands.at st l₁ l₂ := by
  have hindx : ∀ l, Source st own to' l → indxOr st' l.head? = indxOr st l.head? := by
    intro l hl
    cases l with
    | nil => rfl
    | cons a l => simp only [List.head?_cons, indxOr, (hk a (hl.held a (by simp))).2]
  rw [Operands.at, Operands.at, hindx l₁ h₁, hindx l₂ h₂]

theorem Source.holds_kept (hl : Source st own to' l) (hk : Kept to' own st own' st')
    (bit : BitVec 32) : Holds st'.elt l bit ↔ Holds st.elt l bit :=
  holds_congr fun a ha => by
    rw [(hk a (hl.held a ha)).2]
    exact ⟨rfl, rfl⟩

end Operands

section Loop

variable {st st' : State h B} {own : Nat → Owner B} {lists : B → List Nat} {free : List Nat}
  {l₁ l₂ : List Nat} {to' : B}

/-- What the loop of `bitmap_operation` leaves: the destination has got the bits that the operation
gives on the rest of the operands. -/
structure Combined [DecidableEq B] (to' : B) (op : BitmapBits) (l₁ l₂ : List Nat) (st : State h B)
    (own : Nat → Owner B) (lists : B → List Nat) (toPtr : Option Nat) (st' : State h B)
    (own' : Nat → Owner B) (lists' : B → List Nat) (free' : List Nat) : Prop where
  shape : Shape st' own' lists' free'
  pending : ∀ a, toPtr = some a → own' a = .pending
  others : ∀ b, b ≠ to' → lists' b = lists b
  kept : Kept to' own st own' st'
  nonzero : ∀ a ∈ lists' to', (st'.elt a).zerop = false
  holds : ∀ bit, Holds st'.elt (lists' to') bit ↔
    Holds st.elt (lists to') bit ∨ op.Holds (Holds st.elt l₁ bit) (Holds st.elt l₂ bit)
  allocated : st.allocated ≤ st'.allocated

theorem BitmapBits.not_holds_false (op : BitmapBits) : ¬ op.Holds False False := by
  cases op <;> simp [BitmapBits.Holds]

theorem operationLoop_nil [DecidableEq B] (op : BitmapBits) (fuel : Nat) (indx₁ indx₂ : Nat)
    (toPtr : Option Nat) :
    operationLoop to' op fuel ⟨none, none, indx₁, indx₂⟩ toPtr st = some (toPtr, st) := by
  cases fuel <;> rfl

/-- An element to work on: the one that was not used, or a new one. -/
theorem Shape.element (hs : Shape st own lists free) {toPtr : Option Nat}
    (hpending : ∀ a, toPtr = some a → own a = .pending) :
    ∃ a st₁ own₁ free₁, toPtr.elim (bitmapElementAllocate st) (fun a => (a, st)) = (a, st₁) ∧
      Shape st₁ own₁ lists free₁ ∧ own₁ a = .pending ∧
      (own a = .pending ∨ own a = .free ∨ own a = .nobody) ∧
      (∀ c, c ≠ a → own₁ c = own c ∧ st₁.elt c = st.elt c) ∧ st₁.head = st.head ∧
      st.allocated ≤ st₁.allocated := by
  cases toPtr with
  | some a =>
    exact ⟨a, st, own, free, rfl, hs, hpending a rfl, .inl (hpending a rfl), fun _ _ => ⟨rfl, rfl⟩,
      rfl, le_rfl⟩
  | none =>
    obtain ⟨a, st₁, free₁, halloc, hs₁, hown, -, hsame, hhead, hle⟩ := hs.allocate
    exact ⟨a, st₁, _, free₁, halloc, hs₁, Function.update_self .., .inr hown,
      fun c hc => ⟨Function.update_of_ne hc .., hsame c hc⟩, hhead, hle⟩

/-- Where the loop is: its operands, and the destination, which ends below them. -/
structure Merging (to' : B) (st : State h B) (own : Nat → Owner B) (lists : B → List Nat) (free l₁ l₂ : List Nat) :
    Prop where
  shape : Shape st own lists free
  first : Source st own to' l₁
  second : Source st own to' l₂
  exact : Exact st.elt (st.head to')
  below : ∀ c ∈ lists to', ∀ d ∈ l₁ ++ l₂, (st.elt c).indx < (st.elt d).indx
  nonzero : ∀ a ∈ lists to', (st.elt a).zerop = false

theorem Merging.start (hs : Shape st own lists free) (h₁ : Source st own to' l₁) (h₂ : Source st own to' l₂)
    (hexact : Exact st.elt (st.head to')) (hnil : lists to' = []) : Merging to' st own lists free l₁ l₂ :=
  ⟨hs, h₁, h₂, hexact, by rw [hnil]; simp, by rw [hnil]; simp⟩

/-- The operation has been done on the element `a`, which is on no list. -/
structure Worked (to' : B) (op : BitmapBits) (st : State h B) (own : Nat → Owner B) (lists : B → List Nat)
    (l₁ l₂ : List Nat) (turn : Turn) (r₁ r₂ : List Nat) (a : Nat) (st' : State h B) (own' : Nat → Owner B)
    (free' : List Nat) : Prop where
  taken : Taken st turn l₁ l₂ r₁ r₂
  first : Source st own to' r₁
  second : Source st own to' r₂
  shape : Shape st' own' lists free'
  pending : own' a = .pending
  fresh : own a = .pending ∨ own a = .free ∨ own a = .nobody
  same : ∀ c, c ≠ a → own' c = own c ∧ st'.elt c = st.elt c
  head : st'.head = st.head
  allocated : st.allocated ≤ st'.allocated
  word : ∀ bit, op.Holds (Holds st.elt l₁ bit) (Holds st.elt l₂ bit) ↔
    turn.indx = indxOf h bit ∧ ((st'.elt a).bits (wordNum h bit)).getLsbD (bitNum h bit) = true ∨
      op.Holds (Holds st.elt r₁ bit) (Holds st.elt r₂ bit)

variable {op : BitmapBits} {turn : Turn} {r₁ r₂ : List Nat} {a : Nat} {own' : Nat → Owner B} {free' : List Nat}

theorem Worked.ne_of_held (hw : Worked to' op st own lists l₁ l₂ turn r₁ r₂ a st' own' free') {c : Nat}
    (hc : own c = .loose ∨ ∃ b, b ≠ to' ∧ own c = .bitmap b) : c ≠ a := by
  rintro rfl
  obtain hfresh | hfresh | hfresh := hw.fresh <;> simp [hfresh] at hc

theorem Worked.kept (hw : Worked to' op st own lists l₁ l₂ turn r₁ r₂ a st' own' free') :
    Kept to' own st own' st' :=
  fun c hc => hw.same c (hw.ne_of_held hc)

theorem Worked.ne_of_mem (hw : Worked to' op st own lists l₁ l₂ turn r₁ r₂ a st' own' free')
    (hs : Shape st own lists free) {b : B} {c : Nat} (hc : c ∈ lists b) : c ≠ a := by
  rintro rfl
  have hfresh := hw.fresh
  rw [hs.bitmaps_own b c hc] at hfresh
  simp at hfresh

theorem Taken.mem_rest (ht : Taken st turn l₁ l₂ r₁ r₂) {d : Nat} (hd : d ∈ r₁ ++ r₂) : d ∈ l₁ ++ l₂ := by
  rw [ht.first, ht.second]
  simp only [List.mem_append] at hd ⊢
  grind

theorem Worked.ne_of_rest (hw : Worked to' op st own lists l₁ l₂ turn r₁ r₂ a st' own' free') {d : Nat}
    (hd : d ∈ r₁ ++ r₂) : d ≠ a := by
  obtain hd | hd := List.mem_append.1 hd
  · exact hw.ne_of_held (hw.first.held d hd)
  · exact hw.ne_of_held (hw.second.held d hd)

theorem Taken.length_rest (ht : Taken st turn l₁ l₂ r₁ r₂) : r₁.length + r₂.length < l₁.length + l₂.length := by
  have hlen₁ := congrArg List.length ht.first
  have hlen₂ := congrArg List.length ht.second
  have htook := ht.taken
  rw [List.length_append] at hlen₁ hlen₂
  obtain ⟨indx, tmp1, tmp2, rest⟩ := turn
  cases tmp1 <;> cases tmp2 <;> simp at hlen₁ hlen₂ htook <;> omega

theorem Taken.exists_indx (ht : Taken st turn l₁ l₂ r₁ r₂) : ∃ e ∈ l₁ ++ l₂, (st.elt e).indx = turn.indx := by
  obtain hsome | hsome := ht.taken
  · obtain ⟨e, he⟩ := Option.ne_none_iff_exists'.1 hsome
    exact ⟨e, by rw [ht.first, he]; simp, ht.indx e (.inl he)⟩
  · obtain ⟨e, he⟩ := Option.ne_none_iff_exists'.1 hsome
    exact ⟨e, by rw [ht.second, he]; simp, ht.indx e (.inr he)⟩

variable [DecidableEq B]

theorem operationLoop_succ (op : BitmapBits) (fuel : Nat) {o : Operands} {toPtr : Option Nat}
    {turn : Turn} {a : Nat} {st₁ : State h B} (hne : o.from1 ≠ none ∨ o.from2 ≠ none)
    (hturn : takeElements st o = some turn)
    (helement : toPtr.elim (bitmapElementAllocate st) (fun a => (a, st)) = (a, st₁))
    {bits : Fin 2 → BitVec h.bits}
    (hbits : bits = fun i => op.words (bitsOf st₁ turn.tmp1 i) (bitsOf st₁ turn.tmp2 i)) :
    operationLoop to' op (fuel + 1) o toPtr st =
      if ((st₁.setBits a bits).elt a).zerop then
        operationLoop to' op fuel turn.rest (some a) (st₁.setBits a bits)
      else
        (bitmapElementLink to' a ((st₁.setBits a bits).setElt a
          { (st₁.setBits a bits).elt a with indx := turn.indx })).bind
          (operationLoop to' op fuel turn.rest none) := by
  have hstep : operationLoop to' op (fuel + 1) o toPtr st = (takeElements st o).bind fun turn =>
      let r := toPtr.elim (bitmapElementAllocate st) fun a => (a, st)
      let bits1 := bitsOf r.2 turn.tmp1
      let bits2 := bitsOf r.2 turn.tmp2
      let st := r.2.setBits r.1 fun i => op.words (bits1 i) (bits2 i)
      if (st.elt r.1).zerop then operationLoop to' op fuel turn.rest (some r.1) st
      else (bitmapElementLink to' r.1 (st.setElt r.1 { st.elt r.1 with indx := turn.indx })).bind
        (operationLoop to' op fuel turn.rest none) := by
    obtain ⟨from1, from2, indx1, indx2⟩ := o
    cases toPtr <;> cases from1 <;> cases from2 <;> first | rfl | simp at hne
  rw [hstep, hturn, Option.bind_some, helement, hbits]

theorem Merging.work (hm : Merging to' st own lists free l₁ l₂) (op : BitmapBits) {toPtr : Option Nat}
    (hpending : ∀ a, toPtr = some a → own a = .pending) (hne : l₁ ≠ [] ∨ l₂ ≠ []) :
    ∃ turn r₁ r₂ a st' own' free', Worked to' op st own lists l₁ l₂ turn r₁ r₂ a st' own' free' ∧
      ∀ fuel, operationLoop to' op (fuel + 1) (Operands.at st l₁ l₂) toPtr st =
        if (st'.elt a).zerop then operationLoop to' op fuel turn.rest (some a) st'
        else (bitmapElementLink to' a (st'.setElt a { st'.elt a with indx := turn.indx })).bind
          (operationLoop to' op fuel turn.rest none) := by
  obtain ⟨turn, r₁, r₂, hturn, htaken, hr₁, hr₂⟩ := takeElements_taken hm.first hm.second hne
  obtain ⟨a, st₁, own₁, free₁, helement, hs₁, hown₁, howna, hsame₁, hhead₁, halloc₁⟩ :=
    hm.shape.element hpending
  obtain ⟨bits, hbits⟩ : ∃ bits, bits = fun i => op.words (bitsOf st₁ turn.tmp1 i)
    (bitsOf st₁ turn.tmp2 i) := ⟨_, rfl⟩
  have hfrom : (Operands.at st l₁ l₂).from1 ≠ none ∨ (Operands.at st l₁ l₂).from2 ≠ none := by
    simpa [Operands.at] using hne
  have hbitsa : ((st₁.setBits a bits).elt a).bits = bits := by simp [State.setBits, State.setElt]
  -- the elements that are taken keep their bits
  have hold : ∀ tmp : Option Nat, (∀ c, tmp = some c → c ∈ l₁ ++ l₂) → bitsOf st₁ tmp = bitsOf st tmp := by
    intro tmp htmp
    cases tmp with
    | none => rfl
    | some c =>
      have hheld : own c = .loose ∨ ∃ b, b ≠ to' ∧ own c = .bitmap b := by
        obtain hc | hc := List.mem_append.1 (htmp c rfl)
        · exact hm.first.held c hc
        · exact hm.second.held c hc
      have hca : c ≠ a := by
        rintro rfl
        obtain howna | howna | howna := howna <;> simp [howna] at hheld
      simp only [bitsOf, (hsame₁ c hca).2]
  refine ⟨turn, r₁, r₂, a, st₁.setBits a bits, own₁, free₁, ⟨htaken, hr₁, hr₂, hs₁.setBits a bits, hown₁, howna,
    fun c hc => ⟨(hsame₁ c hc).1, (Function.update_of_ne hc ..).trans (hsame₁ c hc).2⟩, hhead₁, halloc₁,
    fun bit => ?_⟩, fun fuel => operationLoop_succ op fuel hfrom hturn helement hbits⟩
  rw [htaken.holds op bit, hbitsa, hbits, hold turn.tmp1, hold turn.tmp2]
  · intro c hc
    rw [htaken.second, hc]
    simp
  · intro c hc
    rw [htaken.first, hc]
    simp

/-- The result has no bit: the element is kept for the next turn. -/
theorem Worked.skip (hw : Worked to' op st own lists l₁ l₂ turn r₁ r₂ a st' own' free')
    (hm : Merging to' st own lists free l₁ l₂) (hzero : (st'.elt a).zerop = true) :
    Merging to' st' own' lists free' r₁ r₂ ∧
      ∀ {toPtr st'' own'' lists'' free''}, Combined to' op r₁ r₂ st' own' lists toPtr st'' own'' lists'' free'' →
        Combined to' op l₁ l₂ st own lists toPtr st'' own'' lists'' free'' := by
  have hk := hw.kept
  have hsame : ∀ c ∈ lists to', st'.elt c = st.elt c := fun c hc => (hw.same c (hw.ne_of_mem hm.shape hc)).2
  refine ⟨⟨hw.shape, hw.first.kept hk, hw.second.kept hk, fun c hc => ?_, fun c hc d hd => ?_, fun c hc => ?_⟩,
    fun hcombined => ⟨hcombined.shape, hcombined.pending, hcombined.others, hk.trans hcombined.kept,
      hcombined.nonzero, fun bit => ?_, hw.allocated.trans hcombined.allocated⟩⟩
  · have hc' : (st.head to').current = some c := hw.head ▸ hc
    rw [hsame c ((hm.shape.bitmaps to').current c hc').1]
    exact (congrArg Head.indx (congrFun hw.head to')).trans (hm.exact c hc')
  · rw [hsame c hc, (hw.same d (hw.ne_of_rest hd)).2]
    exact hm.below c hc d (hw.taken.mem_rest hd)
  · rw [hsame c hc]
    exact hm.nonzero c hc
  · have hclear : ((st'.elt a).bits (wordNum h bit)).getLsbD (bitNum h bit) = false := by
      rw [(zerop_iff _).1 hzero (wordNum h bit)]
      simp
    have hold : Holds st'.elt (lists to') bit ↔ Holds st.elt (lists to') bit := holds_congr fun c hc => by
      rw [hsame c hc]
      exact ⟨rfl, rfl⟩
    rw [hcombined.holds, hold, hw.first.holds_kept hk, hw.second.holds_kept hk, hw.word, hclear]
    simp

/-- The element gets the index of the turn, and is linked in behind the others. -/
theorem Worked.link (hw : Worked to' op st own lists l₁ l₂ turn r₁ r₂ a st' own' free')
    (hm : Merging to' st own lists free l₁ l₂) (hzero : (st'.elt a).zerop = false) :
    ∃ st₁ own₁ lists₁,
      bitmapElementLink to' a (st'.setElt a { st'.elt a with indx := turn.indx }) = some st₁ ∧
      Kept to' own st own₁ st₁ ∧ Merging to' st₁ own₁ lists₁ free' r₁ r₂ ∧
      ∀ {toPtr st'' own'' lists'' free''}, Combined to' op r₁ r₂ st₁ own₁ lists₁ toPtr st'' own'' lists'' free'' →
        Combined to' op l₁ l₂ st own lists toPtr st'' own'' lists'' free'' := by
  obtain ⟨st₂, hst₂⟩ : ∃ st₂, st₂ = st'.setElt a { st'.elt a with indx := turn.indx } := ⟨_, rfl⟩
  have hsame : ∀ c, c ≠ a → st₂.elt c = st.elt c := by
    intro c hc
    rw [hst₂]
    exact (Function.update_of_ne hc ..).trans (hw.same c hc).2
  have hindx : (st₂.elt a).indx = turn.indx := by simp [hst₂, State.setElt]
  have hbits : (st₂.elt a).bits = (st'.elt a).bits := by simp [hst₂, State.setElt]
  have hhead : st₂.head = st.head := by
    rw [hst₂]
    exact hw.head
  have hs₂ : Shape st₂ own' lists free' := by
    refine hw.shape.congr (fun c _ hp _ => ?_) (by rw [hst₂]; rfl) (by rw [hst₂]; rfl) (by rw [hst₂]; rfl)
    rw [hst₂]
    refine Function.update_of_ne ?_ ..
    rintro rfl
    exact hp hw.pending
  obtain ⟨e, he, heindx⟩ := hw.taken.exists_indx
  have hsmall : turn.indx < 2 ^ 32 - 1 := by
    obtain he | he := List.mem_append.1 he
    · exact heindx ▸ hm.first.small e he
    · exact heindx ▸ hm.second.small e he
  obtain ⟨st₁, k₁, k₂, hlink, hlist, hs₁, hexact₁, hcontent, hsame₁, -, halloc₁⟩ :=
    hs₂.link hw.pending (hindx ▸ hsmall) (fun c hc => by
      rw [hhead] at hc ⊢
      rw [hsame c (hw.ne_of_mem hm.shape ((hm.shape.bitmaps to').current c hc).1)]
      exact hm.exact c hc) (fun c hc => by
      rw [hsame c (hw.ne_of_mem hm.shape hc), hindx, ← heindx]
      exact (hm.below c hc e he).ne)
  have hk : Kept to' own st (Function.update own' a (.bitmap to')) st₁ := by
    intro c hc
    have hca := hw.ne_of_held hc
    have hownc := (hw.same c hca).1
    refine ⟨(Function.update_of_ne hca ..).trans hownc, ?_⟩
    rw [hsame₁ c hca, hsame c hca]
    rw [hownc]
    rintro heq
    rw [heq] at hc
    simp at hc
  have hbelow : ∀ c ∈ k₁ ++ a :: k₂, ∀ d ∈ r₁ ++ r₂, (st₁.elt c).indx < (st₁.elt d).indx := by
    intro c hc d hd
    rw [(hcontent c).1, (hcontent d).1, hsame d (hw.ne_of_rest hd)]
    by_cases hca : c = a
    · rw [hca, hindx]
      exact hw.taken.above d hd
    · rw [hsame c hca]
      refine hm.below c ?_ d (hw.taken.mem_rest hd)
      rw [hlist]
      simpa [hca] using hc
  have hnonzero : ∀ c ∈ k₁ ++ a :: k₂, (st₁.elt c).zerop = false := by
    intro c hc
    rw [Element.zerop, (hcontent c).2]
    by_cases hca : c = a
    · rw [hca, hbits]
      exact hzero
    · rw [hsame c hca]
      refine hm.nonzero c ?_
      rw [hlist]
      simpa [hca] using hc
  refine ⟨st₁, _, _, by rw [← hst₂, hlink], hk, ⟨hs₁, hw.first.kept hk, hw.second.kept hk, hexact₁,
    by rwa [Function.update_self], by rwa [Function.update_self]⟩, fun hcombined => ⟨hcombined.shape,
      hcombined.pending, fun b hb => ?_, hk.trans hcombined.kept, hcombined.nonzero, fun bit => ?_, ?_⟩⟩
  · rw [hcombined.others b hb, Function.update_of_ne hb]
  · have hold : Holds st₂.elt (k₁ ++ k₂) bit ↔ Holds st.elt (lists to') bit := by
      rw [hlist]
      refine holds_congr fun c hc => ?_
      rw [hsame c (hw.ne_of_mem hm.shape (hlist ▸ hc))]
      exact ⟨rfl, rfl⟩
    rw [hcombined.holds, Function.update_self, holds_congr (fun c _ => hcontent c), holds_insert, hindx, hbits,
      hold, hw.first.holds_kept hk, hw.second.holds_kept hk, hw.word, or_assoc]
  · have halloc : st₁.allocated = st'.allocated := by
      rw [halloc₁, hst₂]
      rfl
    exact hw.allocated.trans (halloc ▸ hcombined.allocated)

theorem Merging.done (hm : Merging to' st own lists free [] []) (op : BitmapBits) {toPtr : Option Nat}
    (hpending : ∀ a, toPtr = some a → own a = .pending) :
    Combined to' op [] [] st own lists toPtr st own lists free :=
  ⟨hm.shape, hpending, fun _ _ => rfl, fun _ _ => ⟨rfl, rfl⟩, hm.nonzero,
    fun bit => by simp [op.not_holds_false], le_rfl⟩

theorem operationLoop_combined (op : BitmapBits) (fuel : Nat) {toPtr : Option Nat}
    (hm : Merging to' st own lists free l₁ l₂) (hpending : ∀ a, toPtr = some a → own a = .pending)
    (hfuel : l₁.length + l₂.length ≤ fuel) :
    ∃ toPtr' st' own' lists' free',
      operationLoop to' op fuel (Operands.at st l₁ l₂) toPtr st = some (toPtr', st') ∧
        Combined to' op l₁ l₂ st own lists toPtr' st' own' lists' free' := by
  induction fuel generalizing st own lists free l₁ l₂ toPtr with
  | zero =>
    obtain rfl := List.eq_nil_of_length_eq_zero (by omega : l₁.length = 0)
    obtain rfl := List.eq_nil_of_length_eq_zero (by omega : l₂.length = 0)
    exact ⟨toPtr, st, own, lists, free, rfl, hm.done op hpending⟩
  | succ fuel ih =>
    by_cases hne : l₁ ≠ [] ∨ l₂ ≠ []
    · obtain ⟨turn, r₁, r₂, a, st₁, own₁, free₁, hw, hrun⟩ := hm.work op hpending hne
      have hlen := hw.taken.length_rest
      have hrest := hw.taken.rest
      cases hzero : (st₁.elt a).zerop with
      | true =>
        obtain ⟨hm₁, hdone⟩ := hw.skip hm hzero
        have hpending₁ : ∀ c, some a = some c → own₁ c = .pending := by
          rintro _ ⟨⟩
          exact hw.pending
        obtain ⟨toPtr', st', own', lists', free', hloop, hcombined⟩ := ih hm₁ hpending₁ (by omega)
        refine ⟨toPtr', st', own', lists', free', ?_, hdone hcombined⟩
        rw [hrun, hzero, if_pos rfl, hrest, ← hw.first.operands_kept hw.second hw.kept, hloop]
      | false =>
        obtain ⟨st₂, own₂, lists₂, hlink, hk, hm₂, hdone⟩ := hw.link hm hzero
        have hpending₂ : ∀ c, none = some c → own₂ c = .pending := by rintro _ ⟨⟩
        obtain ⟨toPtr', st', own', lists', free', hloop, hcombined⟩ := ih hm₂ hpending₂ (by omega)
        refine ⟨toPtr', st', own', lists', free', ?_, hdone hcombined⟩
        rw [hrun, hzero, if_neg Bool.false_ne_true, hlink, Option.bind_some, hrest,
          ← hw.first.operands_kept hw.second hk, hloop]
    · rw [not_or, not_not, not_not] at hne
      obtain ⟨rfl, rfl⟩ := hne
      exact ⟨toPtr, st, own, lists, free, operationLoop_nil op _ _ _ toPtr, hm.done op hpending⟩

end Loop

section Operation

variable {st st₀ st₁ : State h B} {sets : B → Set (BitVec 32)} {own own₀ own₁ : Nat → Owner B}
  {lists lists₀ lists₁ : B → List Nat} {free free₁ : List Nat} [DecidableEq B] {to' : B}

/-- The set that an operation gives. -/
def BitmapBits.result (op : BitmapBits) (s₁ s₂ : Set (BitVec 32)) : Set (BitVec 32) :=
  {bit | op.Holds (bit ∈ s₁) (bit ∈ s₂)}

/-- Behind the loop the element that was not used and the old list are freed. -/
theorem Combined.finish {op : BitmapBits} {from1 from2 : B} {l₁ l₂ dl : List Nat}
    {toPtr : Option Nat} (hd : Denotes st sets own lists free)
    (hc : Combined to' op l₁ l₂ st₀ own₀ lists₀ toPtr st₁ own₁ lists₁ free₁)
    (hnil : lists₀ to' = [])
    (hothers : ∀ b, b ≠ to' → lists₀ b = lists b ∧ ∀ a ∈ lists b,
      own₀ a = .bitmap b ∧ st₀.elt a = st.elt a)
    (h₁ : ∀ bit, bit ∈ sets from1 ↔ Holds st₀.elt l₁ bit)
    (h₂ : ∀ bit, bit ∈ sets from2 ↔ Holds st₀.elt l₂ bit)
    (hpath : Path (fun a => (st₀.elt a).next) dl) (hnodup : dl.Nodup)
    (hloose : ∀ a ∈ dl, own₀ a = .loose) :
    ∃ st' own' lists' free', freeElements (releaseElement toPtr st₁).allocated dl.head?
        (releaseElement toPtr st₁) = some st' ∧
      Denotes st' (Function.update sets to' (op.result (sets from1) (sets from2))) own' lists'
        free' := by
  have hdl : ∀ a ∈ dl, own₁ a = .loose ∧ st₁.elt a = st₀.elt a := by
    intro a ha
    obtain ⟨hown, helt⟩ := hc.kept a (.inl (hloose a ha))
    exact ⟨hown.trans (hloose a ha), helt⟩
  -- the unused element goes to the free list
  obtain ⟨own₂, free₂, hs₂, hsame₂⟩ : ∃ own₂ free₂,
      Shape (releaseElement toPtr st₁) own₂ lists₁ free₂ ∧ ∀ c, own₁ c ≠ .pending →
        own₂ c = own₁ c ∧ (releaseElement toPtr st₁).elt c = st₁.elt c := by
    cases toPtr with
    | none => exact ⟨own₁, free₁, hc.shape, fun _ _ => ⟨rfl, rfl⟩⟩
    | some a =>
      have hown := hc.pending a rfl
      refine ⟨_, _, hc.shape.push (.inr hown), fun c hcp => ?_⟩
      have hca : c ≠ a := by
        rintro rfl
        exact hcp hown
      exact ⟨Function.update_of_ne hca .., Function.update_of_ne hca ..⟩
  have hdl₂ : ∀ a ∈ dl, own₂ a = .loose ∧ (releaseElement toPtr st₁).elt a = st₀.elt a := by
    intro a ha
    obtain ⟨hown, helt⟩ := hdl a ha
    obtain ⟨hown₂, helt₂⟩ := hsame₂ a (by simp [hown])
    exact ⟨hown₂.trans hown, helt₂.trans helt⟩
  have hlen : dl.length ≤ (releaseElement toPtr st₁).allocated :=
    hs₂.length_le hnodup fun a ha => by simp [(hdl₂ a ha).1]
  obtain ⟨st', hfree, hs', -, -, hsame'⟩ := hs₂.pushAll
    (hpath.congr fun a ha => by rw [(hdl₂ a ha).2]) hnodup (fun a ha => (hdl₂ a ha).1) hlen
  have hfinal : ∀ b, ∀ a ∈ lists₁ b, st'.elt a = st₁.elt a := by
    intro b a ha
    have hown := hc.shape.bitmaps_own b a ha
    rw [hsame' a, (hsame₂ a (by simp [hown])).2]
    intro hmem
    rw [(hdl a hmem).1] at hown
    cases hown
  refine ⟨st', _, lists₁, _, hfree, hd.update hs' (fun b hb => ?_)
    (fun a ha => ?_) fun bit => ?_⟩
  · obtain ⟨hlist, hheld⟩ := hothers b hb
    refine ⟨(hc.others b hb).trans hlist, fun a ha => ?_⟩
    obtain ⟨hown, helt⟩ := hheld a ha
    have hkept := (hc.kept a (.inr ⟨b, hb, hown⟩)).2
    rw [hfinal b a (by rw [hc.others b hb, hlist]; exact ha), hkept, helt]
    exact ⟨rfl, rfl⟩
  · rw [hfinal to' a ha]
    exact hc.nonzero a ha
  · have hsame : Holds st'.elt (lists₁ to') bit ↔ Holds st₁.elt (lists₁ to') bit :=
      holds_congr fun a ha => by
        rw [hfinal to' a ha]
        exact ⟨rfl, rfl⟩
    rw [hsame, hc.holds, hnil, ← h₁, ← h₂]
    simp [BitmapBits.result]

omit [DecidableEq B] in
/-- The list of a bitmap is an operand as long as its own bitmap is not the destination, or its
elements are loose. -/
theorem Shape.source (hs : Shape st own lists free) {b : B} {own₀ : Nat → Owner B}
    (hheld : ∀ a ∈ lists b, own₀ a = .loose ∨ ∃ b', b' ≠ to' ∧ own₀ a = .bitmap b')
    (helt : ∀ a ∈ lists b, st₀.elt a = st.elt a) : Source st₀ own₀ to' (lists b) := by
  have hl := (hs.bitmaps b).congr helt
  exact ⟨hl.linked.path, hl.increasing, hl.small, hheld⟩

/-- The set of the destination becomes the result of the operation, also where it is an operand. -/
theorem Denotes.operation (hd : Denotes st sets own lists free) (to' from1 from2 : B)
    (op : BitmapBits) :
    ∃ st' own' lists' free', bitmapOperation to' from1 from2 op st = some st' ∧
      Denotes st' (Function.update sets to' (op.result (sets from1) (sets from2))) own' lists'
        free' := by
  have hfirst : ∀ b, (st.head b).first = (lists b).head? := fun b => (hd.shape.bitmaps b).first
  have hlen₁ := hd.shape.list_length_le from1
  have hlen₂ := hd.shape.list_length_le from2
  have hbown := hd.shape.bitmaps_own
  by_cases halias : to' = from1 ∨ to' = from2
  · -- the old list of the destination is kept until the end
    have hs₀ := hd.shape.detach to' (st.head to').indx
    have hheld : ∀ b, ∀ a ∈ lists b, (if a ∈ lists to' then Owner.loose else own a) = .loose ∨
        ∃ b', b' ≠ to' ∧ (if a ∈ lists to' then Owner.loose else own a) = .bitmap b' := by
      intro b a ha
      by_cases hmem : a ∈ lists to'
      · exact .inl (if_pos hmem)
      · refine .inr ⟨b, ?_, (if_neg hmem).trans (hbown b a ha)⟩
        rintro rfl
        exact hmem ha
    have h₁ : Source (st.setHead to' ⟨none, none, (st.head to').indx⟩) _ to' (lists from1) :=
      hd.shape.source (hheld from1) fun _ _ => rfl
    have h₂ : Source (st.setHead to' ⟨none, none, (st.head to').indx⟩) _ to' (lists from2) :=
      hd.shape.source (hheld from2) fun _ _ => rfl
    have hnil : Function.update lists to' [] to' = [] := Function.update_self ..
    have hkeep : ∀ b, b ≠ to' → ∀ a ∈ lists b,
        (if a ∈ lists to' then Owner.loose else own a) = .bitmap b := by
      intro b hb a ha
      rw [if_neg, hbown b a ha]
      intro hmem
      have howns := (hbown b a ha).symm.trans (hbown to' a hmem)
      exact hb (Owner.bitmap.inj howns)
    obtain ⟨toPtr, st₁, own₁, lists₁, free₁, hloop, hc⟩ := operationLoop_combined op
      (2 * st.allocated) (.start hs₀ h₁ h₂ (fun c hc => by rw [setHead_self] at hc; cases hc) hnil)
      (show ∀ a, none = some a → _ by rintro _ ⟨⟩) (by omega)
    obtain ⟨st', own', lists', free', hfree, hd'⟩ := hc.finish hd hnil
      (fun b hb => ⟨Function.update_of_ne hb .., fun a ha => ⟨hkeep b hb a ha, rfl⟩⟩) (hd.holds from1)
      (hd.holds from2) (hd.shape.bitmaps to').linked.path (hd.shape.bitmaps to').nodup
      fun a ha => if_pos ha
    refine ⟨st', own', lists', free', ?_, hd'⟩
    simp only [bitmapOperation, if_pos halias, hfirst, bind, Option.bind]
    have hsame : (⟨(lists from1).head?, (lists from2).head?, indxOr st (lists from1).head?,
        indxOr st (lists from2).head?⟩ : Operands) =
        Operands.at (st.setHead to' ⟨none, none, (st.head to').indx⟩) (lists from1) (lists from2) :=
      rfl
    rw [hsame, setHead_allocated, hloop]
    exact hfree
  · -- it is freed at once
    obtain ⟨h1, h2⟩ := not_or.1 halias
    obtain ⟨st₀, own₀, free₀, hclear, hd₀, hframe, -, hcurrent, halloc⟩ := hd.clear to'
    have hother : ∀ b, b ≠ to' → ∀ a ∈ lists b, own₀ a = .bitmap b ∧ st₀.elt a = st.elt a := by
      intro b hb a ha
      obtain ⟨hown, helt⟩ := hframe a (by rw [hbown b a ha]; simpa using hb)
      exact ⟨hown.trans (hbown b a ha), helt⟩
    have h₁ : Source st₀ own₀ to' (lists from1) := hd.shape.source
      (fun a ha => .inr ⟨from1, Ne.symm h1, (hother from1 (Ne.symm h1) a ha).1⟩)
      fun a ha => (hother from1 (Ne.symm h1) a ha).2
    have h₂ : Source st₀ own₀ to' (lists from2) := hd.shape.source
      (fun a ha => .inr ⟨from2, Ne.symm h2, (hother from2 (Ne.symm h2) a ha).1⟩)
      fun a ha => (hother from2 (Ne.symm h2) a ha).2
    have hnil : Function.update lists to' [] to' = [] := Function.update_self ..
    obtain ⟨toPtr, st₁, own₁, lists₁, free₁, hloop, hc⟩ := operationLoop_combined op
      (2 * st₀.allocated) (.start hd₀.shape h₁ h₂ (fun c hc => by rw [hcurrent] at hc; cases hc) hnil)
      (show ∀ a, none = some a → _ by rintro _ ⟨⟩) (by omega)
    obtain ⟨st', own', lists', free', hfree, hd'⟩ := hc.finish hd hnil
      (fun b hb => ⟨Function.update_of_ne hb .., hother b hb⟩)
      (fun bit => (hd.holds from1 bit).trans (holds_congr fun a ha => by
        rw [(hother from1 (Ne.symm h1) a ha).2]; exact ⟨rfl, rfl⟩).symm)
      (fun bit => (hd.holds from2 bit).trans (holds_congr fun a ha => by
        rw [(hother from2 (Ne.symm h2) a ha).2]; exact ⟨rfl, rfl⟩).symm)
      (show Path _ [] from trivial) List.nodup_nil (by simp)
    refine ⟨st', own', lists', free', ?_, hd'⟩
    have hsame : (⟨(lists from1).head?, (lists from2).head?, indxOr st (lists from1).head?,
        indxOr st (lists from2).head?⟩ : Operands) =
        Operands.at st₀ (lists from1) (lists from2) := by
      have hindx : ∀ b, b ≠ to' → indxOr st₀ (lists b).head? = indxOr st (lists b).head? := by
        intro b hb
        cases hlist : lists b with
        | nil => rfl
        | cons a l =>
          have ha := (hother b hb a (by rw [hlist]; simp)).2
          simp only [List.head?_cons, indxOr, ha]
      rw [Operands.at, hindx from1 (Ne.symm h1), hindx from2 (Ne.symm h2)]
    simp only [bitmapOperation, if_neg halias, hclear, hfirst, bind, Option.bind, Option.map]
    rw [hsame, hloop]
    exact hfree

/-- The local head of `bitmap_ior_and_compl` holds no set behind it. -/
theorem Denotes.iorAndCompl (hd : Denotes st sets own lists free) {tmp from1 from2 : B}
    (hto : to' ≠ tmp) (h₁ : from1 ≠ tmp) (h₂ : from2 ≠ tmp) :
    ∃ st' own' lists' free', bitmapIorAndCompl tmp to' from1 from2 st = some st' ∧
      Denotes st' (Function.update (Function.update sets to' (sets to' ∪ (sets from1 \ sets from2)))
        tmp ∅) own' lists' free' := by
  have hd₀ : Denotes _ (Function.update sets tmp ∅) _ _ _ := hd.update
    (hd.shape.detach tmp (st.head tmp).indx) (fun b hb => ⟨Function.update_of_ne hb .., fun _ _ => ⟨rfl, rfl⟩⟩) (by simp) (by simp)
  obtain ⟨st₁, own₁, lists₁, free₁, hrun₁, hd₁⟩ := hd₀.operation tmp from1 from2 .andCompl
  obtain ⟨st₂, own₂, lists₂, free₂, hrun₂, hd₂⟩ := hd₁.operation to' to' tmp .ior
  obtain ⟨st₃, own₃, free₃, hrun₃, hd₃, -⟩ := hd₂.clear tmp
  refine ⟨st₃, own₃, Function.update lists₂ tmp [], free₃, ?_, ?_⟩
  · simp only [bitmapIorAndCompl, hrun₁, hrun₂, hrun₃, bind, Option.bind]
  · convert hd₃ using 1
    funext b
    by_cases hb : b = tmp
    · rw [hb, Function.update_self, Function.update_self]
    · rw [Function.update_of_ne hb, Function.update_of_ne hb]
      by_cases hbto : b = to'
      · rw [hbto, Function.update_self, Function.update_self, Function.update_self,
          Function.update_of_ne hto, Function.update_of_ne hto, Function.update_of_ne h₁,
          Function.update_of_ne h₂]
        rfl
      · rw [Function.update_of_ne hbto, Function.update_of_ne hbto, Function.update_of_ne hb,
          Function.update_of_ne hb]

end Operation

end Z80Gcc.Bitmap
