import Z80Gcc.Proofs.BitmapOperation

/-! Bitmaps denote sets of integers over every run of operations. -/

namespace Z80Gcc.Bitmap

open Z80Gcc.LinkedList

variable {h : Host} {B : Type}

section Copy

variable {st : State h B} {sets : B → Set (BitVec 32)} {own : Nat → Owner B}
  {lists : B → List Nat} {free : List Nat} [DecidableEq B] {to' : B}

/-- Where the loop of `bitmap_copy` is in the destination: its last element, behind which the next
one goes. -/
structure Copying (st : State h B) (to' : B) (out : List Nat) (toPtr : Option Nat) : Prop where
  last : toPtr = out.getLast?
  current : out ≠ [] → ∃ c ∈ out, (st.head to').current = some c ∧
    (st.head to').indx = (st.elt c).indx

theorem copyElements_cons (fuel : Nat) {toPtr : Option Nat} {f : Nat} {l : List Nat}
    (hs : Shape st own lists free) (hl : Source st own to' (f :: l))
    (hc : Copying st to' (lists to') toPtr)
    (hbelow : ∀ c ∈ lists to', ∀ d ∈ f :: l, (st.elt c).indx < (st.elt d).indx) :
    ∃ a st' own' free', copyElements to' (fuel + 1) (some f) toPtr st =
        copyElements to' fuel l.head? (some a) st' ∧
      Shape st' own' (Function.update lists to' (lists to' ++ [a])) free' ∧
      Copying st' to' (lists to' ++ [a]) (some a) ∧ Kept to' own st own' st' ∧
      (st'.elt a).indx = (st.elt f).indx ∧ (st'.elt a).bits = (st.elt f).bits ∧
      ∀ c ∈ lists to', (st'.elt c).indx = (st.elt c).indx ∧ (st'.elt c).bits = (st.elt c).bits := by
  obtain ⟨a, st₁, free₁, halloc, hs₁, hown, -, hsame₁, hhead₁, -⟩ := hs.allocate
  have hlist_ne : ∀ b, ∀ c ∈ lists b, c ≠ a := by
    rintro b c hcl rfl
    rw [hs.bitmaps_own b c hcl] at hown
    simp at hown
  have hheld_ne : ∀ c, (own c = .loose ∨ ∃ b, b ≠ to' ∧ own c = .bitmap b) → c ≠ a := by
    rintro c hc rfl
    obtain hown | hown := hown <;> simp [hown] at hc
  have hfa : f ≠ a := hheld_ne f (hl.held f (by simp))
  -- the copy, before it is linked
  obtain ⟨st₂, hst₂⟩ : ∃ st₂, st₂ = st₁.setElt a { st₁.elt a with
      indx := (st₁.elt f).indx, bits := (st₁.elt f).bits } := ⟨_, rfl⟩
  have hsame₂ : ∀ c, c ≠ a → st₂.elt c = st.elt c := fun c hc => by
    rw [hst₂]
    exact (Function.update_of_ne hc ..).trans (hsame₁ c hc)
  have hindx₂ : (st₂.elt a).indx = (st.elt f).indx := by
    simp [hst₂, State.setElt, hsame₁ f hfa]
  have hbits₂ : (st₂.elt a).bits = (st.elt f).bits := by
    simp [hst₂, State.setElt, hsame₁ f hfa]
  have hhead₂ : st₂.head = st.head := by
    rw [hst₂]
    exact hhead₁
  have hs₂ : Shape st₂ (Function.update own a .pending) lists free₁ := by
    refine hs₁.congr (fun c _ hp _ => ?_) (by rw [hst₂]; rfl) (by rw [hst₂]; rfl)
      (by rw [hst₂]; rfl)
    rw [hst₂]
    refine Function.update_of_ne ?_ ..
    rintro rfl
    exact hp (Function.update_self ..)
  have hsmall : (st₂.elt a).indx < 2 ^ 32 - 1 := hindx₂ ▸ hl.small f (by simp)
  have hbelow₂ : ∀ c ∈ lists to', (st₂.elt c).indx < (st₂.elt a).indx := by
    intro c hcl
    rw [hsame₂ c (hlist_ne to' c hcl), hindx₂]
    exact hbelow c hcl f (by simp)
  -- the last element, if there is one, gets the new one behind it
  obtain ⟨st', hd', hrun, helt, hhead, hfirst, hcurrent, hfree', halloc'⟩ :
      ∃ st' hd', copyElements to' (fuel + 1) (some f) toPtr st =
          copyElements to' fuel (st'.elt f).next (some a) st' ∧
        (∀ c, st'.elt c = { st₂.elt c with
          next := if c = a then none else if (lists to').getLast? = some c then some a
            else (st₂.elt c).next
          prev := if c = a then (lists to').getLast? else (st₂.elt c).prev }) ∧
        st'.head = Function.update st₂.head to' hd' ∧ hd'.first = (lists to' ++ [a]).head? ∧
        (∃ c ∈ lists to' ++ [a], hd'.current = some c ∧ hd'.indx = (st₂.elt c).indx) ∧
        st'.bitmapFree = st₂.bitmapFree ∧ st'.allocated = st₂.allocated := by
    cases toPtr with
    | none =>
      have hnil : lists to' = [] := List.getLast?_eq_none_iff.1 hc.last.symm
      refine ⟨(st₂.setHead to' ⟨some a, some a, (st₂.elt f).indx⟩).setElt a
        { st₂.elt a with next := none, prev := none }, ⟨some a, some a, (st₂.elt f).indx⟩, ?_,
        fun c => ?_, rfl, by rw [hnil]; rfl, ⟨a, by simp, rfl, ?_⟩, rfl, rfl⟩
      · simp only [copyElements, halloc, hst₂]
      · by_cases hca : c = a <;> simp [State.setElt, hnil, hca]
      · rw [hsame₂ f hfa, hindx₂]
    | some p =>
      have hpl : p ∈ lists to' := List.mem_of_getLast? hc.last.symm
      have hpa := hlist_ne to' p hpl
      have hne : lists to' ≠ [] := List.ne_nil_of_mem hpl
      obtain ⟨c, hcl, hcurrent, hcindx⟩ := hc.current hne
      refine ⟨(st₂.setElt a { st₂.elt a with prev := some p, next := none }).setNext p (some a),
        st.head to', ?_, fun c => ?_, ?_, ?_, ⟨c, by simp [hcl], hcurrent, ?_⟩, rfl, rfl⟩
      · simp only [copyElements, halloc, hst₂]
      · rw [← hc.last]
        by_cases hca : c = a
        · simp [State.setNext, State.setElt, hca, Ne.symm hpa]
        · by_cases hcp : c = p
          · simp [State.setNext, State.setElt, hcp, hpa]
          · simp [State.setNext, State.setElt, hca, hcp, Ne.symm hcp]
      · rw [← hhead₂, Function.update_eq_self]
        rfl
      · rw [(hs.bitmaps to').first]
        cases hl' : lists to' with
        | nil => exact absurd hl' hne
        | cons => rfl
      · rw [hcindx, hsame₂ c (hlist_ne to' c hcl)]
  have hs' := hs₂.insert (List.append_nil _).symm (Function.update_self ..) hsmall hbelow₂
    (by simp) (fun c => by simp [helt]) hhead hfirst hcurrent hfree' halloc'
  have hcontent : ∀ c, (st'.elt c).indx = (st₂.elt c).indx ∧ (st'.elt c).bits = (st₂.elt c).bits :=
    fun c => by simp [helt]
  have hkept : Kept to' own st (Function.update (Function.update own a .pending) a (.bitmap to'))
      st' := by
    intro c hheld
    have hca := hheld_ne c hheld
    have hcl : (lists to').getLast? ≠ some c := fun heq => by
      rw [hs.bitmaps_own to' c (List.mem_of_getLast? heq)] at hheld
      simp at hheld
    refine ⟨by rw [Function.update_of_ne hca, Function.update_of_ne hca], ?_⟩
    rw [helt, if_neg hca, if_neg hcl, if_neg hca, hsame₂ c hca]
  refine ⟨a, st', _, free₁, ?_, hs', ⟨by simp, fun _ => ?_⟩, hkept, (hcontent a).1.trans hindx₂,
    (hcontent a).2.trans hbits₂, fun c hcl => ?_⟩
  · rw [hrun, (hkept f (hl.held f (by simp))).2]
    exact congrArg (copyElements to' fuel · (some a) st') hl.path.1
  · obtain ⟨c, hcl, hcur, hcindx⟩ := hcurrent
    refine ⟨c, hcl, ?_, ?_⟩
    · rw [hhead, Function.update_self, hcur]
    · rw [hhead, Function.update_self, hcindx, (hcontent c).1]
  · rw [(hcontent c).1, (hcontent c).2, hsame₂ c (hlist_ne to' c hcl)]
    exact ⟨rfl, rfl⟩

theorem copyElements_copied (fuel : Nat) (toPtr : Option Nat) {l : List Nat}
    (hs : Shape st own lists free) (hl : Source st own to' l)
    (hc : Copying st to' (lists to') toPtr)
    (hbelow : ∀ c ∈ lists to', ∀ d ∈ l, (st.elt c).indx < (st.elt d).indx)
    (hnonzero : ∀ c ∈ lists to' ++ l, (st.elt c).zerop = false) (hfuel : l.length ≤ fuel) :
    ∃ st' own' lists' free', copyElements to' fuel l.head? toPtr st = some st' ∧
      Shape st' own' lists' free' ∧ (∀ b, b ≠ to' → lists' b = lists b) ∧ Kept to' own st own' st' ∧
      (∀ a ∈ lists' to', (st'.elt a).zerop = false) ∧
      ∀ bit, Holds st'.elt (lists' to') bit ↔ Holds st.elt (lists to') bit ∨ Holds st.elt l bit := by
  induction l generalizing st own lists free fuel toPtr with
  | nil =>
    refine ⟨st, own, lists, free, by cases fuel <;> rfl, hs, fun _ _ => rfl, fun _ _ => ⟨rfl, rfl⟩,
      by simpa using hnonzero, fun bit => by simp⟩
  | cons f l ih =>
    cases fuel with
    | zero => simp at hfuel
    | succ fuel =>
      obtain ⟨a, st₁, own₁, free₁, hrun, hs₁, hc₁, hk₁, hindx, hbits, hsame⟩ :=
        copyElements_cons fuel hs hl hc hbelow
      have hl₁ : Source st₁ own₁ to' l := hl.tail.kept hk₁
      have hrest : ∀ d ∈ f :: l, st₁.elt d = st.elt d := fun d hd => (hk₁ d (hl.held d hd)).2
      have hlist : Function.update lists to' (lists to' ++ [a]) to' = lists to' ++ [a] :=
        Function.update_self ..
      have hsorted := (List.pairwise_cons.1 hl.increasing).1
      have hbelow₁ : ∀ c ∈ lists to' ++ [a], ∀ d ∈ l, (st₁.elt c).indx < (st₁.elt d).indx := by
        intro c hcl d hd
        rw [hrest d (List.mem_cons_of_mem _ hd)]
        obtain hcl | hcl := List.mem_append.1 hcl
        · rw [(hsame c hcl).1]
          exact hbelow c hcl d (List.mem_cons_of_mem _ hd)
        · rw [List.mem_singleton.1 hcl, hindx]
          exact hsorted d hd
      have hnonzero₁ : ∀ c ∈ lists to' ++ [a] ++ l, (st₁.elt c).zerop = false := by
        intro c hcl
        simp only [List.mem_append, List.mem_singleton, or_assoc] at hcl
        obtain hcl | rfl | hcl := hcl
        · rw [Element.zerop, (hsame c hcl).2]
          exact hnonzero c (by simp [hcl])
        · rw [Element.zerop, hbits]
          exact hnonzero f (by simp)
        · rw [hrest c (List.mem_cons_of_mem _ hcl)]
          exact hnonzero c (by simp [hcl])
      obtain ⟨st', own', lists', free', hrun', hs', hothers, hk', hnonzero', hholds⟩ :=
        ih fuel (some a) hs₁ hl₁ (by rwa [hlist]) (by rwa [hlist]) (by rwa [hlist])
          (Nat.le_of_succ_le_succ hfuel)
      refine ⟨st', own', lists', free', hrun.trans hrun', hs', fun b hb => ?_, hk₁.trans hk',
        hnonzero', fun bit => ?_⟩
      · rw [hothers b hb, Function.update_of_ne hb]
      · have hold : Holds st₁.elt (lists to' ++ []) bit ↔ Holds st.elt (lists to') bit := by
          rw [List.append_nil]
          exact holds_congr hsame
        have hfirst : Holds st.elt (f :: l) bit ↔ Holds st.elt l bit ∨ _ :=
          @holds_insert h st.elt [] l bit f
        rw [hholds, hlist, holds_insert, hindx, hbits, hl.tail.holds_kept hk₁, hold, hfirst,
          or_assoc, or_comm (a := Holds st.elt l bit)]

theorem Denotes.copy (hd : Denotes st sets own lists free) {from' : B} (hne : to' ≠ from') :
    ∃ st' own' lists' free', bitmapCopy to' from' st = some st' ∧
      Denotes st' (Function.update sets to' (sets from')) own' lists' free' := by
  obtain ⟨st₀, own₀, free₀, hclear, hd₀, hframe, hhead, -, halloc⟩ := hd.clear to'
  have hother : ∀ b, b ≠ to' → ∀ a ∈ lists b, own₀ a = .bitmap b ∧ st₀.elt a = st.elt a := by
    intro b hb a ha
    obtain ⟨hown, helt⟩ := hframe a (by rw [hd.shape.bitmaps_own b a ha]; simpa using hb)
    exact ⟨hown.trans (hd.shape.bitmaps_own b a ha), helt⟩
  have hfrom := hother from' hne.symm
  have hl : Source st₀ own₀ to' (lists from') := hd.shape.source
    (fun a ha => .inr ⟨from', hne.symm, (hfrom a ha).1⟩) fun a ha => (hfrom a ha).2
  have hnil : Function.update lists to' [] to' = [] := Function.update_self ..
  obtain ⟨st', own', lists', free', hrun, hs', hothers, hk, hnonzero, hholds⟩ :=
    copyElements_copied st₀.allocated none hd₀.shape hl
      (by rw [hnil]; exact ⟨rfl, fun hne => absurd rfl hne⟩) (by rw [hnil]; simp)
      (fun c hc => by
        rw [hnil, List.nil_append] at hc
        rw [(hfrom c hc).2]
        exact hd.nonzero from' c hc)
      (halloc ▸ hd.shape.list_length_le from')
  refine ⟨st', own', lists', free', ?_, hd.update hs' (fun b hb => ?_) hnonzero fun bit => ?_⟩
  · rw [bitmapCopy, hclear]
    simp only [bind, Option.bind]
    rw [hhead from' hne.symm, (hd.shape.bitmaps from').first]
    exact hrun
  · refine ⟨by rw [hothers b hb, Function.update_of_ne hb], fun a ha => ?_⟩
    obtain ⟨hown, helt⟩ := hother b hb a ha
    rw [(hk a (.inr ⟨b, hb, hown⟩)).2, helt]
    exact ⟨rfl, rfl⟩
  · rw [hholds, hnil, hd.holds]
    simp only [holds_nil, false_or]
    exact (holds_congr fun a ha => by rw [(hfrom a ha).2]; exact ⟨rfl, rfl⟩).symm

end Copy

section Sets

variable [DecidableEq B]

/-- The operation on sets. -/
def BitmapBits.sets : BitmapBits → Set (BitVec 32) → Set (BitVec 32) → Set (BitVec 32)
  | and, s₁, s₂ => s₁ ∩ s₂
  | andCompl, s₁, s₂ => s₁ \ s₂
  | ior, s₁, s₂ => s₁ ∪ s₂

theorem BitmapBits.result_eq (op : BitmapBits) (s₁ s₂ : Set (BitVec 32)) :
    op.result s₁ s₂ = op.sets s₁ s₂ := by
  cases op <;> rfl

/-- What an operation does to the sets. -/
def Op.denote (sets : B → Set (BitVec 32)) : Op B → B → Set (BitVec 32)
  | setBit b bit => Function.update sets b (insert bit (sets b))
  | clearBit b bit => Function.update sets b (sets b \ {bit})
  | bitP _ _ => sets
  | clear b => Function.update sets b ∅
  | copy to' from' => Function.update sets to' (sets from')
  | operation to' from1 from2 op => Function.update sets to' (op.sets (sets from1) (sets from2))
  | iorAndCompl to' from1 from2 =>
    Function.update sets to' (sets to' ∪ (sets from1 \ sets from2))

omit [DecidableEq B] in
/-- No bitmap is copied to itself. -/
def Op.Apart : Op B → Prop
  | copy to' from' => to' ≠ from'
  | _ => True

/-- Every bitmap is a doubly linked list of nonzero elements by increasing index, and no element is
on two lists. -/
structure WellFormed (st : State h B) (lists : B → List Nat) (free : List Nat) : Prop where
  first : ∀ b, (st.head b).first = (lists b).head?
  linked : ∀ b, Linked (fun a => (st.elt a).next) (fun a => (st.elt a).prev) none (lists b) none
  increasing : ∀ b, (lists b).Pairwise fun a c => (st.elt a).indx < (st.elt c).indx
  nonzero : ∀ b, ∀ a ∈ lists b, (st.elt a).zerop = false
  disjoint : ∀ b c, b ≠ c → (lists b).Disjoint (lists c)
  free_head : st.bitmapFree = free.head?
  free_path : Path (fun a => (st.elt a).next) free
  free_nodup : free.Nodup
  free_disjoint : ∀ b, free.Disjoint (lists b)

/-- No element is allocated, and the heads are those of `bitmap_initialize`. -/
structure Initial (st : State h B) : Prop where
  bitmapFree : st.bitmapFree = none
  allocated : st.allocated = 0
  first : ∀ b, (st.head b).first = none
  current : ∀ b, (st.head b).current = none

def initialState : State h B := ⟨fun _ => bitmapZero, 0, none, fun _ => ⟨none, none, 0⟩⟩

omit [DecidableEq B] in
theorem initialState_initial : Initial (initialState : State h B) :=
  ⟨rfl, rfl, fun _ => rfl, fun _ => rfl⟩

/-- The operations one after the other. -/
def run (ops : List (Op B)) (st : State h (Option B)) : Option (State h (Option B)) :=
  ops.foldlM (fun st op => op.exec st) st

/-- The local head of `bitmap_ior_and_compl` denotes the empty set. -/
def withLocal (sets : B → Set (BitVec 32)) (b : Option B) : Set (BitVec 32) := b.elim ∅ sets

end Sets

section Runs

variable {st : State h B} {sets : B → Set (BitVec 32)} {own : Nat → Owner B}
  {lists : B → List Nat} {free : List Nat}

theorem Denotes.wellFormed (hd : Denotes st sets own lists free) : WellFormed st lists free := by
  have hs := hd.shape
  refine ⟨fun b => (hs.bitmaps b).first, fun b => (hs.bitmaps b).linked,
    fun b => (hs.bitmaps b).increasing, hd.nonzero, fun b c hne a hb hc => ?_, hs.free_head,
    hs.free_path, hs.free_nodup, fun b a hfree hb => ?_⟩
  · have howns := (hs.bitmaps_own b a hb).symm.trans (hs.bitmaps_own c a hc)
    exact hne (Owner.bitmap.inj howns)
  · have howns := (hs.free_own a hfree).symm.trans (hs.bitmaps_own b a hb)
    cases howns

theorem Initial.denotes (hi : Initial st) :
    Denotes st (fun _ => ∅) (fun _ => .nobody) (fun _ => []) [] := by
  refine ⟨⟨fun b => ⟨trivial, hi.first b, .nil, by simp, fun c hc => ?_, fun _ => rfl⟩, by simp,
    hi.bitmapFree, trivial, .nil, by simp, fun _ _ => rfl⟩, by simp, by simp⟩
  rw [hi.current b] at hc
  cases hc

variable [DecidableEq B]

theorem withLocal_update (b : B) (set : Set (BitVec 32)) :
    Function.update (withLocal sets) (some b) set = withLocal (Function.update sets b set) := by
  funext c
  cases c with
  | none => rfl
  | some c =>
    by_cases hc : c = b
    · simp [withLocal, hc]
    · simp [withLocal, hc]

theorem withLocal_none : Function.update (withLocal sets) none ∅ = withLocal sets := by
  funext c
  cases c <;> rfl

variable {st : State h (Option B)} {own : Nat → Owner (Option B)} {lists : Option B → List Nat}

theorem Denotes.exec (hd : Denotes st (withLocal sets) own lists free) (op : Op B)
    (hop : op.Apart) :
    ∃ st' own' lists' free', op.exec st = some st' ∧
      Denotes st' (withLocal (op.denote sets)) own' lists' free' := by
  cases op with
  | setBit b bit =>
    rw [Op.denote, ← withLocal_update]
    exact hd.setBit (some b) bit
  | clearBit b bit =>
    rw [Op.denote, ← withLocal_update]
    exact hd.clearBit (some b) bit
  | bitP b bit =>
    obtain ⟨r, head, hrun, hd', -⟩ := hd.bitP (some b) bit
    exact ⟨_, own, lists, free, by rw [Op.exec, hrun]; rfl, hd'⟩
  | clear b =>
    obtain ⟨st', own', free', hrun, hd', -⟩ := hd.clear (some b)
    rw [withLocal_update] at hd'
    exact ⟨st', own', _, free', hrun, hd'⟩
  | copy to' from' =>
    rw [Op.denote, ← withLocal_update]
    exact hd.copy fun heq => hop (Option.some.inj heq)
  | operation to' from1 from2 op =>
    rw [Op.denote, ← withLocal_update, ← op.result_eq]
    exact hd.operation (some to') (some from1) (some from2) op
  | iorAndCompl to' from1 from2 =>
    obtain ⟨st', own', lists', free', hrun, hd'⟩ := hd.iorAndCompl (Option.some_ne_none to')
      (Option.some_ne_none from1) (Option.some_ne_none from2)
    rw [withLocal_update, withLocal_none] at hd'
    exact ⟨st', own', lists', free', hrun, hd'⟩

theorem Denotes.run (hd : Denotes st (withLocal sets) own lists free) (ops : List (Op B))
    (hops : ∀ op ∈ ops, op.Apart) :
    ∃ st' own' lists' free', run ops st = some st' ∧
      Denotes st' (withLocal (ops.foldl Op.denote sets)) own' lists' free' := by
  induction ops generalizing st sets own lists free with
  | nil => exact ⟨st, own, lists, free, rfl, hd⟩
  | cons op ops ih =>
    obtain ⟨hop, hops⟩ := List.forall_mem_cons.1 hops
    obtain ⟨st₁, own₁, lists₁, free₁, hrun, hd₁⟩ := hd.exec op hop
    obtain ⟨st', own', lists', free', hrun', hd'⟩ := ih hd₁ hops
    exact ⟨st', own', lists', free', by rw [run, List.foldlM_cons, hrun]; exact hrun', hd'⟩

/-- After every run of operations the bitmaps are well formed, and each denotes the set that the
same operations on sets give. -/
theorem bitmaps_denote_sets {st : State h (Option B)} (hi : Initial st) (ops : List (Op B))
    (hops : ∀ op ∈ ops, op.Apart) :
    ∃ st' lists free, run ops st = some st' ∧
      WellFormed st' lists free ∧ ∀ b bit, ∃ r st'', bitmapBitP (some b) bit st' = some (r, st'') ∧
        (r = true ↔ bit ∈ ops.foldl Op.denote (fun _ => ∅) b) := by
  have hd : Denotes st (withLocal fun _ : B => ∅) (fun _ => .nobody) (fun _ => []) [] := by
    convert hi.denotes using 1
    funext b
    cases b <;> rfl
  obtain ⟨st', own', lists', free', hrun, hd'⟩ := hd.run ops hops
  refine ⟨st', lists', free', hrun, hd'.wellFormed, fun b bit => ?_⟩
  obtain ⟨r, head, hbitp, -, hr⟩ := hd'.bitP (some b) bit
  exact ⟨r, _, hbitp, hr⟩

theorem bitmaps_denote_sets_aliased :
    ∃ st lists free, run [Op.setBit false 5, .setBit true 300, .operation false false true .ior,
        .iorAndCompl true true true] (initialState : State host32 (Option Bool)) = some st ∧
      WellFormed st lists free ∧
      ∀ b bit, ∃ r st', bitmapBitP (some b) bit st = some (r, st') ∧ (r = true ↔
        bit ∈ [Op.setBit false 5, .setBit true 300, .operation false false true .ior,
          .iorAndCompl true true true].foldl Op.denote (fun _ => ∅) b) :=
  bitmaps_denote_sets initialState_initial _ (by simp [Op.Apart])

/-- `bitmap_copy` of a bitmap to itself clears it. -/
theorem copy_to_itself_clears :
    ((run [Op.setBit () 0, .copy () ()] (initialState : State host32 (Option Unit))).bind fun st =>
      (bitmapBitP (some ()) 0 st).map Prod.fst) = some false ∧
      (0 : BitVec 32) ∈ [Op.setBit () 0, .copy () ()].foldl Op.denote (fun _ => ∅) () := by
  refine ⟨by decide, ?_⟩
  simp [Op.denote]

end Runs

end Z80Gcc.Bitmap
