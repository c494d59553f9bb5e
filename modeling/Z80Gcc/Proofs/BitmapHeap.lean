import Z80Gcc.Spec.Bitmap

/-! The heap of bitmap elements: which list every element is on, and what linking, freeing and
allocating an element do to the lists. -/

namespace Z80Gcc.Bitmap

open Z80Gcc.LinkedList

variable {h : Host} {B : Type}

/-- Who holds an element: nobody yet, the free list, a list being deleted, the operation that
allocated it, or a bitmap. -/
inductive Owner (B : Type) where
  | nobody
  | free
  | loose
  | pending
  | bitmap (b : B)

/-- The list of a bitmap. Its head may keep the index of an element that is gone, as long as no
element lies between that index and the current element. -/
structure Listed (elt : Nat → Element h) (hd : Head) (l : List Nat) : Prop where
  linked : Linked (fun a => (elt a).next) (fun a => (elt a).prev) none l none
  first : hd.first = l.head?
  increasing : l.Pairwise fun a b => (elt a).indx < (elt b).indx
  small : ∀ a ∈ l, (elt a).indx < 2 ^ 32 - 1
  current : ∀ c, hd.current = some c → c ∈ l ∧ ∀ a ∈ l,
    ((elt a).indx < hd.indx → (elt a).indx ≤ (elt c).indx) ∧
      (hd.indx ≤ (elt a).indx → (elt c).indx ≤ (elt a).indx)
  no_current : hd.current = none → l = []

/-- The index that the head keeps is that of the current element. -/
def Exact (elt : Nat → Element h) (hd : Head) : Prop :=
  ∀ c, hd.current = some c → hd.indx = (elt c).indx

/-- Every element is held by one list or by nobody. -/
structure Shape (st : State h B) (own : Nat → Owner B) (lists : B → List Nat) (free : List Nat) :
    Prop where
  bitmaps : ∀ b, Listed st.elt (st.head b) (lists b)
  bitmaps_own : ∀ b, ∀ a ∈ lists b, own a = .bitmap b
  free_head : st.bitmapFree = free.head?
  free_path : Path (fun a => (st.elt a).next) free
  free_nodup : free.Nodup
  free_own : ∀ a ∈ free, own a = .free
  allocated : ∀ a, st.allocated ≤ a → own a = .nobody

section Lists

variable {elt elt' : Nat → Element h} {hd : Head} {l l₁ l₂ : List Nat}

theorem Listed.congr (hl : Listed elt hd l) (heq : ∀ a ∈ l, elt' a = elt a) :
    Listed elt' hd l := by
  refine ⟨hl.linked.congr (fun a ha => by rw [heq a ha]) (fun a ha => by rw [heq a ha]), hl.first,
    ?_, fun a ha => by rw [heq a ha]; exact hl.small a ha, fun c hc => ?_, hl.no_current⟩
  · exact hl.increasing.imp_of_mem fun {a b} ha hb hab => by rwa [heq a ha, heq b hb]
  · obtain ⟨hmem, hall⟩ := hl.current c hc
    refine ⟨hmem, fun a ha => ?_⟩
    rw [heq a ha, heq c hmem]
    exact hall a ha

theorem Listed.nodup (hl : Listed elt hd l) : l.Nodup :=
  hl.increasing.imp fun hlt heq => (heq ▸ hlt).ne rfl

theorem Listed.eq_of_indx (hl : Listed elt hd l) {a b : Nat} (ha : a ∈ l) (hb : b ∈ l)
    (heq : (elt a).indx = (elt b).indx) : a = b := by
  by_contra hne
  have hpair : (elt a).indx < (elt b).indx ∨ (elt b).indx < (elt a).indx := by
    obtain ⟨i, hi, rfl⟩ := List.getElem_of_mem ha
    obtain ⟨j, hj, rfl⟩ := List.getElem_of_mem hb
    obtain hlt | rfl | hgt := lt_trichotomy i j
    · exact .inl (List.pairwise_iff_getElem.1 hl.increasing i j hi hj hlt)
    · exact absurd rfl hne
    · exact .inr (List.pairwise_iff_getElem.1 hl.increasing j i hj hi hgt)
  omega

end Lists

section Frame

variable {st st' : State h B} {own : Nat → Owner B} {lists : B → List Nat} {free : List Nat}

theorem Shape.lt_allocated (hs : Shape st own lists free) {a : Nat} (ha : own a ≠ .nobody) :
    a < st.allocated := by
  by_contra hle
  exact ha (hs.allocated a (not_lt.1 hle))

theorem Shape.length_le (hs : Shape st own lists free) {l : List Nat} (hl : l.Nodup)
    (hown : ∀ a ∈ l, own a ≠ .nobody) : l.length ≤ st.allocated := by
  have hsub : l ⊆ List.range st.allocated := fun a ha =>
    List.mem_range.2 (hs.lt_allocated (hown a ha))
  simpa using (List.subperm_of_subset hl hsub).length_le

theorem Shape.list_length_le (hs : Shape st own lists free) (b : B) :
    (lists b).length ≤ st.allocated :=
  hs.length_le (hs.bitmaps b).nodup fun a ha hno => by
    rw [hs.bitmaps_own b a ha] at hno
    cases hno

/-- Changing elements that nobody of the lists holds, or of the heads only `current` and `indx`. -/
theorem Shape.congr (hs : Shape st own lists free) (helt : ∀ a, own a ≠ .nobody →
    own a ≠ .pending → own a ≠ .loose → st'.elt a = st.elt a) (hhead : st'.head = st.head)
    (hfree : st'.bitmapFree = st.bitmapFree) (halloc : st'.allocated = st.allocated) :
    Shape st' own lists free := by
  refine ⟨fun b => ?_, hs.bitmaps_own, hfree.trans hs.free_head, ?_, hs.free_nodup, hs.free_own,
    fun a ha => hs.allocated a (halloc ▸ ha)⟩
  · rw [hhead]
    refine (hs.bitmaps b).congr fun a ha => helt a ?_ ?_ ?_ <;> rw [hs.bitmaps_own b a ha] <;> simp
  · refine hs.free_path.congr fun a ha => ?_
    rw [helt a] <;> rw [hs.free_own a ha] <;> simp

variable [DecidableEq B]

@[simp] theorem setHead_elt (b : B) (hd : Head) : (st.setHead b hd).elt = st.elt := rfl

@[simp] theorem setHead_allocated (b : B) (hd : Head) :
    (st.setHead b hd).allocated = st.allocated := rfl

@[simp] theorem setHead_bitmapFree (b : B) (hd : Head) :
    (st.setHead b hd).bitmapFree = st.bitmapFree := rfl

@[simp] theorem setHead_self (b : B) (hd : Head) : (st.setHead b hd).head b = hd :=
  Function.update_self ..

theorem setHead_of_ne {b b' : B} (hne : b' ≠ b) (hd : Head) :
    (st.setHead b hd).head b' = st.head b' := Function.update_of_ne hne ..

theorem Shape.setHead (hs : Shape st own lists free) {b : B} {hd : Head}
    (hl : Listed st.elt hd (lists b)) : Shape (st.setHead b hd) own lists free := by
  refine ⟨fun b' => ?_, hs.bitmaps_own, hs.free_head, hs.free_path, hs.free_nodup, hs.free_own,
    hs.allocated⟩
  by_cases hb : b' = b
  · subst hb
    rw [setHead_self]
    exact hl
  · rw [setHead_of_ne hb]
    exact hs.bitmaps b'

theorem Shape.insert (hs : Shape st own lists free) {b : B} {a : Nat} {l₁ l₂ : List Nat} {hd : Head}
    (hlist : lists b = l₁ ++ l₂) (hown : own a = .pending)
    (hsmall : (st.elt a).indx < 2 ^ 32 - 1)
    (hbelow : ∀ c ∈ l₁, (st.elt c).indx < (st.elt a).indx)
    (habove : ∀ c ∈ l₂, (st.elt a).indx < (st.elt c).indx)
    (helt : ∀ c, st'.elt c = { st.elt c with
      next := if c = a then l₂.head? else if l₁.getLast? = some c then some a else (st.elt c).next
      prev := if c = a then l₁.getLast? else if l₂.head? = some c then some a
        else (st.elt c).prev })
    (hhead : st'.head = Function.update st.head b hd)
    (hfirst : hd.first = (l₁ ++ a :: l₂).head?)
    (hcurrent : ∃ c ∈ l₁ ++ a :: l₂, hd.current = some c ∧ hd.indx = (st.elt c).indx)
    (hfree : st'.bitmapFree = st.bitmapFree) (halloc : st'.allocated = st.allocated) :
    Shape st' (Function.update own a (.bitmap b)) (Function.update lists b (l₁ ++ a :: l₂)) free := by
  have hl := hs.bitmaps b
  have hbown := hs.bitmaps_own b
  rw [hlist] at hl hbown
  have hne : ∀ c, own c ≠ .pending → c ≠ a := fun c hc heq => hc (heq ▸ hown)
  have hmem : ∀ c ∈ l₁ ++ l₂, c ≠ a := fun c hc => hne c (by rw [hbown c hc]; simp)
  have hsame : ∀ c, own c ≠ .pending → own c ≠ .bitmap b → st'.elt c = st.elt c := by
    intro c hp hb
    rw [helt, if_neg (hne c hp), if_neg (hne c hp), if_neg, if_neg]
    · intro hlast
      exact hb (hbown c (List.mem_append_right _ (List.mem_of_head? hlast)))
    · intro hlast
      exact hb (hbown c (List.mem_append_left _ (List.mem_of_getLast? hlast)))
  refine ⟨fun b' => ?_, fun b' c hc => ?_, hfree.trans hs.free_head, ?_, hs.free_nodup,
    fun c hc => ?_, fun c hc => ?_⟩
  · by_cases hb : b' = b
    · subst hb
      rw [hhead, Function.update_self, Function.update_self]
      have hindx : ∀ c, (st'.elt c).indx = (st.elt c).indx := fun c => by rw [helt]
      obtain ⟨hsorted₁, hsorted₂, hcross⟩ := List.pairwise_append.1 hl.increasing
      obtain ⟨c, hc, hcur, hcindx⟩ := hcurrent
      refine ⟨?_, hfirst, ?_, ?_, ?_, fun hnone => ?_⟩
      · refine hl.linked.insert hl.nodup ?_ ?_ ?_ ?_ ?_
        · intro c hc
          have hcl : l₂.head? ≠ some c := fun heq => by
            have := hcross c hc c (List.mem_of_head? heq)
            omega
          simp [helt, hmem c (List.mem_append_left _ hc), hcl]
        · intro c hc
          simp [helt, hmem c (List.mem_append_left _ hc)]
        · simp [helt]
        · intro c hc
          simp [helt, hmem c (List.mem_append_right _ hc)]
        · intro c hc
          have hcl : l₁.getLast? ≠ some c := fun heq => by
            have := hcross c (List.mem_of_getLast? heq) c hc
            omega
          simp [helt, hmem c (List.mem_append_right _ hc), hcl]
      · simp only [hindx]
        refine List.pairwise_append.2 ⟨hsorted₁, List.pairwise_cons.2 ⟨habove, hsorted₂⟩, ?_⟩
        intro e he d hd
        obtain heq | hd := List.mem_cons.1 hd
        · exact heq ▸ hbelow e he
        · exact hcross e he d hd
      · intro e he
        rw [hindx]
        obtain he | he := List.mem_append.1 he
        · exact hl.small e (List.mem_append_left _ he)
        · obtain heq | he := List.mem_cons.1 he
          · exact heq ▸ hsmall
          · exact hl.small e (List.mem_append_right _ he)
      · intro d hd
        obtain rfl := Option.some.inj (hcur.symm.trans hd)
        refine ⟨hc, fun e _ => ?_⟩
        rw [hindx, hindx, hcindx]
        omega
      · rw [hnone] at hcur
        cases hcur
    · rw [hhead, Function.update_of_ne hb, Function.update_of_ne hb]
      refine (hs.bitmaps b').congr fun c hc => hsame c ?_ ?_ <;> rw [hs.bitmaps_own b' c hc]
      · simp
      · simpa using hb
  · by_cases hb : b' = b
    · subst hb
      rw [Function.update_self] at hc
      by_cases hca : c = a
      · rw [hca, Function.update_self]
      · rw [Function.update_of_ne hca]
        refine hbown c ?_
        simp only [List.mem_append, List.mem_cons, hca, false_or] at hc ⊢
        exact hc
    · rw [Function.update_of_ne hb] at hc
      have hcown := hs.bitmaps_own b' c hc
      rw [Function.update_of_ne (hne c (by rw [hcown]; simp)), hcown]
  · refine hs.free_path.congr fun c hc => ?_
    rw [hsame c] <;> rw [hs.free_own c hc] <;> simp
  · rw [Function.update_of_ne (hne c (by rw [hs.free_own c hc]; simp)), hs.free_own c hc]
  · have hcno := hs.allocated c (halloc ▸ hc)
    rw [Function.update_of_ne (hne c (by rw [hcno]; simp)), hcno]

theorem Shape.remove (hs : Shape st own lists free) {b : B} {a : Nat} {l₁ l₂ : List Nat} {hd : Head}
    (hlist : lists b = l₁ ++ a :: l₂)
    (helt : ∀ c, st'.elt c = { st.elt c with
      next := if c = a then st.bitmapFree else if l₁.getLast? = some c then l₂.head?
        else (st.elt c).next
      prev := if l₂.head? = some c then l₁.getLast? else (st.elt c).prev })
    (hhead : st'.head = Function.update st.head b hd)
    (hfirst : hd.first = (l₁ ++ l₂).head?)
    (hcurrent : ∀ c, hd.current = some c → c ∈ l₁ ++ l₂ ∧ ∀ e ∈ l₁ ++ l₂,
      ((st.elt e).indx < hd.indx → (st.elt e).indx ≤ (st.elt c).indx) ∧
        (hd.indx ≤ (st.elt e).indx → (st.elt c).indx ≤ (st.elt e).indx))
    (hnocurrent : hd.current = none → l₁ ++ l₂ = [])
    (hfree : st'.bitmapFree = some a) (halloc : st'.allocated = st.allocated) :
    Shape st' (Function.update own a .free) (Function.update lists b (l₁ ++ l₂)) (a :: free) := by
  have hl := hs.bitmaps b
  have hbown := hs.bitmaps_own b
  rw [hlist] at hl hbown
  have hown : own a = .bitmap b := hbown a (by simp)
  have hne : ∀ c, own c ≠ .bitmap b → c ≠ a := fun c hc heq => hc (heq ▸ hown)
  obtain ⟨hsorted₁, hsorted₂, hcross⟩ := List.pairwise_append.1 hl.increasing
  obtain ⟨habove, hsorted₂⟩ := List.pairwise_cons.1 hsorted₂
  have hmem : ∀ c ∈ l₁ ++ l₂, c ≠ a := by
    rintro c hc rfl
    obtain hc | hc := List.mem_append.1 hc
    · exact (hcross c hc c (by simp)).ne rfl
    · exact (habove c hc).ne rfl
  have hsame : ∀ c, own c ≠ .bitmap b → st'.elt c = st.elt c := by
    intro c hb
    rw [helt, if_neg (hne c hb), if_neg, if_neg]
    · intro hhead
      exact hb (hbown c (List.mem_append_right _ (List.mem_cons_of_mem _ (List.mem_of_head? hhead))))
    · intro hlast
      exact hb (hbown c (List.mem_append_left _ (List.mem_of_getLast? hlast)))
  have hsub : ∀ c ∈ l₁ ++ l₂, c ∈ l₁ ++ a :: l₂ := by
    intro c hc
    simp only [List.mem_append, List.mem_cons] at hc ⊢
    tauto
  refine ⟨fun b' => ?_, fun b' c hc => ?_, hfree, ?_, ?_, fun c hc => ?_, fun c hc => ?_⟩
  · by_cases hb : b' = b
    · subst hb
      rw [hhead, Function.update_self, Function.update_self]
      have hindx : ∀ c, (st'.elt c).indx = (st.elt c).indx := fun c => by rw [helt]
      refine ⟨?_, hfirst, ?_, fun c hc => ?_, fun c hc => ?_, hnocurrent⟩
      · refine hl.linked.remove hl.nodup ?_ ?_ ?_ ?_
        · intro c hc
          have hcl : l₂.head? ≠ some c := fun heq => by
            have := hcross c hc c (List.mem_cons_of_mem _ (List.mem_of_head? heq))
            omega
          simp [helt, hcl]
        · intro c hc
          simp [helt, hmem c (List.mem_append_left _ hc)]
        · intro c hc
          simp [helt]
        · intro c hc
          have hcl : l₁.getLast? ≠ some c := fun heq => by
            have := hcross c (List.mem_of_getLast? heq) c (List.mem_cons_of_mem _ hc)
            omega
          simp [helt, hmem c (List.mem_append_right _ hc), hcl]
      · simp only [hindx]
        exact List.pairwise_append.2 ⟨hsorted₁, hsorted₂, fun c hc d hd =>
          hcross c hc d (List.mem_cons_of_mem _ hd)⟩
      · rw [hindx]
        exact hl.small c (hsub c hc)
      · simp only [hindx]
        exact hcurrent c hc
    · rw [hhead, Function.update_of_ne hb, Function.update_of_ne hb]
      refine (hs.bitmaps b').congr fun c hc => hsame c ?_
      rw [hs.bitmaps_own b' c hc]
      simpa using hb
  · by_cases hb : b' = b
    · subst hb
      rw [Function.update_self] at hc
      rw [Function.update_of_ne (hmem c hc)]
      exact hbown c (hsub c hc)
    · rw [Function.update_of_ne hb] at hc
      have hcown := hs.bitmaps_own b' c hc
      rw [Function.update_of_ne (hne c (by rw [hcown]; simpa using hb)), hcown]
  · refine ⟨?_, hs.free_path.congr fun c hc => ?_⟩
    · show (st'.elt a).next = free.head?
      rw [helt]
      simpa using hs.free_head
    · rw [hsame c]
      rw [hs.free_own c hc]
      simp
  · refine List.nodup_cons.2 ⟨fun ha => ?_, hs.free_nodup⟩
    rw [hs.free_own a ha] at hown
    cases hown
  · obtain rfl | hc := List.mem_cons.1 hc
    · exact Function.update_self ..
    · rw [Function.update_of_ne (hne c (by rw [hs.free_own c hc]; simp)), hs.free_own c hc]
  · have hcno := hs.allocated c (halloc ▸ hc)
    rw [Function.update_of_ne (hne c (by rw [hcno]; simp)), hcno]

omit [DecidableEq B] in
theorem Shape.allocate (hs : Shape st own lists free) :
    ∃ a st' free', bitmapElementAllocate st = (a, st') ∧
      Shape st' (Function.update own a .pending) lists free' ∧
      (own a = .free ∨ own a = .nobody) ∧ (st'.elt a).bits = (fun _ => 0) ∧
      (∀ c, c ≠ a → st'.elt c = st.elt c) ∧ st'.head = st.head ∧
      st.allocated ≤ st'.allocated := by
  cases free with
  | nil =>
    have hnone : st.bitmapFree = none := hs.free_head
    have hno : own st.allocated = .nobody := hs.allocated _ le_rfl
    refine ⟨st.allocated, ({ st with allocated := st.allocated + 1 } : State h B).setElt st.allocated
      { st.elt st.allocated with bits := fun _ => 0 }, [], by rw [bitmapElementAllocate, hnone], ?_,
      .inr hno, ?_, ?_, rfl, Nat.le_succ _⟩
    · refine ⟨fun b => (hs.bitmaps b).congr fun c hc => ?_, fun b c hc => ?_, hnone, trivial,
        List.nodup_nil, by simp, fun c hc => ?_⟩
      · refine Function.update_of_ne ?_ ..
        rintro rfl
        rw [hs.bitmaps_own b _ hc] at hno
        cases hno
      · rw [Function.update_of_ne, hs.bitmaps_own b c hc]
        rintro rfl
        rw [hs.bitmaps_own b _ hc] at hno
        cases hno
      · have hlt : st.allocated + 1 ≤ c := hc
        rw [Function.update_of_ne (by omega)]
        exact hs.allocated c (by omega)
    · simp [State.setElt]
    · intro c hc
      exact Function.update_of_ne hc ..
  | cons a free =>
    have hsome : st.bitmapFree = some a := hs.free_head
    have hfree : own a = .free := hs.free_own a (by simp)
    obtain ⟨hnext, hpath⟩ := hs.free_path
    obtain ⟨ha, hnodup⟩ := List.nodup_cons.1 hs.free_nodup
    refine ⟨a, (st.setFree (st.elt a).next).setElt a { st.elt a with bits := fun _ => 0 }, free, by
      rw [bitmapElementAllocate, hsome]; rfl, ?_, .inl hfree, ?_, ?_, rfl, le_rfl⟩
    · have hne : ∀ c, own c ≠ .free → c ≠ a := fun c hc heq => hc (heq ▸ hfree)
      refine ⟨fun b => (hs.bitmaps b).congr fun c hc => ?_, fun b c hc => ?_, hnext, ?_, hnodup,
        fun c hc => ?_, fun c hc => ?_⟩
      · exact Function.update_of_ne (hne c (by rw [hs.bitmaps_own b c hc]; simp)) ..
      · rw [Function.update_of_ne (hne c (by rw [hs.bitmaps_own b c hc]; simp)),
          hs.bitmaps_own b c hc]
      · refine hpath.congr fun c hc => ?_
        simp only [State.setElt, State.setFree]
        rw [Function.update_of_ne]
        rintro rfl
        exact ha hc
      · rw [Function.update_of_ne, hs.free_own c (by simp [hc])]
        rintro rfl
        exact ha hc
      · have hcno := hs.allocated c hc
        rw [Function.update_of_ne (hne c (by rw [hcno]; simp)), hcno]
    · simp [State.setElt]
    · intro c hc
      exact Function.update_of_ne hc ..

omit [DecidableEq B] in
/-- Either search of `bitmap_find_bit` ends at an element of the list that is the one looked for,
if there is one. -/
theorem Shape.walk_find (hs : Shape st own lists free) (b : B) (bit : BitVec 32) {c : Nat}
    (hcur : (st.head b).current = some c) :
    ∃ e ∈ lists b, (if (st.head b).indx > indxOf h bit then
        walk (fun a => (st.elt a).prev) (fun a _ => decide ((st.elt a).indx > indxOf h bit))
          st.allocated c
      else walk (fun a => (st.elt a).next) (fun a _ => decide ((st.elt a).indx < indxOf h bit))
          st.allocated c) = some e ∧
      ∀ a ∈ lists b, (st.elt a).indx = indxOf h bit → a = e := by
  have hl := hs.bitmaps b
  obtain ⟨hc, hcache⟩ := hl.current c hcur
  obtain ⟨before, after, hsplit⟩ := List.append_of_mem hc
  have hlen := hs.list_length_le b
  have hlinked := hl.linked
  have hinc := hl.increasing
  rw [hsplit] at hlen hlinked hinc
  rw [List.length_append, List.length_cons] at hlen
  obtain ⟨hincb, hinca, hcross⟩ := List.pairwise_append.1 hinc
  obtain ⟨habove, -⟩ := List.pairwise_cons.1 hinca
  split
  · next hgt =>
    have hpath := hlinked.path_back
    have hfuel : before.reverse.length < st.allocated := by
      rw [List.length_reverse]
      omega
    obtain ⟨e, he, hw, hfinds⟩ := walk_finds (· > ·) (fun a => (st.elt a).indx) (indxOf h bit)
      hpath hfuel
      (List.pairwise_cons.2 ⟨fun a ha => hcross a (List.mem_reverse.1 ha) c (by simp),
        List.pairwise_reverse.2 hincb⟩)
    refine ⟨e, ?_, hw, fun a ha haindx => hfinds a ?_ haindx⟩
    · rw [hsplit]
      simp only [List.mem_cons, List.mem_reverse, List.mem_append] at he ⊢
      tauto
    · have hle := (hcache a ha).1 (by omega)
      rw [hsplit] at ha
      simp only [List.mem_cons, List.mem_reverse, List.mem_append] at ha ⊢
      obtain ha | rfl | ha := ha
      · exact .inr ha
      · exact .inl rfl
      · have := habove a ha
        omega
  · next hle =>
    have hpath := (linked_append.1 hlinked).2.path
    have hfuel : after.length < st.allocated := by omega
    obtain ⟨e, he, hw, hfinds⟩ := walk_finds (· < ·) (fun a => (st.elt a).indx) (indxOf h bit)
      hpath hfuel hinca
    refine ⟨e, ?_, hw, fun a ha haindx => hfinds a ?_ haindx⟩
    · rw [hsplit]
      exact List.mem_append_right _ he
    · have hge := (hcache a ha).2 (by omega)
      rw [hsplit] at ha
      obtain ha | ha := List.mem_append.1 ha
      · have := hcross a ha c (by simp)
        omega
      · exact ha

/-- The element that is found is the one with the index; the head is exact behind the search. -/
theorem Shape.find (hs : Shape st own lists free) (b : B) (bit : BitVec 32) :
    ∃ r hd, bitmapFindBit b bit st = some (r, st.setHead b hd) ∧
      Shape (st.setHead b hd) own lists free ∧ Exact st.elt hd ∧
      (∀ a, r = some a ↔ a ∈ lists b ∧ (st.elt a).indx = indxOf h bit) ∧
      ∀ a, r = some a → hd.current = some a := by
  have hl := hs.bitmaps b
  unfold bitmapFindBit
  cases hcur : (st.head b).current with
  | none =>
    refine ⟨none, st.head b, ?_, hs.setHead hl, ?_, ?_, by simp⟩
    · simp [State.setHead]
    · intro c hc
      rw [hcur] at hc
      cases hc
    · simp [hl.no_current hcur]
  | some c =>
    obtain ⟨hc, hcache⟩ := hl.current c hcur
    obtain ⟨e, he, hwalk, hfinds⟩ := hs.walk_find b bit hcur
    refine ⟨if (st.elt e).indx ≠ indxOf h bit then none else some e,
      { st.head b with current := some e, indx := (st.elt e).indx }, ?_, hs.setHead ?_, ?_, ?_, ?_⟩
    · by_cases hgt : (st.head b).indx > indxOf h bit
      · rw [if_pos hgt] at hwalk
        simp only [if_pos hgt, hwalk]
        rfl
      · rw [if_neg hgt] at hwalk
        simp only [if_neg hgt, hwalk]
        rfl
    · refine ⟨hl.linked, hl.first, hl.increasing, hl.small, fun d hd => ?_, by simp⟩
      obtain rfl := Option.some.inj hd
      refine ⟨he, fun a _ => ?_⟩
      dsimp only
      omega
    · intro d hd
      rw [← Option.some.inj hd]
    · intro a
      by_cases heq : (st.elt e).indx = indxOf h bit
      · rw [if_neg (not_not.2 heq)]
        constructor
        · rintro ⟨⟩
          exact ⟨he, heq⟩
        · rintro ⟨ha, haindx⟩
          rw [hfinds a ha haindx]
      · rw [if_pos heq]
        constructor
        · rintro ⟨⟩
        · rintro ⟨ha, haindx⟩
          exact absurd (hfinds a ha haindx ▸ haindx) heq
    · intro a ha
      split at ha
      · cases ha
      · exact ha

/-- What linking an element in between two lists does to the heap. -/
structure Inserted (st st' : State h B) (b : B) (a : Nat) (l₁ l₂ : List Nat) : Prop where
  elt : ∀ c, st'.elt c = { st.elt c with
    next := if c = a then l₂.head? else if l₁.getLast? = some c then some a else (st.elt c).next
    prev := if c = a then l₁.getLast? else if l₂.head? = some c then some a else (st.elt c).prev }
  head : st'.head = Function.update st.head b ⟨(l₁ ++ a :: l₂).head?, some a, (st.elt a).indx⟩
  bitmapFree : st'.bitmapFree = st.bitmapFree
  allocated : st'.allocated = st.allocated

/-- The head behind a linking: the new element is current. -/
def State.nowCurrent (st : State h B) (b : B) (a : Nat) (indx : Nat) : State h B :=
  st.setHead b { st.head b with current := some a, indx := indx }

theorem inserted_first {b : B} {a : Nat} :
    Inserted st (((st.setElt a { st.elt a with next := none, prev := none }).setHead b
      { st.head b with first := some a }).nowCurrent b a (st.elt a).indx) b a [] [] := by
  refine ⟨fun c => ?_, ?_, rfl, rfl⟩
  · by_cases hca : c = a <;> simp [State.setElt, State.setHead, State.nowCurrent, hca]
  · simp [State.setElt, State.setHead, State.nowCurrent]

/-- Before the element `e`, whose predecessor is the last of `l₁`. -/
theorem inserted_before {b : B} {a e : Nat} {l₁ l₂ : List Nat}
    (hprev : (st.elt e).prev = l₁.getLast?) (hfirst : l₁ ≠ [] → (st.head b).first = l₁.head?)
    (hea : e ≠ a) (hl₁ : ∀ c ∈ l₁, c ≠ a ∧ c ≠ e) :
    Inserted st ((((match (st.elt e).prev with
      | some p => st.setNext p (some a)
      | none => st.setHead b { st.head b with first := some a }).setElt a
        { (match (st.elt e).prev with
          | some p => st.setNext p (some a)
          | none => st.setHead b { st.head b with first := some a }).elt a with
          next := some e, prev := (st.elt e).prev }).setPrev e (some a)).nowCurrent b a
        (st.elt a).indx) b a l₁ (e :: l₂) := by
  rw [hprev]
  cases hlast : l₁.getLast? with
  | none =>
    obtain rfl := List.getLast?_eq_none_iff.1 hlast
    refine ⟨fun c => ?_, ?_, rfl, rfl⟩
    · by_cases hce : c = e
      · subst hce
        simp [State.setElt, State.setHead, State.setPrev, State.nowCurrent, hea]
      · by_cases hca : c = a
        · subst hca
          simp [State.setElt, State.setHead, State.setPrev, State.nowCurrent, hea.symm]
        · simp [State.setElt, State.setHead, State.setPrev, State.nowCurrent, hca, hce, Ne.symm hce]
    · simp [State.setElt, State.setHead, State.setPrev, State.nowCurrent]
  | some p =>
    obtain ⟨hpa, hpe⟩ := hl₁ p (List.mem_of_getLast? hlast)
    have hne : l₁ ≠ [] := by
      rintro rfl
      cases hlast
    refine ⟨fun c => ?_, ?_, rfl, rfl⟩
    · by_cases hce : c = e
      · subst hce
        simp [State.setElt, State.setNext, State.setPrev, State.nowCurrent, State.setHead, hea, hpe,
          hpe.symm, hlast]
      · by_cases hca : c = a
        · subst hca
          simp [State.setElt, State.setNext, State.setPrev, State.nowCurrent, State.setHead,
            hea.symm, hpa.symm, hlast]
        · by_cases hcp : c = p
          · subst hcp
            simp [State.setElt, State.setNext, State.setPrev, State.nowCurrent, State.setHead,
              hca, hce, Ne.symm hce, hlast]
          · simp [State.setElt, State.setNext, State.setPrev, State.nowCurrent, State.setHead,
              hca, hce, hcp, Ne.symm hce, Ne.symm hcp, hlast]
    · have hhead := hfirst hne
      simp [State.setElt, State.setNext, State.setPrev, State.nowCurrent, State.setHead, hhead,
        List.head?_append_of_ne_nil _ hne]

/-- Behind the element `e`, whose successor is the first of `l₂`. -/
theorem inserted_after {b : B} {a e : Nat} {l₁ l₂ : List Nat}
    (hnext : (st.elt e).next = l₂.head?) (hfirst : (st.head b).first = (l₁ ++ [e]).head?)
    (hea : e ≠ a) (hl₂ : ∀ c ∈ l₂, c ≠ a ∧ c ≠ e) :
    Inserted st ((((match (st.elt e).next with
      | some n => st.setPrev n (some a)
      | none => st).setElt a
        { (match (st.elt e).next with
          | some n => st.setPrev n (some a)
          | none => st).elt a with
          next := (st.elt e).next, prev := some e }).setNext e (some a)).nowCurrent b a
        (st.elt a).indx) b a (l₁ ++ [e]) l₂ := by
  have hhead : (l₁ ++ [e]).head? = (l₁ ++ e :: a :: l₂).head? := by cases l₁ <;> rfl
  rw [hnext]
  cases hlast : l₂.head? with
  | none =>
    obtain rfl := List.head?_eq_none_iff.1 hlast
    refine ⟨fun c => ?_, ?_, rfl, rfl⟩
    · by_cases hce : c = e
      · subst hce
        simp [State.setElt, State.setHead, State.setNext, State.nowCurrent, hea]
      · by_cases hca : c = a
        · subst hca
          simp [State.setElt, State.setHead, State.setNext, State.nowCurrent, hea.symm]
        · simp [State.setElt, State.setHead, State.setNext, State.nowCurrent, hca, hce, Ne.symm hce]
    · simp [State.setElt, State.setNext, State.setHead, State.nowCurrent, hfirst, hhead]
  | some n =>
    obtain ⟨hna, hne⟩ := hl₂ n (List.mem_of_head? hlast)
    refine ⟨fun c => ?_, ?_, rfl, rfl⟩
    · by_cases hce : c = e
      · subst hce
        simp [State.setElt, State.setNext, State.setPrev, State.nowCurrent, State.setHead, hea, hne,
          hne.symm, hlast]
      · by_cases hca : c = a
        · subst hca
          simp [State.setElt, State.setNext, State.setPrev, State.nowCurrent, State.setHead,
            hea.symm, hna.symm, hlast]
        · by_cases hcn : c = n
          · subst hcn
            simp [State.setElt, State.setNext, State.setPrev, State.nowCurrent, State.setHead,
              hca, hce, Ne.symm hce, hlast]
          · simp [State.setElt, State.setNext, State.setPrev, State.nowCurrent, State.setHead,
              hca, hce, hcn, Ne.symm hce, Ne.symm hcn, hlast]
    · simp [State.setElt, State.setNext, State.setPrev, State.nowCurrent, State.setHead, hfirst,
        hhead]

/-- An element whose index is new is linked in at its place. -/
theorem Listed.link {b : B} {a : Nat} {l : List Nat} (hl : Listed st.elt (st.head b) l)
    (hlen : l.length ≤ st.allocated) (hmem : ∀ c ∈ l, c ≠ a) (hexact : Exact st.elt (st.head b))
    (hnew : ∀ c ∈ l, (st.elt c).indx ≠ (st.elt a).indx) :
    ∃ st' l₁ l₂, bitmapElementLink b a st = some st' ∧ l = l₁ ++ l₂ ∧
      (∀ c ∈ l₁, (st.elt c).indx < (st.elt a).indx) ∧
      (∀ c ∈ l₂, (st.elt a).indx < (st.elt c).indx) ∧ Inserted st st' b a l₁ l₂ := by
  by_cases hfirst : (st.head b).first = none
  · -- the first and only element
    have hnil : l = [] := by
      have := hl.first
      rw [hfirst] at this
      exact List.head?_eq_none_iff.1 this.symm
    refine ⟨_, [], [], ?_, hnil, by simp, by simp, inserted_first⟩
    simp only [bitmapElementLink, hfirst, if_true]
    rfl
  cases hcur : (st.head b).current with
  | none =>
    rw [hl.no_current hcur] at hl
    exact absurd hl.first hfirst
  | some c =>
    obtain ⟨hc, -⟩ := hl.current c hcur
    have hindx := hexact c hcur
    obtain ⟨before, after, hsplit⟩ := List.append_of_mem hc
    have hlinked := hl.linked
    have hinc := hl.increasing
    have hnodup := hl.nodup
    rw [hsplit] at hlen hlinked hinc
    rw [List.length_append, List.length_cons] at hlen
    obtain ⟨hincb, hinca, hcross⟩ := List.pairwise_append.1 hinc
    obtain ⟨habove, -⟩ := List.pairwise_cons.1 hinca
    by_cases hlt : (st.elt a).indx < (st.head b).indx
    · -- someplace before the current element
      have hpath := hlinked.path_back
      have hfuel : before.reverse.length < st.allocated := by
        rw [List.length_reverse]
        omega
      obtain ⟨l₁, e, l₂, heq, hw, hgt, hle⟩ := walk_splits (· > ·) (fun a => (st.elt a).indx)
        (st.elt a).indx hpath hfuel
        (List.pairwise_cons.2 ⟨fun a ha => hcross a (List.mem_reverse.1 ha) c (by simp),
          List.pairwise_reverse.2 hincb⟩) (hindx ▸ hlt)
      have hlist : l = l₂.reverse ++ e :: (l₁.reverse ++ after) := by
        have hrev := congrArg List.reverse heq
        simp only [List.reverse_cons, List.reverse_reverse, List.reverse_append] at hrev
        rw [hsplit, show before ++ c :: after = before ++ [c] ++ after by simp, hrev]
        simp
      rw [hlist] at hl hmem hnew hnodup
      obtain ⟨-, hrest, hdisjoint⟩ := List.nodup_append.1 hnodup
      refine ⟨_, l₂.reverse, e :: (l₁.reverse ++ after), ?_, hlist, fun d hd => ?_, fun d hd => ?_,
        inserted_before ?_ ?_ (hmem e (by simp)) fun d hd => ⟨hmem d (by simp [hd]), ?_⟩⟩
      · simp only [bitmapElementLink, hfirst, if_false, hlt, if_true, hcur, bind, Option.bind, hw]
        rfl
      · have hd' := hle d (List.mem_reverse.1 hd)
        have := hnew d (by simp [hd])
        omega
      · simp only [List.mem_cons, List.mem_append, List.mem_reverse] at hd
        obtain rfl | hd | hd := hd
        · exact hgt d (by simp)
        · exact hgt d (by simp [hd])
        · have := habove d hd
          omega
      · exact (linked_append.1 hl.linked).2.1.trans (by simp)
      · intro hne
        rw [hl.first, List.head?_append_of_ne_nil _ hne]
      · rintro rfl
        exact hdisjoint d hd d (by simp) rfl
    · -- someplace after it
      have hpath := (linked_append.1 hlinked).2.path
      have hfuel : after.length < st.allocated := by omega
      have hclt : (st.elt c).indx < (st.elt a).indx := by
        have := hnew c hc
        omega
      obtain ⟨l₁, e, l₂, heq, hw, hgt, hle⟩ := walk_splits (· < ·) (fun a => (st.elt a).indx)
        (st.elt a).indx hpath hfuel hinca hclt
      have hlist : l = (before ++ l₁ ++ [e]) ++ l₂ := by
        rw [hsplit, heq]
        simp
      rw [hlist] at hl hmem hnew hnodup
      obtain ⟨-, -, hdisjoint⟩ := List.nodup_append.1 hnodup
      refine ⟨_, before ++ l₁ ++ [e], l₂, ?_, hlist, fun d hd => ?_, fun d hd => ?_,
        inserted_after ?_ ?_ (hmem e (by simp)) fun d hd => ⟨hmem d (by simp [hd]), ?_⟩⟩
      · simp only [bitmapElementLink, hfirst, if_false, hlt, hcur, bind, Option.bind, hw]
        rfl
      · rw [List.append_assoc, List.mem_append] at hd
        obtain hd | hd := hd
        · have := hcross d hd c (by simp)
          omega
        · exact hgt d hd
      · have hd' := hle d hd
        have := hnew d (by simp [hd])
        omega
      · have hseg := (linked_append.1 hl.linked).1
        exact (linked_append.1 hseg).2.2.1.trans (by simp)
      · rw [hl.first, List.append_assoc, List.append_assoc]
        cases before <;> cases l₁ <;> rfl
      · rintro rfl
        exact hdisjoint d (by simp) d hd rfl

/-- A pending element whose index is new is linked into the list of the bitmap. -/
theorem Shape.link (hs : Shape st own lists free) {b : B} {a : Nat} (hown : own a = .pending)
    (hsmall : (st.elt a).indx < 2 ^ 32 - 1) (hexact : Exact st.elt (st.head b))
    (hnew : ∀ c ∈ lists b, (st.elt c).indx ≠ (st.elt a).indx) :
    ∃ st' l₁ l₂, bitmapElementLink b a st = some st' ∧ lists b = l₁ ++ l₂ ∧
      Shape st' (Function.update own a (.bitmap b)) (Function.update lists b (l₁ ++ a :: l₂)) free ∧
      Exact st'.elt (st'.head b) ∧
      (∀ c, (st'.elt c).indx = (st.elt c).indx ∧ (st'.elt c).bits = (st.elt c).bits) ∧
      (∀ c, c ≠ a → own c ≠ .bitmap b → st'.elt c = st.elt c) ∧
      (∀ b', b' ≠ b → st'.head b' = st.head b') ∧ st'.allocated = st.allocated := by
  have hbown := hs.bitmaps_own b
  obtain ⟨st', l₁, l₂, hrun, hlist, hbelow, habove, hins⟩ := (hs.bitmaps b).link
    (hs.list_length_le b) (fun c hc heq => by
      rw [heq] at hc
      rw [hbown a hc] at hown
      cases hown) hexact hnew
  refine ⟨st', l₁, l₂, hrun, hlist, hs.insert hlist hown hsmall hbelow habove hins.elt hins.head rfl
    ⟨a, by simp, rfl, rfl⟩ hins.bitmapFree hins.allocated, ?_, fun c => by simp [hins.elt],
    fun c hca hcb => ?_, fun b' hb' => ?_, hins.allocated⟩
  · intro c hc
    rw [hins.head, Function.update_self] at hc ⊢
    obtain rfl := Option.some.inj hc
    rw [hins.elt]
  · have hc : c ∉ lists b := fun hc => hcb (hbown c hc)
    rw [hlist, List.mem_append, not_or] at hc
    rw [hins.elt, if_neg hca, if_neg hca, if_neg, if_neg]
    · exact fun heq => hc.2 (List.mem_of_head? heq)
    · exact fun heq => hc.1 (List.mem_of_getLast? heq)
  · rw [hins.head, Function.update_of_ne hb']

theorem bitmapElementFree_elt {b : B} {a : Nat} {l₁ l₂ : List Nat}
    (hprev : (st.elt a).prev = l₁.getLast?) (hnext : (st.elt a).next = l₂.head?)
    (hnodup : (l₁ ++ a :: l₂).Nodup) (c : Nat) :
    (bitmapElementFree b a st).elt c = { st.elt c with
      next := if c = a then st.bitmapFree else if l₁.getLast? = some c then l₂.head?
        else (st.elt c).next
      prev := if l₂.head? = some c then l₁.getLast? else (st.elt c).prev } := by
  obtain ⟨-, hn₂, hdisjoint⟩ := List.nodup_append.1 hnodup
  have ha₂ := (List.nodup_cons.1 hn₂).1
  have hpa : ∀ p, l₁.getLast? = some p → p ≠ a := fun p hp =>
    hdisjoint p (List.mem_of_getLast? hp) a (by simp)
  have hna : ∀ n, l₂.head? = some n → n ≠ a := by
    rintro n hn rfl
    exact ha₂ (List.mem_of_head? hn)
  have hpn : ∀ p n, l₁.getLast? = some p → l₂.head? = some n → p ≠ n := fun p n hp hn =>
    hdisjoint p (List.mem_of_getLast? hp) n (List.mem_cons_of_mem _ (List.mem_of_head? hn))
  simp only [bitmapElementFree, hprev, hnext]
  cases hp : l₁.getLast? with
  | none =>
    cases hn : l₂.head? with
    | none =>
      by_cases hca : c = a <;> simp [State.setElt, State.setNext, State.setHead, State.setFree, hca]
    | some n =>
      have hna := hna n hn
      by_cases hcn : c = n
      · subst hcn
        simp [State.setElt, State.setNext, State.setPrev, State.setHead, State.setFree, hna]
      · by_cases hca : c = a <;>
          simp [State.setElt, State.setNext, State.setPrev, State.setHead, State.setFree, hca, hna,
            hna.symm, hcn, Ne.symm hcn]
  | some p =>
    have hpa := hpa p hp
    cases hn : l₂.head? with
    | none =>
      by_cases hcp : c = p
      · subst hcp
        simp [State.setElt, State.setNext, State.setHead, State.setFree, hpa]
      · by_cases hca : c = a <;>
          simp [State.setElt, State.setNext, State.setHead, State.setFree, hca, hpa.symm, hcp,
            Ne.symm hcp]
    | some n =>
      have hna := hna n hn
      have hpn := hpn p n hp hn
      by_cases hcp : c = p
      · subst hcp
        simp [State.setElt, State.setNext, State.setPrev, State.setHead, State.setFree, hpa, hpn,
          hpn.symm]
      · by_cases hcn : c = n
        · subst hcn
          simp [State.setElt, State.setNext, State.setPrev, State.setHead, State.setFree, hna, hcp,
            Ne.symm hcp]
        · by_cases hca : c = a <;>
            simp [State.setElt, State.setNext, State.setPrev, State.setHead, State.setFree, hca,
              hpa.symm, hna, hna.symm, hcp, hcn, Ne.symm hcp, Ne.symm hcn]

/-- The element leaves the list; the head may keep its index. -/
theorem Shape.unlink (hs : Shape st own lists free) {b : B} {a : Nat} {l₁ l₂ : List Nat}
    (hlist : lists b = l₁ ++ a :: l₂) :
    Shape (bitmapElementFree b a st) (Function.update own a .free)
      (Function.update lists b (l₁ ++ l₂)) (a :: free) := by
  have hl := hs.bitmaps b
  rw [hlist] at hl
  obtain ⟨-, hprev, hnext, -⟩ := linked_append.1 hl.linked
  simp only [Option.or_none] at hprev hnext
  have hfirst : (if (st.head b).first = some a then l₂.head? else (st.head b).first) =
      (l₁ ++ l₂).head? := by
    rw [hl.first]
    cases l₁ with
    | nil => simp
    | cons c l₁ =>
      have hca : c ≠ a := (List.nodup_append.1 hl.nodup).2.2 c (by simp) a (by simp)
      simp [hca]
  have hhead : (bitmapElementFree b a st).head = Function.update st.head b
      ⟨(l₁ ++ l₂).head?, if (st.head b).current = some a then l₂.head?.or l₁.getLast?
        else (st.head b).current, (st.head b).indx⟩ := by
    rw [← hfirst]
    simp only [bitmapElementFree, hprev, hnext]
    by_cases hf : (st.head b).first = some a <;> by_cases hc : (st.head b).current = some a <;>
      cases l₁.getLast? <;> cases l₂.head? <;>
      simp [State.setHead, State.setNext, State.setPrev, State.setElt, State.setFree, hf, hc]
  obtain ⟨hinc₁, hinc₂, hcross⟩ := List.pairwise_append.1 hl.increasing
  obtain ⟨habove, hinc₂⟩ := List.pairwise_cons.1 hinc₂
  refine hs.remove hlist (bitmapElementFree_elt hprev hnext hl.nodup) hhead rfl ?_ ?_ ?_ ?_
  · intro c hc
    dsimp only at hc ⊢
    split at hc
    · next hcur =>
      obtain ⟨-, hcache⟩ := hl.current a hcur
      cases l₂ with
      | nil =>
        -- the element before it becomes current, and it is the last
        rw [List.append_nil]
        obtain ⟨l, rfl⟩ := List.getLast?_eq_some_iff.1 hc
        refine ⟨by simp, fun e he => ?_⟩
        have hle : (st.elt e).indx ≤ (st.elt c).indx := by
          obtain he | he := List.mem_append.1 he
          · exact ((List.pairwise_append.1 hinc₁).2.2 e he c (by simp)).le
          · rw [List.mem_singleton.1 he]
        have := hcross e he a (by simp)
        have := (hcache e (by simp only [List.mem_append] at he ⊢; tauto)).2
        omega
      | cons d l₂ =>
        -- the element behind it becomes current
        obtain rfl : d = c := Option.some.inj hc
        refine ⟨by simp, fun e he => ?_⟩
        have hcachee := hcache e (by simp only [List.mem_append, List.mem_cons] at he ⊢; tauto)
        have hda := habove d (by simp)
        obtain he | he := List.mem_append.1 he
        · have := hcross e he a (by simp)
          omega
        · have := habove e he
          have hle : (st.elt d).indx ≤ (st.elt e).indx := by
            obtain rfl | he := List.mem_cons.1 he
            · exact le_rfl
            · exact ((List.pairwise_cons.1 hinc₂).1 e he).le
          omega
    · next hcur =>
      obtain ⟨hmem, hcache⟩ := hl.current c hc
      refine ⟨?_, fun e he => hcache e ?_⟩
      · simp only [List.mem_append, List.mem_cons] at hmem ⊢
        obtain hmem | rfl | hmem := hmem
        · exact .inl hmem
        · exact absurd hc hcur
        · exact .inr hmem
      · simp only [List.mem_append, List.mem_cons] at he ⊢
        tauto
  · intro hnone
    dsimp only at hnone
    split at hnone
    · rw [Option.or_eq_none_iff, List.head?_eq_none_iff, List.getLast?_eq_none_iff] at hnone
      rw [hnone.1, hnone.2]
      rfl
    · have := hl.no_current hnone
      simp at this
  · rfl
  · simp only [bitmapElementFree, hprev, hnext]
    cases l₁.getLast? <;> cases l₂.head? <;> rfl

omit [DecidableEq B] in
/-- An element that is on no list is pushed on the free list. -/
theorem Shape.push (hs : Shape st own lists free) {a : Nat}
    (hown : own a = .loose ∨ own a = .pending) :
    Shape ((st.setNext a st.bitmapFree).setFree (some a)) (Function.update own a .free) lists
      (a :: free) := by
  have hne : ∀ c, own c ≠ .loose → own c ≠ .pending → c ≠ a := by
    rintro c hl hp rfl
    exact hown.elim hl hp
  have hsame : ∀ c, c ≠ a → ((st.setNext a st.bitmapFree).setFree (some a)).elt c = st.elt c :=
    fun c hc => Function.update_of_ne hc ..
  refine ⟨fun b => (hs.bitmaps b).congr fun c hc => hsame c ?_, fun b c hc => ?_, rfl, ⟨?_, ?_⟩, ?_,
    fun c hc => ?_, fun c hc => ?_⟩
  · exact hne c (by rw [hs.bitmaps_own b c hc]; simp) (by rw [hs.bitmaps_own b c hc]; simp)
  · rw [Function.update_of_ne, hs.bitmaps_own b c hc]
    exact hne c (by rw [hs.bitmaps_own b c hc]; simp) (by rw [hs.bitmaps_own b c hc]; simp)
  · simpa [State.setNext, State.setElt, State.setFree] using hs.free_head
  · refine hs.free_path.congr fun c hc => ?_
    rw [hsame c]
    exact hne c (by rw [hs.free_own c hc]; simp) (by rw [hs.free_own c hc]; simp)
  · refine List.nodup_cons.2 ⟨fun ha => ?_, hs.free_nodup⟩
    rw [hs.free_own a ha] at hown
    simp at hown
  · obtain rfl | hc := List.mem_cons.1 hc
    · exact Function.update_self ..
    · rw [Function.update_of_ne, hs.free_own c hc]
      exact hne c (by rw [hs.free_own c hc]; simp) (by rw [hs.free_own c hc]; simp)
  · have hcno := hs.allocated c hc
    rw [Function.update_of_ne (hne c (by rw [hcno]; simp) (by rw [hcno]; simp)), hcno]

omit [DecidableEq B] in
theorem Shape.pushAll (hs : Shape st own lists free) {l : List Nat}
    (hpath : Path (fun a => (st.elt a).next) l) (hnodup : l.Nodup) (hown : ∀ a ∈ l, own a = .loose)
    {fuel : Nat} (hfuel : l.length ≤ fuel) :
    ∃ st', freeElements fuel l.head? st = some st' ∧
      Shape st' (fun c => if c ∈ l then .free else own c) lists (l.reverse ++ free) ∧
      st'.head = st.head ∧ st'.allocated = st.allocated ∧ ∀ c, c ∉ l → st'.elt c = st.elt c := by
  induction l generalizing st own free fuel with
  | nil =>
    refine ⟨st, by cases fuel <;> rfl, ?_, rfl, rfl, fun _ _ => rfl⟩
    simpa using hs
  | cons a l ih =>
    obtain ⟨hnext, hpath⟩ := hpath
    obtain ⟨ha, hnodup⟩ := List.nodup_cons.1 hnodup
    obtain ⟨hown, hown'⟩ := List.forall_mem_cons.1 hown
    have hne : ∀ c ∈ l, c ≠ a := by
      rintro c hc rfl
      exact ha hc
    have hsame : ∀ c, c ≠ a → ((st.setNext a st.bitmapFree).setFree (some a)).elt c = st.elt c :=
      fun c hc => Function.update_of_ne hc ..
    cases fuel with
    | zero => simp at hfuel
    | succ fuel =>
      obtain ⟨st', hrun, hs', hhead, halloc, hframe⟩ := ih (hs.push (.inl hown))
        (hpath.congr fun c hc => by rw [hsame c (hne c hc)]) hnodup
        (fun c hc => by rw [Function.update_of_ne (hne c hc), hown' c hc])
        (Nat.le_of_succ_le_succ hfuel)
      refine ⟨st', ?_, ?_, hhead, halloc, fun c hc => ?_⟩
      · rw [List.head?_cons, freeElements]
        rw [show (st.elt a).next = l.head? from hnext]
        exact hrun
      · rw [List.reverse_cons, List.append_assoc, List.singleton_append]
        convert hs' using 1
        funext c
        by_cases hca : c = a <;> simp [hca]
      · obtain ⟨hca, hc⟩ := not_or.1 (List.mem_cons.not.1 hc)
        rw [hframe c hc, hsame c hca]

theorem Shape.detach (hs : Shape st own lists free) (b : B) (indx : Nat) :
    Shape (st.setHead b ⟨none, none, indx⟩) (fun c => if c ∈ lists b then .loose else own c)
      (Function.update lists b []) free := by
  have hne : ∀ c, own c ≠ .bitmap b → c ∉ lists b := fun c hc hmem => hc (hs.bitmaps_own b c hmem)
  refine ⟨fun b' => ?_, fun b' c hc => ?_, hs.free_head, hs.free_path, hs.free_nodup,
    fun c hc => ?_, fun c hc => ?_⟩
  · by_cases hb : b' = b
    · subst hb
      rw [setHead_self, Function.update_self]
      exact ⟨trivial, rfl, .nil, by simp, by simp, fun _ => rfl⟩
    · rw [setHead_of_ne hb, Function.update_of_ne hb]
      exact hs.bitmaps b'
  · by_cases hb : b' = b
    · subst hb
      rw [Function.update_self] at hc
      cases hc
    · rw [Function.update_of_ne hb] at hc
      rw [if_neg (hne c (by rw [hs.bitmaps_own b' c hc]; simpa using hb)), hs.bitmaps_own b' c hc]
  · rw [if_neg (hne c (by rw [hs.free_own c hc]; simp)), hs.free_own c hc]
  · have hcno := hs.allocated c hc
    rw [if_neg (hne c (by rw [hcno]; simp)), hcno]

theorem freeElements_setHead (fuel : Nat) (ptr : Option Nat) (b : B) (hd : Head) :
    freeElements fuel ptr (st.setHead b hd) =
      (freeElements fuel ptr st).map fun st' => st'.setHead b hd := by
  induction fuel generalizing ptr st with
  | zero => cases ptr <;> rfl
  | succ fuel ih =>
    cases ptr with
    | none => rfl
    | some a =>
      have hrest := @ih ((st.setNext a st.bitmapFree).setFree (some a)) (st.elt a).next
      exact hrest

omit [DecidableEq B] in
theorem freeElements_head {fuel : Nat} {ptr : Option Nat}
    (hrun : freeElements fuel ptr st = some st') : st'.head = st.head := by
  induction fuel generalizing ptr st with
  | zero =>
    cases ptr with
    | none => rw [Option.some.inj hrun]
    | some a => cases hrun
  | succ fuel ih =>
    cases ptr with
    | none => rw [Option.some.inj hrun]
    | some a =>
      rw [freeElements] at hrun
      have hrest := ih hrun
      exact hrest

theorem Shape.clear (hs : Shape st own lists free) (b : B) :
    ∃ st' free', bitmapClear b st = some st' ∧
      Shape st' (fun c => if c ∈ lists b then .free else own c) (Function.update lists b []) free' ∧
      (∀ c, c ∉ lists b → st'.elt c = st.elt c) ∧ (∀ b', b' ≠ b → st'.head b' = st.head b') ∧
      (st'.head b).current = none ∧ st'.allocated = st.allocated := by
  have hl := hs.bitmaps b
  obtain ⟨st', hrun, hs', hhead, halloc, hframe⟩ :=
    (hs.detach b (st.head b).indx).pushAll (l := lists b) hl.linked.path hl.nodup
      (fun a ha => if_pos ha) (hs.list_length_le b)
  rw [freeElements_setHead, ← hl.first, Option.map_eq_some_iff] at hrun
  obtain ⟨st₁, hrun, rfl⟩ := hrun
  have hsame := freeElements_head hrun
  refine ⟨st₁.setHead b ⟨none, none, (st.head b).indx⟩, (lists b).reverse ++ free, ?_, ?_, hframe, fun b' hb' => ?_, ?_,
    halloc⟩
  · rw [bitmapClear, hrun, ← hsame]
    rfl
  · convert hs' using 1
    funext c
    split <;> rfl
  · rw [setHead_of_ne hb', hsame]
  · rw [setHead_self]

end Frame

end Z80Gcc.Bitmap
