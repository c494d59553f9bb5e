import Z80Gcc.Proofs.CaseNodes

/-! Switch dispatch: the decision code, the dispatch table and the constant shortcut all send an
index where the source does, unless a range straddles the sign bit of the whole double word or the
constant is a negative word of an unsigned type that is wider. -/

namespace Z80Gcc

open Z80Gcc.Asm Z80Gcc.WrapInt

variable {L : Type} {h : Host}

section Signed

variable {t : IntegerType h} {a b x : Int}

/-- A value as `INT_CST_LT` sees it: its two words as one signed number. -/
def Host.signed (h : Host) (v : Int) : Int := v.bmod (2 ^ (2 * h.bits))

theorem intCstLt_iff : IntegerType.intCstLt h a b = true ↔ h.signed a < h.signed b := by
  simp [IntegerType.intCstLt, Host.signed]

theorem dvd_signed_sub (h : Host) (v : Int) : (2 : Int) ^ (2 * h.bits) ∣ h.signed v - v :=
  dvd_wrap_sub (u := false)

theorem signed_bounds (h : Host) (v : Int) :
    -2 ^ (2 * h.bits) ≤ h.signed v * 2 ∧ h.signed v * 2 < 2 ^ (2 * h.bits) :=
  bmod_eq_self_iff.1 (wrap_wrap (u := false))

theorem IntegerType.wrap_zero : t.wrap 0 = 0 := by
  unfold wrap
  cases t.unsignedp <;> simp

theorem IntegerType.wrap_lt {v : Int} (hv : t.wrap v = v) : v < 2 ^ t.precision := by
  have := sub_lt_of_wrap t.wrap_zero hv
  omega

/-- Seen as signed, the values of a type stay where they are, unless it is unsigned and takes both
words whole: then the upper half of them moves below zero. -/
theorem signed_cases (ht : t.precision ≤ 2 * h.bits) :
    (∀ v, t.wrap v = v → h.signed v = v) ∨
      t.precision = 2 * h.bits ∧ ∀ v, t.wrap v = v → 0 ≤ v ∧ v < 2 ^ (2 * h.bits) ∧
        (h.signed v = v ∨ h.signed v = v - 2 ^ (2 * h.bits)) := by
  unfold IntegerType.wrap Host.signed
  cases t.unsignedp with
  | false => exact .inl fun v hv => bmod_eq_self_mono ht hv
  | true =>
    obtain hlt | heq := ht.lt_or_eq
    · exact .inl fun v hv => bmod_eq_self_of_emod hlt hv
    refine .inr ⟨heq, fun v hv => ?_⟩
    rw [heq, wrap_true, emod_eq_self_iff] at hv
    refine ⟨hv.1, hv.2, ?_⟩
    by_cases hhalf : v * 2 < 2 ^ (2 * h.bits)
    · exact .inl (bmod_eq_self_iff.2 (by omega))
    · have hmove : wrap false (2 * h.bits) v = wrap false (2 * h.bits) (v - 2 ^ (2 * h.bits)) :=
        wrap_eq_of_dvd (by simp)
      exact .inr (hmove.trans (bmod_eq_self_iff.2 (by omega)))

/-- The values of a type stay within its size of each other when seen as signed. -/
theorem signed_sub_lt (ht : t.precision ≤ 2 * h.bits) (ha : t.wrap a = a) (hb : t.wrap b = b) :
    h.signed b - h.signed a < 2 ^ t.precision := by
  obtain hsame | ⟨hp, -⟩ := signed_cases ht
  · rw [hsame a ha, hsame b hb]
    exact sub_lt_of_wrap ha hb
  · have hba := signed_bounds h a
    have hbb := signed_bounds h b
    rw [hp]
    omega

/-- A range that is in order when seen as signed keeps its values. -/
theorem between_signed (ht : t.precision ≤ 2 * h.bits) (ha : t.wrap a = a) (hb : t.wrap b = b)
    (hx : t.wrap x = x) (hab : a ≤ b) (hun : h.signed a ≤ h.signed b) :
    a ≤ x ∧ x ≤ b ↔ h.signed a ≤ h.signed x ∧ h.signed x ≤ h.signed b := by
  obtain hsame | ⟨-, hmove⟩ := signed_cases ht
  · rw [hsame a ha, hsame b hb, hsame x hx]
  · have hba := signed_bounds h a
    have hbb := signed_bounds h b
    have hbx := signed_bounds h x
    have hma := hmove a ha
    have hmb := hmove b hb
    have hmx := hmove x hx
    omega

end Signed

section Span

variable {t : IntegerType h}

theorem minval_spec (m : Int) (cs : List (CaseNode L)) :
    h.signed (Switch.minval (h := h) m cs) ≤ h.signed m ∧
      (∀ c ∈ cs, h.signed (Switch.minval (h := h) m cs) ≤ h.signed c.low) ∧
      (Switch.minval (h := h) m cs = m ∨ ∃ c ∈ cs, Switch.minval (h := h) m cs = c.low) := by
  induction cs generalizing m with
  | nil => simp [Switch.minval]
  | cons c cs ih =>
    rw [Switch.minval]
    obtain ⟨hle, hall, hmem⟩ := ih (if IntegerType.intCstLt h c.low m then c.low else m)
    generalize Switch.minval (h := h) _ cs = v at *
    split at hle <;> rename_i hlt <;> rw [intCstLt_iff] at hlt
    · refine ⟨by omega, List.forall_mem_cons.2 ⟨hle, hall⟩, .inr ?_⟩
      obtain heq | ⟨d, hd, heq⟩ := hmem
      · exact ⟨c, by simp, by simpa [intCstLt_iff, hlt] using heq⟩
      · exact ⟨d, by simp [hd], heq⟩
    · refine ⟨hle, List.forall_mem_cons.2 ⟨by omega, hall⟩, ?_⟩
      obtain heq | ⟨d, hd, heq⟩ := hmem
      · exact .inl (by simpa [intCstLt_iff, hlt] using heq)
      · exact .inr ⟨d, by simp [hd], heq⟩

theorem maxval_spec (m : Int) (cs : List (CaseNode L)) :
    h.signed m ≤ h.signed (Switch.maxval (h := h) m cs) ∧
      (∀ c ∈ cs, h.signed c.high ≤ h.signed (Switch.maxval (h := h) m cs)) ∧
      (Switch.maxval (h := h) m cs = m ∨ ∃ c ∈ cs, Switch.maxval (h := h) m cs = c.high) := by
  induction cs generalizing m with
  | nil => simp [Switch.maxval]
  | cons c cs ih =>
    rw [Switch.maxval]
    obtain ⟨hle, hall, hmem⟩ := ih (if IntegerType.intCstLt h m c.high then c.high else m)
    generalize Switch.maxval (h := h) _ cs = v at *
    split at hle <;> rename_i hlt <;> rw [intCstLt_iff] at hlt
    · refine ⟨by omega, List.forall_mem_cons.2 ⟨hle, hall⟩, .inr ?_⟩
      obtain heq | ⟨d, hd, heq⟩ := hmem
      · exact ⟨c, by simp, by simpa [intCstLt_iff, hlt] using heq⟩
      · exact ⟨d, by simp [hd], heq⟩
    · refine ⟨hle, List.forall_mem_cons.2 ⟨by omega, hall⟩, ?_⟩
      obtain heq | ⟨d, hd, heq⟩ := hmem
      · exact .inl (by simpa [intCstLt_iff, hlt] using heq)
      · exact .inr ⟨d, by simp [hd], heq⟩

end Span

section Table

theorem enterLabel_spec (l : L) (i k : Nat) (vec : List (Option L)) (hfit : i + k < vec.length) :
    ∃ vec', Switch.enterLabel l i k vec = some vec' ∧ vec'.length = vec.length ∧
      ∀ j, vec'[j]? = if i ≤ j ∧ j ≤ i + k then some (some l) else vec[j]? := by
  induction k generalizing i vec with
  | zero =>
    rw [Switch.enterLabel, if_pos (show i < vec.length from hfit)]
    refine ⟨_, rfl, by simp, fun j => ?_⟩
    rw [List.getElem?_set]
    by_cases hij : i = j
    · subst hij
      simpa using hfit
    · rw [if_neg hij, if_neg (by omega)]
  | succ k ih =>
    rw [Switch.enterLabel, if_pos (by omega)]
    obtain ⟨vec', heq, hlen, hall⟩ := ih (i + 1) (vec.set i (some l)) (by simp; omega)
    refine ⟨vec', heq, by simpa using hlen, fun j => ?_⟩
    rw [hall, List.getElem?_set]
    by_cases hij : i = j
    · subst hij
      rw [if_neg (by omega), if_pos rfl, if_pos (by omega), if_pos (by omega)]
    · by_cases hj : i + 1 ≤ j ∧ j ≤ i + 1 + k
      · rw [if_pos hj, if_pos (by omega)]
      · rw [if_neg hj, if_neg hij, if_neg (by omega)]

variable (first extent : CaseNode L → Nat)

/-- Places that one node enters get its label; a place that none enters is left. -/
theorem enterLabels_spec (cs : List (CaseNode L)) (vec : List (Option L))
    (hfit : ∀ c ∈ cs, first c + extent c < vec.length) :
    ∃ vec', cs.foldlM (fun vec (c : CaseNode L) =>
        Switch.enterLabel c.codeLabel (first c) (extent c) vec) vec = some vec' ∧
      vec'.length = vec.length ∧ ∀ j,
        (∀ c ∈ cs, first c ≤ j ∧ j ≤ first c + extent c →
          (∀ c' ∈ cs, first c' ≤ j ∧ j ≤ first c' + extent c' → c' = c) →
          vec'[j]? = some (some c.codeLabel)) ∧
        ((∀ c ∈ cs, ¬ (first c ≤ j ∧ j ≤ first c + extent c)) → vec'[j]? = vec[j]?) := by
  induction cs generalizing vec with
  | nil => exact ⟨vec, rfl, rfl, fun j => ⟨by simp, fun _ => rfl⟩⟩
  | cons c cs ih =>
    obtain ⟨hc, hcs⟩ := List.forall_mem_cons.1 hfit
    obtain ⟨vec₁, heq₁, hlen₁, hall₁⟩ := enterLabel_spec c.codeLabel _ _ vec hc
    obtain ⟨vec', heq, hlen, hall⟩ := ih vec₁ (by rwa [hlen₁])
    refine ⟨vec', ?_, hlen.trans hlen₁, fun j => ⟨fun d hd hcov honly => ?_, fun hnone => ?_⟩⟩
    · rw [List.foldlM_cons, heq₁]
      exact heq
    · by_cases hlater : ∃ e ∈ cs, first e ≤ j ∧ j ≤ first e + extent e
      · obtain ⟨e, he, hecov⟩ := hlater
        obtain rfl := honly e (by simp [he]) hecov
        exact (hall j).1 e he hcov fun c' hc' => honly c' (by simp [hc'])
      · have hnone : ∀ e ∈ cs, ¬ (first e ≤ j ∧ j ≤ first e + extent e) :=
          fun e he hecov => hlater ⟨e, he, hecov⟩
        obtain rfl | hd := List.mem_cons.1 hd
        · rw [(hall j).2 hnone, hall₁, if_pos hcov]
        · exact absurd hcov (hnone d hd)
    · obtain ⟨hc, hcs⟩ := List.forall_mem_cons.1 hnone
      rw [(hall j).2 hcs, hall₁, if_neg hc]

variable {t nt : IntegerType h} {mode : Nat} {m range index : Int}

/-- The register of the table jump holds the distance of the index from the least value exactly
when it is not beyond the table. -/
theorem tableIndex_spec (ht : t.precision ≤ 2 * h.bits) (hn : t.precision ≤ nt.precision)
    (hsign : t.unsignedp = nt.unsignedp) (hmode : t.precision ≤ mode)
    (hm : t.wrap m = m) (hindex : t.wrap index = index) (hrange : t.wrap range = range)
    (hgap : h.signed m + range - h.signed index < 2 ^ t.precision) :
    ((BitVec.ofInt mode (nt.wrap (t.wrap (index - m)))).toNat ≤ range ↔
      h.signed m ≤ h.signed index ∧ h.signed index ≤ h.signed m + range) ∧
    ((BitVec.ofInt mode (nt.wrap (t.wrap (index - m)))).toNat ≤ range →
      ((BitVec.ofInt mode (nt.wrap (t.wrap (index - m)))).toNat : Int) =
        h.signed index - h.signed m) := by
  have hzero : t.wrap 0 = 0 := t.wrap_zero
  have hpdvd : (2 : Int) ^ t.precision ∣ 2 ^ (2 * h.bits) := pow_dvd_pow 2 ht
  have hsub : (2 : Int) ^ t.precision ∣ (index - m) - (h.signed index - h.signed m) := by
    have hi := hpdvd.trans (dvd_signed_sub h index)
    have hl := hpdvd.trans (dvd_signed_sub h m)
    have := dvd_sub hl hi
    rwa [show h.signed m - m - (h.signed index - index) =
      (index - m) - (h.signed index - h.signed m) by ring] at this
  have hfar := signed_sub_lt ht hm hindex
  generalize hj : h.signed index - h.signed m = j at *
  have hwrap : t.wrap (index - m) = t.wrap j := wrap_eq_of_dvd hsub
  have hrangelt := IntegerType.wrap_lt hrange
  have hreg : ((BitVec.ofInt mode (nt.wrap (t.wrap (index - m)))).toNat : Int) =
      nt.wrap (t.wrap j) % 2 ^ mode := by
    rw [BitVec.toNat_ofInt, hwrap]
    push_cast
    exact Int.toNat_of_nonneg (Int.emod_nonneg _ (by positivity))
  have hin : 0 ≤ j → j ≤ range → nt.wrap (t.wrap j) % 2 ^ mode = j := by
    intro h0 hle
    have hself : t.wrap j = j := wrap_eq_self_convex hzero hrange h0 hle
    have hself' : nt.wrap j = j := by
      unfold IntegerType.wrap at hself ⊢
      exact wrap_eq_self_mono hn (hsign ▸ hself)
    rw [hself, hself']
    have := two_pow_le hmode
    exact emod_eq_self_iff.2 (by omega)
  have hback : nt.wrap (t.wrap j) % 2 ^ mode ≤ range → nt.wrap (t.wrap j) % 2 ^ mode = j := by
    intro hle
    have h0 : 0 ≤ nt.wrap (t.wrap j) % 2 ^ mode := Int.emod_nonneg _ (by positivity)
    have hdvd : (2 : Int) ^ t.precision ∣ nt.wrap (t.wrap j) % 2 ^ mode - j := by
      have h₁ : (2 : Int) ^ t.precision ∣ nt.wrap (t.wrap j) % 2 ^ mode - nt.wrap (t.wrap j) :=
        (pow_dvd_pow 2 hmode).trans Int.dvd_emod_sub_self
      have h₂ : (2 : Int) ^ t.precision ∣ nt.wrap (t.wrap j) - t.wrap j :=
        (pow_dvd_pow 2 hn).trans dvd_wrap_sub
      have h₃ : (2 : Int) ^ t.precision ∣ t.wrap j - j := dvd_wrap_sub
      have := dvd_add (dvd_add h₁ h₂) h₃
      rwa [sub_add_sub_cancel, sub_add_sub_cancel] at this
    have hzero' := Int.eq_zero_of_abs_lt_dvd hdvd (abs_lt.2 ⟨by omega, by omega⟩)
    omega
  rw [hreg]
  refine ⟨⟨fun hle => ?_, fun hle => ?_⟩, hback⟩
  · have := hback hle
    have h0 : 0 ≤ nt.wrap (t.wrap j) % 2 ^ mode := Int.emod_nonneg _ (by positivity)
    omega
  · rw [hin (by omega) (by omega)]
    omega

end Table

section Dispatch

variable {s : Switch h L} {list : List (CaseNode L)} {index : Int} {l : L}

theorem InOrder.eq_of_holds (hsorted : InOrder list) {c c' : CaseNode L} (hc : c ∈ list)
    (hc' : c' ∈ list) (hold : c.Holds index) (hold' : c'.Holds index) : c' = c := by
  induction list with
  | nil => cases hc
  | cons d list ih =>
    obtain ⟨hd, hlist⟩ := List.pairwise_cons.1 hsorted
    obtain heq | hmem := List.mem_cons.1 hc <;> obtain heq' | hmem' := List.mem_cons.1 hc'
    · exact heq'.trans heq.symm
    · subst heq
      exact absurd (hold.2.trans_lt (hd c' hmem')) (not_lt.2 hold'.1)
    · subst heq'
      exact absurd (hold'.2.trans_lt (hd c hmem)) (not_lt.2 hold.1)
    · exact ih hlist hmem hmem'

/-- What `expand_end_case` has made of the cases before it chooses between tree and table. -/
structure Listed (s : Switch h L) (list : List (CaseNode L)) : Prop where
  sorted : InOrder list
  of : ∀ c ∈ list, c.low ≤ c.high ∧ s.indexType.Has c.low ∧ s.indexType.Has c.high
  goesTo : ∀ index place, GoesTo s.insns list index place ↔ GoesTo s.insns s.cases index place

theorem Switch.list_listed (s : Switch h L) : ∃ list, s.list = some list ∧ Listed s list := by
  have hself : ∀ v, s.indexType.wrap v = v → s.nominalType.wrap v = v := by
    intro v hv
    unfold IntegerType.wrap at hv ⊢
    rw [← s.widens.1]
    exact wrap_eq_self_mono s.widens.2 hv
  have hof : ∀ c ∈ s.cases, c.Of s.nominalType := by
    intro c hc
    obtain ⟨hle, hlow, hhigh⟩ := s.ranges c hc
    exact ⟨hle, hself _ hlow.2.2, hself _ hhigh.2.2⟩
  obtain ⟨tree, htree, ⟨n, havl⟩, hperm, hsorted⟩ :=
    addCaseNodes_collected s.words s.cases hof s.disjoint
  have hgrouped : Grouped s.insns s.nominalType (Z80Gcc.cases tree)
      (groupCaseNodes s.insns s.nominalType (Z80Gcc.cases tree)) :=
    groupCaseNodes_grouped _ (fun c hc => hof c (hperm.mem_iff.1 hc)) hsorted
  have hhas : ∀ g ∈ groupCaseNodes s.insns s.nominalType (Z80Gcc.cases tree),
      g.low ≤ g.high ∧ s.indexType.Has g.low ∧ s.indexType.Has g.high := by
    intro g hg
    obtain ⟨c, hc, hlow⟩ := hgrouped.low g hg
    obtain ⟨d, hd, hhigh⟩ := hgrouped.high g hg
    exact ⟨(hgrouped.of g hg).1, hlow ▸ (s.ranges c (hperm.mem_iff.1 hc)).2.1,
      hhigh ▸ (s.ranges d (hperm.mem_iff.1 hd)).2.2⟩
  refine ⟨_, ?_, hgrouped.sorted, hhas, fun index place => ?_⟩
  · rw [Switch.list, htree, Except.toOption, Option.map_some, caseList_eq havl]
    refine congrArg some ((List.map_congr_left fun g hg => ?_).trans (List.map_id _))
    obtain ⟨-, hlow, hhigh⟩ := hhas g hg
    rw [hlow.2.2, hhigh.2.2, id]
  · rw [hgrouped.goesTo]
    simp only [GoesTo, hperm.mem_iff]

/-- A label that is right for the list is at the place of the right label. -/
theorem Listed.place_eq (hl : Listed s list)
    (hin : ∀ c ∈ list, c.Holds index → l = c.codeLabel)
    (hout : (∀ c ∈ list, ¬ c.Holds index) → l = s.defaultLabel) :
    s.insns.place l = s.insns.place (s.label index) := by
  unfold Switch.label
  split
  · next c hfind =>
    have hhold := List.find?_some hfind
    rw [Bool.and_eq_true, decide_eq_true_eq, decide_eq_true_eq] at hhold
    obtain ⟨g, hg, hgold, hplace⟩ :=
      (hl.goesTo index _).2 ⟨c, List.mem_of_find?_eq_some hfind, hhold, rfl⟩
    rw [hin g hg hgold, hplace]
  · next hfind =>
    rw [List.find?_eq_none] at hfind
    rw [hout]
    intro g hg hgold
    obtain ⟨c, hc, hhold, -⟩ := (hl.goesTo index _).1 ⟨g, hg, hgold, rfl⟩
    exact hfind c hc (by simpa [CaseNode.Holds] using hhold)

theorem Listed.constantLabel_place (hl : Listed s list) (hindex : s.indexType.Has index) :
    s.insns.place (s.constantLabel list index) = s.insns.place (s.label index) := by
  have ht := s.widens.2.trans s.words
  have hfound : ∀ c ∈ list, (!s.indexType.treeIntCstLt index c.low &&
      !s.indexType.treeIntCstLt c.high index) = true ↔ c.Holds index := by
    intro c hc
    obtain ⟨-, hlow, hhigh⟩ := hl.of c hc
    rw [Bool.and_eq_true, Bool.not_eq_true', Bool.not_eq_true', ← Bool.not_eq_true,
      ← Bool.not_eq_true, s.indexType.treeIntCstLt_iff ht hindex.2.2 hlow.2.2,
      s.indexType.treeIntCstLt_iff ht hhigh.2.2 hindex.2.2, not_lt, not_lt]
    rfl
  unfold Switch.constantLabel
  split
  · next c hfind =>
    have hc := List.mem_of_find?_eq_some hfind
    have htest := List.find?_some hfind
    have hold := (hfound c hc).1 htest
    refine hl.place_eq (fun c' hc' hold' => ?_) fun hnone => absurd hold (hnone c hc)
    rw [hl.sorted.eq_of_holds hc hc' hold hold']
  · next hfind =>
    rw [List.find?_eq_none] at hfind
    exact hl.place_eq (fun c hc hold => absurd ((hfound c hc).2 hold) (hfind c hc)) fun _ => rfl

/-- The tree node made for the constant has the value of the index, but for a negative word of an
unsigned type that does not fit in one. -/
theorem Switch.constIntIndex_eq_iff (s : Switch h L) {i : Int} (hindex : s.indexType.Has index)
    (hword : i.bmod (2 ^ h.bits) = i) (hmode : BitVec.ofInt s.mode i = BitVec.ofInt s.mode index) :
    s.constIntIndex i = index ↔
      ¬ (s.indexType.unsignedp = true ∧ h.bits < s.indexType.precision ∧ i < 0) := by
  have hi := bmod_eq_self_iff.1 hword
  have hsame : s.indexType.wrap i = index := by
    have hdvd : (2 : Int) ^ s.mode ∣ i - index := by
      have hnat := congrArg BitVec.toNat hmode
      rw [BitVec.toNat_ofInt, BitVec.toNat_ofInt] at hnat
      have hpos : (0 : Int) < 2 ^ s.mode := by positivity
      have hcast : i % 2 ^ s.mode = index % 2 ^ s.mode := by
        have := Int.emod_nonneg i hpos.ne'
        have := Int.emod_nonneg index hpos.ne'
        push_cast at hnat
        omega
      exact Int.dvd_of_emod_eq_zero (Int.emod_eq_emod_iff_emod_sub_eq_zero.1 hcast)
    exact (wrap_eq_of_dvd ((pow_dvd_pow 2 s.modes.1).trans hdvd)).trans hindex.2.2
  unfold Switch.constIntIndex
  by_cases hneg : i < 0
  · cases hu : s.indexType.unsignedp with
    | false => simpa [not_le.2 hneg] using hsame
    | true =>
      rw [Bool.true_or, if_pos rfl]
      have hmove : i % 2 ^ h.bits = i + 2 ^ h.bits := by
        rw [← Int.add_emod_right]
        exact emod_eq_self_iff.2 (by omega)
      unfold IntegerType.wrap at hsame ⊢
      rw [hu, wrap_true] at hsame ⊢
      rw [hmove, ← hsame]
      by_cases hp : h.bits < s.indexType.precision
      · have hlt : (2 : Int) ^ (h.bits + 1) ≤ 2 ^ s.indexType.precision := two_pow_le hp
        rw [pow_succ] at hlt
        have hleft : (i + 2 ^ h.bits) % 2 ^ s.indexType.precision = i + 2 ^ h.bits :=
          emod_eq_self_iff.2 (by omega)
        have hright : i % 2 ^ s.indexType.precision = i + 2 ^ s.indexType.precision := by
          rw [← Int.add_emod_right]
          exact emod_eq_self_iff.2 (by omega)
        rw [hleft, hright]
        simp only [hp, hneg, and_self, not_true, iff_false]
        omega
      · simp only [hp, false_and, and_false, not_false_iff, iff_true]
        have hdvd : (2 : Int) ^ s.indexType.precision ∣ (i + 2 ^ h.bits) - i := by
          rw [add_sub_cancel_left]
          exact pow_dvd_pow 2 (not_lt.1 hp)
        exact wrap_eq_of_dvd (u := true) hdvd
  · have hself : i % 2 ^ h.bits = i := emod_eq_self_iff.2 (by omega)
    simp [hself, hsame, hneg]

section Table

variable {n : CaseNode L} {rest : List (CaseNode L)}

/-- The least and the greatest value of the list seen as signed, and their distance. -/
structure Spanned (s : Switch h L) (n : CaseNode L) (rest : List (CaseNode L)) : Prop where
  least : s.indexType.wrap (s.span n rest).minval = (s.span n rest).minval
  low : ∀ c ∈ n :: rest, h.signed (s.span n rest).minval ≤ h.signed c.low
  range : s.indexType.wrap (s.span n rest).range = (s.span n rest).range
  high : ∀ c ∈ n :: rest,
    h.signed c.high ≤ h.signed (Switch.maxval (h := h) n.high rest)
  attained : ∃ c ∈ n :: rest, Switch.maxval (h := h) n.high rest = c.high
  distance : (s.span n rest).range = s.indexType.wrap
    (h.signed (Switch.maxval (h := h) n.high rest) - h.signed (s.span n rest).minval)

theorem Listed.spanned (hl : Listed s (n :: rest)) : Spanned s n rest := by
  obtain ⟨hlown, hlow, hmin⟩ := minval_spec (h := h) n.low rest
  obtain ⟨hhighn, hhigh, hmax⟩ := maxval_spec (h := h) n.high rest
  have hleast : s.indexType.wrap (s.span n rest).minval = (s.span n rest).minval := by
    obtain heq | ⟨c, hc, heq⟩ := hmin
    · exact (congrArg _ heq).trans ((hl.of n (by simp)).2.1.2.2.trans heq.symm)
    · exact (congrArg _ heq).trans ((hl.of c (by simp [hc])).2.1.2.2.trans heq.symm)
  refine ⟨hleast, List.forall_mem_cons.2 ⟨hlown, hlow⟩, wrap_wrap,
    List.forall_mem_cons.2 ⟨hhighn, hhigh⟩, ?_, wrap_eq_of_dvd ?_⟩
  · obtain heq | ⟨c, hc, heq⟩ := hmax
    · exact ⟨n, by simp, heq⟩
    · exact ⟨c, by simp [hc], heq⟩
  · have hdvd := dvd_sub (dvd_signed_sub h (Switch.minval (h := h) n.low rest))
      (dvd_signed_sub h (Switch.maxval (h := h) n.high rest))
    refine (pow_dvd_pow 2 (s.widens.2.trans s.words)).trans ?_
    convert hdvd using 1
    simp only [Switch.span]
    ring

/-- A number of the type whose high word is zero is its low word. -/
theorem Host.lt_of_not_highSet {t : IntegerType h} {r : Int} (ht : t.precision ≤ 2 * h.bits)
    (hr : t.wrap r = r) (hhigh : h.highSet r = false) : 0 ≤ r ∧ r < 2 ^ h.bits := by
  have hpos : (0 : Int) < 2 ^ h.bits := by positivity
  have hsq : (2 : Int) ^ (2 * h.bits) = 2 ^ h.bits * 2 ^ h.bits := by rw [two_mul, pow_add]
  have hle := two_pow_le ht
  have hbound : -2 ^ (2 * h.bits) ≤ r * 2 ∧ r < 2 ^ (2 * h.bits) := by
    unfold IntegerType.wrap at hr
    cases hu : t.unsignedp with
    | true =>
      rw [hu, wrap_true, emod_eq_self_iff] at hr
      omega
    | false =>
      rw [hu, wrap_false, bmod_eq_self_iff] at hr
      omega
  rw [Host.highSet, decide_eq_false_iff_not, not_not] at hhigh
  have hq : r / 2 ^ h.bits = 0 := by
    refine Int.eq_zero_of_abs_lt_dvd (Int.dvd_of_emod_eq_zero hhigh) (abs_lt.2 ⟨?_, ?_⟩)
    · have htwo : (2 : Int) ^ (h.bits + 1) ≤ 2 ^ (2 * h.bits) := two_pow_le (by have := h.wide; omega)
      rw [pow_succ] at htwo
      have hmul : (-2 ^ h.bits + 1) * 2 ^ h.bits ≤ r := by
        rw [add_mul, one_mul, neg_mul, ← hsq]
        omega
      have := Int.le_ediv_of_mul_le hpos hmul
      omega
    · refine Int.ediv_lt_of_lt_mul hpos ?_
      rw [← hsq]
      exact hbound.2
  have hmod := Int.emod_add_mul_ediv r (2 ^ h.bits)
  rw [hq, mul_zero, add_zero] at hmod
  exact emod_eq_self_iff.1 hmod

/-- A table that is taken has as many places as the values span, when no range is out of order. -/
theorem Spanned.range_eq (hsp : Spanned s n rest) (hl : Listed s (n :: rest))
    (hun : n.Unwrapped h)
    (htaken : Switch.tableTaken (h := h) (n :: rest) (s.span n rest) = true) :
    (s.span n rest).range =
        h.signed (Switch.maxval (h := h) n.high rest) - h.signed (s.span n rest).minval ∧
      0 ≤ (s.span n rest).range ∧ (s.span n rest).range < 2 ^ h.bits := by
  have ht := s.widens.2.trans s.words
  simp only [Switch.tableTaken, Bool.and_eq_true, Bool.not_eq_true'] at htaken
  obtain ⟨hnonneg, hlt⟩ := Host.lt_of_not_highSet ht hsp.range htaken.1.1
  refine ⟨?_, hnonneg, hlt⟩
  obtain ⟨c, hc, hcmax⟩ := hsp.attained
  have hgap := signed_sub_lt ht hsp.least (hl.of c hc).2.2.2.2
  have hlow := hsp.low n (by simp)
  have hhigh := hsp.high n (by simp)
  have horder : h.signed n.low ≤ h.signed n.high := hun
  have hdvd : (2 : Int) ^ s.indexType.precision ∣ (s.span n rest).range -
      (h.signed (Switch.maxval (h := h) n.high rest) - h.signed (s.span n rest).minval) := by
    conv => rhs; lhs; rw [hsp.distance]
    exact dvd_wrap_sub
  have hrange := IntegerType.wrap_lt hsp.range
  have hzero := Int.eq_zero_of_abs_lt_dvd hdvd (by
    rw [hcmax] at hhigh ⊢
    exact abs_lt.2 ⟨by omega, by omega⟩)
  omega

theorem word_distance {a m : Int} (hle : h.signed m ≤ h.signed a)
    (hlt : h.signed a - h.signed m < 2 ^ h.bits) :
    (((a - m) % 2 ^ h.bits).toNat : Int) = h.signed a - h.signed m := by
  have hdvd : (2 : Int) ^ h.bits ∣ (a - m) - (h.signed a - h.signed m) := by
    have hsub := dvd_sub (dvd_signed_sub h m) (dvd_signed_sub h a)
    rw [show h.signed m - m - (h.signed a - a) = (a - m) - (h.signed a - h.signed m) by ring] at hsub
    exact (pow_dvd_pow 2 (by omega)).trans hsub
  have hsame : (a - m) % 2 ^ h.bits = (h.signed a - h.signed m) % 2 ^ h.bits :=
    wrap_eq_of_dvd (u := true) hdvd
  rw [hsame, emod_eq_self_iff.2 ⟨by omega, hlt⟩]
  exact Int.toNat_of_nonneg (by omega)

theorem Switch.tableLabel_eq {s : Switch h L} {span : Switch.Span} {vec : List (Option L)}
    {index : Int} (h0 : 0 ≤ span.range) (hlt : span.range < 2 ^ s.nominalMode) {i : Nat}
    (hi : (BitVec.ofInt s.nominalMode
      (s.nominalType.wrap (s.indexType.wrap (index - span.minval)))).toNat = i) :
    s.tableLabel span vec index =
      if span.range < i then s.defaultLabel else ((vec[i]?).join).getD s.defaultLabel := by
  have hrange : ((BitVec.ofInt s.nominalMode span.range).toNat : Int) = span.range := by
    rw [BitVec.toNat_ofInt]
    push_cast
    rw [emod_eq_self_iff.2 ⟨h0, hlt⟩]
    exact Int.toNat_of_nonneg h0
  unfold Switch.tableLabel
  simp only [BitVec.ult, hi, decide_eq_true_eq]
  congr 1
  exact propext (by omega)

/-- The table sends every index where the list does, when no range is out of order. -/
theorem Listed.tableLabel_place (hl : Listed s (n :: rest)) (hun : ∀ c ∈ n :: rest, c.Unwrapped h)
    (htaken : Switch.tableTaken (h := h) (n :: rest) (s.span n rest) = true) :
    ∃ vec, Switch.labelvec (h := h) (s.span n rest) (n :: rest) = some vec ∧
      ∀ index, s.indexType.Has index →
        s.insns.place (s.tableLabel (s.span n rest) vec index) =
          s.insns.place (s.label index) := by
  have ht := s.widens.2.trans s.words
  have hsp := hl.spanned
  obtain ⟨hrange, hnonneg, hword⟩ := hsp.range_eq hl (hun n (by simp)) htaken
  have hncases : (s.span n rest).ncases = (s.span n rest).range.toNat + 1 := by
    rw [← emod_eq_self_iff.2 ⟨hnonneg, hword⟩]
    rfl
  have horder : ∀ c ∈ n :: rest, h.signed c.low ≤ h.signed c.high := hun
  have hlow := hsp.low
  have hhigh := hsp.high
  generalize hspan : s.span n rest = sp at *
  -- the places of the nodes, as integers
  have hfirst : ∀ c ∈ n :: rest, (((c.low - sp.minval) % 2 ^ h.bits).toNat : Int) =
      h.signed c.low - h.signed sp.minval := by
    intro c hc
    have := hlow c hc
    have := hhigh c hc
    have := horder c hc
    exact word_distance (by omega) (by omega)
  have hextent : ∀ c ∈ n :: rest, (((c.high - c.low) % 2 ^ h.bits).toNat : Int) =
      h.signed c.high - h.signed c.low := by
    intro c hc
    have := hlow c hc
    have := hhigh c hc
    have := horder c hc
    exact word_distance (by omega) (by omega)
  obtain ⟨vec, hvec, hlen, hentries⟩ := enterLabels_spec
    (fun c : CaseNode L => ((c.low - sp.minval) % 2 ^ h.bits).toNat)
    (fun c => ((c.high - c.low) % 2 ^ h.bits).toNat) (n :: rest) (List.replicate sp.ncases none) (by
      intro c hc
      have := hfirst c hc
      have := hextent c hc
      have := hhigh c hc
      rw [List.length_replicate]
      omega)
  refine ⟨vec, hvec, fun index hindex => ?_⟩
  have hcovers : ∀ c ∈ n :: rest, c.Holds index ↔
      h.signed c.low ≤ h.signed index ∧ h.signed index ≤ h.signed c.high := by
    intro c hc
    obtain ⟨hle, hclow, hchigh⟩ := hl.of c hc
    exact between_signed ht hclow.2.2 hchigh.2.2 hindex.2.2 hle (horder c hc)
  have hmodes := (s.widens.2.trans s.modes.2)
  obtain ⟨d, hd, hdmax⟩ := hsp.attained
  have hgap := signed_sub_lt ht hindex.2.2 (hl.of d hd).2.2.2.2
  obtain ⟨hwithin, hplace⟩ := tableIndex_spec ht s.widens.2 s.widens.1 hmodes
    (hspan ▸ hsp.least) hindex.2.2 (hspan ▸ hsp.range) (by rw [hdmax] at hrange; omega)
  generalize hi : (BitVec.ofInt s.nominalMode
    (s.nominalType.wrap (s.indexType.wrap (index - sp.minval)))).toNat = i at hwithin hplace
  have hsize : sp.range < 2 ^ s.nominalMode := by
    have hlt := IntegerType.wrap_lt (hspan ▸ hsp.range)
    exact hlt.trans_le (two_pow_le hmodes)
  rw [Switch.tableLabel_eq hnonneg hsize hi]
  split
  · next hbeyond =>
    refine hl.place_eq (fun c hc hold => ?_) fun _ => rfl
    have hin := (hcovers c hc).1 hold
    have := hlow c hc
    have := hhigh c hc
    exact absurd (hwithin.2 (by omega)) (by omega)
  · next hin =>
    have hi' := hplace (not_lt.1 hin)
    have hcovers' : ∀ c ∈ n :: rest, c.Holds index ↔
        ((c.low - sp.minval) % 2 ^ h.bits).toNat ≤ i ∧
          i ≤ ((c.low - sp.minval) % 2 ^ h.bits).toNat + ((c.high - c.low) % 2 ^ h.bits).toNat := by
      intro c hc
      have := hfirst c hc
      have := hextent c hc
      rw [hcovers c hc]
      omega
    refine hl.place_eq (fun c hc hold => ?_) fun hnone => ?_
    · rw [(hentries i).1 c hc ((hcovers' c hc).1 hold) fun c' hc' hcov =>
        hl.sorted.eq_of_holds hc hc' hold ((hcovers' c' hc').2 hcov)]
      rfl
    · rw [(hentries i).2 fun c hc hcov => hnone c hc ((hcovers' c hc).2 hcov)]
      cases hr : (List.replicate sp.ncases (none : Option L))[i]? with
      | none => rfl
      | some o =>
        rw [List.eq_of_mem_replicate (List.mem_of_getElem? hr)]
        rfl

/-- Where a range straddles the sign bit, no value is greater than its low end when seen as
signed. -/
theorem Listed.high_lt (hl : Listed s list) {c d : CaseNode L} (hc : c ∈ list) (hd : d ∈ list)
    (hst : ¬ c.Unwrapped h) : h.signed d.high < h.signed c.low := by
  have hst' : h.signed c.high < h.signed c.low := not_le.1 hst
  obtain ⟨hcle, hclow, hchigh⟩ := hl.of c hc
  obtain ⟨hdle, hdlow, hdhigh⟩ := hl.of d hd
  have hbound := signed_bounds h c.low
  have hbound' := signed_bounds h c.high
  have hboundd := signed_bounds h d.high
  obtain hsame | ⟨-, hmove⟩ := signed_cases (t := s.indexType) (s.widens.2.trans s.words)
  · rw [hsame _ hclow.2.2, hsame _ hchigh.2.2] at hst'
    omega
  · have hml := hmove _ hclow.2.2
    have hmh := hmove _ hchigh.2.2
    have hmd := hmove _ hdhigh.2.2
    obtain hlt | hlt : d.high < c.low ∨ c.low ≤ d.high := lt_or_ge _ _
    · omega
    · have hge : c.high ≤ d.high := by
        by_contra hlt'
        have hold : c.Holds d.high := ⟨hlt, (not_le.1 hlt').le⟩
        have := hl.sorted.eq_of_holds hc hd hold ⟨hdle, le_rfl⟩
        rw [this] at hlt'
        exact hlt' le_rfl
      omega

theorem Listed.eq_singleton (hl : Listed s (n :: rest)) (hst : ∀ c ∈ n :: rest, ¬ c.Unwrapped h) :
    rest = [] := by
  cases rest with
  | nil => rfl
  | cons d rest =>
    exfalso
    have hlt := (List.pairwise_cons.1 hl.sorted).1 d (by simp)
    have hn : h.signed n.high < h.signed n.low := not_le.1 (hst n (by simp))
    have hd : h.signed d.high < h.signed d.low := not_le.1 (hst d (by simp))
    obtain ⟨hnle, hnlow, hnhigh⟩ := hl.of n (by simp)
    obtain ⟨hdle, hdlow, hdhigh⟩ := hl.of d (by simp)
    obtain hsame | ⟨-, hmove⟩ := signed_cases (t := s.indexType) (s.widens.2.trans s.words)
    · rw [hsame _ hnlow.2.2, hsame _ hnhigh.2.2] at hn
      omega
    · have := hmove _ hnlow.2.2
      have := hmove _ hnhigh.2.2
      have := hmove _ hdlow.2.2
      have := hmove _ hdhigh.2.2
      have := signed_bounds h d.low
      have := signed_bounds h n.high
      omega

theorem count_pos (c : CaseNode L) (cs : List (CaseNode L)) :
    Switch.count (c :: cs) ≤ 2 + Switch.count cs := by
  simp only [Switch.count, List.map_cons, List.sum_cons]
  split <;> omega

/-- The low end of a range that straddles the sign bit is beyond the table. -/
theorem Listed.straddler_default (hl : Listed s (n :: rest)) {c : CaseNode L}
    (hc : c ∈ n :: rest) (hst : ¬ c.Unwrapped h)
    (htaken : Switch.tableTaken (h := h) (n :: rest) (s.span n rest) = true)
    (vec : List (Option L)) : s.tableLabel (s.span n rest) vec c.low = s.defaultLabel := by
  have ht := s.widens.2.trans s.words
  have hsp := hl.spanned
  have hmodes := s.widens.2.trans s.modes.2
  simp only [Switch.tableTaken, Bool.and_eq_true, Bool.not_eq_true', decide_eq_true_eq] at htaken
  obtain ⟨hnonneg, -⟩ := Host.lt_of_not_highSet ht hsp.range htaken.1.1
  have hlt := IntegerType.wrap_lt hsp.range
  have hclow := (hl.of c hc).2.1.2.2
  have hlow := hsp.low c hc
  obtain ⟨d, hd, hdmax⟩ := hsp.attained
  have hbelow : h.signed (Switch.maxval (h := h) n.high rest) < h.signed c.low := by
    rw [hdmax]
    exact hl.high_lt hc hd hst
  have hover : (s.span n rest).range < h.signed c.low - h.signed (s.span n rest).minval := by
    by_contra hin
    have hgap := signed_sub_lt ht hsp.least hclow
    by_cases horder : h.signed (s.span n rest).minval ≤
        h.signed (Switch.maxval (h := h) n.high rest)
    · -- the span is the distance
      have hself : s.indexType.wrap (h.signed (Switch.maxval (h := h) n.high rest) -
          h.signed (s.span n rest).minval) = h.signed (Switch.maxval (h := h) n.high rest) -
            h.signed (s.span n rest).minval :=
        wrap_eq_self_convex s.indexType.wrap_zero hsp.range (by omega) (by omega)
      have := hsp.distance
      omega
    · -- every range straddles it, and there is only one
      have hall : ∀ e ∈ n :: rest, ¬ e.Unwrapped h := by
        intro e he hun
        have := hsp.low e he
        have := hsp.high e he
        exact horder (by unfold CaseNode.Unwrapped at hun; exact this.trans' (hun.trans' ‹_›))
      have hcount := count_pos n rest
      rw [hl.eq_singleton hall] at hcount htaken
      simp only [Switch.count, List.map_nil, List.sum_nil] at hcount
      have := htaken.1.2
      simp only [Switch.count] at this
      omega
  obtain ⟨hwithin, -⟩ := tableIndex_spec ht s.widens.2 s.widens.1 hmodes hsp.least hclow hsp.range
    (by omega)
  rw [Switch.tableLabel_eq hnonneg (hlt.trans_le (two_pow_le hmodes)) rfl, if_pos]
  by_contra hle
  have := (hwithin.1 (not_lt.1 hle)).2
  omega

/-- Where no case goes to the default label's place, the table is right exactly when no range is
out of order. -/
theorem Listed.table_iff (hl : Listed s (n :: rest))
    (htaken : Switch.tableTaken (h := h) (n :: rest) (s.span n rest) = true)
    (hplaces : ∀ c ∈ s.cases, s.insns.place c.codeLabel ≠ s.insns.place s.defaultLabel) :
    (∃ vec, Switch.labelvec (h := h) (s.span n rest) (n :: rest) = some vec ∧
      ∀ index, s.indexType.Has index →
        s.insns.place (s.tableLabel (s.span n rest) vec index) = s.insns.place (s.label index)) ↔
      ∀ c ∈ n :: rest, c.Unwrapped h := by
  refine ⟨?_, fun hun => hl.tableLabel_place hun htaken⟩
  rintro ⟨vec, -, hall⟩ c hc
  by_contra hst
  obtain ⟨hle, hclow, -⟩ := hl.of c hc
  have hplace := hall c.low hclow
  rw [hl.straddler_default hc hst htaken] at hplace
  obtain ⟨d, hd, hold, hdplace⟩ :=
    (hl.goesTo c.low _).1 ⟨c, hc, ⟨le_rfl, hle⟩, rfl⟩
  unfold Switch.label at hplace
  split at hplace
  · next e hfind => exact hplaces e (List.mem_of_find?_eq_some hfind) hplace.symm
  · next hfind =>
    rw [List.find?_eq_none] at hfind
    exact hfind d hd (by simpa [CaseNode.Holds] using hold)

end Table

variable [DecidableEq L]

/-- Every run of the decision code ends at a label that is right for the list. -/
theorem Listed.decisionCode_leaves (hl : Listed s list)
    (hun : s.useCostTable list = true → ∀ c ∈ list, c.Unwrapped h) :
    ∃ code, s.decisionCode list = some code ∧ ∀ index, s.indexType.Has index →
      ∃ l, (caseIsa s.indexType.unsignedp s.mode).Leaves code (BitVec.ofInt s.mode index) (.code l) ∧
        s.insns.place l = s.insns.place (s.label index) := by
  unfold Switch.decisionCode
  split
  · next hnil =>
    obtain rfl := List.isEmpty_iff.1 hnil
    refine ⟨[jumpTo s.defaultLabel], rfl, fun index _ => ⟨s.defaultLabel, ?_,
      hl.place_eq (by simp) fun _ => rfl⟩⟩
    exact (Isa.leaves_iff_of_pass _ (pass_eq _) (by simp [Flow.Final, labels, jumpTo])).2
      (run_jumpTo (u := s.indexType.unsignedp))
  · have hw : Weighable h (s.useCostTable list) list := by
      cases hcost : s.useCostTable list with
      | false => exact weighable_plain list
      | true =>
        rw [Switch.useCostTable, Bool.and_eq_true] at hcost
        exact weighable_of_estimate (hun (by simp [Switch.useCostTable, hcost])) hcost.2
    obtain ⟨tree, htree, rfl⟩ := balanceCaseNodes_toList list hw
    rw [htree]
    refine ⟨_, rfl, fun index hindex => ?_⟩
    have hreaches : Reaches s.indexType [] tree index := ⟨hindex, hl.sorted, hl.of, by simp⟩
    obtain ⟨l, hrun, hroutes⟩ := routes_reachable (emitCaseNodes_routes (d := s.defaultLabel)
      s.modes.1 (s.widens.2.trans s.words) s.bounded hreaches [])
    refine ⟨l, ?_, hl.place_eq (fun c hc hold => ?_) fun hnone => ?_⟩
    · refine (Isa.leaves_iff_of_pass _ (pass_eq _) fun l' hl' => ?_).2 hrun
      rw [hrun] at hl'
      rw [labels_emitJumpIfReachable, ← Option.some.inj hl']
      exact code_not_mem_labels tree [] [] l
    · exact Target.code.inj (Option.some.inj (hroutes.1 c hc hold))
    · obtain hfell | hdefault := hroutes.2 hnone
      · cases hfell
      · exact Target.code.inj (Option.some.inj hdefault)

/-- The three ways of dispatch: when each takes every index to the place of the range that holds
it, or of the default label. -/
theorem switch_dispatches (s : Switch h L) : ∃ list, s.list = some list ∧
    (∀ index, s.indexType.Has index →
      s.insns.place (s.constantLabel list index) = s.insns.place (s.label index)) ∧
    (∀ index i, s.indexType.Has index → i.bmod (2 ^ h.bits) = i →
      BitVec.ofInt s.mode i = BitVec.ofInt s.mode index →
      (s.constIntIndex i = index ↔
        ¬ (s.indexType.unsignedp = true ∧ h.bits < s.indexType.precision ∧ i < 0))) ∧
    ((s.useCostTable list = true → ∀ c ∈ list, c.Unwrapped h) →
      ∃ code, s.decisionCode list = some code ∧ ∀ index, s.indexType.Has index →
        ∃ l, (caseIsa s.indexType.unsignedp s.mode).Leaves code (BitVec.ofInt s.mode index)
            (.code l) ∧
          s.insns.place l = s.insns.place (s.label index)) ∧
    ∀ n rest, list = n :: rest → Switch.tableTaken (h := h) list (s.span n rest) = true →
      ((∀ c ∈ list, c.Unwrapped h) →
        ∃ vec, Switch.labelvec (h := h) (s.span n rest) list = some vec ∧
          ∀ index, s.indexType.Has index →
            s.insns.place (s.tableLabel (s.span n rest) vec index) =
              s.insns.place (s.label index)) ∧
      ((∀ c ∈ s.cases, s.insns.place c.codeLabel ≠ s.insns.place s.defaultLabel) →
        ((∃ vec, Switch.labelvec (h := h) (s.span n rest) list = some vec ∧
          ∀ index, s.indexType.Has index →
            s.insns.place (s.tableLabel (s.span n rest) vec index) =
              s.insns.place (s.label index)) ↔ ∀ c ∈ list, c.Unwrapped h)) := by
  obtain ⟨list, hlist, hl⟩ := s.list_listed
  refine ⟨list, hlist, fun index hindex => hl.constantLabel_place hindex,
    fun index i hindex hword hmode => s.constIntIndex_eq_iff hindex hword hmode,
    hl.decisionCode_leaves, ?_⟩
  rintro n rest rfl htaken
  exact ⟨fun hun => hl.tableLabel_place hun htaken, hl.table_iff htaken⟩

end Dispatch

section Straddling

/-- Cases that all lead to different places stay as they are. -/
theorem groupCaseNodes_eq_self {s : InsnStream L} {t : IntegerType h} {cs : List (CaseNode L)}
    (hapart : cs.Pairwise fun a b => s.samePlace a.codeLabel b.codeLabel = false) :
    groupCaseNodes s t cs = cs := by
  induction cs with
  | nil => rw [groupCaseNodes]
  | cons c cs ih =>
    obtain ⟨hc, hcs⟩ := List.pairwise_cons.1 hapart
    have hfirst : groupWith s t c cs = (c, cs) := by
      cases cs with
      | nil => rfl
      | cons d cs => simp [groupWith, hc d (by simp)]
    rw [groupCaseNodes, hfirst, ih hcs]

def doubleWordType : IntegerType host32 := ⟨64, true, 0, some (2 ^ 64 - 1)⟩

def straddlingCases : List (CaseNode Nat) :=
  [⟨2 ^ 63 - 1, 2 ^ 63 + 1, 1⟩, ⟨2 ^ 63 + 3, 2 ^ 63 + 3, 2⟩, ⟨2 ^ 63 + 5, 2 ^ 63 + 5, 3⟩,
    ⟨2 ^ 63 + 7, 2 ^ 63 + 7, 4⟩]

/-- Four cases, the first of which straddles the sign bit; every label has its own insn. -/
def straddling : Switch host32 Nat where
  indexType := doubleWordType
  nominalType := doubleWordType
  mode := 64
  nominalMode := 64
  cases := straddlingCases
  defaultLabel := 0
  insns := ⟨Nat, Nat, some, fun _ => none⟩
  enumeral := false
  pos := by decide
  widens := by decide
  words := by decide
  bounded := by decide
  modes := by decide
  ranges := by simp [straddlingCases, doubleWordType, IntegerType.Has, IntegerType.wrap]
  disjoint := by decide

/-- The dispatch table of the four cases would have five places, and the first label is entered
four places before it. -/
theorem straddling_table_wrong : ∃ n rest, straddling.list = some (n :: rest) ∧
    Switch.tableTaken (h := host32) (n :: rest) (straddling.span n rest) = true ∧
    ¬ ∃ vec, Switch.labelvec (h := host32) (straddling.span n rest) (n :: rest) = some vec ∧
      ∀ index, straddling.indexType.Has index →
        straddling.insns.place (straddling.tableLabel (straddling.span n rest) vec index) =
          straddling.insns.place (straddling.label index) := by
  refine ⟨⟨2 ^ 63 - 1, 2 ^ 63 + 1, 1⟩, straddlingCases.tail, ?_, by decide, ?_⟩
  · have hcollect : (addCaseNodes straddling.nominalType straddling.cases).toOption.map caseList =
        some straddlingCases := by decide
    have hgroup : groupCaseNodes straddling.insns straddling.nominalType straddlingCases =
        straddlingCases := groupCaseNodes_eq_self (by decide)
    rw [Switch.list]
    obtain ⟨tree, htree, hlist⟩ := Option.map_eq_some_iff.1 hcollect
    rw [htree, Option.map_some, hlist, hgroup]
    decide
  · rintro ⟨vec, hvec, -⟩
    have hnone : Switch.labelvec (h := host32)
        (straddling.span ⟨2 ^ 63 - 1, 2 ^ 63 + 1, 1⟩ straddlingCases.tail)
        (⟨2 ^ 63 - 1, 2 ^ 63 + 1, 1⟩ :: straddlingCases.tail) = none := by decide
    rw [hnone] at hvec
    cases hvec

end Straddling

end Z80Gcc
