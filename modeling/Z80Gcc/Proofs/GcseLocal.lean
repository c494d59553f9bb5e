import Z80Gcc.Proofs.GcseTable

/-! The hash table and the local properties: the occurrences in the table compute their expressions, and the bitmaps say
where they are. -/

namespace Z80Gcc.Gcse

open SimpleBitmap FlowGraph Lcm

section Table

variable {m : Nat} {t : Target} {prog : Program m} {hashExpr : Rtx → MachineMode → Nat}

theorem mem_recordAntic {o o' : Occr m} {occrs : List (Occr m)} (h : o' ∈ recordAntic o occrs) : o' ∈ occrs ∨ o' = o := by
  induction occrs with
  | nil => exact .inr (List.mem_singleton.1 h)
  | cons occr rest ih =>
    rw [recordAntic] at h
    split_ifs at h
    · exact .inl h
    · rcases List.mem_cons.1 h with rfl | h
      · exact .inl List.mem_cons_self
      · exact (ih h).imp_left (List.mem_cons_of_mem occr)

theorem mem_recordAntic_of_mem {o o' : Occr m} {occrs : List (Occr m)} (h : o' ∈ occrs) : o' ∈ recordAntic o occrs := by
  induction occrs with
  | nil => exact absurd h List.not_mem_nil
  | cons occr rest ih =>
    rw [recordAntic]
    split_ifs
    · exact h
    · rcases List.mem_cons.1 h with rfl | h
      · exact List.mem_cons_self
      · exact List.mem_cons_of_mem occr (ih h)

theorem exists_recordAntic (o : Occr m) (occrs : List (Occr m)) : ∃ o' ∈ recordAntic o occrs, o'.bb = o.bb := by
  induction occrs with
  | nil => exact ⟨o, List.mem_singleton.2 rfl, rfl⟩
  | cons occr rest ih =>
    rw [recordAntic]
    split_ifs with hbb
    · exact ⟨occr, List.mem_cons_self, hbb⟩
    · obtain ⟨o', hmem, hbb⟩ := ih
      exact ⟨o', List.mem_cons_of_mem occr hmem, hbb⟩

theorem mem_recordAvail {o o' : Occr m} {occrs : List (Occr m)} (h : o' ∈ recordAvail o occrs) : o' ∈ occrs ∨ o' = o := by
  induction occrs with
  | nil => exact .inr (List.mem_singleton.1 h)
  | cons occr rest ih =>
    rw [recordAvail] at h
    split_ifs at h
    · rcases List.mem_cons.1 h with rfl | h
      · exact .inr rfl
      · exact .inl (List.mem_cons_of_mem occr h)
    · rcases List.mem_cons.1 h with rfl | h
      · exact .inl List.mem_cons_self
      · exact (ih h).imp_left (List.mem_cons_of_mem occr)

/-- An insn that sets a pseudo register to an expression that can be recorded. -/
structure Computes (t : Target) (prog : Program m) (o : Occr m) (mode : MachineMode) (regno : Nat) (src : Rtx) : Prop where
  insn : ∃ insn, (prog o.bb)[o.cuid]? = some insn ∧ insn.pattern = .single (.set (.reg mode regno) src)
  pseudo : t.firstPseudoRegister ≤ regno
  recorded : doNotRecord src = false

/-- What the entries of the table are: an expression that is computed somewhere; occurrences that compute it, before
which nothing that it is made of is set in their blocks; and occurrences such that, if their block leaves the expression
as it is, there is one of the others there. -/
structure Entry (t : Target) (prog : Program m) (e : Expr m) : Prop where
  source : ∃ o mode regno, Computes t prog o mode regno e.expr
  antic : ∀ o ∈ e.anticOccr, ∃ mode regno src, Computes t prog o mode regno src ∧ Alike e.expr src ∧
    Unset t ((prog o.bb).take o.cuid) e.expr
  avail : ∀ o ∈ e.availOccr, Unset t (prog o.bb) e.expr → ∃ o' ∈ e.anticOccr, o'.bb = o.bb

theorem Entry.record {e : Expr m} (h : Entry t prog e) {o : Occr m} {mode : MachineMode} {regno : Nat} {src : Rtx}
    (hsrc : Computes t prog o mode regno src) (halike : Alike e.expr src) (availP : Bool) :
    Entry t prog (e.record o (oprsUnchangedP (setInfo t (prog o.bb)) o.cuid false src) availP) := by
  have hantic := @anticipatable_iff t (prog o.bb) src o.cuid hsrc.recorded
  refine ⟨h.source, fun o' ho' => ?_, fun o' ho' hunset => ?_⟩
  · simp only [Expr.record] at ho'
    split_ifs at ho' with hp
    · rcases mem_recordAntic ho' with ho' | rfl
      · exact h.antic o' ho'
      · exact ⟨mode, regno, src, hsrc, halike, halike.symm.unset (hantic.1 hp)⟩
    · exact h.antic o' ho'
  · have hold : o' ∈ e.availOccr → ∃ o'' ∈ (e.record o (oprsUnchangedP (setInfo t (prog o.bb)) o.cuid false src)
        availP).anticOccr, o''.bb = o'.bb := by
      intro ho'
      obtain ⟨o'', hmem, hbb⟩ := h.avail o' ho' hunset
      refine ⟨o'', ?_, hbb⟩
      simp only [Expr.record]
      split_ifs
      · exact mem_recordAntic_of_mem hmem
      · exact hmem
    simp only [Expr.record] at ho'
    split_ifs at ho'
    · rcases mem_recordAvail ho' with ho' | rfl
      · exact hold ho'
      · -- nothing is set in the block, so not before this insn either
        have hp := hantic.2 ((halike.unset hunset).of_subset (List.take_subset ..))
        simp only [Expr.record, hp, if_true]
        exact exists_recordAntic o' e.anticOccr
    · exact hold ho'

theorem insertExpr_entry {table : List (Expr m)} (h : ∀ e ∈ table, Entry t prog e) {o : Occr m} {mode : MachineMode}
    {regno : Nat} {src : Rtx} (hsrc : Computes t prog o mode regno src) (hash : Nat) (availP : Bool) :
    ∀ e ∈ insertExpr src hash o (oprsUnchangedP (setInfo t (prog o.bb)) o.cuid false src) availP table,
      Entry t prog e := by
  induction table with
  | nil =>
    rw [insertExpr, List.forall_mem_singleton]
    have hnew : Entry t prog ⟨src, hash, [], []⟩ :=
      ⟨⟨o, mode, regno, hsrc⟩, fun o' ho' => absurd ho' List.not_mem_nil, fun o' ho' => absurd ho' List.not_mem_nil⟩
    exact hnew.record hsrc (Alike.refl src) availP
  | cons curExpr rest ih =>
    obtain ⟨hcur, hrest⟩ := List.forall_mem_cons.1 h
    rw [insertExpr]
    split_ifs with hequiv
    · exact List.forall_mem_cons.2 ⟨hcur.record hsrc (alike_of_equiv _ _ hequiv.2) availP, hrest⟩
    · exact List.forall_mem_cons.2 ⟨hcur, ih hrest⟩

theorem hashScanInsn_entry {table : List (Expr m)} (h : ∀ e ∈ table, Entry t prog e) {o : Occr m} {insn : Insn}
    (hinsn : (prog o.bb)[o.cuid]? = some insn) (inLibcallBlock : Bool) :
    ∀ e ∈ hashScanInsn t hashExpr (setInfo t (prog o.bb)) o insn inLibcallBlock table, Entry t prog e := by
  rw [hashScanInsn]
  rcases hset : insn.pattern.set? with - | ⟨dest, src⟩
  · exact h
  · rw [Option.elim_some]
    split_ifs
    · exact h
    · have hpattern : insn.pattern = .single (.set dest src) := by
        cases hp : insn.pattern with
        | parallel xs => simp [hp, Pattern.set?] at hset
        | single x =>
          cases x <;> simp_all [Pattern.set?]
      cases dest with
      | reg mode regno =>
        rw [hashScanSet]
        split_ifs with hwant
        · rw [insertExprInTable]
          split_ifs with hrec
          · exact h
          · exact insertExpr_entry h ⟨⟨insn, hinsn, hpattern⟩, hwant.1, Bool.eq_false_iff.2 hrec⟩ _ _
        · exact h
      | _ => exact h

theorem scanBlock_entry {table : List (Expr m)} (h : ∀ e ∈ table, Entry t prog e) (bb : Fin (m + 1)) :
    ∀ e ∈ scanBlock t hashExpr prog table bb, Entry t prog e := by
  rw [scanBlock]
  have hinsns : ∀ insn ∈ (prog bb).zipIdx, (prog bb)[insn.2]? = some insn.1 := fun _ => List.mem_zipIdx_iff_getElem?.1
  generalize (prog bb).zipIdx = insns at hinsns
  have hstate : ∀ e ∈ ((table, false) : List (Expr m) × Bool).1, Entry t prog e := h
  generalize ((table, false) : List (Expr m) × Bool) = state at hstate
  induction insns generalizing state with
  | nil => exact hstate
  | cons insn insns ih =>
    obtain ⟨hinsn, hrest⟩ := List.forall_mem_cons.1 hinsns
    exact ih hrest _ (hashScanInsn_entry (o := ⟨bb, insn.2⟩) hstate hinsn _)

theorem computeExprHashTable_entry : ∀ e ∈ computeExprHashTable t hashExpr prog, Entry t prog e := by
  rw [computeExprHashTable]
  have hnil : ∀ e ∈ ([] : List (Expr m)), Entry t prog e := fun e he => absurd he List.not_mem_nil
  generalize ([] : List (Expr m)) = table at hnil
  induction List.finRange (m + 1) generalizing table with
  | nil => exact hnil
  | cons bb bbs ih => exact ih _ (scanBlock_entry hnil bb)

end Table

section Bits

variable {m w nExprs : Nat} [NeZero w]

theorem testBit_setBit_inSize {indx : Nat} (hindx : InSize w nExprs indx) (s : Sbitmap w nExprs) (i : Nat) :
    testBit (setBit s indx) i = true ↔ testBit s i = true ∨ indx = i := by
  by_cases h : InSize w nExprs i
  · rw [testBit_setBit h, Bool.or_eq_true, decide_eq_true_iff, or_comm, @eq_comm _ i]
  · have hne : indx ≠ i := fun heq => h (heq ▸ hindx)
    rw [testBit_outside h, testBit_outside h]
    exact (or_iff_left hne).symm

theorem testBit_setOccr {indx : Nat} (hindx : InSize w nExprs indx) (occr : List (Occr m)) (bmap : Vec m w nExprs)
    (bb : Fin (m + 1)) (i : Nat) : testBit (setOccr occr indx bmap bb) i = true ↔
      testBit (bmap bb) i = true ∨ indx = i ∧ ∃ o ∈ occr, o.bb = bb := by
  induction occr generalizing bmap with
  | nil => simp [setOccr]
  | cons o occr ih =>
    have hstep : testBit (Function.update bmap o.bb (setBit (bmap o.bb) indx) bb) i = true ↔
        testBit (bmap bb) i = true ∨ indx = i ∧ o.bb = bb := by
      by_cases hbb : o.bb = bb
      · subst hbb
        rw [Function.update_self, testBit_setBit_inSize hindx, and_iff_left rfl]
      · rw [Function.update_of_ne (Ne.symm hbb)]
        exact (or_iff_left fun h => hbb h.2).symm
    rw [List.exists_mem_cons_iff, and_or_left, ← or_assoc, ← hstep]
    exact ih _

variable (t : Target) (prog : Program m) {es : List (Expr m × Nat)}

theorem foldl_setOccr (vec : Props m w nExprs → Vec m w nExprs) (occr : Expr m → List (Occr m))
    (hvec : ∀ p e, vec (localExpr t prog p e) = setOccr (occr e.1) e.2 (vec p)) (hes : ∀ e ∈ es, InSize w nExprs e.2)
    (p : Props m w nExprs) (bb : Fin (m + 1)) (i : Nat) :
    testBit (vec (es.foldl (localExpr t prog) p) bb) i = true ↔
      testBit (vec p bb) i = true ∨ ∃ e ∈ es, e.2 = i ∧ ∃ o ∈ occr e.1, o.bb = bb := by
  induction es generalizing p with
  | nil => simp
  | cons e es ih =>
    obtain ⟨he, hes⟩ := List.forall_mem_cons.1 hes
    rw [List.foldl_cons, ih hes, List.exists_mem_cons_iff, ← or_assoc, hvec]
    exact or_congr_left (testBit_setOccr he (occr e.1) (vec p) bb i)

theorem testBit_transp (x : Rtx) (indx : Nat) (bmap : Vec m w nExprs) (bb : Fin (m + 1)) (i : Nat) :
    testBit (computeTransp t prog x indx bmap bb) i = true ↔
      testBit (bmap bb) i = true ∧ (indx = i → altered t prog bb x = false) := by
  rw [computeTransp]
  split_ifs with halt
  · rw [testBit_resetBit, halt]
    simp
    tauto
  · simp [halt]

theorem foldl_transp (p : Props m w nExprs) (bb : Fin (m + 1)) (i : Nat) :
    testBit ((es.foldl (localExpr t prog) p).transp bb) i = true ↔
      testBit (p.transp bb) i = true ∧ ∀ e ∈ es, e.2 = i → altered t prog bb e.1.expr = false := by
  induction es generalizing p with
  | nil => simp
  | cons e es ih =>
    rw [List.foldl_cons, ih, List.forall_mem_cons, ← and_assoc]
    exact and_congr_left' (testBit_transp t prog e.1.expr e.2 p.transp bb i)

variable (table : List (Expr m)) {bb : Fin (m + 1)} {i : Nat}

theorem inSize_of_mem : ∀ e ∈ table.zipIdx, InSize w table.length e.2 := fun _ he =>
  inSize_of_lt (List.getElem?_eq_some_iff.1 (List.mem_zipIdx_iff_getElem?.1 he)).1

theorem exists_zipIdx {P : Expr m → Prop} :
    (∃ e ∈ table.zipIdx, e.2 = i ∧ P e.1) ↔ ∃ e, table[i]? = some e ∧ P e :=
  ⟨fun ⟨e, he, hi, hP⟩ => ⟨e.1, hi ▸ List.mem_zipIdx_iff_getElem?.1 he, hP⟩,
    fun ⟨e, he, hP⟩ => ⟨(e, i), List.mem_zipIdx_iff_getElem?.2 he, rfl, hP⟩⟩

/-- The bits of `antloc` are the occurrences in `antic_occr`. -/
theorem antloc_iff : testBit ((computeLocalProperties t prog table : Props m w table.length).antloc bb) i =
    true ↔ ∃ e, table[i]? = some e ∧ ∃ o ∈ e.anticOccr, o.bb = bb := by
  rw [computeLocalProperties, foldl_setOccr t prog Props.antloc Expr.anticOccr (fun _ _ => rfl) (inSize_of_mem table),
    testBit_zero, exists_zipIdx (P := fun e => ∃ o ∈ e.anticOccr, o.bb = bb)]
  exact or_iff_right Bool.false_ne_true

/-- The bits of `comp` are the occurrences in `avail_occr`. -/
theorem comp_iff : testBit ((computeLocalProperties t prog table : Props m w table.length).comp bb) i =
    true ↔ ∃ e, table[i]? = some e ∧ ∃ o ∈ e.availOccr, o.bb = bb := by
  rw [computeLocalProperties, foldl_setOccr t prog Props.comp Expr.availOccr (fun _ _ => rfl) (inSize_of_mem table),
    testBit_zero, exists_zipIdx (P := fun e => ∃ o ∈ e.availOccr, o.bb = bb)]
  exact or_iff_right Bool.false_ne_true

/-- The bit of an expression in `transp` says that its block sets nothing that it is made of. -/
theorem transp_iff {e : Expr m} (he : table[i]? = some e) :
    testBit ((computeLocalProperties t prog table : Props m w table.length).transp bb) i = true ↔
      Unset t (prog bb) e.expr := by
  have hi : (e, i) ∈ table.zipIdx := List.mem_zipIdx_iff_getElem?.2 he
  rw [computeLocalProperties, foldl_transp, testBit_ones (inSize_of_mem table _ hi), ← transparent_iff]
  refine (and_iff_right rfl).trans ⟨fun h => h _ hi rfl, fun h e' he' hi' => ?_⟩
  rw [List.mem_zipIdx_iff_getElem?, hi', he] at he'
  rwa [← Option.some.inj he']

/-- A block that computes an expression and leaves it as it is has an occurrence in `antic_occr`. -/
theorem antloc_of_comp (htable : ∀ e ∈ table, Entry t prog e)
    (hcomp : testBit ((computeLocalProperties t prog table : Props m w table.length).comp bb) i = true)
    (htransp : testBit ((computeLocalProperties t prog table : Props m w table.length).transp bb) i = true) :
    testBit ((computeLocalProperties t prog table : Props m w table.length).antloc bb) i = true := by
  obtain ⟨e, he, o, ho, rfl⟩ := (comp_iff t prog table).1 hcomp
  have hunset := (transp_iff t prog table he).1 htransp
  exact (antloc_iff t prog table).2 ⟨e, he, (htable e (List.mem_of_getElem? he)).avail o ho hunset⟩

end Bits

end Z80Gcc.Gcse
