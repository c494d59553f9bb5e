import Z80Gcc.Proofs.GcseLocal

/-! One pass of the elimination of partial redundancies keeps the meaning of a function: from the same state the insns
after the pass do on every way through the blocks what those before it do, but for the new registers. -/

namespace Z80Gcc.Gcse

open SimpleBitmap FlowGraph Lcm

variable {m w : Nat} {t : Target} {prog : Program m} {table : List (Expr m)} {genReg : Nat → Nat} {n : Nat}

section Registers

theorem noteDest_subreg (mode : MachineMode) (word : Nat) (x : Rtx) :
    (∃ mode' regno, x = .reg mode' regno) ∨ noteDest t (.subreg mode word x) = noteDest t x := by
  cases x with
  | reg mode' regno => exact .inl ⟨mode', regno, rfl⟩
  | _ => exact .inr rfl

theorem noteDest_regnos {x : Rtx} {regno : Nat} (h : regno ∈ (noteDest t x).regnos) : regno ∈ x.regnos := by
  cases x with
  | subreg mode word x =>
    rcases noteDest_subreg (t := t) mode word x with ⟨mode', r, rfl⟩ | hx
    · rw [noteDest] at h
      split_ifs at h
      · exact h
      · exact h
    · rw [hx] at h
      exact (noteDest_regnos h : regno ∈ x.regnos)
  | part code mode x xs => exact List.mem_append_left _ (noteDest_regnos h)
  | _ => exact h

theorem recordedReg_regnos {x : Rtx} {regno : Nat} (h : recordedReg x = some regno) : regno ∈ x.regnos := by
  cases x with
  | reg mode r => exact List.mem_singleton.2 (Option.some.inj h).symm
  | subreg mode word x =>
    cases x with
    | reg mode r => exact List.mem_singleton.2 (Option.some.inj h).symm
    | _ => simp [recordedReg] at h
  | _ => simp [recordedReg] at h

theorem elementDest_regnos {x dest : Rtx} {regno : Nat} (hdest : dest ∈ elementDest x) (h : regno ∈ dest.regnos) :
    regno ∈ x.regnos := by
  cases x with
  | op code mode volatil fields xs =>
    cases xs with
    | nil => exact absurd hdest List.not_mem_nil
    | cons x xs =>
      obtain rfl := List.mem_singleton.1 hdest
      exact List.mem_append_left _ h
  | _ => exact absurd hdest List.not_mem_nil

theorem elementDests_regnos {xs : Operands} {dest : Rtx} {regno : Nat} (hdest : dest ∈ elementDests xs)
    (h : regno ∈ dest.regnos) : regno ∈ xs.regnos := by
  cases xs with
  | nil => exact absurd hdest List.not_mem_nil
  | cons x xs =>
    rcases List.mem_append.1 hdest with hdest | hdest
    · exact List.mem_append_right _ (elementDests_regnos hdest h)
    · exact List.mem_append_left _ (elementDest_regnos hdest h)

theorem blockDests_regnos {x dest : Rtx} {regno : Nat} (hdest : dest ∈ blockDests x) (h : regno ∈ dest.regnos) :
    regno ∈ x.regnos := by
  cases x with
  | op code mode volatil fields xs =>
    rw [blockDests] at hdest
    split_ifs at hdest
    · exact elementDests_regnos hdest h
    · obtain rfl := List.mem_singleton.1 hdest
      exact h
  | _ =>
    obtain rfl := List.mem_singleton.1 hdest
    exact h

theorem mem_regnos_of_stores {x : Effect} {regno : Nat} (h : regno ∈ (x.stores t).filterMap recordedReg) :
    regno ∈ x.regnos := by
  obtain ⟨dest, hdest, hreg⟩ := List.mem_filterMap.1 h
  have hregnos := recordedReg_regnos hreg
  cases x with
  | set d src => exact List.mem_append_left _ (noteDest_regnos (blockDests_regnos hdest hregnos))
  | clobber x => exact noteDest_regnos (blockDests_regnos hdest hregnos)
  | _ => exact absurd hdest List.not_mem_nil

theorem mem_regnos_of_noteStores {pat : Pattern} {regno : Nat} (h : regno ∈ (noteStores t pat).filterMap recordedReg) :
    regno ∈ pat.regnos := by
  cases pat with
  | single x => exact mem_regnos_of_stores h
  | parallel xs =>
    rw [noteStores, List.filterMap_flatMap, List.mem_flatMap] at h
    obtain ⟨x, hx, hreg⟩ := h
    exact List.mem_flatMap.2 ⟨x, List.mem_reverse.1 hx, mem_regnos_of_stores hreg⟩

/-- The registers of the function are below `n`, and `gen_reg_rtx` gives each expression one of its own from there. -/
structure Fresh (t : Target) (prog : Program m) (genReg : Nat → Nat) (n : Nat) : Prop where
  hard : t.firstPseudoRegister ≤ n
  used : ∀ bb, ∀ insn ∈ prog bb, ∀ regno ∈ insn.pattern.regnos, regno < n
  new : ∀ i, n ≤ genReg i
  inj : Function.Injective genReg

theorem Fresh.regsSet_lt (h : Fresh t prog genReg n) {bb : Fin (m + 1)} {insn : Insn} (hinsn : insn ∈ prog bb)
    {regno : Nat} (hset : regno ∈ regsSet t insn) : regno < n := by
  rcases List.mem_append.1 hset with hset | hset
  · split_ifs at hset
    · exact (List.mem_range.1 (List.mem_filter.1 hset).1).trans_le h.hard
    · exact absurd hset List.not_mem_nil
  · exact h.used bb insn hinsn regno (mem_regnos_of_noteStores hset)

theorem Computes.regnos_lt {o : Occr m} {mode : MachineMode} {regno : Nat} {src : Rtx}
    (h : Computes t prog o mode regno src) (hfresh : Fresh t prog genReg n) :
    regno < n ∧ ∀ r ∈ src.regnos, r < n := by
  obtain ⟨insn, hinsn, hpattern⟩ := h.insn
  have hused := hfresh.used o.bb insn (List.mem_of_getElem? hinsn)
  rw [hpattern] at hused
  exact ⟨hused regno (List.mem_append_left _ (List.mem_singleton.2 rfl)),
    fun r hr => hused r (List.mem_append_right _ hr)⟩

variable {V M : Type} {st st' : State V M}

/-- States that agree give an expression of the function the same value. -/
theorem Agree.eval {d : Interp V M} {x : Rtx} (h : Agree n st st') (hrec : doNotRecord x = false)
    (hx : ∀ regno ∈ x.regnos, regno < n) : d.eval st x = d.eval st' x :=
  eval_congr x (fun regno hreg => h.regs regno (hx regno hreg)) (fun _ => h.mem) hrec

theorem Agree.update_new {v : V} {regno : Nat} (h : Agree n st st') (hregno : n ≤ regno) :
    Agree n st { st' with regs := Function.update st'.regs regno v } := by
  refine ⟨fun r hr => ?_, h.mem, h.cc0, h.pc⟩
  exact (h.regs r hr).trans (Function.update_of_ne (Nat.ne_of_lt (hr.trans_le hregno)) ..).symm

theorem Agree.update_same {v : V} (h : Agree n st st') (regno : Nat) :
    Agree n { st with regs := Function.update st.regs regno v } { st' with regs := Function.update st'.regs regno v } := by
  refine ⟨fun r hr => ?_, h.mem, h.cc0, h.pc⟩
  by_cases hr' : r = regno
  · simp [hr']
  · simp [hr', h.regs r hr]

end Registers

section Block

variable {V M : Type} (μ : Machine t V M) {p : Local m w table.length}
  {sPreds : Fin (m + 1) → List (BlockRef (m + 1))} {redundant optimal : Vec m w table.length}
  {insertPos : Fin (m + 1) → Nat} {bb : Fin (m + 1)} {st st' : State V M}

/-- New insns set the new registers of their expressions, and nothing else. -/
theorem exec_new (redundant optimal : Vec m w table.length) (hfresh : Fresh t prog genReg n)
    (htable : ∀ e ∈ table, Entry t prog e) (is : List Nat) (hagree : Agree n st st') :
    ∃ s', μ.execInsns (is.filterMap fun i => (table[i]?).map fun e =>
        setInsn (reachingReg prog table redundant optimal genReg i) e.expr) st' = s' ∧ Agree n st s' ∧
      (∀ i ∈ is, ∀ e, table[i]? = some e → s'.regs (genReg i) = μ.eval st e.expr) ∧
      ∀ i ∉ is, s'.regs (genReg i) = st'.regs (genReg i) := by
  induction is generalizing st' with
  | nil => exact ⟨st', rfl, hagree, fun i hi => absurd hi List.not_mem_nil, fun _ _ => rfl⟩
  | cons j is ih =>
    rcases hj : table[j]? with - | e
    · obtain ⟨s', hexec, hagree', hset, hkeep⟩ := ih hagree
      refine ⟨s', ?_, hagree', fun i hi e he => ?_, fun i hi => hkeep i fun h => hi (List.mem_cons_of_mem j h)⟩
      · rw [List.filterMap_cons, hj]
        exact hexec
      · rcases List.mem_cons.1 hi with rfl | hi
        · simp [hj] at he
        · exact hset i hi e he
    · obtain ⟨o, mode, regno, hsrc⟩ := (htable e (List.mem_of_getElem? hj)).source
      have heval := hagree.eval (d := μ.toInterp) hsrc.recorded (hsrc.regnos_lt hfresh).2
      have hinsn : μ.exec (setInsn (reachingReg prog table redundant optimal genReg j) e.expr) st' =
          { st' with regs := Function.update st'.regs (genReg j) (μ.eval st' e.expr) } :=
        μ.set_eq _ _ _ _ _ rfl (hfresh.hard.trans (hfresh.new j)) hsrc.recorded
      obtain ⟨s', hexec, hagree', hset, hkeep⟩ := ih (hagree.update_new (v := μ.eval st' e.expr) (hfresh.new j))
      refine ⟨s', ?_, hagree', fun i hi e' he' => ?_, fun i hi => ?_⟩
      · rw [List.filterMap_cons, hj, Option.map_some, ← hexec, ← hinsn]
        rfl
      · by_cases his : i ∈ is
        · exact hset i his e' he'
        · obtain rfl := (List.mem_cons.1 hi).resolve_right his
          rw [hj] at he'
          rw [hkeep i his, ← Option.some.inj he', heval]
          exact Function.update_self ..
      · have hne : i ≠ j := fun h => hi (h ▸ List.mem_cons_self)
        rw [hkeep i fun h => hi (List.mem_cons_of_mem j h)]
        exact Function.update_of_ne (hfresh.inj.ne hne) ..

def Inserted (p : Local m w table.length) (sPreds : Fin (m + 1) → List (BlockRef (m + 1)))
    (redundant optimal : Vec m w table.length) (bb : Fin (m + 1)) (i : Nat) : Prop :=
  i < table.length ∧ preInsert p sPreds redundant optimal bb i = some true

/-- How far the insns after the pass have come in a block, from `st'`: to `s'`, where those before it are in `s`. `done`
says that what is inserted in the block has been run. -/
structure Sim (μ : Machine t V M) (prog : Program m) (table : List (Expr m)) (genReg : Nat → Nat) (n : Nat)
    (inserted : Nat → Prop) (bb : Fin (m + 1)) (done : Prop) (st' s s' : State V M) : Prop where
  agree : Agree n s s'
  load : done → ∀ i, inserted i → ∀ e, table[i]? = some e → Unset t (prog bb) e.expr →
    s'.regs (genReg i) = μ.eval s e.expr
  frame : ∀ i, ¬(done ∧ inserted i) → s'.regs (genReg i) = st'.regs (genReg i)

variable {μ} {inserted : Nat → Prop} {done : Prop} {s s' : State V M}

theorem Sim.insert (h : Sim μ prog table genReg n (Inserted p sPreds redundant optimal bb) bb done st' s s')
    (hdone : ¬done) (hfresh : Fresh t prog genReg n) (htable : ∀ e ∈ table, Entry t prog e) :
    Sim μ prog table genReg n (Inserted p sPreds redundant optimal bb) bb True st' s
      (μ.execInsns (insertedInsns prog table p sPreds redundant optimal genReg bb) s') := by
  obtain ⟨s'', hexec, hagree, hset, hkeep⟩ := exec_new μ redundant optimal hfresh htable
    ((List.range table.length).filter fun i => preInsert p sPreds redundant optimal bb i == some true) h.agree
  have hmem : ∀ i, i ∈ (List.range table.length).filter (fun i => preInsert p sPreds redundant optimal bb i == some true) ↔
      Inserted p sPreds redundant optimal bb i := by
    intro i
    rw [List.mem_filter, List.mem_range, beq_iff_eq, Inserted]
  rw [insertedInsns, hexec]
  refine ⟨hagree, fun _ i hi e he _ => hset i ((hmem i).2 hi) e he, fun i hi => ?_⟩
  rw [hkeep i fun hmem' => hi ⟨trivial, (hmem i).1 hmem'⟩]
  exact h.frame i fun hi' => hdone hi'.1

theorem Entry.eval_exec {e : Expr m} (h : Entry t prog e) {insn : Insn} (hinsn : insn ∈ prog bb)
    (hunset : Unset t (prog bb) e.expr) (s : State V M) : μ.eval (μ.exec insn s) e.expr = μ.eval s e.expr := by
  obtain ⟨o, mode, regno, hsrc⟩ := h.source
  have hone : Unset t [insn] e.expr := hunset.of_subset (List.cons_subset.2 ⟨hinsn, List.nil_subset _⟩)
  exact eval_execInsns μ hsrc.recorded hone s

theorem Sim.keep (h : Sim μ prog table genReg n inserted bb done st' s s') (hfresh : Fresh t prog genReg n)
    (htable : ∀ e ∈ table, Entry t prog e) {insn : Insn} (hinsn : insn ∈ prog bb) :
    Sim μ prog table genReg n inserted bb done st' (μ.exec insn s) (μ.exec insn s') := by
  have hnew : ∀ i, (μ.exec insn s').regs (genReg i) = s'.regs (genReg i) := fun i =>
    μ.frame_reg insn s' _ fun hset => absurd (hfresh.regsSet_lt hinsn hset) (Nat.not_lt_of_le (hfresh.new i))
  refine ⟨μ.exec_agree insn n s s' hfresh.hard (hfresh.used bb insn hinsn) h.agree, fun hd i hi e he hunset => ?_,
    fun i hi => (hnew i).trans (h.frame i hi)⟩
  rw [hnew i, h.load hd i hi e he hunset]
  exact ((htable e (List.mem_of_getElem? he)).eval_exec hinsn hunset s).symm

/-- An insn that was deleted: it reads the new register of its expression. -/
theorem Sim.copy (h : Sim μ prog table genReg n inserted bb done st' s s') (hfresh : Fresh t prog genReg n)
    (htable : ∀ e ∈ table, Entry t prog e) {insn : Insn} (hinsn : insn ∈ prog bb) {i regno : Nat} {mode mode' : MachineMode}
    {src : Rtx} (hpattern : insn.pattern = .single (.set (.reg mode regno) src)) (hrec : doNotRecord src = false)
    (hregno : t.firstPseudoRegister ≤ regno) (hreg : s'.regs (genReg i) = μ.eval s src) :
    Sim μ prog table genReg n inserted bb done st' (μ.exec insn s)
      (μ.exec (replaceSrc insn (.reg mode' (genReg i))) s') := by
  have hlt : regno < n := hfresh.used bb insn hinsn regno (by
    rw [hpattern]
    exact List.mem_append_left _ (List.mem_singleton.2 rfl))
  have hnew : ∀ j, genReg j ≠ regno := fun j hj => absurd (hfresh.new j) (by omega)
  have hcopy : (replaceSrc insn (.reg mode' (genReg i))).pattern =
      .single (.set (.reg mode regno) (.reg mode' (genReg i))) := by
    rw [replaceSrc, hpattern]
    rfl
  have hexec := μ.set_eq insn mode regno src s hpattern hregno hrec
  have hexec' := μ.set_eq _ mode regno _ s' hcopy hregno rfl
  have hval : μ.eval s' (.reg mode' (genReg i)) = μ.eval s src := hreg
  rw [hval] at hexec'
  rw [hexec']
  refine ⟨?_, fun hd j hj e he hunset => ?_, fun j hj => ?_⟩
  · rw [hexec]
    exact h.agree.update_same regno
  · refine (Function.update_of_ne (hnew j) ..).trans ((h.load hd j hj e he hunset).trans ?_)
    exact ((htable e (List.mem_of_getElem? he)).eval_exec hinsn hunset s).symm
  · exact (Function.update_of_ne (hnew j) ..).trans (h.frame j hj)

theorem deletedAt_spec {cuid i : Nat} (h : deletedAt table p redundant optimal bb cuid = some i) :
    ∃ e o, table[i]? = some e ∧ o ∈ e.anticOccr ∧ o.bb = bb ∧ o.cuid = cuid ∧
      preDelete p redundant optimal bb i = true := by
  have hfound := List.find?_some h
  rw [Bool.and_eq_true] at hfound
  obtain ⟨hocc, hdel⟩ := hfound
  rcases he : table[i]? with - | e
  · simp [he] at hocc
  · rw [he, Option.any_some, List.any_eq_true] at hocc
    obtain ⟨o, ho, hplace⟩ := hocc
    rw [Bool.and_eq_true, decide_eq_true_iff, decide_eq_true_iff] at hplace
    exact ⟨e, o, rfl, ho, hplace.1, hplace.2, hdel⟩

/-- No expression is inserted in a block where its occurrence is deleted. -/
theorem not_inserted_of_deleted [NeZero w] {i : Nat} (h : preDelete p redundant optimal bb i = true) :
    ¬Inserted p sPreds redundant optimal bb i := by
  intro hins
  rw [preDelete, toDelete, Bool.and_eq_true, Bool.and_eq_true, testBit_and, Bool.and_eq_true] at h
  have hred := h.1.2.2
  have hins := hins.2
  rw [preInsert] at hins
  split_ifs at hins with hbits
  · rw [Bool.and_eq_true, testBit_and, Bool.and_eq_true, testBit_not (inSize_of_test hred), hred] at hbits
    exact Bool.noConfusion hbits.1.1
  · simp at hins

theorem inserted_iff {i : Nat} {e : Expr m} (he : table[i]? = some e)
    (hcopies : preInsertCopies p sPreds redundant optimal bb i = some false) :
    Loads p sPreds redundant optimal bb i ↔ Inserted p sPreds redundant optimal bb i := by
  rw [Loads, Inserted, hcopies, and_iff_right (List.getElem?_eq_some_iff.1 he).1]
  exact or_iff_left (by simp)

theorem copyInsns_eq (hcopies : ∀ i, preInsertCopies p sPreds redundant optimal bb i = some false) (insn : Insn × Nat) :
    copyInsns prog table p sPreds redundant optimal genReg bb insn = [] := by
  rw [copyInsns]
  simp [hcopies]

/-- One place of a block, when the new register of each deleted expression has its value from before the block. -/
theorem Sim.place [NeZero w] (hfresh : Fresh t prog genReg n) (htable : ∀ e ∈ table, Entry t prog e)
    (hcopies : ∀ i, preInsertCopies p sPreds redundant optimal bb i = some false)
    (hdeleted : ∀ i e, table[i]? = some e → preDelete p redundant optimal bb i = true →
      st'.regs (genReg i) = μ.eval st e.expr) {before rest : List Insn} {insn : Insn}
    (hprog : prog bb = before ++ insn :: rest)
    (h : Sim μ prog table genReg n (Inserted p sPreds redundant optimal bb) bb (insertPos bb < before.length) st'
      (μ.execInsns before st) s') :
    Sim μ prog table genReg n (Inserted p sPreds redundant optimal bb) bb (insertPos bb < before.length + 1) st'
      (μ.exec insn (μ.execInsns before st))
      (μ.execInsns (gcsePlace prog table p sPreds redundant optimal genReg insertPos bb (insn, before.length)) s') := by
  have hinsn : insn ∈ prog bb := by
    rw [hprog]
    exact List.mem_append_right _ List.mem_cons_self
  have hat : (prog bb)[before.length]? = some insn := by
    rw [hprog, List.getElem?_append_right le_rfl, Nat.sub_self, List.getElem?_cons_zero]
  -- what is inserted here, if this is the place
  have hstart : ∃ s₁, μ.execInsns (if before.length = insertPos bb then
        insertedInsns prog table p sPreds redundant optimal genReg bb else []) s' = s₁ ∧
      Sim μ prog table genReg n (Inserted p sPreds redundant optimal bb) bb (insertPos bb < before.length + 1) st'
        (μ.execInsns before st) s₁ := by
    split_ifs with hpos
    · have hdone : (insertPos bb < before.length + 1) = True := by
        rw [hpos, eq_iff_iff, iff_true]
        exact Nat.lt_succ_self _
      rw [hdone]
      exact ⟨_, rfl, h.insert (by omega) hfresh htable⟩
    · have hdone : (insertPos bb < before.length + 1) = (insertPos bb < before.length) := by
        rw [eq_iff_iff]
        omega
      rw [hdone]
      exact ⟨s', rfl, h⟩
  obtain ⟨s₁, hs₁, hsim⟩ := hstart
  rw [gcsePlace, execInsns_append, hs₁, copyInsns_eq hcopies]
  have hone : μ.execInsns [gcseInsn prog table p redundant optimal genReg bb (insn, before.length)] s₁ =
      μ.exec (gcseInsn prog table p redundant optimal genReg bb (insn, before.length)) s₁ := rfl
  rw [hone, gcseInsn]
  rcases hdel : deletedAt table p redundant optimal bb before.length with - | i
  · exact hsim.keep hfresh htable hinsn
  · obtain ⟨e, o, he, ho, rfl, hcuid, hpre⟩ := deletedAt_spec hdel
    obtain ⟨mode, regno, src, hsrc, halike, hunset⟩ := (htable e (List.mem_of_getElem? he)).antic o ho
    obtain ⟨insn', hinsn', hpattern⟩ := hsrc.insn
    rw [hcuid, hat] at hinsn'
    obtain rfl := Option.some.inj hinsn'
    have hbefore : (prog o.bb).take o.cuid = before := by rw [hprog, hcuid, List.take_left]
    rw [hbefore] at hunset
    refine hsim.copy hfresh htable hinsn hpattern hsrc.recorded hsrc.pseudo ?_
    calc s₁.regs (genReg i) = st'.regs (genReg i) := hsim.frame i fun hi => not_inserted_of_deleted hpre hi.2
      _ = μ.eval st e.expr := hdeleted i e he hpre
      _ = μ.eval st src := halike.eval μ.toInterp st
      _ = μ.eval (μ.execInsns before st) src := (eval_execInsns μ hsrc.recorded (halike.unset hunset) st).symm

theorem Sim.block [NeZero w] (insertPos : Fin (m + 1) → Nat) (hfresh : Fresh t prog genReg n)
    (htable : ∀ e ∈ table, Entry t prog e)
    (hcopies : ∀ i, preInsertCopies p sPreds redundant optimal bb i = some false) (hagree : Agree n st st')
    (hdeleted : ∀ i e, table[i]? = some e → preDelete p redundant optimal bb i = true →
      st'.regs (genReg i) = μ.eval st e.expr) :
    Sim μ prog table genReg n (Inserted p sPreds redundant optimal bb) bb True st' (μ.execInsns (prog bb) st)
      (μ.execInsns (preGcse prog table p sPreds redundant optimal genReg insertPos bb) st') := by
  have hprefix : ∀ before rest, prog bb = before ++ rest →
      Sim μ prog table genReg n (Inserted p sPreds redundant optimal bb) bb (insertPos bb < before.length) st'
        (μ.execInsns before st) (μ.execInsns (before.zipIdx.flatMap
          (gcsePlace prog table p sPreds redundant optimal genReg insertPos bb)) st') := by
    intro before
    induction before using List.reverseRecOn with
    | nil => exact fun _ _ => ⟨hagree, fun hd => absurd hd (Nat.not_lt_zero _), fun i _ => rfl⟩
    | append_singleton before insn ih =>
      intro rest hrest
      rw [List.append_assoc, List.singleton_append] at hrest
      have hplace := Sim.place hfresh htable hcopies hdeleted hrest (ih _ hrest)
      rw [List.zipIdx_append, List.flatMap_append, execInsns_append, execInsns_append, List.length_append, Nat.zero_add,
        List.zipIdx_singleton, List.flatMap_singleton]
      exact hplace
  have hall := hprefix (prog bb) [] (List.append_nil _).symm
  rw [preGcse, execInsns_append]
  split_ifs with hpos
  · exact hall.insert (Nat.not_lt_of_le hpos) hfresh htable
  · rwa [eq_true (Nat.lt_of_not_le hpos)] at hall

end Block

section Run

variable [NeZero w] {V M : Type} (μ : Machine t V M) {succ : Fin (m + 1) → List (BlockRef (m + 1))}
  {p : Local m w table.length} {latein isoout : Vec m w table.length} {insertPos : Fin (m + 1) → Nat}
  {path : Nat → Fin (m + 1)} {st st' : State V M}

theorem run_succ (prog : Program m) (path : Nat → Fin (m + 1)) (k : Nat) (st : State V M) :
    μ.run prog path (k + 1) st = μ.execInsns (prog (path k)) (μ.run prog path k st) := by
  rw [Machine.run, List.range_succ, List.foldl_append]
  rfl

theorem execInsns_agree {insns : List Insn} (hhard : t.firstPseudoRegister ≤ n)
    (hused : ∀ insn ∈ insns, ∀ regno ∈ insn.pattern.regnos, regno < n) (h : Agree n st st') :
    Agree n (μ.execInsns insns st) (μ.execInsns insns st') := by
  induction insns generalizing st st' with
  | nil => exact h
  | cons insn insns ih =>
    obtain ⟨hinsn, hinsns⟩ := List.forall_mem_cons.1 hused
    exact ih hinsns (μ.exec_agree insn n st st' hhard hinsn h)

theorem run_agree (hfresh : Fresh t prog genReg n) (path : Nat → Fin (m + 1)) (k : Nat) (h : Agree n st st') :
    Agree n (μ.run prog path k st) (μ.run prog path k st') := by
  induction k with
  | zero => exact h
  | succ k ih =>
    rw [run_succ, run_succ]
    exact execInsns_agree μ hfresh.hard (hfresh.used (path k)) ih

variable {μ} {redundant optimal : Vec m w table.length} {prog' : Program m}

structure Passed (t : Target) (prog : Program m) (table : List (Expr m)) (p : Local m w table.length)
    (succ : Fin (m + 1) → List (BlockRef (m + 1))) (redundant optimal : Vec m w table.length) (genReg : Nat → Nat) (n : Nat)
    (insertPos : Fin (m + 1) → Nat) (prog' : Program m) : Prop where
  fresh : Fresh t prog genReg n
  entry : ∀ e ∈ table, Entry t prog e
  props : ∃ validateChange, (∀ bb bb' i, validateChange bb i = validateChange bb' i) ∧
    p = localOf t prog table validateChange
  solved : ∃ latein isoout, Solved succ p.transp p.antloc latein isoout ∧
    redundant = computeRedundant p.antloc latein isoout ∧ optimal = computeOptimal latein isoout
  result : prog' = preGcse prog table p (computePredsSuccs succ entryEdges).sPreds redundant optimal genReg insertPos

/-- So far the new registers are what the elimination by blocks asks of them. -/
def Runs (μ : Machine t V M) (prog : Program m) (table : List (Expr m)) (p : Local m w table.length)
    (succ : Fin (m + 1) → List (BlockRef (m + 1))) (redundant optimal : Vec m w table.length) (genReg : Nat → Nat)
    (prog' : Program m) (path : Nat → Fin (m + 1)) (k : Nat) (st st' : State V M) : Prop :=
  ∀ i e, table[i]? = some e → Run p succ redundant optimal i path k (fun j => μ.run prog path j st)
    (fun s => μ.eval s e.expr) fun j => (μ.run prog' path j st').regs (genReg i)

variable (h : Passed t prog table p succ redundant optimal genReg n insertPos prog')
include h

theorem Passed.copies (bb : Fin (m + 1)) (i : Nat) :
    preInsertCopies p (computePredsSuccs succ entryEdges).sPreds redundant optimal bb i = some false := by
  obtain ⟨latein, isoout, -, rfl, rfl⟩ := h.solved
  exact preInsertCopies_eq bb i

/-- In the block at the end of a way, if all was well so far. -/
theorem Passed.block {k : Nat} (hagree : Agree n (μ.run prog path k st) (μ.run prog' path k st'))
    (hruns : Runs μ prog table p succ redundant optimal genReg prog' path k st st') :
    Sim μ prog table genReg n (Inserted p (computePredsSuccs succ entryEdges).sPreds redundant optimal (path k)) (path k)
      True (μ.run prog' path k st') (μ.run prog path (k + 1) st) (μ.run prog' path (k + 1) st') := by
  have hcopies := h.copies (path k)
  have hcomp : ∀ bb expr, testBit (p.comp bb) expr = true → testBit (p.transp bb) expr = true →
      testBit (p.antloc bb) expr = true := by
    obtain ⟨validateChange, -, rfl⟩ := h.props
    exact fun bb expr => antloc_of_comp t prog table h.entry
  have hvalid : ∀ bb bb' expr, p.validateChange bb expr = p.validateChange bb' expr := by
    obtain ⟨validateChange, hvalid, rfl⟩ := h.props
    exact hvalid
  have hdeleted : ∀ i e, table[i]? = some e → preDelete p redundant optimal (path k) i = true →
      (μ.run prog' path k st').regs (genReg i) = μ.eval (μ.run prog path k st) e.expr := by
    obtain ⟨latein, isoout, hsolved, rfl, rfl⟩ := h.solved
    exact fun i e he hdel => reg_eq_of_deleted hsolved hcomp hvalid (hruns i e he) hdel
  have hsim := Sim.block insertPos h.fresh h.entry hcopies hagree hdeleted
  rw [← h.result] at hsim
  rwa [run_succ, run_succ]

theorem Passed.snoc {k : Nat} (hruns : Runs μ prog table p succ redundant optimal genReg prog' path k st st')
    (hwalk : Walk succ path (k + 1) 0 (path (k + 1)))
    (hsim : Sim μ prog table genReg n (Inserted p (computePredsSuccs succ entryEdges).sPreds redundant optimal (path k))
      (path k) True (μ.run prog' path k st') (μ.run prog path (k + 1) st) (μ.run prog' path (k + 1) st')) :
    Runs μ prog table p succ redundant optimal genReg prog' path (k + 1) st st' := by
  intro i e he
  have hrun := hruns i e he
  obtain ⟨o, mode, regno, hsrc⟩ := (h.entry e (List.mem_of_getElem? he)).source
  have hunset : testBit (p.transp (path k)) i = true → Unset t (prog (path k)) e.expr := by
    obtain ⟨validateChange, -, rfl⟩ := h.props
    exact (transp_iff t prog table he).1
  have hloads := inserted_iff he (h.copies (path k) i)
  refine ⟨hwalk, fun j hj htr => ?_, fun j hj hload htr => ?_, fun j hj hload => ?_⟩
  · rcases Nat.lt_succ_iff_lt_or_eq.1 hj with hj | rfl
    · exact hrun.keep j hj htr
    · simp only [run_succ]
      exact eval_execInsns μ hsrc.recorded (hunset htr) _
  · rcases Nat.lt_succ_iff_lt_or_eq.1 hj with hj | rfl
    · exact hrun.load j hj hload htr
    · exact hsim.load trivial i (hloads.1 hload) e he (hunset htr)
  · rcases Nat.lt_succ_iff_lt_or_eq.1 hj with hj | rfl
    · exact hrun.frame j hj hload
    · exact hsim.frame i fun hi => hload (hloads.2 hi.2)

theorem Passed.run_agree (hagree : Agree n st st') (k : Nat) (hwalk : Walk succ path k 0 (path k)) :
    Agree n (μ.run prog path (k + 1) st) (μ.run prog' path (k + 1) st') := by
  have hall : Agree n (μ.run prog path k st) (μ.run prog' path k st') ∧
      Runs μ prog table p succ redundant optimal genReg prog' path k st st' := by
    induction k with
    | zero =>
      exact ⟨hagree, fun i e he => ⟨hwalk, fun j hj => absurd hj (Nat.not_lt_zero j),
        fun j hj => absurd hj (Nat.not_lt_zero j), fun j hj => absurd hj (Nat.not_lt_zero j)⟩⟩
    | succ k ih =>
      obtain ⟨hagree, hruns⟩ := ih hwalk.init.1
      have hsim := h.block hagree hruns
      exact ⟨hsim.agree, h.snoc hruns hwalk hsim⟩
  exact (h.block hall.1 hall.2).agree

omit h

/-- One pass ends, and the function after it means what it meant before: on every way from block 0, from states that
agree but for the new registers, and on every machine, the insns of the blocks after the pass leave a state that agrees
with the one that those before it leave. The copies of an expression to registers are insns alike, and
`validate_change` says the same of each. -/
theorem one_pre_gcse_pass_equivalent (hashExpr : Rtx → MachineMode → Nat) (prog : Program m)
    (validateChange : Fin (m + 1) → Nat → Bool) (succ : Fin (m + 1) → List (BlockRef (m + 1)))
    (junk : ∀ nExprs, Junk m w nExprs) (genReg : Nat → Nat) (insertPos : Fin (m + 1) → Nat) (n : Nat)
    (hvalid : ∀ bb bb' i, validateChange bb i = validateChange bb' i) (hfresh : Fresh t prog genReg n) :
    ∃ N prog', (∀ fuel ≥ N, onePreGcsePass t hashExpr validateChange succ junk genReg insertPos fuel prog =
        some prog') ∧
      ∀ (V M : Type) (μ : Machine t V M) path k (st st' : State V M), Walk succ path k 0 (path k) → Agree n st st' →
        Agree n (μ.run prog path (k + 1) st) (μ.run prog' path (k + 1) st') := by
  have htable := @computeExprHashTable_entry m t prog hashExpr
  by_cases hlength : 0 < (computeExprHashTable t hashExpr prog).length
  · obtain ⟨N, latein, isoout, hloop, hsolved⟩ := preLcm_solved succ
      (localOf t prog (computeExprHashTable t hashExpr prog) validateChange).transp
      (localOf t prog (computeExprHashTable t hashExpr prog) validateChange).antloc (junk _)
    have hpassed : Passed t prog (computeExprHashTable t hashExpr prog) _ succ _ _ genReg n insertPos _ :=
      ⟨hfresh, htable, ⟨validateChange, hvalid, rfl⟩, ⟨latein, isoout, hsolved, rfl, rfl⟩, rfl⟩
    refine ⟨N, _, fun fuel hfuel => ?_, fun V M μ path k st st' hwalk hagree => hpassed.run_agree hagree k hwalk⟩
    rw [onePreGcsePass, if_pos hlength, hloop fuel hfuel]
    rfl
  · refine ⟨0, prog, fun fuel _ => ?_, fun V M μ path k st st' _ hagree => run_agree μ hfresh path (k + 1) hagree⟩
    rw [onePreGcsePass, if_neg hlength]

end Run

section Example

/-- The register that an insn sets, and its source, where the pass relies on what it does. -/
def assigned : Pattern → Option (Nat × Rtx)
  | .single (.set (.reg _ regno) src) => if doNotRecord src then none else some (regno, src)
  | _ => none

theorem assigned_eq {pat : Pattern} {a : Nat × Rtx} (h : assigned pat = some a) :
    ∃ mode, pat = .single (.set (.reg mode a.1) a.2) ∧ doNotRecord a.2 = false := by
  cases pat with
  | parallel xs => simp [assigned] at h
  | single x =>
    cases x with
    | set dest src =>
      cases dest with
      | reg mode regno =>
        rw [assigned] at h
        split_ifs at h with hrec
        obtain rfl := Option.some.inj h
        exact ⟨mode, rfl, Bool.eq_false_iff.2 hrec⟩
      | _ => simp [assigned] at h
    | _ => simp [assigned] at h

variable {V M : Type}

def plainMachine (t : Target) (d : Interp V M) : Machine t V M where
  toInterp := d
  exec insn st := (assigned insn.pattern).elim st fun a =>
    { st with regs := Function.update st.regs a.1 (d.eval st a.2) }
  set_eq insn mode regno src st hpattern _ hrec := by
    rw [hpattern, assigned, if_neg (by rw [hrec]; exact Bool.false_ne_true)]
    rfl
  frame_reg insn st regno hset := by
    rcases ha : assigned insn.pattern with - | a
    · rfl
    · obtain ⟨mode, hpattern, -⟩ := assigned_eq ha
      refine Function.update_of_ne (fun heq => hset ?_) ..
      rw [regsSet, hpattern, heq]
      exact List.mem_append_right _ (List.mem_singleton.2 rfl)
  frame_mem insn st _ := by
    rcases assigned insn.pattern with - | a
    · rfl
    · rfl
  exec_agree insn n st st' _ hused h := by
    rcases ha : assigned insn.pattern with - | a
    · exact h
    · obtain ⟨mode, hpattern, hrec⟩ := assigned_eq ha
      rw [hpattern] at hused
      have heval : d.eval st a.2 = d.eval st' a.2 := h.eval hrec fun r hr => hused r (List.mem_append_right _ hr)
      rw [Option.elim_some, Option.elim_some, heval]
      exact h.update_same a.1

def plusInterp : Interp Int Unit where
  constInt := id
  constant _ _ _ := 0
  subreg _ _ v := v
  part _ _ v _ := v
  load _ _ _ _ := 0
  auto _ _ v := v
  op code _ _ vs := if code = .plus then vs.sum else 0
  op_comm code _ _ a b _ := by rw [List.sum_pair, List.sum_pair, add_comm]

def pseudosOnly : Target := ⟨0, fun _ => true, fun _ => false, fun _ => false⟩

/-- The sum of two registers, in the blocks of `diamondLoc`. -/
def diamondProgram (bb : Fin 4) : List Insn :=
  if bb.val = 1 ∨ bb.val = 3 then
    [setInsn (.reg 4 2) (.op .plus 4 false [] (.cons (.reg 4 0) (.cons (.reg 4 1) .nil)))]
  else
    []

def noJunk (nExprs : Nat) : Junk 3 32 nExprs :=
  ⟨fun _ => sbitmapZero, fun _ => sbitmapZero, fun _ => sbitmapZero, fun _ => sbitmapZero, fun _ => sbitmapZero,
    sbitmapZero, sbitmapZero⟩

theorem one_pre_gcse_pass_equivalent_diamond :
    ∃ N prog', (∀ fuel ≥ N, onePreGcsePass pseudosOnly (fun _ _ => 7) (fun _ _ => true) diamond noJunk (fun i => 3 + i)
        (fun _ => 0) fuel diamondProgram = some prog') ∧
      ∀ path k (st st' : State Int Unit), Walk diamond path k 0 (path k) → Agree 3 st st' →
        Agree 3 ((plainMachine pseudosOnly plusInterp).run diamondProgram path (k + 1) st)
          ((plainMachine pseudosOnly plusInterp).run prog' path (k + 1) st') := by
  obtain ⟨N, prog', hpass, hmeaning⟩ := one_pre_gcse_pass_equivalent (t := pseudosOnly) (fun _ _ => 7)
    diamondProgram (fun _ _ => true) diamond noJunk (fun i => 3 + i) (fun _ => 0) 3 (fun _ _ _ => rfl)
    ⟨by decide, by decide, fun i => Nat.le_add_right 3 i, fun i j h => Nat.add_left_cancel h⟩
  exact ⟨N, prog', hpass, fun path k st st' => hmeaning Int Unit _ path k st st'⟩

end Example

end Z80Gcc.Gcse
