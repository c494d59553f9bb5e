import Z80Gcc.Spec.GcsePass
import Z80Gcc.Proofs.Gcse

/-! What the hash table and the local properties say of the insns: an expression keeps its value where nothing that it
is made of is set, and the occurrences recorded compute it. -/

namespace Z80Gcc.Gcse

open SimpleBitmap FlowGraph Lcm

section Expressions

mutual

/-- Whether the value of an expression depends on memory. -/
def Rtx.readsMem : Rtx → Bool
  | .reg _ _ => false
  | .subreg _ _ x => x.readsMem
  | .part _ _ x xs => x.readsMem || xs.readsMem
  | .mem _ _ _ _ => true
  | .auto _ _ x => x.readsMem
  | .op _ _ _ _ xs => xs.readsMem
  | .constInt _ => false
  | .constant _ _ _ => false
  | .pc => false
  | .cc0 => false

def Operands.readsMem : Operands → Bool
  | .nil => false
  | .cons x xs => x.readsMem || xs.readsMem

end

variable {V M : Type} {d : Interp V M} {st st' : State V M}

mutual

/-- The value of an expression that can be recorded depends on its registers, and on memory if it reads it. -/
theorem eval_congr (x : Rtx) (hregs : ∀ regno ∈ x.regnos, st.regs regno = st'.regs regno)
    (hmem : x.readsMem = true → st.mem = st'.mem) (hrec : doNotRecord x = false) : d.eval st x = d.eval st' x := by
  cases x with
  | reg mode regno => exact hregs regno (List.mem_singleton.2 rfl)
  | subreg mode word x => exact congrArg (d.subreg mode word) (eval_congr x hregs hmem hrec)
  | part code mode x xs =>
    rw [doNotRecord, Bool.or_eq_false_iff] at hrec
    rw [Rtx.readsMem, Bool.or_eq_true] at hmem
    rw [Interp.eval, Interp.eval,
      eval_congr x (fun r hr => hregs r (List.mem_append_left _ hr)) (fun h => hmem (.inl h)) hrec.1,
      evals_congr xs (fun r hr => hregs r (List.mem_append_right _ hr)) (fun h => hmem (.inr h)) hrec.2]
  | mem mode volatil aliasSet addr =>
    rw [doNotRecord, Bool.or_eq_false_iff] at hrec
    rw [Interp.eval, Interp.eval, eval_congr addr hregs (fun _ => hmem rfl) hrec.2, hmem rfl]
  | constInt value => rfl
  | constant code mode name => rfl
  | pc => exact Bool.noConfusion hrec
  | cc0 => exact Bool.noConfusion hrec
  | auto code mode x => exact Bool.noConfusion hrec
  | op code mode volatil fields xs =>
    rw [doNotRecord, Bool.or_eq_false_iff] at hrec
    exact congrArg (d.op code mode fields) (evals_congr xs hregs hmem hrec.2)

theorem evals_congr (xs : Operands) (hregs : ∀ regno ∈ xs.regnos, st.regs regno = st'.regs regno)
    (hmem : xs.readsMem = true → st.mem = st'.mem) (hrec : operandsNotRecorded xs = false) :
    d.evals st xs = d.evals st' xs := by
  cases xs with
  | nil => rfl
  | cons x xs =>
    rw [operandsNotRecorded, Bool.or_eq_false_iff] at hrec
    rw [Operands.readsMem, Bool.or_eq_true] at hmem
    rw [Interp.evals, Interp.evals,
      eval_congr x (fun r hr => hregs r (List.mem_append_left _ hr)) (fun h => hmem (.inl h)) hrec.1,
      evals_congr xs (fun r hr => hregs r (List.mem_append_right _ hr)) (fun h => hmem (.inr h)) hrec.2]

end

/-- Two expressions with the same value in every state, made of the same registers. -/
structure Alike (x y : Rtx) : Prop where
  eval : ∀ {V M : Type} (d : Interp V M) (st : State V M), d.eval st x = d.eval st y
  regnos : ∀ regno, regno ∈ x.regnos ↔ regno ∈ y.regnos
  readsMem : x.readsMem = y.readsMem

structure OperandsAlike (xs ys : Operands) : Prop where
  evals : ∀ {V M : Type} (d : Interp V M) (st : State V M), d.evals st xs = d.evals st ys
  regnos : ∀ regno, regno ∈ xs.regnos ↔ regno ∈ ys.regnos
  readsMem : xs.readsMem = ys.readsMem

/-- Operands that a commutative operation cannot tell apart. -/
structure OperandsMixed (code : RtxCode) (xs ys : Operands) : Prop where
  op : ∀ {V M : Type} (d : Interp V M) (st : State V M) (mode : MachineMode) (fields : List Int),
    d.op code mode fields (d.evals st xs) = d.op code mode fields (d.evals st ys)
  regnos : ∀ regno, regno ∈ xs.regnos ↔ regno ∈ ys.regnos
  readsMem : xs.readsMem = ys.readsMem

theorem OperandsAlike.mixed {xs ys : Operands} (h : OperandsAlike xs ys) (code : RtxCode) : OperandsMixed code xs ys :=
  ⟨fun d st _ _ => by rw [h.evals d st], h.regnos, h.readsMem⟩

theorem Alike.cons {x y : Rtx} {xs ys : Operands} (hx : Alike x y) (hxs : OperandsAlike xs ys) :
    OperandsAlike (.cons x xs) (.cons y ys) := by
  refine ⟨fun d st => ?_, fun regno => ?_, ?_⟩
  · rw [Interp.evals, Interp.evals, hx.eval d st, hxs.evals d st]
  · rw [Operands.regnos, Operands.regnos, List.mem_append, List.mem_append, hx.regnos, hxs.regnos]
  · rw [Operands.readsMem, Operands.readsMem, hx.readsMem, hxs.readsMem]

theorem operandsAlike_nil : OperandsAlike .nil .nil := ⟨fun _ _ => rfl, fun _ => Iff.rfl, rfl⟩

/-- The operands of a commutative operation the other way round. -/
theorem mixed_swap {code : RtxCode} (hcode : commutative code = true) {x x' y y' : Rtx} (hx : Alike x y')
    (hx' : Alike x' y) : OperandsMixed code (.cons x (.cons x' .nil)) (.cons y (.cons y' .nil)) := by
  refine ⟨fun d st mode fields => ?_, fun regno => ?_, ?_⟩
  · simp only [Interp.evals, hx.eval d st, hx'.eval d st]
    exact d.op_comm code mode fields _ _ hcode
  · simp only [Operands.regnos, List.mem_append, hx.regnos, hx'.regnos, List.not_mem_nil, or_false]
    exact or_comm
  · simp only [Operands.readsMem, hx.readsMem, hx'.readsMem, Bool.or_false]
    exact Bool.or_comm _ _

mutual

/-- Equivalent expressions are alike. The cases follow `expr_equiv_p`. -/
theorem alike_of_equiv (x y : Rtx) (h : exprEquivP x y = true) : Alike x y := by
  cases x with
  | reg mode regno =>
    cases y with
    | reg mode' regno' =>
      have h : (mode == mode' && regno == regno') = true := h
      obtain ⟨rfl, rfl⟩ := by simpa only [Bool.and_eq_true, beq_iff_eq] using h
      exact ⟨fun _ _ => rfl, fun _ => Iff.rfl, rfl⟩
    | _ => exact Bool.noConfusion h
  | subreg mode word x =>
    cases y with
    | subreg mode' word' y =>
      have h : (mode == mode' && word == word' && exprEquivP x y) = true := h
      obtain ⟨⟨rfl, rfl⟩, hxy⟩ := by simpa only [Bool.and_eq_true, beq_iff_eq] using h
      have hx := alike_of_equiv x y hxy
      exact ⟨fun d st => congrArg (d.subreg mode word) (hx.eval d st), hx.regnos, hx.readsMem⟩
    | _ => exact Bool.noConfusion h
  | part code mode x xs =>
    cases y with
    | part code' mode' y ys =>
      have h : (code == code' && mode == mode' && operandsEquiv xs ys && exprEquivP x y) = true := h
      obtain ⟨⟨⟨rfl, rfl⟩, hxsys⟩, hxy⟩ := by simpa only [Bool.and_eq_true, beq_iff_eq] using h
      have hx := alike_of_equiv x y hxy
      have hxs := operandsAlike_of_equiv xs ys hxsys
      refine ⟨fun d st => ?_, fun regno => ?_, ?_⟩
      · rw [Interp.eval, Interp.eval, hx.eval d st, hxs.evals d st]
      · rw [Rtx.regnos, Rtx.regnos, List.mem_append, List.mem_append, hx.regnos, hxs.regnos]
      · rw [Rtx.readsMem, Rtx.readsMem, hx.readsMem, hxs.readsMem]
    | _ => exact Bool.noConfusion h
  | mem mode volatil aliasSet x =>
    cases y with
    | mem mode' volatil' aliasSet' y =>
      have h : (mode == mode' && aliasSet == aliasSet' && exprEquivP x y) = true := h
      obtain ⟨⟨rfl, rfl⟩, hxy⟩ := by simpa only [Bool.and_eq_true, beq_iff_eq] using h
      have hx := alike_of_equiv x y hxy
      exact ⟨fun d st => congrArg (fun a => d.load mode aliasSet a st.mem) (hx.eval d st), hx.regnos, rfl⟩
    | _ => exact Bool.noConfusion h
  | constInt value =>
    cases y with
    | constInt value' =>
      obtain rfl := beq_iff_eq.1 (h : (value == value') = true)
      exact ⟨fun _ _ => rfl, fun _ => Iff.rfl, rfl⟩
    | _ => exact Bool.noConfusion h
  | constant code mode name =>
    cases y with
    | constant code' mode' name' =>
      have h : (code == code' && mode == mode' && name == name') = true := h
      obtain ⟨⟨rfl, rfl⟩, rfl⟩ := by simpa only [Bool.and_eq_true, beq_iff_eq] using h
      exact ⟨fun _ _ => rfl, fun _ => Iff.rfl, rfl⟩
    | _ => exact Bool.noConfusion h
  | pc =>
    cases y with
    | pc => exact ⟨fun _ _ => rfl, fun _ => Iff.rfl, rfl⟩
    | _ => exact Bool.noConfusion h
  | cc0 =>
    cases y with
    | cc0 => exact ⟨fun _ _ => rfl, fun _ => Iff.rfl, rfl⟩
    | _ => exact Bool.noConfusion h
  | auto code mode x =>
    cases y with
    | auto code' mode' y =>
      have h : (code == code' && mode == mode' && exprEquivP x y) = true := h
      obtain ⟨⟨rfl, rfl⟩, hxy⟩ := by simpa only [Bool.and_eq_true, beq_iff_eq] using h
      have hx := alike_of_equiv x y hxy
      exact ⟨fun d st => congrArg (d.auto code mode) (hx.eval d st), hx.regnos, hx.readsMem⟩
    | _ => exact Bool.noConfusion h
  | op code mode volatil fields xs =>
    cases y with
    | op code' mode' volatil' fields' ys =>
      have h : (code == code' && mode == mode' && fields == fields' &&
        (operandsEquiv xs ys || (commutative code && operandsSwapped xs ys))) = true := h
      obtain ⟨⟨⟨rfl, rfl⟩, rfl⟩, hxsys⟩ := by simpa only [Bool.and_eq_true, beq_iff_eq] using h
      have hxs : OperandsMixed code xs ys := by
        rcases Bool.or_eq_true_iff.1 hxsys with hxsys | hxsys
        · exact (operandsAlike_of_equiv xs ys hxsys).mixed code
        · obtain ⟨hcode, hxsys⟩ := Bool.and_eq_true_iff.1 hxsys
          exact operandsMixed_of_swapped hcode xs ys hxsys
      exact ⟨fun d st => hxs.op d st mode fields, hxs.regnos, hxs.readsMem⟩
    | _ => exact Bool.noConfusion h

theorem operandsAlike_of_equiv (xs ys : Operands) (h : operandsEquiv xs ys = true) : OperandsAlike xs ys := by
  cases xs with
  | nil =>
    cases ys with
    | nil => exact operandsAlike_nil
    | cons y ys => exact Bool.noConfusion h
  | cons x xs =>
    cases ys with
    | nil => exact Bool.noConfusion h
    | cons y ys =>
      obtain ⟨hxs, hx⟩ := Bool.and_eq_true_iff.1 (h : (operandsEquiv xs ys && exprEquivP x y) = true)
      exact (alike_of_equiv x y hx).cons (operandsAlike_of_equiv xs ys hxs)

theorem operandsMixed_of_swapped {code : RtxCode} (hcode : commutative code = true) (xs ys : Operands)
    (h : operandsSwapped xs ys = true) : OperandsMixed code xs ys := by
  rcases xs with - | ⟨x, - | ⟨x', - | ⟨x'', xs⟩⟩⟩
  · exact Bool.noConfusion h
  · exact Bool.noConfusion h
  · rcases ys with - | ⟨y, - | ⟨y', - | ⟨y'', ys⟩⟩⟩
    · exact Bool.noConfusion h
    · exact Bool.noConfusion h
    · obtain ⟨hx, hx'⟩ := Bool.and_eq_true_iff.1 (h : (exprEquivP x y' && exprEquivP x' y) = true)
      exact mixed_swap hcode (alike_of_equiv x y' hx) (alike_of_equiv x' y hx')
    · exact Bool.noConfusion h
  · exact Bool.noConfusion h

end

theorem Alike.symm {x y : Rtx} (h : Alike x y) : Alike y x :=
  ⟨fun d st => (h.eval d st).symm, fun regno => (h.regnos regno).symm, h.readsMem.symm⟩

theorem Alike.refl (x : Rtx) : Alike x x := ⟨fun _ _ => rfl, fun _ => Iff.rfl, rfl⟩

end Expressions

section FirstSets

/-- Whether the first insn that satisfies a test was found before, or is the one at `c`. -/
def orAt (found : Bool) (c : Nat) (first : Option Nat) : Option Nat := first.or (if found = true then some c else none)

/-- The first insn that satisfies a test, when one that was found before goes first. -/
theorem foldl_findIdx {A S : Type} (step : S → A × Nat → S) (first : S → Option Nat) (test : A → Bool)
    (hstep : ∀ s a, first (step s a) = orAt (test a.1) a.2 (first s)) (l : List A) (k : Nat) (s : S) :
    first ((l.zipIdx k).foldl step s) = (first s).or ((l.findIdx? test).map (k + ·)) := by
  induction l generalizing k s with
  | nil => simp
  | cons a l ih =>
    rw [List.zipIdx_cons, List.foldl_cons, ih, hstep, List.findIdx?_cons, orAt]
    cases first s with
    | some c => rfl
    | none =>
      cases test a with
      | true => rfl
      | false =>
        cases l.findIdx? test with
        | none => rfl
        | some c => exact congrArg some (Nat.succ_add_eq_add_succ k c)

theorem foldl_any {A S : Type} (step : S → A × Nat → S) (found : S → Bool) (test : A → Bool)
    (hstep : ∀ s a, found (step s a) = (found s || test a.1)) (l : List A) (k : Nat) (s : S) :
    found ((l.zipIdx k).foldl step s) = (found s || l.any test) := by
  induction l generalizing k s with
  | nil => simp
  | cons a l ih => rw [List.zipIdx_cons, List.foldl_cons, ih, hstep, List.any_cons, Bool.or_assoc]

theorem findIdx_all {A : Type} (test : A → Bool) (l : List A) (c : Nat) :
    ((l.findIdx? test).all fun first => decide (c ≤ first)) = true ↔ ∀ a ∈ l.take c, test a = false := by
  induction l generalizing c with
  | nil => simp
  | cons a l ih =>
    cases c with
    | zero => simp
    | succ c =>
      rw [List.findIdx?_cons, List.take_succ_cons, List.forall_mem_cons, ← ih]
      cases test a with
      | true => simp
      | false => cases l.findIdx? test <;> simp

variable (t : Target)

theorem foldl_regFirstSet (c : Nat) (regnos : List Nat) (s : SetInfo) (regno : Nat) :
    (regnos.foldl (recordLastRegSetInfo c) s).regFirstSet regno =
      orAt (regnos.contains regno) c (s.regFirstSet regno) := by
  induction regnos generalizing s with
  | nil => simp [orAt]
  | cons r regnos ih =>
    rw [List.foldl_cons, ih]
    by_cases hr : regno = r
    · subst hr
      cases h : s.regFirstSet regno <;> simp [orAt, recordLastRegSetInfo, h]
    · cases h : s.regFirstSet r <;> simp [orAt, recordLastRegSetInfo, h, hr]

theorem foldl_regSetInBlock (c : Nat) (regnos : List Nat) (s : SetInfo) (regno : Nat) :
    (regnos.foldl (recordLastRegSetInfo c) s).regSetInBlock regno =
      (s.regSetInBlock regno || regnos.contains regno) := by
  induction regnos generalizing s with
  | nil => simp
  | cons r regnos ih =>
    rw [List.foldl_cons, ih]
    by_cases hr : regno = r
    · subst hr
      simp [recordLastRegSetInfo]
    · simp [recordLastRegSetInfo, hr]

theorem foldl_mem_set (c : Nat) (regnos : List Nat) (s : SetInfo) :
    (regnos.foldl (recordLastRegSetInfo c) s).memFirstSet = s.memFirstSet ∧
      (regnos.foldl (recordLastRegSetInfo c) s).memSetInBlock = s.memSetInBlock := by
  induction regnos generalizing s with
  | nil => exact ⟨rfl, rfl⟩
  | cons r regnos ih => exact ih _

/-- The first pass over a block finds the first insn that sets a register, and whether there is one. -/
theorem regFirstSet_eq (insns : List Insn) (regno : Nat) :
    (setInfo t insns).regFirstSet regno = insns.findIdx? fun insn => (regsSet t insn).contains regno := by
  rw [setInfo, foldl_findIdx (recordInsn t) (fun s => s.regFirstSet regno) fun insn => (regsSet t insn).contains regno]
  · simp
  · intro s insn
    rw [recordInsn, ← foldl_regFirstSet]
    split_ifs <;> rfl

theorem regSetInBlock_eq (insns : List Insn) (regno : Nat) :
    (setInfo t insns).regSetInBlock regno = insns.any fun insn => (regsSet t insn).contains regno := by
  rw [setInfo, foldl_any (recordInsn t) (fun s => s.regSetInBlock regno) fun insn => (regsSet t insn).contains regno]
  · rfl
  · intro s insn
    rw [recordInsn, ← foldl_regSetInBlock]
    split_ifs <;> rfl

theorem memFirstSet_eq (insns : List Insn) : (setInfo t insns).memFirstSet = insns.findIdx? (memSet t) := by
  rw [setInfo, foldl_findIdx (recordInsn t) SetInfo.memFirstSet (memSet t)]
  · simp
  · intro s insn
    rw [recordInsn, ← (foldl_mem_set insn.2 (regsSet t insn.1) s).1]
    generalize (regsSet t insn.1).foldl (recordLastRegSetInfo insn.2) s = s
    cases memSet t insn.1 with
    | true => cases h : s.memFirstSet <;> simp [orAt, recordLastMemSetInfo, h]
    | false => simp [orAt]

theorem memSetInBlock_eq (insns : List Insn) : (setInfo t insns).memSetInBlock = insns.any (memSet t) := by
  rw [setInfo, foldl_any (recordInsn t) SetInfo.memSetInBlock (memSet t)]
  · rfl
  · intro s insn
    rw [recordInsn, ← (foldl_mem_set insn.2 (regsSet t insn.1) s).2]
    cases memSet t insn.1 with
    | true => simp [recordLastMemSetInfo]
    | false => simp

end FirstSets

section Unchanged

variable (t : Target)

/-- No insn of a list sets anything that an expression is made of. -/
structure Unset (insns : List Insn) (x : Rtx) : Prop where
  regs : ∀ regno ∈ x.regnos, ∀ insn ∈ insns, regno ∉ regsSet t insn
  mem : x.readsMem = true → ∀ insn ∈ insns, memSet t insn = false

variable {t} {insns : List Insn} {x y : Rtx}

theorem Unset.of_subset {insns' : List Insn} (h : Unset t insns x) (hsub : insns' ⊆ insns) : Unset t insns' x :=
  ⟨fun regno hreg insn hinsn => h.regs regno hreg insn (hsub hinsn), fun hx insn hinsn => h.mem hx insn (hsub hinsn)⟩

theorem Alike.unset (hxy : Alike x y) (h : Unset t insns x) : Unset t insns y :=
  ⟨fun regno hreg => h.regs regno ((hxy.regnos regno).2 hreg), fun hy => h.mem (hxy.readsMem.trans hy)⟩

mutual

theorem oprsUnchangedP_iff (s : SetInfo) (cuid : Nat) (x : Rtx) (hrec : doNotRecord x = false) :
    oprsUnchangedP s cuid false x = true ↔
      (∀ regno ∈ x.regnos, ((s.regFirstSet regno).all fun first => decide (cuid ≤ first)) = true) ∧
      (x.readsMem = true → (s.memFirstSet.all fun first => decide (cuid ≤ first)) = true) := by
  cases x with
  | reg mode regno => simp [oprsUnchangedP, Rtx.regnos, Rtx.readsMem]
  | subreg mode word x => exact oprsUnchangedP_iff s cuid x hrec
  | part code mode x xs =>
    obtain ⟨hx, hxs⟩ := Bool.or_eq_false_iff.1 hrec
    rw [oprsUnchangedP, Bool.and_eq_true, oprsUnchangedP_iff s cuid x hx, operandsUnchanged_iff s cuid xs hxs,
      Rtx.regnos, Rtx.readsMem, List.forall_mem_append, Bool.or_eq_true, or_imp, and_and_and_comm]
  | mem mode volatil aliasSet addr =>
    obtain ⟨-, haddr⟩ := Bool.or_eq_false_iff.1 hrec
    rw [oprsUnchangedP, if_neg Bool.false_ne_true, Bool.and_eq_true, oprsUnchangedP_iff s cuid addr haddr]
    exact ⟨fun h => ⟨h.2.1, fun _ => h.1⟩, fun h => ⟨h.2 rfl, h.1, fun _ => h.2 rfl⟩⟩
  | constInt value => simp [oprsUnchangedP, Rtx.regnos, Rtx.readsMem]
  | constant code mode name => simp [oprsUnchangedP, Rtx.regnos, Rtx.readsMem]
  | pc => exact Bool.noConfusion hrec
  | cc0 => exact Bool.noConfusion hrec
  | auto code mode x => exact Bool.noConfusion hrec
  | op code mode volatil fields xs => exact operandsUnchanged_iff s cuid xs (Bool.or_eq_false_iff.1 hrec).2

theorem operandsUnchanged_iff (s : SetInfo) (cuid : Nat) (xs : Operands) (hrec : operandsNotRecorded xs = false) :
    operandsUnchanged s cuid false xs = true ↔
      (∀ regno ∈ xs.regnos, ((s.regFirstSet regno).all fun first => decide (cuid ≤ first)) = true) ∧
      (xs.readsMem = true → (s.memFirstSet.all fun first => decide (cuid ≤ first)) = true) := by
  cases xs with
  | nil => simp [operandsUnchanged, Operands.regnos, Operands.readsMem]
  | cons x xs =>
    obtain ⟨hx, hxs⟩ := Bool.or_eq_false_iff.1 hrec
    rw [operandsUnchanged, Bool.and_eq_true, oprsUnchangedP_iff s cuid x hx, operandsUnchanged_iff s cuid xs hxs,
      Operands.regnos, Operands.readsMem, List.forall_mem_append, Bool.or_eq_true, or_imp, and_and_and_comm]

end

/-- An expression is anticipatable at an insn exactly if no insn of the block before sets anything that it is made of. -/
theorem anticipatable_iff {cuid : Nat} (hrec : doNotRecord x = false) :
    oprsUnchangedP (setInfo t insns) cuid false x = true ↔ Unset t (insns.take cuid) x := by
  rw [oprsUnchangedP_iff _ _ _ hrec, memFirstSet_eq, findIdx_all]
  simp only [regFirstSet_eq, findIdx_all, List.contains_eq_mem, decide_eq_false_iff_not]
  exact ⟨fun h => ⟨h.1, h.2⟩, fun h => ⟨h.regs, h.mem⟩⟩

section Altered

variable {m : Nat} (prog : Program m) (bb : Fin (m + 1))

theorem mem_regSetTable (regno : Nat) : (regSetTable t prog regno).contains bb = true ↔
    ∃ insn ∈ prog bb, regno ∈ (noteStores t insn.pattern).filterMap recordedReg := by
  rw [regSetTable, List.contains_iff_mem, List.mem_flatMap]
  simp only [List.mem_finRange, true_and, List.mem_map, List.mem_filter, List.contains_iff_mem]
  exact ⟨fun ⟨_, insn, h, hbb⟩ => ⟨insn, hbb ▸ h⟩, fun ⟨insn, h⟩ => ⟨bb, insn, h, rfl⟩⟩

theorem mem_regsSet_pseudo {regno : Nat} (hregno : t.firstPseudoRegister ≤ regno) (insn : Insn) :
    regno ∈ regsSet t insn ↔ regno ∈ (noteStores t insn.pattern).filterMap recordedReg := by
  rw [regsSet, List.mem_append, or_iff_right_iff_imp]
  split_ifs
  · intro h
    have := List.mem_range.1 (List.mem_filter.1 h).1
    omega
  · intro h
    exact absurd h List.not_mem_nil

theorem altered_reg (mode : MachineMode) (regno : Nat) :
    altered t prog bb (.reg mode regno) = false ↔ ∀ insn ∈ prog bb, regno ∉ regsSet t insn := by
  rw [altered]
  split_ifs with hregno
  · rw [regSetInBlock_eq, List.any_eq_false]
    simp only [List.contains_iff_mem]
  · rw [Bool.eq_false_iff, ne_eq, mem_regSetTable]
    simp only [mem_regsSet_pseudo (Nat.le_of_not_lt hregno), not_exists, not_and]

mutual

/-- The blocks in which an expression is not transparent are those that set something that it is made of. -/
theorem altered_iff (x : Rtx) : altered t prog bb x = false ↔
    (∀ regno ∈ x.regnos, ∀ insn ∈ prog bb, regno ∉ regsSet t insn) ∧
      (x.readsMem = true → ∀ insn ∈ prog bb, memSet t insn = false) := by
  cases x with
  | reg mode regno =>
    rw [altered_reg, Rtx.regnos, List.forall_mem_singleton, Rtx.readsMem]
    exact (and_iff_left fun h => Bool.noConfusion h).symm
  | subreg mode word x => exact altered_iff x
  | part code mode x xs =>
    rw [altered, Bool.or_eq_false_iff, altered_iff x, operandsAltered_iff xs, Rtx.regnos, Rtx.readsMem,
      List.forall_mem_append, Bool.or_eq_true, or_imp, and_and_and_comm]
  | mem mode volatil aliasSet addr =>
    rw [altered, Bool.or_eq_false_iff, altered_iff addr, memSetInBlock_eq, List.any_eq_false]
    simp only [Bool.not_eq_true]
    exact ⟨fun h => ⟨h.2.1, fun _ => h.1⟩, fun h => ⟨h.2 rfl, h.1, fun _ => h.2 rfl⟩⟩
  | constInt value => simp [altered, Rtx.regnos, Rtx.readsMem]
  | constant code mode name => simp [altered, Rtx.regnos, Rtx.readsMem]
  | pc => simp [altered, Rtx.regnos, Rtx.readsMem]
  | cc0 => simp [altered, Rtx.regnos, Rtx.readsMem]
  | auto code mode x => exact altered_iff x
  | op code mode volatil fields xs => exact operandsAltered_iff xs

theorem operandsAltered_iff (xs : Operands) : operandsAltered t prog bb xs = false ↔
    (∀ regno ∈ xs.regnos, ∀ insn ∈ prog bb, regno ∉ regsSet t insn) ∧
      (xs.readsMem = true → ∀ insn ∈ prog bb, memSet t insn = false) := by
  cases xs with
  | nil => simp [operandsAltered, Operands.regnos, Operands.readsMem]
  | cons x xs =>
    rw [operandsAltered, Bool.or_eq_false_iff, altered_iff x, operandsAltered_iff xs, Operands.regnos,
      Operands.readsMem, List.forall_mem_append, Bool.or_eq_true, or_imp, and_and_and_comm]

end

theorem transparent_iff : altered t prog bb x = false ↔ Unset t (prog bb) x :=
  (altered_iff prog bb x).trans ⟨fun h => ⟨h.1, h.2⟩, fun h => ⟨h.regs, h.mem⟩⟩

end Altered

variable {V M : Type} (μ : Machine t V M)

theorem execInsns_append (insns insns' : List Insn) (st : State V M) :
    μ.execInsns (insns ++ insns') st = μ.execInsns insns' (μ.execInsns insns st) := List.foldl_append

theorem execInsns_regs {regno : Nat} (h : ∀ insn ∈ insns, regno ∉ regsSet t insn) (st : State V M) :
    (μ.execInsns insns st).regs regno = st.regs regno := by
  induction insns generalizing st with
  | nil => rfl
  | cons insn insns ih =>
    obtain ⟨hinsn, hinsns⟩ := List.forall_mem_cons.1 h
    exact (ih hinsns (μ.exec insn st)).trans (μ.frame_reg insn st regno hinsn)

theorem execInsns_mem (h : ∀ insn ∈ insns, memSet t insn = false) (st : State V M) :
    (μ.execInsns insns st).mem = st.mem := by
  induction insns generalizing st with
  | nil => rfl
  | cons insn insns ih =>
    obtain ⟨hinsn, hinsns⟩ := List.forall_mem_cons.1 h
    exact (ih hinsns (μ.exec insn st)).trans (μ.frame_mem insn st hinsn)

/-- An expression keeps its value while nothing that it is made of is set. -/
theorem eval_execInsns (hrec : doNotRecord x = false) (h : Unset t insns x) (st : State V M) :
    μ.eval (μ.execInsns insns st) x = μ.eval st x :=
  eval_congr x (fun regno hreg => execInsns_regs μ (h.regs regno hreg) st)
    (fun hx => execInsns_mem μ (h.mem hx) st) hrec

end Unchanged

end Z80Gcc.Gcse
