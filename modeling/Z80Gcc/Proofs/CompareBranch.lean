import Z80Gcc.Sanity.Machine
import Z80Gcc.Spec.CompareBranch

/-! When a compare and branch takes its jump. The flags after a compare are those of one
subtraction; the flags after the two compares of a long value are those of the 32-bit
subtraction, its zero flag excepted. -/

namespace Z80Gcc

open Z80Gcc.Halves Z80Gcc.Adder

theorem Instr.exec_flags_of_isMove {i : Instr} (h : i.isMove = true) (m : Machine) :
    (i.exec m).flags = m.flags := by
  cases i <;> simp_all [Instr.isMove, Instr.exec]

theorem execs_flags_of_isMove {is : List Instr} (h : ∀ i ∈ is, i.isMove = true) (m : Machine) :
    (z80.execs is m).flags = m.flags := by
  induction is generalizing m with
  | nil => rfl
  | cons i is ih =>
    rw [Asm.Isa.execs_cons, ih fun j hj => h j (List.mem_cons_of_mem i hj)]
    exact Instr.exec_flags_of_isMove (h i List.mem_cons_self) m

/-- Both compares of a mode leave the flags of the subtraction of their operands. -/
theorem CmpMode.cmp_flags (mode : CmpMode) (r : mode.Operand1) (m : Machine) :
    (z80.execs (mode.cmp r) m).flags = sbcFlags (mode.value0 m) (mode.value1 r m) false := by
  cases mode with
  | qi => rfl
  | hi =>
    rcases r with ⟨p, rfl | rfl | rfl⟩ <;> rfl

namespace Reload

variable {mode : CmpMode} {m : Machine}

theorem cmp_flags {x y : BitVec mode.width} (r : Reload mode m x y) :
    (z80.execs r.cmp m).flags = sbcFlags x y false := by
  rw [cmp, Asm.Isa.execs_append, CmpMode.cmp_flags, r.value0_eq, r.value1_eq]

/-- The borrow of the low half goes into the subtraction of the high half. -/
theorem subc_flags {x y : BitVec 16} (r : Reload .hi m x y) :
    (z80.execs r.subc m).flags = sbcFlags x y m.flags.c := by
  have hc := execs_flags_of_isMove r.areMoves m
  have h0 := r.value0_eq
  have h1 := r.value1_eq
  simp only [CmpMode.value0, CmpMode.value1] at h0 h1
  rw [subc, Asm.Isa.execs_append, ← hc]
  simp [subchi3, Instr.exec, Machine.get16, h0, h1]

end Reload

def Cond.onFlags (k : Cond) (f : Flags) : Bool :=
  match k with
  | .always => true
  | .z => f.z
  | .nz => !f.z
  | .c => f.c
  | .nc => !f.c
  | .m => f.s
  | .p => !f.s
  | .djnz => false

theorem Branch.template_test {b : Branch} {k : Cond} (h : b.template = some k) (m : Machine) :
    k.test m = (k.onFlags m.flags, m) := by
  rcases b with ⟨_ | _ | _ | _ | _ | _ | _ | _ | _ | _, _ | _⟩ <;>
    simp only [Branch.template, Option.some.injEq, reduceCtorEq] at h <;> subst h <;> rfl

/-- When a branch pattern jumps as its condition says: signed tests read S alone, so the
subtraction must not overflow; a strict order is tested as the weak one, so the values must
differ. -/
def Branch.Exact {w : Nat} (b : Branch) (x y : BitVec w) : Prop :=
  match b.code with
  | .eq | .ne | .ltu => True
  | .geu => b.negated = false
  | .gtu | .leu => x ≠ y
  | .lt | .ge => BitVec.ssubOverflow x y = false
  | .gt | .le => BitVec.ssubOverflow x y = false ∧ x ≠ y

section Order

variable {w : Nat} (x y : BitVec w)

theorem slt_swap : y.slt x = (!decide (x = y) && !x.slt y) := by
  rw [Bool.eq_iff_iff]
  simp only [BitVec.slt_iff_toInt_lt, Bool.and_eq_true, Bool.not_eq_true', ← BitVec.toInt_inj,
    ← Bool.not_eq_true, decide_eq_true_iff, not_lt]
  omega

theorem ult_swap : y.ult x = (!decide (x = y) && !x.ult y) := by
  rw [Bool.eq_iff_iff]
  simp only [BitVec.ult_iff_lt, BitVec.lt_def, Bool.and_eq_true, Bool.not_eq_true',
    ← BitVec.toNat_inj, ← Bool.not_eq_true, decide_eq_true_iff, not_lt]
  omega

theorem sle_eq : x.sle y = (decide (x = y) || x.slt y) := by
  rw [Bool.eq_iff_iff]
  simp only [BitVec.sle_iff_toInt_le, BitVec.slt_iff_toInt_lt, Bool.or_eq_true,
    decide_eq_true_iff, ← BitVec.toInt_inj]
  omega

theorem ule_eq : x.ule y = (decide (x = y) || x.ult y) := by
  rw [Bool.eq_iff_iff]
  simp only [BitVec.ule_iff_toNat_le, BitVec.ult_iff_lt, BitVec.lt_def, Bool.or_eq_true,
    decide_eq_true_iff, ← BitVec.toNat_inj]
  omega

theorem slt_self : x.slt x = false := by
  simp [BitVec.slt]

theorem ult_self : x.ult x = false := by
  simp [BitVec.ult]

theorem ssubOverflow_self : BitVec.ssubOverflow x x = false := by
  simp [BitVec.ssubOverflow]

end Order

/-- Each relation is a function of equality and of the strict orders. -/
theorem Code.holds_eq {w : Nat} (k : Code) (x y : BitVec w) :
    k.holds x y =
      match k with
      | .eq => decide (x = y)
      | .ne => !decide (x = y)
      | .lt => x.slt y
      | .le => decide (x = y) || x.slt y
      | .gt => !(decide (x = y) || x.slt y)
      | .ge => !x.slt y
      | .ltu => x.ult y
      | .leu => decide (x = y) || x.ult y
      | .gtu => !(decide (x = y) || x.ult y)
      | .geu => !x.ult y := by
  by_cases h : x = y
  · subst h
    cases k <;> simp [Code.holds, sle_eq, ule_eq, slt_self, ult_self]
  · cases k <;> simp [Code.holds, sle_eq, ule_eq, slt_swap x y, ult_swap x y, h, Ne.symm h]

theorem xor_eq_left_iff (a b : Bool) : (a ^^ b) = a ↔ b = false := by
  cases a <;> cases b <;> decide

theorem Branch.onFlags_iff {w : Nat} (b : Branch) (x y : BitVec w) :
    (∃ k, b.template = some k ∧ k.onFlags (sbcFlags x y false) = b.jumps x y) ↔
      b.Exact x y := by
  rcases b with ⟨k, n⟩
  simp only [Branch.jumps, Code.holds_eq, Branch.Exact]
  by_cases h : x = y
  · subst h
    cases k <;> cases n <;>
      simp [Branch.template, Cond.onFlags, sbcFlags_s, sbcFlags_z, sbcFlags_c, slt_self,
        ult_self, ssubOverflow_self]
  · cases k <;> cases n <;>
      simp [Branch.template, Cond.onFlags, sbcFlags_s, sbcFlags_z, sbcFlags_c, h, xor_eq_left_iff]

namespace Placed

variable {mode : CmpMode} {m : Machine} {rest : List (Emit mode.width)} {code : Listing}

theorem nil_inv (h : Placed mode m [] code) : code = [] := by
  cases h
  rfl

theorem compare_inv {x y : BitVec mode.width} (h : Placed mode m (.compare x y :: rest) code) :
    ∃ (r : Reload mode m x y) (code' : Listing),
      Placed mode (z80.execs r.cmp m) rest code' ∧ code = Asm.ops r.cmp ++ code' := by
  cases h with
  | compare r h => exact ⟨r, _, h, rfl⟩

theorem branch_inv {b : Branch} {l : Nat} (h : Placed mode m (.branch b l :: rest) code) :
    ∃ (k : Cond) (code' : Listing),
      b.template = some k ∧ Placed mode m rest code' ∧ code = .jump k l :: code' := by
  cases h with
  | branch hk h => exact ⟨_, _, hk, h, rfl⟩

theorem label_inv {l : Nat} (h : Placed mode m (.label l :: rest) code) :
    ∃ code' : Listing, Placed mode m rest code' ∧ code = .label l :: code' := by
  cases h with
  | label h => exact ⟨_, h, rfl⟩

theorem subc_inv {x y : BitVec 16} {rest : List (Emit 16)}
    (h : Placed .hi m (.subc x y :: rest) code) :
    ∃ (r : Reload .hi m x y) (code' : Listing),
      Placed .hi (z80.execs r.subc m) rest code' ∧ code = Asm.ops r.subc ++ code' := by
  cases h with
  | subc r h => exact ⟨r, _, h, rfl⟩

end Placed

/-- A compare and a branch leave for the label exactly when the flags pass the branch's test. -/
theorem leaves_compare_branch {mode : CmpMode} {m : Machine} {x y : BitVec mode.width}
    {b : Branch} {l : Nat} {code : Listing}
    (h : Placed mode m [.compare x y, .branch b l] code) :
    ∃ k, b.template = some k ∧
      (z80.Leaves code m l ↔ k.onFlags (sbcFlags x y false) = true) := by
  obtain ⟨r, code₁, h₁, rfl⟩ := h.compare_inv
  obtain ⟨k, code₂, hk, h₂, rfl⟩ := h₁.branch_inv
  obtain rfl := h₂.nil_inv
  refine ⟨k, hk, ?_⟩
  have ht := Branch.template_test hk (z80.execs r.cmp m)
  rw [r.cmp_flags] at ht
  have hp : z80.pass (Asm.ops r.cmp ++ [.jump k l]) ⟨none, m⟩ =
      ⟨if k.onFlags (sbcFlags x y false) then some l else none, z80.execs r.cmp m⟩ := by
    rw [Asm.Isa.pass_append, Asm.Isa.pass_ops]
    simp [ht]
  rw [Asm.Isa.leaves_iff_of_pass l hp]
  · simp
  · intro l' _
    simp [Asm.labels_append, Asm.labels]

/-- When the expander's QImode and HImode code jumps as asked: `GT`, `LE` and their unsigned
forms are swapped first, so only overflow of the subtraction made can mislead it. -/
def Code.ExpandExact {w : Nat} (code : Code) (x y : BitVec w) : Prop :=
  match code with
  | .lt | .ge => BitVec.ssubOverflow x y = false
  | .gt | .le => BitVec.ssubOverflow y x = false
  | _ => True

/-- The branch that the expander emits, and the operands it compares. -/
theorem expand_whole {w : Nat} (code : Code) (x y : BitVec w) (l : Nat) :
    ∃ (b : Branch) (x' y' : BitVec w),
      z80ExpandCompareAndBranch code x y l .whole = [.compare x' y', .branch b l] ∧
        b.jumps x' y' = code.holds x y ∧ (b.Exact x' y' ↔ code.ExpandExact x y) := by
  cases code
  case gt => exact ⟨⟨.lt, false⟩, y, x, rfl, by simp [Branch.jumps, Code.holds], Iff.rfl⟩
  case le => exact ⟨⟨.ge, false⟩, y, x, rfl, by simp [Branch.jumps, Code.holds], Iff.rfl⟩
  case gtu => exact ⟨⟨.ltu, false⟩, y, x, rfl, by simp [Branch.jumps, Code.holds], Iff.rfl⟩
  case leu =>
    exact ⟨⟨.geu, false⟩, y, x, rfl, by simp [Branch.jumps, Code.holds],
      by simp [Branch.Exact, Code.ExpandExact]⟩
  case geu =>
    exact ⟨⟨.geu, false⟩, x, y, rfl, by simp [Branch.jumps],
      by simp [Branch.Exact, Code.ExpandExact]⟩
  case eq => exact ⟨⟨.eq, false⟩, x, y, rfl, by simp [Branch.jumps], Iff.rfl⟩
  case ne => exact ⟨⟨.ne, false⟩, x, y, rfl, by simp [Branch.jumps], Iff.rfl⟩
  case lt => exact ⟨⟨.lt, false⟩, x, y, rfl, by simp [Branch.jumps], Iff.rfl⟩
  case ge => exact ⟨⟨.ge, false⟩, x, y, rfl, by simp [Branch.jumps], Iff.rfl⟩
  case ltu => exact ⟨⟨.ltu, false⟩, x, y, rfl, by simp [Branch.jumps], Iff.rfl⟩

/-- A branch pattern is right about two values: final prints code for it after their compare,
and that code leaves for the label exactly when the pattern's condition says so. -/
def Branch.Right (b : Branch) (mode : CmpMode) (m : Machine) (x y : BitVec mode.width)
    (l : Nat) : Prop :=
  (∃ code, Placed mode m [.compare x y, .branch b l] code) ∧
    ∀ code, Placed mode m [.compare x y, .branch b l] code →
      (z80.Leaves code m l ↔ b.jumps x y = true)

theorem leaves_iff_jumps {mode : CmpMode} {m : Machine} {x y : BitVec mode.width} {b : Branch}
    {l : Nat} {code : Listing} (h : Placed mode m [.compare x y, .branch b l] code) :
    (z80.Leaves code m l ↔ b.jumps x y = true) ↔ b.Exact x y := by
  obtain ⟨k, hk, hl⟩ := leaves_compare_branch h
  rw [hl, ← Bool.eq_iff_iff, ← Branch.onFlags_iff]
  constructor
  · intro he
    exact ⟨k, hk, he⟩
  · rintro ⟨k', hk', he⟩
    rw [hk, Option.some.injEq] at hk'
    rw [hk', he]

theorem Branch.right_iff (b : Branch) {mode : CmpMode} {m : Machine}
    {x y : BitVec mode.width} (r : Reload mode m x y) (l : Nat) :
    b.Right mode m x y l ↔ b.Exact x y := by
  constructor
  · rintro ⟨⟨code, hc⟩, h⟩
    exact (leaves_iff_jumps hc).mp (h code hc)
  · intro he
    obtain ⟨k, hk, -⟩ := (Branch.onFlags_iff b x y).mpr he
    exact ⟨⟨_, .compare r (.branch hk .nil)⟩, fun code hc => (leaves_iff_jumps hc).mpr he⟩

/-- Word and byte branches: the expander's code is right exactly without signed overflow of the
subtraction it makes, and each of the twenty patterns exactly under its own condition. -/
theorem compare_branch_right_iff (mode : CmpMode) (m : Machine) (x y : BitVec mode.width)
    (l : Nat) :
    (∀ (code : Code) (listing : Listing),
      Placed mode m (z80ExpandCompareAndBranch code x y l .whole) listing →
        ((z80.Leaves listing m l ↔ code.holds x y = true) ↔ code.ExpandExact x y)) ∧
    ∀ (b : Branch) (_ : Reload mode m x y), b.Right mode m x y l ↔ b.Exact x y := by
  refine ⟨?_, fun b r => b.right_iff r l⟩
  intro code listing h
  obtain ⟨b, x', y', he, hj, hx⟩ := expand_whole code x y l
  rw [he] at h
  rw [← hj, ← hx]
  exact leaves_iff_jumps h

def reloadBytes (x : BitVec 8) (de : BitVec 16) :
    Reload .qi (Machine.ofRegs x 0 de 0 0 0 0) x (lo8 de) where
  moves := []
  areMoves := by simp
  op1 := Reg8.e
  value0_eq := rfl
  value1_eq := rfl

theorem compare_branch_right_three_five :
    z80.Leaves [.op (.alu .cp (.reg .e)), .jump .m 7] (Machine.ofRegs 3 0 5 0 0 0 0) 7 ∧
      ¬(Branch.mk .gtu false).Right .qi (Machine.ofRegs 3 0 3 0 0 0 0) 3 3 7 := by
  constructor
  · have h := (compare_branch_right_iff .qi (Machine.ofRegs 3 0 5 0 0 0 0) 3 5 7).1 .lt _
      (.compare (reloadBytes 3 5) (.branch rfl .nil))
    have hx : BitVec.ssubOverflow (3 : BitVec 8) 5 = false := by decide
    exact (h.mpr hx).mpr (by decide)
  · rw [(compare_branch_right_iff .qi (Machine.ofRegs 3 0 3 0 0 0 0) 3 3 7).2 _ (reloadBytes 3 3)]
    simp [Branch.Exact]

/-- `-128 < 1` is not seen: the difference 127 has a clear sign. The negated `geu` has no text. -/
theorem compare_branch_wrong_minus128_one :
    (∃ listing, Placed .qi (Machine.ofRegs 0x80 0 1 0 0 0 0)
        (z80ExpandCompareAndBranch .lt (0x80 : BitVec 8) 1 7 .whole) listing ∧
      ¬(z80.Leaves listing (Machine.ofRegs 0x80 0 1 0 0 0 0) 7 ↔
        Code.lt.holds (0x80 : BitVec 8) 1 = true)) ∧
    ¬(Branch.mk .geu true).Right .qi (Machine.ofRegs 0x80 0 1 0 0 0 0) 0x80 1 7 := by
  have r : Reload .qi (Machine.ofRegs 0x80 0 1 0 0 0 0) 0x80 1 := reloadBytes 0x80 1
  constructor
  · have h : Placed .qi (Machine.ofRegs 0x80 0 1 0 0 0 0)
        [.compare 0x80 1, .branch ⟨.lt, false⟩ 7] _ := .compare r (.branch rfl .nil)
    refine ⟨_, h, fun hc => ?_⟩
    have hj : (Branch.mk .lt false).jumps (0x80 : BitVec 8) 1 = Code.lt.holds (0x80 : BitVec 8) 1 :=
      rfl
    have hx := (leaves_iff_jumps h).mp (hj ▸ hc)
    have ho : BitVec.ssubOverflow (0x80 : BitVec 8) 1 = true := by decide
    exact absurd (ho.symm.trans hx) (by decide)
  · rw [Branch.right_iff _ r]
    simp [Branch.Exact]

end Z80Gcc
