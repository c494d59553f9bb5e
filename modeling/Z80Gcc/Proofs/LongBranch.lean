import Mathlib
import Z80Gcc.Proofs.CompareBranch

/-! Branches on long values: the low halves are compared, the high halves subtracted with the
borrow. S and C then are those of the 32-bit subtraction; Z is that of its high half only. -/

namespace Z80Gcc

open Z80Gcc.Halves Z80Gcc.Adder

section Runs

variable {m : Machine} {l l2 : Nat} {listing : Listing}

/-- The straight form: both halves are subtracted and the branch tests the last flags. -/
theorem leaves_subtract_branch {x y : BitVec 32} {b : Branch}
    (h : Placed .hi m
      [.compare (lo16 x) (lo16 y), .subc (hi16 x) (hi16 y), .branch b l] listing) :
    ∃ k, b.template = some k ∧
      (z80.Leaves listing m l ↔
        k.onFlags (sbcFlags (hi16 x) (hi16 y) ((lo16 x).ult (lo16 y))) = true) := by
  obtain ⟨r, code₁, h₁, rfl⟩ := Placed.compare_inv h
  obtain ⟨r', code₂, h₂, rfl⟩ := Placed.subc_inv h₁
  obtain ⟨k, code₃, hk, h₃, rfl⟩ := h₂.branch_inv
  obtain rfl := h₃.nil_inv
  refine ⟨k, hk, ?_⟩
  have ht := Branch.template_test hk (z80.execs r'.subc (z80.execs r.cmp m))
  have hc : (z80.execs r.cmp m).flags.c = (lo16 x).ult (lo16 y) := by
    rw [r.cmp_flags]
    exact sbcFlags_c _ _
  rw [r'.subc_flags, hc] at ht
  have hp : z80.pass (Asm.ops r.cmp ++ (Asm.ops r'.subc ++ [.jump k l])) ⟨none, m⟩ =
      ⟨if k.onFlags (sbcFlags (hi16 x) (hi16 y) ((lo16 x).ult (lo16 y))) then some l else none,
        z80.execs r'.subc (z80.execs r.cmp m)⟩ := by
    rw [Asm.Isa.pass_append, Asm.Isa.pass_ops, Asm.Isa.pass_append, Asm.Isa.pass_ops]
    simp [ht]
  rw [Asm.Isa.leaves_iff_of_pass l hp]
  · simp
  · intro l' _
    simp [Asm.labels_append, Asm.labels]

/-- The form with an early way out: a jump after the low halves skips the high halves. -/
theorem leaves_skip_branch {x y : BitVec 32} {b b2 : Branch} (hl : l ≠ l2)
    (h : Placed .hi m
      [.compare (lo16 x) (lo16 y), .branch b2 l2, .subc (hi16 x) (hi16 y), .branch b l,
        .label l2] listing) :
    ∃ k2 k, b2.template = some k2 ∧ b.template = some k ∧
      (z80.Leaves listing m l ↔
        k2.onFlags (sbcFlags (lo16 x) (lo16 y) false) = false ∧
        k.onFlags (sbcFlags (hi16 x) (hi16 y) ((lo16 x).ult (lo16 y))) = true) := by
  obtain ⟨r, code₁, h₁, rfl⟩ := Placed.compare_inv h
  obtain ⟨k2, code₂, hk2, h₂, rfl⟩ := h₁.branch_inv
  obtain ⟨r', code₃, h₃, rfl⟩ := Placed.subc_inv h₂
  obtain ⟨k, code₄, hk, h₄, rfl⟩ := h₃.branch_inv
  obtain ⟨code₅, h₅, rfl⟩ := h₄.label_inv
  obtain rfl := h₅.nil_inv
  refine ⟨k2, k, hk2, hk, ?_⟩
  have ht2 : k2.test (z80.execs r.cmp m) =
      (k2.onFlags (sbcFlags (lo16 x) (lo16 y) false), z80.execs r.cmp m) := by
    have ht := Branch.template_test hk2 (z80.execs r.cmp m)
    rw [r.cmp_flags] at ht
    exact ht
  have ht := Branch.template_test hk (z80.execs r'.subc (z80.execs r.cmp m))
  have hc : (z80.execs r.cmp m).flags.c = (lo16 x).ult (lo16 y) := by
    rw [r.cmp_flags]
    exact sbcFlags_c _ _
  rw [r'.subc_flags, hc] at ht
  have hfin : ∀ f : Asm.Flow Nat Machine, f.seek = some l ∨ f.seek = none →
      f.Final (Asm.ops r.cmp ++ .jump k2 l2 :: (Asm.ops r'.subc ++ [.jump k l, .label l2])) := by
    rintro f (hf | hf) l' hl'
    · rw [hf, Option.some.injEq] at hl'
      simp [Asm.labels_append, Asm.labels, ← hl', hl]
    · simp [hf] at hl'
  by_cases hskip : k2.onFlags (sbcFlags (lo16 x) (lo16 y) false) = true
  · have hp : z80.pass
        (Asm.ops r.cmp ++ .jump k2 l2 :: (Asm.ops r'.subc ++ [.jump k l, .label l2])) ⟨none, m⟩ =
        ⟨none, z80.execs r.cmp m⟩ := by
      rw [Asm.Isa.pass_append, Asm.Isa.pass_ops, Asm.Isa.pass_cons, Asm.Isa.line_jump,
        z80_branch, ht2, Asm.Isa.pass_append]
      simp [hskip]
    rw [Asm.Isa.leaves_iff_of_pass l hp (hfin _ (.inr rfl))]
    simp [hskip]
  · have hp : z80.pass
        (Asm.ops r.cmp ++ .jump k2 l2 :: (Asm.ops r'.subc ++ [.jump k l, .label l2])) ⟨none, m⟩ =
        ⟨if k.onFlags (sbcFlags (hi16 x) (hi16 y) ((lo16 x).ult (lo16 y))) then some l else none,
          z80.execs r'.subc (z80.execs r.cmp m)⟩ := by
      rw [Asm.Isa.pass_append, Asm.Isa.pass_ops, Asm.Isa.pass_cons, Asm.Isa.line_jump,
        z80_branch, ht2, Asm.Isa.pass_append]
      by_cases hj : k.onFlags (sbcFlags (hi16 x) (hi16 y) ((lo16 x).ult (lo16 y))) = true <;>
        simp [hskip, ht, hj, hl]
    rw [Asm.Isa.leaves_iff_of_pass l hp (hfin _ _)]
    · simp [hskip]
    · by_cases hj : k.onFlags (sbcFlags (hi16 x) (hi16 y) ((lo16 x).ult (lo16 y))) = true <;>
        simp [hj]

/-- When the long branch goes where its code says. Signed orders are read off S alone; `NE`
jumps to the way out as soon as the low halves are equal, and after the high halves it tests the
high half of the difference, borrow included. -/
def Code.LongExact (code : Code) (x y : BitVec 32) : Prop :=
  match code with
  | .eq | .ltu | .leu | .gtu | .geu => True
  | .ne => x = y ∨ (lo16 x ≠ lo16 y ∧ hi16 (x - y) ≠ 0)
  | .lt | .ge => BitVec.ssubOverflow x y = false
  | .gt | .le => BitVec.ssubOverflow y x = false

theorem sbcFlags_hi16_z (x y : BitVec 32) :
    (sbcFlags (hi16 x) (hi16 y) ((lo16 x).ult (lo16 y))).z = (hi16 (x - y) == 0) := by
  rw [sbcFlags, sbc_hi16]

theorem hi16_sub_of_lo16_eq {x y : BitVec 32} (h : lo16 x = lo16 y) :
    hi16 (x - y) = 0#16 ↔ x = y := by
  rw [← sbc_hi16, h, ult_self, sbc_false, sub_eq_zero_iff, eq_iff_halves]
  simp [h]

/-- The subtracting branches: right exactly when the template's flag test is the relation. -/
theorem leaves_subtract_branch_iff {x y : BitVec 32} (code : Code)
    (hc : code = .lt ∨ code = .ge ∨ code = .ltu ∨ code = .geu)
    (h : Placed .hi m
      [.compare (lo16 x) (lo16 y), .subc (hi16 x) (hi16 y), .branch ⟨code, false⟩ l] listing) :
    (z80.Leaves listing m l ↔ code.holds x y = true) ↔ code.LongExact x y := by
  obtain ⟨k, hk, hl⟩ := leaves_subtract_branch h
  rw [hl, ← Bool.eq_iff_iff, Code.holds_eq]
  rcases hc with rfl | rfl | rfl | rfl <;>
    simp only [Branch.template, Option.some.injEq] at hk <;> subst hk <;>
    simp [Cond.onFlags, sbcFlags_hi16_s, sbcFlags_hi16_c, Code.LongExact, xor_eq_left_iff]

end Runs

def longPairs (x y : BitVec 32) : Machine :=
  .ofRegs 0 (lo16 x) (hi16 x) (lo16 y) 0 (hi16 y) 0x1000

theorem isMove_nil : ∀ i ∈ ([] : List Instr), i.isMove = true := List.forall_mem_nil _

theorem bc_is_operand : Pair.bc = .hl ∨ Pair.bc = .bc ∨ Pair.bc = .de := by decide

def lowReload (x y : BitVec 32) : Reload .hi (longPairs x y) (lo16 x) (lo16 y) where
  moves := []
  areMoves := isMove_nil
  op1 := ⟨.bc, bc_is_operand⟩
  value0_eq := rfl
  value1_eq := rfl

def highReload (x y : BitVec 32) :
    Reload .hi (z80.execs (lowReload x y).cmp (longPairs x y)) (hi16 x) (hi16 y) where
  moves := [.push (.pair .de), .pop (.pair .hl), .push (.pair .iy), .pop (.pair .bc)]
  areMoves := by simp [Instr.isMove]
  op1 := ⟨.bc, bc_is_operand⟩
  value0_eq := by
    simp [CmpMode.value0, Reload.cmp, lowReload, CmpMode.cmp, cmphi1, Instr.exec, Machine.get16,
      Machine.set16, longPairs, Machine.ofRegs]
    rfl
  value1_eq := by
    simp [CmpMode.value1, Reload.cmp, lowReload, CmpMode.cmp, cmphi1, Instr.exec, Machine.get16,
      Machine.set16, longPairs, Machine.ofRegs]
    rfl

end Z80Gcc
