import Z80Gcc.Proofs.Extend
import Z80Gcc.Proofs.LongArith
import Z80Gcc.Spec.Logic

/-! Which bitwise operations are right: all on registers and memory in QImode and SImode, those on
HL, DE and BC in HImode; an immediate byte is never read. -/

namespace Z80Gcc

open Z80Gcc.Halves Z80Gcc.Adder

namespace LogicOp

variable (op : LogicOp)

theorem exec_template (m : Machine) (s : Src8) :
    z80.execs (op.template s) m =
      (m.setA (op.apply m.a (m.src8 s))).setFlags (logicFlags (op.apply m.a (m.src8 s)) false) := by
  cases op <;> rfl

theorem qi3_reg (r : Reg8) : op.qi3 (.reg r) = op.template (.reg r) := by
  cases op <;> rfl

theorem apply_append {w v : Nat} (h h' : BitVec w) (l l' : BitVec v) :
    op.apply (h ++ l) (h' ++ l') = op.apply h h' ++ op.apply l l' := by
  cases op with
  | and => exact BitVec.and_append
  | ior => exact BitVec.or_append
  | xor => exact BitVec.xor_append

theorem apply_halves (x y : BitVec 16) :
    op.apply x y = op.apply (hi8 x) (hi8 y) ++ op.apply (lo8 x) (lo8 y) := by
  rw [← apply_append, hi8_append_lo8, hi8_append_lo8]

end LogicOp

/-- The registers whose halves the templates can name. -/
def Halved (p : Pair) : Prop := p ≠ .ix ∧ p ≠ .iy

theorem lowByte_of_halved {p : Pair} (h : Halved p) : lowByte p = .half p .lo := by
  cases p <;> simp_all [Halved, lowByte]

theorem lowByte_of_not_halved {p : Pair} (h : ¬Halved p) : lowByte p = .half p .hi := by
  cases p <;> simp_all [Halved, lowByte]

instance (p : Pair) : Decidable (Halved p) := inferInstanceAs (Decidable (_ ∧ _))

theorem exists_lowByte (q : Pair) : ∃ h, lowByte q = .half q h := by
  cases q
  all_goals exact ⟨_, rfl⟩

section Splits

variable (op : LogicOp) (m : Machine)

/-- What the split leaves in a register with halves: each byte combined with the byte that the
template names for operand 2. -/
theorem hi3_pair_of_halved {p q : Pair} (hp : Halved p) :
    ∃ code, op.hi3 (.pair p) (.pair q) = some code ∧
      z80.execs code m =
        ((m.setPair p (op.apply (hi8 (m.pair p)) (hi8 (m.pair q)) ++
          op.apply (lo8 (m.pair p)) (m.get8 (lowByte q)))).setA
            (op.apply (hi8 (m.pair p)) (hi8 (m.pair q)))).setFlags
              (logicFlags (op.apply (hi8 (m.pair p)) (hi8 (m.pair q))) false) := by
  obtain ⟨h, hq⟩ := exists_lowByte q
  refine ⟨_, rfl, ?_⟩
  have hhi : ∀ v : BitVec 8, hi8 ((m.setPair p (hi8 (m.pair p) ++ v)).pair q) = hi8 (m.pair q) := by
    intro v
    by_cases e : q = p
    · subst e
      simp
    · simp [e]
  simp [lowByte_of_halved hp, hq, highByte, LogicOp.qi3_reg, LogicOp.exec_template,
    Asm.Isa.execs_append, ldReg, Instr.exec, Machine.setLoc8, Machine.src8, hhi]

/-- What the split leaves in IX or IY: the high byte combined twice, the low byte as it was. -/
theorem hi3_pair_of_not_halved {p q : Pair} (hp : ¬Halved p) :
    ∃ code, op.hi3 (.pair p) (.pair q) = some code ∧
      (z80.execs code m).pair p =
        op.apply (op.apply (hi8 (m.pair p)) (m.get8 (lowByte q)))
          (if q = p then op.apply (hi8 (m.pair p)) (m.get8 (lowByte q)) else hi8 (m.pair q)) ++
          lo8 (m.pair p) := by
  obtain ⟨h, hq⟩ := exists_lowByte q
  refine ⟨_, rfl, ?_⟩
  by_cases e : q = p
  · subst e
    simp [lowByte_of_not_halved hp, highByte, LogicOp.qi3_reg, LogicOp.exec_template,
      Asm.Isa.execs_append, ldReg, Instr.exec, Machine.setLoc8, Machine.src8]
  · simp [lowByte_of_not_halved hp, hq, highByte, LogicOp.qi3_reg, LogicOp.exec_template,
      Asm.Isa.execs_append, ldReg, Instr.exec, Machine.setLoc8, Machine.src8, e]

/-- Between registers with halves the split computes the operation. -/
theorem hi3_of_halved {p q : Pair} (hp : Halved p) (hq : Halved q) :
    ∃ code, op.hi3 (.pair p) (.pair q) = some code ∧ ∀ m,
      z80.execs code m =
        ((m.setPair p (op.apply (m.pair p) (m.pair q))).setA
          (op.apply (hi8 (m.pair p)) (hi8 (m.pair q)))).setFlags
            (logicFlags (op.apply (hi8 (m.pair p)) (hi8 (m.pair q))) false) := by
  refine ⟨_, rfl, fun m => ?_⟩
  obtain ⟨code, hc, hexec⟩ := hi3_pair_of_halved op m (q := q) hp
  obtain rfl := Option.some.inj hc
  rw [hexec, lowByte_of_halved hq, Machine.get8_lo, ← LogicOp.apply_halves]

theorem si3_right (src : LongSource) :
    ∃ code, op.si3 src = some code ∧
      LongReg.hl.value (z80.execs code m) =
        op.apply (LongReg.hl.value m) (src.value m) := by
  obtain ⟨low, hlow, elow⟩ := hi3_of_halved op (p := .hl) (q := .bc) (by decide) (by decide)
  obtain ⟨high, hhigh, ehigh⟩ := hi3_of_halved op (p := .de) (q := .bc) (by decide) (by decide)
  rw [LogicOp.si3, hlow, hhigh]
  cases src with
  | reg r =>
    cases r <;> refine ⟨_, rfl, ?_⟩ <;>
      simp [LongReg.value, LongSource.value, LongReg.low, LongReg.high, Asm.Isa.execs_append, elow,
        ehigh, Instr.exec, Machine.set16, Machine.get16] <;>
      exact (op.apply_append _ _ _ _).symm
  | mem a =>
    refine ⟨_, rfl, ?_⟩
    simp [LongReg.value, LongSource.value, LongReg.low, LongReg.high, Asm.Isa.execs_append, elow,
      ehigh, Instr.exec, Machine.set16, Machine.src16]
    exact (op.apply_append _ _ _ _).symm
  | constInt v =>
    refine ⟨_, rfl, ?_⟩
    simp [LongReg.value, LongSource.value_constInt, LongReg.low, LongReg.high,
      Asm.Isa.execs_append, elow, ehigh, Instr.exec, Machine.set16, Machine.src16]
    exact (op.apply_append _ _ _ _).symm

end Splits

/-- When a logic insn with an immediate leaves its result: the immediate is never read. -/
def ImmediateExact (op : LogicOp) (v : Int) (m : Machine) : Prop :=
  match op with
  | .and => BitVec.ofInt 8 v = 0#8 ∨ m.a &&& BitVec.ofInt 8 v = m.a
  | .ior => m.a ||| BitVec.ofInt 8 v = m.a
  | .xor => v % 0x10000 = 0 ∨ BitVec.ofInt 8 v = m.a

/-- When an HImode logic insn leaves its result: both halves of IX and IY are their high byte. -/
def PairExact (op : LogicOp) (p q : Pair) (m : Machine) : Prop :=
  if Halved p then
    op.apply (lo8 (m.pair p)) (m.get8 (lowByte q)) = op.apply (lo8 (m.pair p)) (lo8 (m.pair q))
  else
    op.apply (op.apply (hi8 (m.pair p)) (m.get8 (lowByte q)))
        (if q = p then op.apply (hi8 (m.pair p)) (m.get8 (lowByte q)) else hi8 (m.pair q)) =
      op.apply (hi8 (m.pair p)) (hi8 (m.pair q)) ∧
    lo8 (m.pair p) = op.apply (lo8 (m.pair p)) (lo8 (m.pair q))

def LogicInsn.Exact (op : LogicOp) (insn : LogicInsn) (m : Machine) : Prop :=
  match insn with
  | qi (.constInt v) => ImmediateExact op v m
  | qi _ => True
  | hi (.pair p) (.pair q) => PairExact op p q m
  | hi _ _ => False
  | si _ => True

def LogicInsn.Right (op : LogicOp) (insn : LogicInsn) (m : Machine) : Prop :=
  ∃ code, insn.code op = some code ∧ insn.Holds op m (z80.execs code m)

section Cases

variable (op : LogicOp) (m : Machine)

theorem LogicInsn.right_iff (insn : LogicInsn) {code : List Instr} (h : insn.code op = some code) :
    insn.Right op m ↔ insn.Holds op m (z80.execs code m) := by
  simp [LogicInsn.Right, h]

theorem ofInt_eq_iff {v : Int} {n : Nat} (hn : n < 256) :
    BitVec.ofInt 8 v = BitVec.ofNat 8 n ↔ v % 0x100 = n := by
  rw [← BitVec.toNat_inj, BitVec.toNat_ofInt, BitVec.toNat_ofNat]
  omega

theorem immediate_right_iff (v : Int) :
    (LogicInsn.qi (.constInt v)).Right op m ↔ ImmediateExact op v m := by
  rw [LogicInsn.right_iff op m _ rfl, LogicInsn.Holds, ByteSource.value]
  have exec : ∀ op : LogicOp, (z80.execs (op.template (.reg .a)) m).a = op.apply m.a m.a := by
    intro op
    rw [op.exec_template]
    rfl
  cases op with
  | and =>
    simp only [LogicOp.qi3, andqi3, LogicOp.apply, ImmediateExact]
    split_ifs with h1 h0
    · rw [(ofInt_eq_iff (n := 255) (by decide)).mpr h1, or_iff_right (by decide), eq_comm]
      rfl
    · rw [(ofInt_eq_iff (n := 0) (by decide)).mpr h0]
      simp [ldImm, Instr.exec, Machine.setLoc8, Machine.src8]
    · have hne : BitVec.ofInt 8 v ≠ 0#8 := fun e => h0 ((ofInt_eq_iff (n := 0) (by decide)).mp e)
      rw [exec, LogicOp.apply, BitVec.and_self, or_iff_right hne, eq_comm]
  | ior =>
    simp only [LogicOp.qi3, iorqi3, LogicOp.apply, ImmediateExact]
    split_ifs with h0
    · rw [(ofInt_eq_iff (n := 0) (by decide)).mpr h0]
      simp
    · rw [exec, LogicOp.apply, BitVec.or_self, eq_comm]
  | xor =>
    simp only [LogicOp.qi3, xorqi3, LogicOp.apply, ImmediateExact]
    split_ifs with h0
    · rw [(ofInt_eq_iff (n := 0) (by decide)).mpr (by omega)]
      exact iff_of_true (by simp) (.inl h0)
    · rw [exec, LogicOp.apply, BitVec.xor_self, or_iff_right h0, eq_comm, BitVec.xor_eq_zero_iff,
        eq_comm]

theorem registers_right_iff (p q : Pair) :
    (LogicInsn.hi (.pair p) (.pair q)).Right op m ↔ PairExact op p q m := by
  rw [PairExact]
  by_cases hp : Halved p
  · obtain ⟨code, hc, hexec⟩ := hi3_pair_of_halved op m (q := q) hp
    rw [if_pos hp, LogicInsn.right_iff op m (.hi (.pair p) (.pair q)) hc, LogicInsn.Holds, hexec, op.apply_halves]
    simp only [Machine.get16, Machine.setFlags_pair, Machine.setA_pair, Machine.setPair_pair_self]
    exact BitVec.append_right_inj _
  · obtain ⟨code, hc, hexec⟩ := hi3_pair_of_not_halved op m (q := q) hp
    rw [if_neg hp, LogicInsn.right_iff op m (.hi (.pair p) (.pair q)) hc, LogicInsn.Holds, Machine.get16, hexec, Machine.get16,
      Machine.get16, op.apply_halves, append_eq_iff, hi8_append, lo8_append]

theorem operand_right (s : ByteSource) (h : ∀ v, s ≠ .constInt v) :
    (LogicInsn.qi s).Right op m := by
  rw [LogicInsn.right_iff op m _ rfl, LogicInsn.Holds]
  cases s with
  | reg r =>
    rw [op.qi3_reg, op.exec_template]
    rfl
  | mem r d => cases op <;> rfl
  | constInt v => exact absurd rfl (h v)

/-- A logic insn is right on registers and memory in QImode, on every operand in SImode, and
between HL, DE and BC in HImode. An immediate byte has to leave A as it is, or to be 0 for `and`, or
the value of A for `xor`; IX and IY have to fit the bytes that are named for them. -/
theorem logic_right_iff (insn : LogicInsn) : insn.Right op m ↔ insn.Exact op m := by
  rcases insn with (r | ⟨r, d⟩ | v) | ⟨p | _, q | _⟩ | src
  · exact iff_of_true (operand_right op m _ (by simp)) trivial
  · exact iff_of_true (operand_right op m _ (by simp)) trivial
  · exact immediate_right_iff op m v
  · exact registers_right_iff op m p q
  · exact iff_of_false (by simp [LogicInsn.Right, LogicInsn.code, LogicOp.hi3, highpartByte, lowpartByte]) id
  · exact iff_of_false (by simp [LogicInsn.Right, LogicInsn.code, LogicOp.hi3, highpartByte, lowpartByte]) id
  · exact iff_of_false (by simp [LogicInsn.Right, LogicInsn.code, LogicOp.hi3, highpartByte, lowpartByte]) id
  · exact iff_of_true (si3_right op m src) trivial

end Cases

/-- `a & 0x0f` with 0x3c in A prints `and a,a`. -/
theorem logic_wrong_immediate :
    ¬(LogicInsn.qi (.constInt 0x0f)).Right .and (Machine.ofRegs 0x3c 0 0 0 0 0 0) := by
  rw [immediate_right_iff]
  simp only [ImmediateExact]
  decide

end Z80Gcc
