import Z80Gcc.Proofs.Shift
import Z80Gcc.Proofs.SplitMove
import Z80Gcc.Spec.Extend

/-! Where the extensions arrive. IX and IY have no byte halves of their own for the templates:
both names print the high byte, and the low byte keeps what it held. -/

namespace Z80Gcc

open Z80Gcc.Halves Z80Gcc.Adder Z80Gcc.Rotate

def signFill {w : Nat} (c : Bool) : BitVec w := if c then -1 else 0

theorem sbc_self {w : Nat} (x : BitVec w) (c : Bool) : sbc x x c = signFill c := by
  cases c <;> simp [sbc, signFill]

theorem signExtend_append {w v : Nat} (x : BitVec v) :
    x.signExtend (w + v) = signFill x.msb ++ x := by
  apply BitVec.eq_of_getLsbD_eq
  intro i hi
  rw [BitVec.getLsbD_signExtend, BitVec.getLsbD_append, signFill]
  by_cases h : i < v
  · simp [h, hi]
  · have hw : i - v < w := by omega
    cases x.msb <;> simp [h, hi, hw, BitVec.neg_one_eq_allOnes]

theorem setWidth_append {w v : Nat} (x : BitVec v) : x.setWidth (w + v) = 0#w ++ x := by
  apply BitVec.eq_of_getLsbD_eq
  intro i hi
  rw [BitVec.getLsbD_setWidth, BitVec.getLsbD_append]
  by_cases h : i < v
  · simp [h, hi]
  · simp [h, BitVec.getLsbD_of_ge x i (by omega)]

theorem setWidth_bytes (x : BitVec 8) : x.setWidth 32 = 0#16 ++ (0#8 ++ x) := by
  rw [← setWidth_append, ← setWidth_append, BitVec.setWidth_setWidth (by omega)]

theorem signExtend_bytes (x : BitVec 8) :
    x.signExtend 32 = (signFill x.msb : BitVec 16) ++ ((signFill x.msb : BitVec 8) ++ x) := by
  have hmsb : (x.signExtend 16).msb = x.msb := by simp [BitVec.msb_signExtend]
  rw [← signExtend_append (w := 8), ← hmsb, ← signExtend_append (w := 16)]
  apply BitVec.eq_of_toInt_eq
  rw [BitVec.toInt_signExtend_of_le (by decide), BitVec.toInt_signExtend_of_le (by decide),
    BitVec.toInt_signExtend_of_le (by decide)]

theorem signFill_append {w v : Nat} (c : Bool) :
    (signFill c ++ signFill c : BitVec (w + v)) = signFill c := by
  apply BitVec.eq_of_getLsbD_eq
  intro i hi
  rw [BitVec.getLsbD_append]
  by_cases h : i < v
  · cases c <;> simp [signFill, h, hi, BitVec.neg_one_eq_allOnes]
  · have hw : i - v < w := by omega
    cases c <;> simp [signFill, h, hi, hw, BitVec.neg_one_eq_allOnes]

def ByteArrives (d : Reg16) (m : Machine) : Prop :=
  match d with
  | .pair .ix => lo8 (m.pair .ix) = m.a
  | .pair .iy => lo8 (m.pair .iy) = m.a
  | .pair _ => True
  | .sp => False

/-- When an extension leaves the extended value in its destination. -/
def ExtendInsn.Exact (insn : ExtendInsn) (m : Machine) : Prop :=
  match insn with
  | zeroExtendqihi2 d => ByteArrives d m
  | zeroExtendqisi2 _ _ => True
  | zeroExtendhisi2 d s => d = .hl ∨ s ≠ .sp
  | extendqihi2 d => ByteArrives d m
  | extendqisi2 d => d = .hl ∨ lo8 (m.pair .iy) = signFill m.a.msb
  | extendhisi2 d => d = .hl

def ExtendInsn.Right (insn : ExtendInsn) (m : Machine) : Prop :=
  ∃ code, insn.code = some code ∧ insn.Holds m (z80.execs code m)

section Cases

variable (m : Machine)

theorem ExtendInsn.right_iff {insn : ExtendInsn} {code : List Instr} (h : insn.code = some code) :
    insn.Right m ↔ insn.Holds m (z80.execs code m) := by
  simp [ExtendInsn.Right, h]

theorem ExtendInsn.not_right {insn : ExtendInsn} (h : insn.code = none) : ¬insn.Right m := by
  simp [ExtendInsn.Right, h]

theorem zeroExtendqihi2_right_iff (d : Reg16) :
    (ExtendInsn.zeroExtendqihi2 d).Right m ↔ ByteArrives d m := by
  rcases d with p | _
  · rw [ExtendInsn.right_iff m rfl, ExtendInsn.Holds, setWidth_append (w := 8)]
    cases p <;>
      simp [ByteArrives, lowByte, highByte, ldReg, ldImm, Instr.exec, Machine.setLoc8, Machine.src8,
        Machine.get16, append_eq_iff]
  · exact iff_of_false (ExtendInsn.not_right m rfl) id

theorem extendqihi2_right_iff (d : Reg16) :
    (ExtendInsn.extendqihi2 d).Right m ↔ ByteArrives d m := by
  rcases d with p | _
  · rw [ExtendInsn.right_iff m rfl, ExtendInsn.Holds, signExtend_append (w := 8)]
    cases p <;>
      simp [ByteArrives, lowByte, highByte, rotlqi3WithCarry, subcq, ldReg, rotReg, Instr.exec, Machine.loc8,
        apply_rl, logicFlags, AluOp.apply, Machine.setLoc8, Machine.src8, Machine.get16,
        append_eq_iff, sbc_self]
  · exact iff_of_false (ExtendInsn.not_right m rfl) id

theorem zeroExtendqisi2_right (d : LongReg) (s : Reg8) :
    (ExtendInsn.zeroExtendqisi2 d s).Right m := by
  rw [ExtendInsn.right_iff m rfl, ExtendInsn.Holds, setWidth_bytes]
  cases d <;>
    simp [LongReg.value, LongReg.low, LongReg.high, lowByte, highByte, ldReg, ldImm, Instr.exec,
      Machine.setLoc8, Machine.src8, Machine.src16, Machine.set16]

theorem extendqisi2_right_iff (d : LongReg) :
    (ExtendInsn.extendqisi2 d).Right m ↔ d = .hl ∨ lo8 (m.pair .iy) = signFill m.a.msb := by
  rw [ExtendInsn.right_iff m rfl, ExtendInsn.Holds, signExtend_bytes]
  have hfill : (signFill m.a.msb : BitVec 16) =
      (signFill m.a.msb : BitVec 8) ++ (signFill m.a.msb : BitVec 8) :=
    (signFill_append (w := 8) (v := 8) m.a.msb).symm
  rw [hfill]
  cases d
  · simp [LongReg.value, LongReg.low, LongReg.high, lowByte, highByte, rotlqi3WithCarry, subcq,
      ldReg, rotReg, Instr.exec, Machine.loc8, apply_rl, logicFlags, AluOp.apply, Machine.setLoc8,
      Machine.src8, sbc_self]
  · simp [LongReg.value, LongReg.low, LongReg.high, lowByte, highByte, rotlqi3WithCarry, subcq,
      ldReg, rotReg, Instr.exec, Machine.loc8, apply_rl, logicFlags, AluOp.apply, Machine.setLoc8,
      Machine.src8, sbc_self]
    rw [BitVec.append_left_inj, BitVec.append_right_inj]

theorem zeroExtendhisi2_right_iff (d : LongReg) (s : Reg16) :
    (ExtendInsn.zeroExtendhisi2 d s).Right m ↔ d = .hl ∨ s ≠ .sp := by
  rcases s with p | _
  · rw [ExtendInsn.right_iff m rfl, ExtendInsn.Holds, setWidth_append (w := 16)]
    cases d <;> cases p <;>
      simp [LongReg.value, LongReg.low, LongReg.high, Instr.exec, Machine.src16,
        Machine.set16, Machine.get16]
  · cases d
    · rw [ExtendInsn.right_iff m rfl, ExtendInsn.Holds, setWidth_append (w := 16)]
      simp [LongReg.value, LongReg.low, LongReg.high, ldPairImm, Instr.exec, Machine.src16,
        Machine.set16, Machine.get16]
    · exact iff_of_false (ExtendInsn.not_right m rfl) (by simp)

theorem extendhisi2_right_iff (d : LongReg) : (ExtendInsn.extendhisi2 d).Right m ↔ d = .hl := by
  cases d
  · rw [ExtendInsn.right_iff m rfl, ExtendInsn.Holds, signExtend_append (w := 16)]
    simp [LongReg.value, LongReg.low, LongReg.high, highByte, rotlqi3WithCarry, subchi3,
      ldReg, rotReg, Instr.exec, Machine.loc8, apply_rl, logicFlags, Machine.setLoc8,
      Machine.src8, Machine.set16, Machine.get16, sbc_self, msb_hi8]
  · exact iff_of_false (ExtendInsn.not_right m rfl) (by simp)

/-- An extension is right exactly where its byte halves are the right ones: not in IX, IY or the
upper half of BC with IY, unless the low byte is there already; and where its insns are all
matched: not from SP into BC with IY, and no sign extension of BC into BC with IY. -/
theorem extension_right_iff (insn : ExtendInsn) : insn.Right m ↔ insn.Exact m := by
  cases insn with
  | zeroExtendqihi2 d => exact zeroExtendqihi2_right_iff m d
  | zeroExtendqisi2 d s => exact iff_of_true (zeroExtendqisi2_right m d s) trivial
  | zeroExtendhisi2 d s => exact zeroExtendhisi2_right_iff m d s
  | extendqihi2 d => exact extendqihi2_right_iff m d
  | extendqisi2 d => exact extendqisi2_right_iff m d
  | extendhisi2 d => exact extendhisi2_right_iff m d

end Cases

/-- A byte 5 zero-extended into IX, which holds 0x1234, leaves 0x0034. -/
theorem extension_wrong_ix :
    ¬(ExtendInsn.zeroExtendqihi2 (.pair .ix)).Right (Machine.ofRegs 5 0 0 0 0x1234 0 0) := by
  rw [zeroExtendqihi2_right_iff]
  simp only [ByteArrives]
  decide

end Z80Gcc
