import Z80Gcc.Proofs.SplitMove
import Z80Gcc.Spec.LongArith

/-! 32-bit addition, negation and complement are right for every operand. Subtraction takes the
lower difference away from the upper half, and is right only where that is the upper half of the
second operand. -/

namespace Z80Gcc

open Z80Gcc.Halves Z80Gcc.Adder

theorem LongSource.value_constInt (v : Int) (m : Machine) :
    (constInt v).value m = BitVec.ofInt 16 (v >>> (16 : Nat)) ++ BitVec.ofInt 16 v := by
  have hw := words_const v m
  simp only [MoveSource.words, Prod.mk.injEq] at hw
  rw [← hw.1, ← hw.2, hi16_append_lo16]
  rfl

theorem execs_movhi_flags {p : Pair} {s : WordOperand} {code : List Instr}
    (h : movhi (.reg p) s = some code) (m : Machine) : (z80.execs code m).flags = m.flags := by
  rcases s with q | a | _ | v
  · simp only [movhi, Option.some.injEq] at h
    subst h
    split <;> rfl
  · simp only [movhi, Option.some.injEq] at h
    subst h
    rfl
  · simp [movhi] at h
  · simp only [movhi, Option.some.injEq] at h
    subst h
    rfl

/-- What the split of `addsi3` leaves, by the kind of operand 2. -/
theorem addsi3_value (src : LongSource) (m : Machine) :
    ∃ code, addsi3 src = some code ∧
      LongReg.hl.value (z80.execs code m) = LongReg.hl.value m + src.value m := by
  cases src with
  | reg r =>
    cases r <;> refine ⟨_, rfl, ?_⟩ <;>
      simp [LongReg.value, LongSource.value, LongReg.low, LongReg.high, addhi3, adch, swapAreg,
        Instr.exec, Machine.set16, Machine.get16] <;>
      exact adc_append _ _ _ _ (by decide)
  | mem a =>
    refine ⟨_, rfl, ?_⟩
    simp [LongReg.value, LongSource.value, LongReg.low, LongReg.high, addhi3, adch, swapAreg,
      Instr.exec, Machine.set16, Machine.get16, Machine.src16]
    exact adc_append _ _ _ _ (by decide)
  | constInt v =>
    refine ⟨_, rfl, ?_⟩
    rw [LongSource.value_constInt]
    simp [LongReg.value, LongReg.low, LongReg.high, addhi3, adch, swapAreg,
      Instr.exec, Machine.set16, Machine.get16, Machine.src16]
    exact adc_append _ _ _ _ (by decide)

/-- Adding a pair of registers, a place in memory or a constant to HL with DE. The moves between
the two additions leave the carry of the first one. -/
theorem addsi3_adds (src : LongSource) (m : Machine) :
    (∃ code, addsi3 src = some code ∧
      LongReg.hl.value (z80.execs code m) = LongReg.hl.value m + src.value m) ∧
    ∀ move, movhi (.reg .bc) (z80GenHighpart src.operand) = some move →
      ∀ s, (z80.execs move s).flags.c = s.flags.c :=
  ⟨addsi3_value src m, fun _ h s => by rw [execs_movhi_flags h s]⟩

/-- What the split of `subsi3` leaves: the upper half has lost the lower difference. -/
theorem subsi3_value (src : LongSource) (m : Machine) :
    ∃ code, ∃ h l : BitVec 16, subsi3 src = some code ∧ src.value m = h ++ l ∧
      LongReg.hl.value (z80.execs code m) =
        sbc (m.pair .de) (m.pair .hl - l) (sbcFlags (m.pair .hl) l false).c ++
          (m.pair .hl - l) := by
  cases src with
  | reg r =>
    cases r <;> refine ⟨_, _, _, rfl, rfl, ?_⟩ <;>
      simp [LongReg.value, LongReg.low, LongReg.high, subhi3, subchi3, swapAreg,
        Instr.exec, Machine.set16, Machine.get16, AluOp.apply, logicFlags]
  | mem a =>
    refine ⟨_, m.load16 (m.ea a.toMemRef + 2), m.load16 (m.ea a.toMemRef), rfl, rfl, ?_⟩
    simp [LongReg.value, LongReg.low, LongReg.high, subhi3, subchi3, swapAreg,
      Instr.exec, Machine.set16, Machine.get16, Machine.src16, AluOp.apply, logicFlags]
  | constInt v =>
    refine ⟨_, _, _, rfl, LongSource.value_constInt v m, ?_⟩
    simp [LongReg.value, LongReg.low, LongReg.high, subhi3, subchi3, swapAreg,
      Instr.exec, Machine.set16, Machine.get16, Machine.src16, AluOp.apply, logicFlags]

/-- The upper half of a difference subtracts the other upper half, whatever the borrow. -/
theorem sbc_left_inj {w : Nat} {x y z : BitVec w} {c : Bool} : sbc x y c = sbc x z c ↔ y = z := by
  simp [sbc]

/-- Subtraction is right exactly where the lower half of the difference is the upper half of
operand 2. -/
theorem subsi3_right_iff (src : LongSource) (m : Machine) :
    (∃ code, subsi3 src = some code ∧
        LongReg.hl.value (z80.execs code m) = LongReg.hl.value m - src.value m) ↔
      lo16 (LongReg.hl.value m - src.value m) = hi16 (src.value m) := by
  obtain ⟨code, h, l, hc, hsrc, hval⟩ := subsi3_value src m
  have hdiff : LongReg.hl.value m - src.value m =
      sbc (m.pair .de) h (sbcFlags (m.pair .hl) l false).c ++ (m.pair .hl - l) := by
    rw [hsrc, sbc_append _ _ _ _ (by decide)]
    rfl
  rw [hdiff, hsrc, lo16_append, hi16_append, ← sbc_left_inj]
  constructor
  · rintro ⟨code', hc', h'⟩
    obtain rfl := Option.some.inj (hc.symm.trans hc')
    have hhigh := congrArg hi16 (hval.symm.trans h')
    simpa only [hi16_append] using hhigh
  · intro hh
    exact ⟨code, hc, by rw [hval, hh]⟩

/-- Five less one is not four: the upper half gets 0 - 4. -/
theorem subsi3_wrong_five_one :
    ¬∃ code, subsi3 (.constInt 1) = some code ∧
      LongReg.hl.value (z80.execs code (Machine.ofRegs 0 5 0 0 0 0 0)) =
        LongReg.hl.value (Machine.ofRegs 0 5 0 0 0 0 0) -
          (LongSource.constInt 1).value (Machine.ofRegs 0 5 0 0 0 0 0) := by
  rintro ⟨code, hc, h⟩
  obtain rfl := Option.some.inj hc
  revert h
  decide

section Negate

variable (m : Machine)

/-- The lower half is subtracted from `n` in HL and kept in BC; the upper half follows with its
borrow. -/
theorem splitThroughBc_value (inner : Pair → Option (List Instr)) (n : Int)
    (hi : ∀ p, inner p = do
      let load ← movhi (.reg .hl) (.constInt n)
      let back ← movhi (.reg p) (.reg .hl)
      return load ++ subhi3 p ++ back) :
    ∃ code, splitThroughBc inner n = some code ∧
      LongReg.hl.value (z80.execs code m) =
        (BitVec.ofInt 16 n ++ BitVec.ofInt 16 n) - LongReg.hl.value m := by
  refine ⟨_, by rw [splitThroughBc, hi]; rfl, ?_⟩
  rw [LongReg.value, LongReg.value, ← sbc_append _ _ _ _ (by decide)]
  simp [LongReg.low, LongReg.high, subhi3, subchi3, Instr.exec, Machine.set16, Machine.get16,
    Machine.src16, AluOp.apply, logicFlags]

/-- The negation and the complement of HL with DE. -/
theorem negsi2_one_cmplsi2 :
    (∃ code, negsi2 = some code ∧
      LongReg.hl.value (z80.execs code m) = -LongReg.hl.value m) ∧
    ∃ code, oneCmplsi2 = some code ∧
      LongReg.hl.value (z80.execs code m) = ~~~LongReg.hl.value m := by
  obtain ⟨neg, hn, hneg⟩ := splitThroughBc_value m neghi2 0 fun _ => rfl
  obtain ⟨cmpl, hc, hcmpl⟩ := splitThroughBc_value m oneCmplhi2 (-1) fun _ => rfl
  refine ⟨⟨neg, hn, hneg.trans ?_⟩, cmpl, hc, hcmpl.trans ?_⟩
  · exact BitVec.zero_sub _
  · exact BitVec.allOnes_sub_eq_not _

end Negate

end Z80Gcc
