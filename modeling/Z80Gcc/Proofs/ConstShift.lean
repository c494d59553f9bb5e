import Z80Gcc.Proofs.Shift
import Z80Gcc.Proofs.SplitMove
import Z80Gcc.Spec.ConstShift

/-! The constant shifts are right except the logical shift of a 16-bit register by eight places,
which takes a byte of the next register for its own high byte, and those of 32 bits by sixteen, which are no
instructions of the processor. -/

namespace Z80Gcc

open Z80Gcc.Halves Z80Gcc.Adder Z80Gcc.Rotate

variable {w : Nat}

section Values

theorem shiftLeft_bytes (x : BitVec 16) (k : Nat) :
    x <<< (k + 8) = (lo8 x <<< k) ++ 0#8 := by
  apply BitVec.eq_of_getLsbD_eq
  intro i hi
  rw [BitVec.getLsbD_shiftLeft, BitVec.getLsbD_append, BitVec.getLsbD_shiftLeft, lo8,
    BitVec.getLsbD_setWidth]
  by_cases h8 : i < 8
  · simp [h8, show i < k + 8 by omega]
  · by_cases hk : i - 8 < k
    · simp [h8, hk, show i < k + 8 by omega]
    · simp [h8, hk, hi, show ¬i < k + 8 by omega, show i - 8 < 8 by omega,
        show i - 8 - k < 8 by omega, show i - (k + 8) = i - 8 - k by omega]

theorem shiftInHigh_zero (x : BitVec w) (hw : 0 < w) :
    shiftInHigh 0 (x.getLsbD 0) = x <<< (w - 1) := by
  apply BitVec.eq_of_getLsbD_eq
  intro i hi
  rw [getLsbD_shiftInHigh, BitVec.getLsbD_shiftLeft]
  by_cases h : i + 1 = w
  · simp [h, hi, show i - (w - 1) = 0 by omega, show ¬i < w - 1 by omega]
  · simp [h, show i < w - 1 by omega]

theorem shiftLeft_words (h l : BitVec 16) : (h ++ l : BitVec 32) <<< 16 = l ++ 0#16 := by
  apply BitVec.eq_of_getLsbD_eq
  intro i hi
  rw [BitVec.getLsbD_shiftLeft, BitVec.getLsbD_append, BitVec.getLsbD_append]
  by_cases h16 : i < 16
  · simp [h16]
  · simp [h16, hi, show i - 16 < 16 by omega]

theorem ushiftRight_words (h l : BitVec 16) : (h ++ l : BitVec 32) >>> 16 = 0#16 ++ h := by
  apply BitVec.eq_of_getLsbD_eq
  intro i hi
  rw [BitVec.getLsbD_ushiftRight, BitVec.getLsbD_append, BitVec.getLsbD_append]
  by_cases h16 : i < 16
  · simp [h16, show ¬16 + i < 16 by omega]
  · simp [h16, show ¬16 + i < 16 by omega, BitVec.getLsbD_of_ge h i (by omega)]

theorem ushiftRight_bytes (x : BitVec 16) : x >>> 8 = 0#8 ++ hi8 x := by
  apply BitVec.eq_of_getLsbD_eq
  intro i hi
  rw [BitVec.getLsbD_ushiftRight, BitVec.getLsbD_append, hi8, BitVec.getLsbD_setWidth,
    BitVec.getLsbD_ushiftRight]
  by_cases h8 : i < 8
  · simp [h8]
  · simp [h8, BitVec.getLsbD_of_ge x (8 + i) (by omega)]

end Values

section Repeat

variable {dest : ConstDest w} {body : List Instr} {f : BitVec w → BitVec w}

theorem execs_replicate (h : ∀ m, dest.value (z80.execs body m) = f (dest.value m)) (k : Nat)
    (m : Machine) :
    dest.value (z80.execs (List.replicate k body).flatten m) = f^[k] (dest.value m) := by
  induction k generalizing m with
  | zero => rfl
  | succ k ih =>
    rw [List.replicate_succ, List.flatten_cons, Asm.Isa.execs_append, ih, h,
      Function.iterate_succ_apply]

theorem replicate_singleton {α : Type} (k : Nat) (a : α) :
    List.replicate k a = (List.replicate k [a]).flatten := by
  induction k with
  | zero => rfl
  | succ k ih => rw [List.replicate_succ, ih, List.replicate_succ, List.flatten_cons,
      List.singleton_append]

theorem qi_step (code : ShiftCode) (op : RotOp)
    (hop : ∀ v c, (op.apply v c).1 = code.apply v 1) (r : Reg8) (m : Machine) :
    (ConstDest.qi r).value (z80.execs [rotReg op r] m) =
      code.apply ((ConstDest.qi r).value m) 1 := by
  rw [← hop _ m.flags.c]
  rcases r with _ | ⟨p, _ | _⟩ <;> simp [ConstDest.value, exec_rotReg]

theorem qi_repeat (code : ShiftCode) (op : RotOp)
    (hop : ∀ v c, (op.apply v c).1 = code.apply v 1) (r : Reg8) (k : Nat) (m : Machine) :
    (ConstDest.qi r).value (z80.execs (List.replicate k (rotReg op r)) m) =
      code.apply ((ConstDest.qi r).value m) k := by
  rw [replicate_singleton, execs_replicate (f := fun x => code.apply x 1) (qi_step code op hop r),
    code.iterate_apply]

end Repeat

section Cases

variable (m : Machine)

theorem sla_apply (v : BitVec 8) (c : Bool) :
    (RotOp.sla.apply v c).1 = ShiftCode.ashift.apply v 1 := rfl

theorem sra_apply (v : BitVec 8) (c : Bool) :
    (RotOp.sra.apply v c).1 = ShiftCode.ashiftrt.apply v 1 := rfl

theorem srl_apply (v : BitVec 8) (c : Bool) :
    (RotOp.srl.apply v c).1 = ShiftCode.lshiftrt.apply v 1 := rfl

/-- A byte rotated out through an emptied register ends as its lowest bit, at the upper end. -/
theorem rr_ld_rr (r : Reg8) :
    (z80.execs [rotReg .rr r, ldImm r 0, rotReg .rr r] m).get8 r = m.get8 r <<< 7 := by
  rw [← shiftInHigh_zero _ (by decide)]
  simp [exec_rotReg, exec_ldImm, apply_rr, logicFlags]

theorem ashlqi3Const_value (r : Reg8) (n : Nat) :
    (z80.execs (ashlqi3Const r n) m).get8 r = m.get8 r <<< n := by
  rw [ashlqi3Const]
  split_ifs with h8 h7
  · rw [BitVec.shiftLeft_eq_zero (by omega)]
    simp [exec_ldImm]
  · rw [rr_ld_rr, show n = 7 by omega]
  · exact qi_repeat .ashift .sla sla_apply r n m

theorem ashrqi3Const_value (r : Reg8) (n : Nat) :
    (z80.execs (ashrqi3Const r n) m).get8 r = (m.get8 r).sshiftRight n := by
  rw [ashrqi3Const]
  refine (qi_repeat .ashiftrt .sra sra_apply r _ m).trans ?_
  simp only [ShiftCode.apply, ConstDest.value]
  split_ifs with h8
  · apply BitVec.eq_of_getLsbD_eq
    intro i hi
    rw [BitVec.getLsbD_sshiftRight, BitVec.getLsbD_sshiftRight]
    simp [show ¬8 + i < 8 by omega, show ¬n + i < 8 by omega]
  · rfl

/-- One place to the left through both bytes of a register. -/
theorem hi_left_step {p : Pair} (hp : p ∈ [.hl, .bc, .de]) :
    (ConstDest.hi p).value (z80.execs [rotReg .sla (lowByte p), rotReg .rl (highByte p)] m) =
      ShiftCode.ashift.apply ((ConstDest.hi p).value m) 1 := by
  simp [ConstDest.value, lowByte_of_mem hp, highByte, exec_rotReg, apply_sla, apply_rl, logicFlags,
    shiftInLow_bytes, ShiftCode.apply_one]

/-- One place to the right through both bytes of a register. -/
theorem hi_right_step {code : ShiftCode} (hc : code ≠ .ashift) {p : Pair}
    (hp : p ∈ [.hl, .bc, .de]) :
    (ConstDest.hi p).value
        (z80.execs (shiftRightBytes code.rightOp [highByte p, lowByte p]) m) =
      code.apply ((ConstDest.hi p).value m) 1 := by
  cases code <;>
    simp [ConstDest.value, shiftRightBytes, lowByte_of_mem hp, highByte, exec_rotReg, apply_sra,
      apply_srl, apply_rr, logicFlags, shiftInHigh_bytes, ShiftCode.apply_one,
      ShiftCode.rightOp, msb_hi8] at hc ⊢

/-- The low byte is moved up, `body` treats it there, and the low byte is cleared. -/
theorem moved_up {p : Pair} (hp : p ∈ [.hl, .bc, .de]) (body : List Instr) (m : Machine) :
    ∃ s, s.get8 (highByte p) = lo8 (m.pair p) ∧
      (z80.execs (ldReg (highByte p) (lowByte p) :: (body ++ [ldImm (lowByte p) 0])) m).pair p =
        (z80.execs body s).get8 (highByte p) ++ 0#8 := by
  refine ⟨m.set8 (highByte p) (m.get8 (lowByte p)), ?_, ?_⟩
  · rw [Machine.get8_set8, lowByte_of_mem hp, Machine.get8_lo]
  · rw [Asm.Isa.execs_cons, Asm.Isa.execs_append, z80_exec, exec_ldReg]
    simp [lowByte_of_mem hp, highByte, exec_ldImm]

theorem ashlhi3Const_value {p : Pair} (hp : p ∈ [.hl, .bc, .de]) (n : Nat) :
    (z80.execs (ashlhi3Const p n) m).pair p = m.pair p <<< n := by
  rw [ashlhi3Const]
  split_ifs with h8 h15
  · obtain rfl : n = 7 + 8 := by omega
    obtain ⟨s, hs, hv⟩ := moved_up hp
      [rotReg .rr (highByte p), ldImm (highByte p) 0, rotReg .rr (highByte p)] m
    rw [hv, rr_ld_rr, hs, shiftLeft_bytes]
  · obtain ⟨k, rfl⟩ : ∃ k, n = k + 8 := ⟨n - 8, by omega⟩
    obtain ⟨s, hs, hv⟩ := moved_up hp (List.replicate k (rotReg .sla (highByte p))) m
    rw [show ((k + 8 : Nat) - 8 : Int).toNat = k by omega, hv, shiftLeft_bytes, ← hs]
    exact congrArg (· ++ 0#8) (qi_repeat .ashift .sla sla_apply (highByte p) k s)
  · have h := execs_replicate (f := fun x => ShiftCode.ashift.apply x 1)
      (fun m => hi_left_step m hp) n m
    rw [ShiftCode.iterate_apply] at h
    exact h

/-- A shift by eight takes the low byte from the next register and leaves the high byte. -/
theorem lshrhi3Const8_value {p : Pair} (hp : p ∈ [.hl, .bc, .de]) :
    (z80.execs (lshrhi3Const8 p) m).pair p = hi8 (m.pair p) ++ m.get8 (nextLowByte p) := by
  simp only [List.mem_cons, List.not_mem_nil, or_false] at hp
  rcases hp with rfl | rfl | rfl <;>
    simp [lshrhi3Const8, nextLowByte, lowByte, exec_ldReg, exec_ldImm]

end Cases

/-- When a constant shift is right: always, but for the logical shift of a 16-bit register by eight,
which needs its high byte and the byte of the next register to be zero, and the shifts of 32 bits by sixteen, which need
an assembler that takes `ld` between 16-bit registers. -/
def ConstShiftExact (wide : Bool) (code : ShiftCode) (dest : ConstDest w) (n : Nat) (m : Machine) : Prop :=
  match code, dest with
  | .lshiftrt, .hi p => n = 8 → hi8 (m.pair p) = 0 ∧ m.get8 (nextLowByte p) = 0
  | _, .si _ => n = 16 → wide = true
  | _, _ => True

section Encoded

@[simp] theorem rotReg_encoded (op : RotOp) (r : Reg8) : (rotReg op r).encoded = true := rfl

@[simp] theorem ldReg_encoded (d s : Reg8) : (ldReg d s).encoded = true := rfl

@[simp] theorem ldImm_encoded (r : Reg8) (n : BitVec 8) : (ldImm r n).encoded = true := rfl

@[simp] theorem ldPair_encoded (p q : Pair) : (ldPair p q).encoded = false := rfl

@[simp] theorem shiftLeftBytes_encoded (rs : List Reg8) : (shiftLeftBytes rs).all Instr.encoded = true := by
  cases rs with
  | nil => rfl
  | cons r rs => simp [shiftLeftBytes]

@[simp] theorem shiftRightBytes_encoded (op : RotOp) (rs : List Reg8) :
    (shiftRightBytes op rs).all Instr.encoded = true := by
  cases rs with
  | nil => rfl
  | cons r rs => simp [shiftRightBytes]

theorem ashlhi3Const_encoded (p : Pair) (i : Int) : (ashlhi3Const p i).all Instr.encoded = true := by
  rw [ashlhi3Const]
  split_ifs <;> simp [List.all_replicate, List.all_flatten]

theorem ashlqi3Const_encoded (r : Reg8) (i : Int) : (ashlqi3Const r i).all Instr.encoded = true := by
  rw [ashlqi3Const]
  split_ifs <;> simp [List.all_replicate]

theorem ashrqi3Const_encoded (r : Reg8) (i : Int) : (ashrqi3Const r i).all Instr.encoded = true := by
  simp [ashrqi3Const, List.all_replicate]

variable {code : ShiftCode} {n : Nat} {insns : List Instr}

/-- The shifts of 32 bits by sixteen copy one register into another. -/
theorem si_encoded {r : LongReg} (h : constantShift code (.si r) n = some insns) :
    insns.all Instr.encoded = true ↔ n ≠ 16 := by
  cases code with
  | ashift =>
    simp only [constantShift] at h
    split_ifs at h with h1 h16
    · obtain rfl := Option.some.inj h
      simp [ashlsi3Const1, h1]
    · obtain rfl := Option.some.inj h
      simp [ashlsi3Const16, h16]
  | ashiftrt =>
    simp only [constantShift] at h
    split_ifs at h with h1
    obtain rfl := Option.some.inj h
    simp [ashrsi3Const1, h1]
  | lshiftrt =>
    simp only [constantShift] at h
    split_ifs at h with h1 h16
    · obtain rfl := Option.some.inj h
      simp [lshrsi3Const1, h1]
    · obtain rfl := Option.some.inj h
      simp [lshrsi3Const16, h16]

theorem hi_encoded {p : Pair} (h : constantShift code (.hi p) n = some insns) : insns.all Instr.encoded = true := by
  cases code with
  | ashift =>
    simp only [constantShift] at h
    split_ifs at h
    · obtain rfl := Option.some.inj h
      simp [ashlhi3Const1]
    · obtain rfl := Option.some.inj h
      exact ashlhi3Const_encoded p n
  | ashiftrt =>
    simp only [constantShift] at h
    split_ifs at h
    obtain rfl := Option.some.inj h
    simp [ashrhi3Const1]
  | lshiftrt =>
    simp only [constantShift] at h
    split_ifs at h
    · obtain rfl := Option.some.inj h
      simp [lshrhi3Const1]
    · obtain rfl := Option.some.inj h
      simp [lshrhi3Const8]

theorem qi_encoded {r : Reg8} (h : constantShift code (.qi r) n = some insns) : insns.all Instr.encoded = true := by
  cases code with
  | ashift =>
    simp only [constantShift] at h
    split_ifs at h
    · obtain rfl := Option.some.inj h
      simp [ashlqi3Const1]
    · obtain rfl := Option.some.inj h
      exact ashlqi3Const_encoded r n
  | ashiftrt =>
    simp only [constantShift] at h
    split_ifs at h
    · obtain rfl := Option.some.inj h
      simp [ashrqi3Const1]
    · obtain rfl := Option.some.inj h
      exact ashrqi3Const_encoded r n
  | lshiftrt =>
    simp only [constantShift] at h
    split_ifs at h
    obtain rfl := Option.some.inj h
    simp [lshrqi3Const1]

/-- A text that the assembler takes leaves what its instructions leave. -/
theorem exists_runText_iff {wide : Bool} {m : Machine} {P : Machine → Prop} :
    (∃ t, runText wide insns m = some t ∧ P t) ↔
      (wide = true ∨ insns.all Instr.encoded = true) ∧ P (z80.execs insns m) := by
  rw [runText]
  by_cases htaken : (wide || insns.all Instr.encoded) = true
  · rw [if_pos htaken, and_iff_right (Bool.or_eq_true _ _ ▸ htaken)]
    simp
  · rw [if_neg htaken]
    rw [Bool.or_eq_true] at htaken
    exact iff_of_false (by simp) fun h => htaken h.1

end Encoded

theorem si_right {code : ShiftCode} {r : LongReg} {n : Nat} {insns : List Instr}
    (h : constantShift code (.si r) n = some insns) (m : Machine) :
    (ConstDest.si r).value (z80.execs insns m) = code.apply ((ConstDest.si r).value m) n := by
  cases code with
  | ashift =>
    simp only [constantShift] at h
    split_ifs at h with h1 h16
    · obtain ⟨rfl, rfl⟩ := h1
      obtain rfl := Option.some.inj h
      exact shifts_si_left.value m
    · obtain ⟨rfl, rfl⟩ := h16
      obtain rfl := Option.some.inj h
      exact (shiftLeft_words _ _).symm
  | ashiftrt =>
    simp only [constantShift] at h
    split_ifs at h with h1
    · obtain ⟨rfl, rfl⟩ := h1
      obtain rfl := Option.some.inj h
      exact (shifts_si_right (show ShiftCode.ashiftrt ≠ .ashift by decide)).value m
  | lshiftrt =>
    simp only [constantShift] at h
    split_ifs at h with h1 h16
    · obtain ⟨rfl, rfl⟩ := h1
      obtain rfl := Option.some.inj h
      exact (shifts_si_right (show ShiftCode.lshiftrt ≠ .ashift by decide)).value m
    · subst h16
      obtain rfl := Option.some.inj h
      rw [ConstDest.value, ConstDest.value, ShiftCode.apply, LongReg.value, LongReg.value,
        ushiftRight_words]
      cases r <;> rfl

theorem qi_right {code : ShiftCode} {r : Reg8} {n : Nat} {insns : List Instr}
    (h : constantShift code (.qi r) n = some insns) (m : Machine) :
    (ConstDest.qi r).value (z80.execs insns m) = code.apply ((ConstDest.qi r).value m) n := by
  cases code with
  | ashift =>
    simp only [constantShift] at h
    split_ifs at h with hr h1
    · subst h1
      obtain rfl := Option.some.inj h
      exact qi_step .ashift .sla sla_apply r m
    · obtain rfl := Option.some.inj h
      exact ashlqi3Const_value m r n
  | ashiftrt =>
    simp only [constantShift] at h
    split_ifs at h with hr h1
    · subst h1
      obtain rfl := Option.some.inj h
      exact qi_step .ashiftrt .sra sra_apply r m
    · obtain rfl := Option.some.inj h
      exact ashrqi3Const_value m r n
  | lshiftrt =>
    simp only [constantShift] at h
    split_ifs at h with h1
    · obtain ⟨-, rfl⟩ := h1
      obtain rfl := Option.some.inj h
      exact qi_step .lshiftrt .srl srl_apply r m

theorem hi_right_iff {code : ShiftCode} {p : Pair} {n : Nat} {insns : List Instr}
    (h : constantShift code (.hi p) n = some insns) (wide : Bool) (m : Machine) :
    (ConstDest.hi p).value (z80.execs insns m) = code.apply ((ConstDest.hi p).value m) n ↔
      ConstShiftExact wide code (.hi p) n m := by
  cases code with
  | ashift =>
    simp only [constantShift] at h
    split_ifs at h with hp h1
    · subst h1
      obtain rfl := Option.some.inj h
      exact iff_of_true (hi_left_step m hp) trivial
    · obtain rfl := Option.some.inj h
      exact iff_of_true (ashlhi3Const_value m hp n) trivial
  | ashiftrt =>
    simp only [constantShift] at h
    split_ifs at h with h1
    · obtain ⟨hp, rfl⟩ := h1
      obtain rfl := Option.some.inj h
      exact iff_of_true (hi_right_step m (show ShiftCode.ashiftrt ≠ .ashift by decide) hp) trivial
  | lshiftrt =>
    simp only [constantShift] at h
    split_ifs at h with hp h1 h8
    · subst h1
      obtain rfl := Option.some.inj h
      exact iff_of_true (hi_right_step m (show ShiftCode.lshiftrt ≠ .ashift by decide) hp)
        (fun e => absurd e (by decide))
    · subst h8
      obtain rfl := Option.some.inj h
      rw [ConstDest.value, lshrhi3Const8_value m hp, ConstDest.value, ShiftCode.apply,
        ushiftRight_bytes, append_eq_iff, hi8_append, lo8_append, ConstShiftExact]
      constructor
      · rintro ⟨h0, hn⟩ -
        exact ⟨h0, hn.trans h0⟩
      · intro he
        obtain ⟨h0, hn⟩ := he rfl
        exact ⟨h0, hn.trans h0.symm⟩

/-- Every constant shift leaves the shifted value, but for the logical shift of a 16-bit register by
eight and, with an assembler that takes the instructions of the processor only, the shifts of 32 bits by sixteen. -/
theorem constant_shift_right_iff (wide : Bool) (code : ShiftCode) (dest : ConstDest w) (n : Nat)
    {insns : List Instr} (h : constantShift code dest n = some insns) (m : Machine) :
    (∃ t, runText wide insns m = some t ∧ dest.value t = code.apply (dest.value m) n) ↔
      ConstShiftExact wide code dest n m := by
  rw [exists_runText_iff]
  cases dest with
  | si r =>
    rw [and_iff_left (si_right h m), si_encoded h]
    have hexact : ConstShiftExact wide code (.si r) n m ↔ (n = 16 → wide = true) := by
      cases code <;> exact Iff.rfl
    rw [hexact, or_comm, imp_iff_not_or]
  | hi p =>
    rw [and_iff_right (.inr (hi_encoded h))]
    exact hi_right_iff h wide m
  | qi r =>
    refine iff_of_true ⟨.inr (qi_encoded h), qi_right h m⟩ ?_
    cases code <;> exact trivial

/-- Five shifted left by three in DE. -/
theorem constant_shift_right_five :
    ∃ t, runText false (ashlhi3Const .de 3) (Machine.ofRegs 0 0 5 0 0 0 0) = some t ∧ t.pair .de = 40#16 := by
  have h := constant_shift_right_iff false .ashift (.hi .de) 3 rfl (Machine.ofRegs 0 0 5 0 0 0 0)
  exact h.mpr trivial

/-- 0x1234 in HL shifted right by eight, with 0x5678 in DE, leaves 0x1278. -/
theorem constant_shift_wrong_eight :
    ¬∀ insns, constantShift .lshiftrt (.hi .hl) 8 = some insns →
      ∃ t, runText false insns (Machine.ofRegs 0 0x1234 0x5678 0 0 0 0) = some t ∧
        (ConstDest.hi .hl).value t = ShiftCode.lshiftrt.apply
          ((ConstDest.hi .hl).value (Machine.ofRegs 0 0x1234 0x5678 0 0 0 0)) 8 := by
  intro h
  have hvalue := (exists_runText_iff.1 (h _ rfl)).2
  exact absurd hvalue (by decide)

end Z80Gcc
