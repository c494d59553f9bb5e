import Z80Gcc.Proofs.Shift
import Z80Gcc.Spec.Rotates

/-! The rotate templates print a rotation by one place whatever the count, and a right rotation of
A through the carry for every byte; the rotations through the carry are right where there are
any. -/

namespace Z80Gcc

open Z80Gcc.Halves Z80Gcc.Adder Z80Gcc.Rotate

variable {w : Nat}

section Execute

variable (d : Loc8) (m : Machine)

theorem loc8_setFlags (f : Flags) : (m.setFlags f).loc8 d = m.loc8 d := by
  cases d with
  | reg r => exact Machine.get8_setFlags m r f
  | mem a => simp [Machine.loc8, Machine.load8]

theorem loc8_setLoc8 (v : BitVec 8) : (m.setLoc8 d v).loc8 d = v := by
  cases d with
  | reg r => exact Machine.get8_set8 m r v
  | mem a =>
    have hea : (m.store8 (m.ea a) v).ea a = m.ea a := by cases a <;> rfl
    simp [Machine.loc8, Machine.setLoc8, Machine.load8, hea, Machine.store8_mem]

theorem exec_rot_loc8 (op : RotOp) :
    (z80.execs [.rot op d] m).loc8 d = (op.apply (m.loc8 d) m.flags.c).1 :=
  (loc8_setFlags d _ _).trans (loc8_setLoc8 d m _)

theorem exec_rot_carry (op : RotOp) :
    (z80.execs [.rot op d] m).flags.c = (op.apply (m.loc8 d) m.flags.c).2 := rfl

theorem exec_rra_loc8 :
    (z80.execs [.rra] m).loc8 d =
      if d = .reg .a then shiftInHigh (m.loc8 d) m.flags.c else m.loc8 d := by
  rw [show (z80.execs [.rra] m).loc8 d = (m.setA (shiftInHigh m.a m.flags.c)).loc8 d from
    loc8_setFlags d _ _]
  rcases d with r | a
  · rcases r with _ | ⟨p, h⟩
    · rfl
    · simp [Machine.loc8]
  · simp [Machine.loc8, Machine.load8]

end Execute

section Exact

/-- One place too many is a rotation by the rest of the count that changes nothing. -/
theorem rotateLeft_eq_rotl_iff (x : BitVec w) (n : Int) :
    x.rotateLeft 1 = rotl x n ↔ rotl x (n - 1) = x := by
  rw [← rotl_one, rotl_eq_rotl_iff]

theorem rotateRight_eq_rotl_iff (x : BitVec w) (n : Int) :
    x.rotateRight 1 = rotl x (-n) ↔ rotl x (n - 1) = x := by
  rw [← rotl_neg_one, rotl_eq_rotl_iff, ← rotl_neg_eq_iff, show -(-n - -1) = n - 1 by omega]

/-- Rotation to the right with the carry in place of the lowest bit. -/
theorem shiftInHigh_eq_rotl_iff (x : BitVec 8) (c : Bool) (n : Int) :
    shiftInHigh x c = rotl x (-n) ↔ c = x.getLsbD 0 ∧ rotl x (n - 1) = x := by
  have hrot : shiftInHigh x (x.getLsbD 0) = x.rotateRight 1 := by
    apply BitVec.eq_of_getLsbD_eq
    intro i hi
    rw [getLsbD_shiftInHigh, BitVec.getLsbD_rotateRight]
    by_cases h : i = 7
    · simp [h]
    · simp [show i + 1 ≠ 8 by omega, show i < 7 by omega, Nat.add_comm]
  constructor
  · intro h
    -- the two agree except in the carry's place, so they agree there
    have hx : rotl x (n - 1) = x := by
      apply rotl_eq_of_agree
      intro i hi h0
      have hbit := congrArg (BitVec.getLsbD · (i - 1)) h
      simp only [getLsbD_shiftInHigh, show i - 1 + 1 = i by omega, show i ≠ 8 by omega,
        if_false] at hbit
      rw [hbit, getLsbD_rotl _ _ hi, getLsbD_rotl _ _ (by omega),
        show (i : Int) - -(n - 1) = ((i - 1 : Nat) : Int) - -n by omega]
    refine ⟨?_, hx⟩
    rw [← (rotateRight_eq_rotl_iff x n).mpr hx, ← hrot] at h
    have hbit := congrArg (BitVec.getLsbD · 7) h
    simpa only [getLsbD_shiftInHigh, if_true] using hbit
  · rintro ⟨rfl, hx⟩
    rw [hrot, rotateRight_eq_rotl_iff]
    exact hx

/-- When a rotate pattern is right. -/
def RotateExact (wide : Bool) (code : RotateCode) (dest : RotateDest w) (k : RotateBy)
    (m : Machine) : Prop :=
  match code, dest, k with
  | .rotate, .qi (.reg r), .constInt n => rotl (m.get8 r) (n - 1) = m.get8 r
  | .rotate, .qi (.mem _), .constInt _ => False
  | .rotatert, .qi d, .constInt n =>
      if d = .reg .a then m.flags.c = m.a.getLsbD 0 ∧ rotl m.a (n - 1) = m.a
      else rotl (m.loc8 d) n = m.loc8 d
  | _, .hi p, .constInt n => wide = true ∧ rotl (m.pair p) (n - 1) = m.pair p
  | .rotatert, .hi _, .carry => False
  | _, _, .carry => True

end Exact

section Cases

variable (m : Machine)

theorem exists_run {wide : Bool} {t : RotateText} {P : Machine → Prop} :
    (∃ text m', some t = some text ∧ text.run wide m = some m' ∧ P m') ↔
      ∃ m', t.run wide m = some m' ∧ P m' := by
  simp

theorem rotlqi3_iff (wide : Bool) (d : Loc8) (n : Int) :
    (∃ m', (rotlqi3 d n).run wide m = some m' ∧ m'.loc8 d = rotl (m.loc8 d) n) ↔
      RotateExact wide .rotate (.qi d) (.constInt n) m := by
  cases d with
  | reg r =>
    rw [RotateExact, ← rotateLeft_eq_rotl_iff]
    simp only [rotlqi3, RotateText.run, Option.some.injEq, exists_eq_left']
    rw [exec_rot_loc8]
    rfl
  | mem a => simp [rotlqi3, RotateText.run, RotateExact]

theorem rotlhi3_iff (wide : Bool) (p : Pair) (n : Int) :
    (∃ m', (rotlhi3 p n).run wide m = some m' ∧ m'.pair p = rotl (m.pair p) n) ↔
      wide = true ∧ rotl (m.pair p) (n - 1) = m.pair p := by
  cases wide with
  | false => simp [rotlhi3, RotateText.run]
  | true => simp [rotlhi3, RotateText.run, rotateLeft_eq_rotl_iff]

theorem rotrhi3_iff (wide : Bool) (p : Pair) (n : Int) :
    (∃ m', (rotrhi3 p n).run wide m = some m' ∧ m'.pair p = rotl (m.pair p) (-n)) ↔
      wide = true ∧ rotl (m.pair p) (n - 1) = m.pair p := by
  cases wide with
  | false => simp [rotrhi3, RotateText.run]
  | true => simp [rotrhi3, RotateText.run, rotateRight_eq_rotl_iff]

theorem rotrqi3_iff (wide : Bool) (d : Loc8) (n : Int) :
    (∃ m', (rotrqi3 d n).run wide m = some m' ∧ m'.loc8 d = rotl (m.loc8 d) (-n)) ↔
      if d = .reg .a then m.flags.c = m.a.getLsbD 0 ∧ rotl m.a (n - 1) = m.a
      else rotl (m.loc8 d) n = m.loc8 d := by
  simp only [rotrqi3, RotateText.run, Option.some.injEq, exists_eq_left', exec_rra_loc8]
  split_ifs with h
  · subst h
    exact shiftInHigh_eq_rotl_iff m.a m.flags.c n
  · rw [eq_comm, rotl_neg_eq_iff]

/-- The low byte goes first and leaves its highest bit for the high byte. -/
theorem rotlhi3WithCarry_rotates {p : Pair} (hp : p ∈ [.hl, .bc, .de]) :
    Rotated .rotate (.hi p) .carry m
      (z80.execs [rotReg .rl (lowByte p), rotReg .rl (highByte p)] m) := by
  rw [Rotated, RotateDest.value, RotateDest.value, ← cons_shiftInLow _ _ (by decide)]
  simp [lowByte_of_mem hp, highByte, exec_rotReg, apply_rl, logicFlags, shiftInLow_bytes, msb_hi8]

end Cases

/-- The rotates by a constant leave the rotated value only where it is the same as a rotation by
one place, on the registers and with the carry that the texts use; those through the carry are
right, but for the right rotation of 16 bits, which has no code. -/
theorem rotate_right_iff (wide : Bool) (code : RotateCode) (dest : RotateDest w) (k : RotateBy)
    (h : dest.Allowed) (m : Machine) :
    (∃ text m', rotateText code dest k = some text ∧ text.run wide m = some m' ∧
      Rotated code dest k m m') ↔ RotateExact wide code dest k m := by
  cases k with
  | constInt n =>
    cases code with
    | rotate =>
      cases dest with
      | qi d => exact (exists_run m).trans (rotlqi3_iff m wide d n)
      | hi p => exact (exists_run m).trans (rotlhi3_iff m wide p n)
    | rotatert =>
      cases dest with
      | qi d => exact (exists_run m).trans (rotrqi3_iff m wide d n)
      | hi p => exact (exists_run m).trans (rotrhi3_iff m wide p n)
  | carry =>
    cases code with
    | rotate =>
      refine iff_of_true ?_ (by rcases dest with (r | a) | p <;> exact trivial)
      cases dest with
      | qi d =>
        refine ⟨_, _, rfl, rfl, ?_⟩
        rw [Rotated, RotateDest.value, RotateDest.value, exec_rot_loc8, exec_rot_carry]
        exact cons_shiftInLow _ _ (by decide)
      | hi p => exact ⟨_, _, rfl, rfl, rotlhi3WithCarry_rotates m h⟩
    | rotatert =>
      cases dest with
      | qi d =>
        refine iff_of_true ⟨_, _, rfl, rfl, ?_⟩ trivial
        rw [Rotated, RotateDest.value, RotateDest.value, exec_rot_loc8, exec_rot_carry]
        exact cons_shiftInHigh _ _ (by decide)
      | hi p => simp [rotateText, rotrhi3WithCarry, rotrqi3WithCarry, RotateExact]

/-- One place to the left in C: 0x81 becomes 0x03. -/
theorem rotate_right_one :
    ∃ text m', rotateText .rotate (.qi (.reg .c)) (.constInt 1) = some text ∧
      text.run false (Machine.ofRegs 0 0 0 0x81 0 0 0) = some m' ∧
      Rotated .rotate (.qi (.reg .c)) (.constInt 1) (Machine.ofRegs 0 0 0 0x81 0 0 0) m' :=
  (rotate_right_iff false .rotate (.qi (.reg .c)) (.constInt 1)
    (show Reg8.c ∈ [.a, .l, .e, .c] by decide) (Machine.ofRegs 0 0 0 0x81 0 0 0)).mpr
    (rotl_zero 0x81#8)

/-- A rotation of A by two places: 1 becomes 2 and not 4. -/
theorem rotate_wrong_two :
    ¬∃ text m', rotateText .rotate (.qi (.reg .a)) (.constInt 2) = some text ∧
      text.run false (Machine.ofRegs 1 0 0 0 0 0 0) = some m' ∧
      Rotated .rotate (.qi (.reg .a)) (.constInt 2) (Machine.ofRegs 1 0 0 0 0 0 0) m' := by
  rintro ⟨text, m', ht, hm, h⟩
  cases ht
  cases hm
  exact absurd h (show 2#8 ≠ rotl 1#8 2 by decide)

end Z80Gcc
