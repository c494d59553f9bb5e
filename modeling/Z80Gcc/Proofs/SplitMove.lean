import Z80Gcc.Sanity.Machine
import Z80Gcc.Spec.SplitMove

/-! Which 32-bit moves arrive. The low word always moves first: right for registers, wrong for a
push, and for a copy onto a place one to three bytes further up right only where the bytes that
are overwritten too early are equal to those that replace them. -/

namespace Z80Gcc

open Z80Gcc.Halves

/-- Both words of a constant are cut out as they should be. -/
theorem words_const (v : Int) (m : Machine) :
    MoveSource.words (.constInt v) m = (BitVec.ofInt 16 v, BitVec.ofInt 16 (v >>> (16 : Nat))) := by
  simp only [MoveSource.words, Prod.mk.injEq]
  constructor
  · apply BitVec.eq_of_toNat_eq
    rw [toNat_lo16]
    simp only [BitVec.toNat_ofInt]
    omega
  · apply BitVec.eq_of_toNat_eq
    rw [toNat_hi16]
    simp only [BitVec.toNat_ofInt, Int.shiftRight_eq_div_pow]
    omega

theorem words_image (image : BitVec 32) (m : Machine) :
    MoveSource.words (.constDouble image) m =
      (BitVec.ofInt 16 (image &&& 0xffff).toNat,
        BitVec.ofInt 16 (image >>> 16 &&& 0xffff).toNat) := by
  simp only [MoveSource.words, Prod.mk.injEq]
  have hmask : ∀ n : Nat, n &&& 65535 = n % 65536 := fun n => Nat.and_two_pow_sub_one_eq_mod n 16
  have hlt := image.isLt
  constructor
  · apply BitVec.eq_of_toNat_eq
    rw [toNat_lo16]
    simp [BitVec.toNat_ofInt, hmask]
    omega
  · apply BitVec.eq_of_toNat_eq
    rw [toNat_hi16]
    simp [BitVec.toNat_ofInt, hmask, Nat.shiftRight_eq_div_pow]
    omega

/-- The low word of a source at `s` is stored to `d` before the high word is read. This is what
must hold of the words where the two places overlap. -/
def UpwardOk (s d : BitVec 16) (w : BitVec 16 × BitVec 16) : Prop :=
  (d = s + 1 → hi8 w.1 = lo8 w.2) ∧ (d = s + 2 → w.1 = w.2) ∧ (d = s + 3 → lo8 w.1 = hi8 w.2)

/-- When the 32-bit move arrives, by its kind of destination and source. -/
def MoveExact (dst : MoveDest) (src : MoveSource) (m : Machine) : Prop :=
  match dst, src with
  | .push, .mem a =>
      (src.words m).1 = (src.words m).2 ∧ UpwardOk (m.ea a.toMemRef) (m.sp - 2) (src.words m)
  | .push, _ => (src.words m).1 = (src.words m).2
  | .mem d, .mem s => UpwardOk (m.ea s.toMemRef) (m.ea d.toMemRef) (src.words m)
  | _, _ => True

theorem append_eq_iff {h l : BitVec 8} {v : BitVec 16} : h ++ l = v ↔ h = hi8 v ∧ l = lo8 v := by
  constructor
  · rintro rfl
    simp
  · rintro ⟨rfl, rfl⟩
    simp

theorem load16_eq (m : Machine) (y : BitVec 16) :
    hi8 (m.load16 y) = m.mem (y + 1) ∧ lo8 (m.load16 y) = m.mem y := by
  simp [Machine.load16]

/-- The high word is still there after the low word was stored exactly when the overlap allows. -/
theorem load16_after_store_iff (m : Machine) (s d : BitVec 16) :
    (m.store16 d (m.load16 s)).load16 (s + 2) = m.load16 (s + 2) ↔
      UpwardOk s d (m.load16 s, m.load16 (s + 2)) := by
  obtain ⟨hh, hl⟩ := load16_eq m (s + 2)
  by_cases h1 : d = s + 1
  · have h2 : d ≠ s + 2 := by bv_omega
    have h3 : d ≠ s + 3 := by bv_omega
    rw [show s + 2 = d + 1 by bv_omega, Machine.load16_store16_succ, append_eq_iff,
      ← show s + 2 = d + 1 by bv_omega, hh, show d + 2 = s + 2 + 1 by bv_omega]
    exact ⟨fun h => ⟨fun _ => h.2, fun e => absurd e h2, fun e => absurd e h3⟩,
      fun h => ⟨rfl, h.1 h1⟩⟩
  · by_cases h2 : d = s + 2
    · have h3 : d ≠ s + 3 := by bv_omega
      rw [← h2, Machine.load16_store16]
      exact ⟨fun h => ⟨fun e => absurd e h1, fun _ => h, fun e => absurd e h3⟩,
        fun h => h.2.1 h2⟩
    · by_cases h3 : d = s + 3
      · rw [Machine.load16_store16_pred _ _ _ (show s + 2 + 1 = d by bv_omega), append_eq_iff, hl]
        exact ⟨fun h => ⟨fun e => absurd e h1, fun e => absurd e h2, fun _ => h.1⟩,
          fun h => ⟨h.2.2 h3, rfl⟩⟩
      · rw [Machine.load16_store16_of_ne _ _ _ (by bv_omega) (by bv_omega) (by bv_omega)]
        exact ⟨fun _ => ⟨fun e => absurd e h1, fun e => absurd e h2, fun e => absurd e h3⟩,
          fun _ => rfl⟩

section Addresses

variable (m : Machine) (a : Address)

@[simp] theorem ea_plus (k : BitVec 16) :
    m.ea (a.plus k).toMemRef = m.ea a.toMemRef + k := by
  cases a with
  | const n => rfl
  | base r d => exact (BitVec.add_assoc _ _ _).symm

/-- An address uses a base register only. -/
@[simp] theorem ea_setPair {p : Pair} (hx : p ≠ .ix) (hy : p ≠ .iy) (v : BitVec 16) :
    (m.setPair p v).ea a.toMemRef = m.ea a.toMemRef := by
  rcases a with n | ⟨_ | _, d⟩ <;>
    simp [Machine.ea, Address.toMemRef, BaseReg.pair, hx.symm, hy.symm]

@[simp] theorem ea_store16 (x w : BitVec 16) :
    (m.store16 x w).ea a.toMemRef = m.ea a.toMemRef := by
  cases a <;> rfl

@[simp] theorem ea_push (w : BitVec 16) : (m.push w).ea a.toMemRef = m.ea a.toMemRef := by
  cases a <;> rfl

@[simp] theorem load16_setPair (p : Pair) (v x : BitVec 16) :
    (m.setPair p v).load16 x = m.load16 x := rfl

@[simp] theorem load16_setPair_store16 (p : Pair) (v x w y : BitVec 16) :
    ((m.setPair p v).store16 x w).load16 y = (m.store16 x w).load16 y := rfl

end Addresses

/-- A word stored two bytes further up leaves the word before it. -/
theorem load16_store16_below (m : Machine) (x w : BitVec 16) :
    (m.store16 (x + 2#16) w).load16 x = m.load16 x :=
  m.load16_store16_of_ne _ _ (by bv_omega) (by bv_omega) (by bv_omega)

/-- A move insn is right when it is split into moves that bring the source's words over. -/
def MoveRight (dst : MoveDest) (src : MoveSource) (m : Machine) : Prop :=
  ∃ code, movsi dst src = some code ∧ dst.Holds m (z80.execs code m) (src.words m)

section Cases

variable (m : Machine)

theorem moveRight_iff {dst : MoveDest} {src : MoveSource} {code : List Instr}
    (h : movsi dst src = some code) :
    MoveRight dst src m ↔ dst.Holds m (z80.execs code m) (src.words m) := by
  simp [MoveRight, h]

theorem reg_right (r : LongReg) (src : MoveSource) : MoveRight (.reg r) src m := by
  cases src with
  | reg q =>
    cases r <;> cases q <;> rw [moveRight_iff m rfl] <;>
      simp [MoveDest.Holds, MoveSource.words, LongReg.low, LongReg.high, Instr.exec,
        Machine.set16, Machine.get16]
  | mem a =>
    cases r <;> rw [moveRight_iff m rfl] <;>
      simp [MoveDest.Holds, MoveSource.words, LongReg.low, LongReg.high, Instr.exec,
        Machine.set16, Machine.src16]
  | constInt v =>
    cases r <;> rw [moveRight_iff m rfl, words_const] <;>
      simp [MoveDest.Holds, LongReg.low, LongReg.high, Instr.exec, Machine.set16, Machine.src16]
  | constDouble image =>
    cases r <;> rw [moveRight_iff m rfl, words_image] <;>
      simp [MoveDest.Holds, LongReg.low, LongReg.high, Instr.exec, Machine.set16, Machine.src16]

theorem mem_right_of_reg (d : Address) (r : LongReg) : MoveRight (.mem d) (.reg r) m := by
  cases r <;> rw [moveRight_iff m rfl] <;>
    simp [MoveDest.Holds, MoveSource.words, LongReg.low, LongReg.high, Instr.exec, Machine.get16,
      load16_store16_below]

theorem mem_right_of_constInt (d : Address) (v : Int) : MoveRight (.mem d) (.constInt v) m := by
  rw [moveRight_iff m rfl, words_const]
  simp [MoveDest.Holds, Instr.exec, Machine.set16, Machine.src16, Machine.get16,
    load16_store16_below]

theorem mem_right_of_constDouble (d : Address) (image : BitVec 32) :
    MoveRight (.mem d) (.constDouble image) m := by
  rw [moveRight_iff m rfl, words_image]
  simp [MoveDest.Holds, Instr.exec, Machine.set16, Machine.src16, Machine.get16,
    load16_store16_below]

theorem mem_right_of_mem_iff (d a : Address) :
    MoveRight (.mem d) (.mem a) m ↔
      UpwardOk (m.ea a.toMemRef) (m.ea d.toMemRef) ((MoveSource.mem a).words m) := by
  rw [moveRight_iff m rfl, MoveSource.words, ← load16_after_store_iff]
  simp [MoveDest.Holds, Instr.exec, Machine.set16, Machine.src16, Machine.get16,
    load16_store16_below]

/-- Two words pushed one after the other: the second is at the new SP, the first above it. -/
theorem push_right_iff {src : MoveSource} {code : List Instr} (h : movsi .push src = some code)
    {a b : BitVec 16} (hsp : (z80.execs code m).sp = m.sp - 2 - 2)
    (hmem : (z80.execs code m).mem = ((m.push a).push b).mem) :
    MoveRight .push src m ↔ b = (src.words m).1 ∧ a = (src.words m).2 := by
  have e4 : m.sp - 2 - 2 = m.sp - 4 := by bv_omega
  have hb : (z80.execs code m).load16 (m.sp - 4) = b := by
    rw [Machine.load16, hmem, ← e4]
    exact Machine.load16_push (m.push a) b
  have ha : (z80.execs code m).load16 (m.sp - 4 + 2) = a := by
    rw [Machine.load16, hmem, show m.sp - 4 + 2 = m.sp - 2 by bv_omega]
    refine (Machine.load16_push_of_ne (m.push a) b ?_ ?_ ?_).trans (Machine.load16_push m a) <;>
      simp only [Machine.push_sp] <;> bv_omega
  rw [moveRight_iff m h]
  simp only [MoveDest.Holds, hsp, e4, hb, ha, true_and]

theorem push_right_of_reg_iff (r : LongReg) :
    MoveRight .push (.reg r) m ↔
      ((MoveSource.reg r).words m).1 = ((MoveSource.reg r).words m).2 := by
  have hb : MoveRight .push (.reg r) m ↔
      m.pair r.high = m.pair r.low ∧ m.pair r.low = m.pair r.high := by
    cases r <;> exact push_right_iff m rfl rfl rfl
  rw [hb]
  exact ⟨fun h => h.2, fun h => ⟨h.symm, h⟩⟩

/-- Loading the scratch register before each push makes no difference to memory. -/
theorem scratch_push_mem (p : Pair) (v v' a b : BitVec 16) :
    ((((m.setPair p v).push a).setPair p v').push b).mem = ((m.push a).push b).mem := rfl

theorem push_right_of_constInt_iff (v : Int) :
    MoveRight .push (.constInt v) m ↔
      ((MoveSource.constInt v).words m).1 = ((MoveSource.constInt v).words m).2 := by
  rw [push_right_iff m rfl (a := BitVec.ofInt 16 v) (b := BitVec.ofInt 16 (v >>> (16 : Nat))), words_const]
  · exact ⟨fun h => h.2, fun h => ⟨h.symm, h⟩⟩
  · simp [Instr.exec, Machine.set16, Machine.src16]
  · simp [Instr.exec, Machine.set16, Machine.src16, Machine.get16, scratch_push_mem]

theorem push_right_of_constDouble_iff (image : BitVec 32) :
    MoveRight .push (.constDouble image) m ↔
      ((MoveSource.constDouble image).words m).1 = ((MoveSource.constDouble image).words m).2 := by
  rw [push_right_iff m rfl (a := BitVec.ofInt 16 (image &&& 0xffff).toNat)
    (b := BitVec.ofInt 16 (image >>> 16 &&& 0xffff).toNat), words_image]
  · exact ⟨fun h => h.2, fun h => ⟨h.symm, h⟩⟩
  · simp [Instr.exec, Machine.set16, Machine.src16]
  · simp [Instr.exec, Machine.set16, Machine.src16, Machine.get16, scratch_push_mem]

theorem push_right_of_mem_iff (a : Address) :
    MoveRight .push (.mem a) m ↔
      ((MoveSource.mem a).words m).1 = ((MoveSource.mem a).words m).2 ∧
        UpwardOk (m.ea a.toMemRef) (m.sp - 2) ((MoveSource.mem a).words m) := by
  rw [push_right_iff m rfl (a := m.load16 (m.ea a.toMemRef))
    (b := (m.push (m.load16 (m.ea a.toMemRef))).load16 (m.ea a.toMemRef + 2)),
    MoveSource.words, ← load16_after_store_iff]
  · exact ⟨fun h => ⟨h.2, h.1.trans h.2⟩, fun h => ⟨h.2.trans h.1.symm, h.1⟩⟩
  · simp [Instr.exec, Machine.set16, Machine.src16]
  · simp [Instr.exec, Machine.set16, Machine.src16, Machine.get16, scratch_push_mem]
    rfl

/-- A 32-bit move leaves the source's value in the destination exactly where the order of the two
half moves does no harm: not for a push of different words, and not for a copy in memory onto
bytes that are still to be read, unless these are the bytes that are written there. -/
theorem split_move_right_iff (dst : MoveDest) (src : MoveSource) :
    MoveRight dst src m ↔ MoveExact dst src m := by
  cases dst with
  | reg r => exact ⟨fun _ => trivial, fun _ => reg_right m r src⟩
  | mem d =>
    cases src with
    | reg r => exact ⟨fun _ => trivial, fun _ => mem_right_of_reg m d r⟩
    | mem a => exact mem_right_of_mem_iff m d a
    | constInt v => exact ⟨fun _ => trivial, fun _ => mem_right_of_constInt m d v⟩
    | constDouble image => exact ⟨fun _ => trivial, fun _ => mem_right_of_constDouble m d image⟩
  | push =>
    cases src with
    | reg r => exact push_right_of_reg_iff m r
    | mem a => exact push_right_of_mem_iff m a
    | constInt v => exact push_right_of_constInt_iff m v
    | constDouble image => exact push_right_of_constDouble_iff m image

end Cases

/-- The long constant 1 is pushed as 0x10000. -/
theorem split_move_wrong_push_one :
    ¬MoveRight .push (.constInt 1) (Machine.ofRegs 0 0 0 0 0 0 0x1000) := by
  rw [push_right_of_constInt_iff, words_const]
  decide

end Z80Gcc
