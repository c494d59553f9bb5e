import Mathlib
import Z80Gcc.Sanity.Machine
import Z80Gcc.Spec.Shift
import Z80Gcc.Spec.DoubleInt

/-! What the variable shifts compute: B turns of one place each, where B is the low byte of the
count. The constant folder shifts by the count modulo the width. -/

namespace Z80Gcc

open Z80Gcc.Halves Z80Gcc.Adder Z80Gcc.Rotate

/-- A shift by `k` places. -/
def ShiftCode.apply {w : Nat} (code : ShiftCode) (x : BitVec w) (k : Nat) : BitVec w :=
  match code with
  | .ashift => x <<< k
  | .ashiftrt => x.sshiftRight k
  | .lshiftrt => x >>> k

theorem ShiftCode.apply_add {w : Nat} (code : ShiftCode) (x : BitVec w) (j k : Nat) :
    code.apply x (j + k) = code.apply (code.apply x j) k := by
  cases code with
  | ashift => exact BitVec.shiftLeft_add x j k
  | ashiftrt => exact BitVec.sshiftRight_add
  | lshiftrt => exact BitVec.shiftRight_add x j k

theorem ShiftCode.iterate_apply {w : Nat} (code : ShiftCode) (x : BitVec w) (k : Nat) :
    (fun y => code.apply y 1)^[k] x = code.apply x k := by
  induction k with
  | zero => cases code <;> simp [ShiftCode.apply]
  | succ k ih => rw [Function.iterate_succ_apply', ih, ← ShiftCode.apply_add]

namespace ShiftDest

variable {w : Nat}

/-- The operand is not in the register of the count. -/
def Apart : ShiftDest w → Prop
  | si => True
  | hi p => p ≠ .bc
  | qi r => r ≠ .b ∧ r ≠ .c

theorem value_congr (dest : ShiftDest w) {m m' : Machine} (ha : m'.a = m.a)
    (hp : m'.pair = m.pair) : dest.value m' = dest.value m := by
  cases dest with
  | si => simp [value, hp]
  | hi p => simp [value, hp]
  | qi r => rcases r with _ | ⟨p, _ | _⟩ <;> simp [value, ha, hp]

theorem value_setPair_bc {dest : ShiftDest w} (h : dest.Apart) (m : Machine) (v : BitVec 16) :
    dest.value (m.setPair .bc v) = dest.value m := by
  cases dest with
  | si => simp [value]
  | hi p => simp [value, Machine.setPair_pair_of_ne _ _ _ _ h]
  | qi r =>
    rcases r with _ | ⟨p, _ | _⟩
    · rfl
    · have hp : p ≠ .bc := fun e => h.2 (by rw [e])
      simp [value, hp]
    · have hp : p ≠ .bc := fun e => h.1 (by rw [e])
      simp [value, hp]

end ShiftDest

section Loop

variable {w : Nat} {dest : ShiftDest w} {body : List Instr} {f : BitVec w → BitVec w}

/-- One turn of the loop: the body, then B is counted down. -/
def turn (body : List Instr) (m : Machine) : Machine := (Cond.djnz.test (z80.execs body m)).2

/-- A loop body shifts its operand and leaves the counter alone. -/
structure Shifts (dest : ShiftDest w) (body : List Instr) (f : BitVec w → BitVec w) : Prop where
  value : ∀ m, dest.value (z80.execs body m) = f (dest.value m)
  bc : ∀ m, (z80.execs body m).pair .bc = m.pair .bc

theorem turn_b (h : Shifts dest body f) (m : Machine) :
    (turn body m).get8 .b = m.get8 .b - 1 := by
  simp [turn, Cond.test, h.bc]

theorem turn_value (h : Shifts dest body f) (hd : dest.Apart) (m : Machine) :
    dest.value (turn body m) = f (dest.value m) := by
  rw [turn, Cond.test, Machine.set8_hi, ShiftDest.value_setPair_bc hd, h.value]

theorem turn_iterate_b (h : Shifts dest body f) (m : Machine) (i : Nat) :
    ((turn body)^[i] m).get8 .b = m.get8 .b - BitVec.ofNat 8 i := by
  induction i with
  | zero => simp
  | succ i ih =>
    rw [Function.iterate_succ_apply', turn_b h, ih]
    bv_omega

theorem turn_iterate_value (h : Shifts dest body f) (hd : dest.Apart) (m : Machine) (i : Nat) :
    dest.value ((turn body)^[i] m) = f^[i] (dest.value m) := by
  induction i with
  | zero => rfl
  | succ i ih =>
    rw [Function.iterate_succ_apply', Function.iterate_succ_apply', turn_value h hd, ih]

theorem djnz_eq (h : Shifts dest body f) (m : Machine) :
    Cond.djnz.test (z80.execs body m) = (m.get8 .b - 1 != 0, turn body m) := by
  simp [turn, Cond.test, h.bc]

/-- A tested count: B is the low byte of BC, Z says whether it is zero. -/
structure Counted (dest : ShiftDest w) (m s : Machine) : Prop where
  b : s.get8 .b = lo8 (m.pair .bc)
  z : s.flags.z = (lo8 (m.pair .bc) == 0)
  value : dest.value s = dest.value m

/-- `inc b; dec b` sets Z by B and puts B back. -/
theorem execs_testCount (hd : dest.Apart) (m : Machine) :
    (z80.execs testCount m).pair .bc = m.pair .bc ∧
      (z80.execs testCount m).flags.z = (m.get8 .b == 0) ∧
      dest.value (z80.execs testCount m) = dest.value m := by
  refine ⟨?_, ?_, ?_⟩
  · simp [testCount, Instr.exec, Machine.setLoc8, Machine.loc8]
  · simp [testCount, Instr.exec, Machine.setLoc8, Machine.loc8, sbcFlags]
  · have hv : ∀ (n : Machine) (fl : Flags), dest.value (n.setFlags fl) = dest.value n :=
      fun n fl => dest.value_congr rfl rfl
    simp only [testCount, Instr.exec, Machine.setLoc8, Machine.loc8, Asm.Isa.execs_cons,
      Asm.Isa.execs_nil, z80_exec, hv, Machine.set8_hi, ShiftDest.value_setPair_bc hd]

theorem counted_testCount (hd : dest.Apart) (m : Machine) {test : List Instr}
    (ht : test = testCount ∨ test = testCount ++ testCount) :
    Counted dest m (z80.execs (ldReg .b .c :: test) m) := by
  set s := z80.exec (ldReg .b .c) m with hs
  have hb : s.get8 .b = lo8 (m.pair .bc) := by
    simp [hs, ldReg, Instr.exec, Machine.setLoc8, Machine.src8]
  have hv : dest.value s = dest.value m := by
    simp [hs, ldReg, Instr.exec, Machine.setLoc8, Machine.src8, ShiftDest.value_setPair_bc hd]
  obtain ⟨hb₁, hz₁, hv₁⟩ := execs_testCount hd s
  obtain ⟨hb₂, hz₂, hv₂⟩ := execs_testCount hd (z80.execs testCount s)
  rw [Asm.Isa.execs_cons, ← hs]
  rcases ht with rfl | rfl
  · exact ⟨by rw [← hb, Machine.get8_hi, hb₁, ← Machine.get8_hi], by rw [hz₁, hb], hv₁.trans hv⟩
  · rw [Asm.Isa.execs_append]
    refine ⟨?_, ?_, (hv₂.trans hv₁).trans hv⟩
    · rw [← hb, Machine.get8_hi, hb₂, hb₁, ← Machine.get8_hi]
    · rw [hz₂, Machine.get8_hi, hb₁, ← Machine.get8_hi, hb]

/-- The count is copied to B, and the tests leave it there. -/
theorem execs_testCount_bc (m : Machine) {test : List Instr}
    (ht : test = testCount ∨ test = testCount ++ testCount) :
    (z80.execs (ldReg .b .c :: test) m).pair .bc = lo8 (m.pair .bc) ++ lo8 (m.pair .bc) := by
  have hone : ∀ n : Machine, (z80.execs testCount n).pair .bc = n.pair .bc := fun n =>
    (execs_testCount (show ShiftDest.si.Apart from trivial) n).1
  have hld : (z80.exec (ldReg .b .c) m).pair .bc = lo8 (m.pair .bc) ++ lo8 (m.pair .bc) := by
    simp [ldReg, Instr.exec, Machine.setLoc8, Machine.src8]
  rcases ht with rfl | rfl
  · rw [Asm.Isa.execs_cons, hone, hld]
  · rw [Asm.Isa.execs_cons, Asm.Isa.execs_append, hone, hone, hld]

theorem turn_iterate_bc (h : Shifts dest body f) (m : Machine) (i : Nat) :
    ((turn body)^[i] m).pair .bc = (m.get8 .b - BitVec.ofNat 8 i) ++ lo8 (m.pair .bc) := by
  have hlow : lo8 (((turn body)^[i] m).pair .bc) = lo8 (m.pair .bc) := by
    induction i with
    | zero => rfl
    | succ i ih =>
      rw [Function.iterate_succ_apply', turn, Cond.test, Machine.set8_hi, Machine.setPair_pair_self,
        lo8_append, h.bc, ih]
  rw [← turn_iterate_b h, ← hlow, Machine.get8_hi, hi8_append_lo8]

/-- A variable shift terminates, having executed its body once for every count in the low byte of
BC, with the operand shifted as often. The count is back in BC, its high byte cleared. -/
theorem countLoop_logged (h : Shifts dest body f) (hd : dest.Apart) {test : List Instr}
    (ht : test = testCount ∨ test = testCount ++ testCount) {l0 l1 : Nat} (hl : l0 ≠ l1)
    (m : Machine) :
    ∃ t, z80.logged.Runs (countLoop test body l0 l1) (m, []) ⟨none, (t, ldReg .b .c :: test ++
          (List.replicate (lo8 (m.pair .bc)).toNat body).flatten)⟩ ∧
      dest.value t = f^[(lo8 (m.pair .bc)).toNat] (dest.value m) ∧
      t.pair .bc = 0#8 ++ lo8 (m.pair .bc) := by
  obtain ⟨hb, hz, hv⟩ := counted_testCount hd m ht
  have hbc := execs_testCount_bc m ht
  set head := ldReg .b .c :: test with hhead
  set s := z80.execs head m with hs
  set pre : Listing := Asm.ops head ++ [.jump .z l1] with hpre
  have hcode : countLoop test body l0 l1 = Asm.loopAt pre l0 body .djnz [.label l1] := by
    simp [countLoop, Asm.loopAt, hpre, hhead]
  have hl0 : l0 ∉ Asm.labels pre := by simp [hpre, Asm.labels_append, Asm.labels]
  have hl1 : l0 ∉ Asm.labels ([.label l1] : Listing) := by simp [Asm.labels, hl]
  have hin : z80.logged.pass pre ⟨none, (m, [])⟩ =
      ⟨if s.flags.z then some l1 else none, (s, head)⟩ := by
    rw [hpre, Asm.Isa.pass_append, Asm.Isa.pass_ops, Asm.Isa.logged_execs, ← hs]
    rfl
  rw [hcode]
  by_cases h0 : lo8 (m.pair .bc) = 0#8
  · refine ⟨s, .of_pass_fell ?_, by simp [h0, hv], by rw [hbc, h0]⟩
    rw [Asm.loopAt, Asm.Isa.pass_append, hin, hz, h0]
    simp [Asm.Isa.pass_append, Ne.symm hl]
  · obtain ⟨n, hn⟩ : ∃ n, (lo8 (m.pair .bc)).toNat = n + 1 :=
      Nat.exists_eq_succ_of_ne_zero fun e => h0 (BitVec.eq_of_toNat_eq e)
    have hn8 : n < 256 := by have := (lo8 (m.pair .bc)).isLt; omega
    -- the state and the log after `i` turns
    set after : Nat → Machine × List Instr := fun i =>
      ((turn body)^[i] s, head ++ (List.replicate i body).flatten) with hafter
    have hstep : ∀ i, z80.logged.branch .djnz (z80.logged.execs body (after i)) =
        (lo8 (m.pair .bc) - BitVec.ofNat 8 i - 1 != 0, after (i + 1)) := by
      intro i
      have hlog : (List.replicate (i + 1) body).flatten =
          (List.replicate i body).flatten ++ body := by
        rw [List.replicate_succ', List.flatten_append, List.flatten_singleton]
      simp only [hafter, Asm.Isa.logged_execs, Asm.Isa.logged_branch, z80_branch, djnz_eq h,
        turn_iterate_b h, hb, Function.iterate_succ_apply', hlog, List.append_assoc]
    refine ⟨(turn body)^[n + 1] s, .of_loop hl0 (s := after 0) ?_ ?_, ?_, ?_⟩
    · rw [hin, hz, hafter]
      simp [h0]
    · rw [hn]
      refine .loop (n := n) (s := after) hl0 hl1 ?_ ?_ (t := after (n + 1)) rfl
        (Asm.Flow.final_fell _ _)
      · intro i hi
        have hne : lo8 (m.pair .bc) - BitVec.ofNat 8 i - 1 ≠ 0#8 := by bv_omega
        rw [hstep]
        simpa using hne
      · have heq : lo8 (m.pair .bc) - BitVec.ofNat 8 n - 1 = 0#8 := by bv_omega
        rw [hstep, heq]
        rfl
    · rw [turn_iterate_value h hd, hv, hn]
    · have hend : s.get8 .b - BitVec.ofNat 8 (n + 1) = 0#8 := by
        rw [hb]
        bv_omega
      rw [turn_iterate_bc h, hend, hbc, lo8_append]

/-- A variable shift terminates with its operand shifted once for every count in the low byte of
BC. -/
theorem countLoop_runs (h : Shifts dest body f) (hd : dest.Apart) {test : List Instr}
    (ht : test = testCount ∨ test = testCount ++ testCount) {l0 l1 : Nat} (hl : l0 ≠ l1)
    (m : Machine) :
    ∃ t, z80.Runs (countLoop test body l0 l1) m ⟨none, t⟩ ∧
      dest.value t = f^[(lo8 (m.pair .bc)).toNat] (dest.value m) := by
  obtain ⟨t, hr, hv, -⟩ := countLoop_logged h hd ht hl m
  exact ⟨t, hr.of_logged, hv⟩

end Loop

section Bodies

theorem shiftInLow_bytes (v : BitVec 16) (c : Bool) :
    shiftInLow (hi8 v) (lo8 v).msb ++ shiftInLow (lo8 v) c = shiftInLow v c := by
  rw [← shiftInLow_append _ _ (by decide), hi8_append_lo8]

theorem shiftInHigh_bytes (v : BitVec 16) (c : Bool) (hbit : 0 < 8) :
    shiftInHigh (hi8 v) c ++ shiftInHigh (lo8 v) (hi8 v)[0] = shiftInHigh v c := by
  rw [← BitVec.getLsbD_eq_getElem, ← shiftInHigh_append _ _ (by decide), hi8_append_lo8]

theorem shiftInLow_words (h l : BitVec 16) (c : Bool) :
    shiftInLow h l.msb ++ shiftInLow l c = shiftInLow (h ++ l : BitVec 32) c :=
  (shiftInLow_append h l (by decide) c).symm

theorem shiftInHigh_words (h l : BitVec 16) (c : Bool) (hbit : 0 < 16) :
    shiftInHigh h c ++ shiftInHigh l h[0] = shiftInHigh (h ++ l : BitVec 32) c := by
  rw [← BitVec.getLsbD_eq_getElem]
  exact (shiftInHigh_append h l (by decide) c).symm

theorem msb_words (h l : BitVec 16) : (h ++ l : BitVec 32).msb = h.msb :=
  BitVec.msb_append

theorem apply_rl (v : BitVec 8) (c : Bool) : RotOp.rl.apply v c = (shiftInLow v c, v.msb) := rfl

theorem apply_rr (v : BitVec 8) (c : Bool) :
    RotOp.rr.apply v c = (shiftInHigh v c, v.getLsbD 0) := rfl

theorem apply_sla (v : BitVec 8) (c : Bool) :
    RotOp.sla.apply v c = (shiftInLow v false, v.msb) := by
  simp [RotOp.apply, shiftInLow_false]

theorem apply_srl (v : BitVec 8) (c : Bool) :
    RotOp.srl.apply v c = (shiftInHigh v false, v.getLsbD 0) := by
  simp [RotOp.apply, shiftInHigh_false]

theorem apply_sra (v : BitVec 8) (c : Bool) :
    RotOp.sra.apply v c = (shiftInHigh v v.msb, v.getLsbD 0) := by
  simp [RotOp.apply, shiftInHigh_msb]

theorem ShiftCode.apply_one {w : Nat} (code : ShiftCode) (x : BitVec w) :
    code.apply x 1 =
      match code with
      | .ashift => shiftInLow x false
      | .ashiftrt => shiftInHigh x x.msb
      | .lshiftrt => shiftInHigh x false := by
  cases code with
  | ashift => exact (shiftInLow_false x).symm
  | ashiftrt => exact (shiftInHigh_msb x).symm
  | lshiftrt => exact (shiftInHigh_false x).symm

theorem exec_rotReg (op : RotOp) (r : Reg8) (m : Machine) :
    (rotReg op r).exec m =
      (m.set8 r (op.apply (m.get8 r) m.flags.c).1).setFlags
        (logicFlags (op.apply (m.get8 r) m.flags.c).1 (op.apply (m.get8 r) m.flags.c).2) := rfl

theorem lowByte_of_mem {p : Pair} (hp : p ∈ [.hl, .bc, .de]) : lowByte p = .half p .lo := by
  simp only [List.mem_cons, List.not_mem_nil, or_false] at hp
  rcases hp with rfl | rfl | rfl <;> rfl

theorem exec_ldReg (d s : Reg8) (m : Machine) : (ldReg d s).exec m = m.set8 d (m.get8 s) := rfl

theorem exec_ldImm (d : Reg8) (n : BitVec 8) (m : Machine) : (ldImm d n).exec m = m.set8 d n := rfl

/-- The body of each variable shift shifts its operand by one place. -/
theorem shifts_si_left :
    Shifts .si (shiftLeftBytes longBytes) (fun x => ShiftCode.ashift.apply x 1) where
  value m := by
    simp [ShiftDest.value, shiftLeftBytes, longBytes, lowByte, highByte, exec_rotReg, apply_sla,
      apply_rl, logicFlags, shiftInLow_bytes, ShiftCode.apply_one, msb_hi8, shiftInLow_words]
  bc m := by
    simp [shiftLeftBytes, longBytes, lowByte, highByte, exec_rotReg]

theorem shifts_hi_left {p : Pair} (hp : p = .hl ∨ p = .de) :
    Shifts (.hi p) (shiftLeftBytes [lowByte p, highByte p])
      (fun x => ShiftCode.ashift.apply x 1) where
  value m := by
    rcases hp with rfl | rfl <;>
      simp [ShiftDest.value, shiftLeftBytes, lowByte, highByte, exec_rotReg, apply_sla, apply_rl,
        logicFlags, shiftInLow_bytes, ShiftCode.apply_one]
  bc m := by
    rcases hp with rfl | rfl <;> simp [shiftLeftBytes, lowByte, highByte, exec_rotReg]

theorem shifts_qi_left {r : Reg8} (hr : r = .a ∨ r = .l ∨ r = .e) :
    Shifts (.qi r) (shiftLeftBytes [r]) (fun x => ShiftCode.ashift.apply x 1) where
  value m := by
    rcases hr with rfl | rfl | rfl <;>
      simp [ShiftDest.value, shiftLeftBytes, exec_rotReg, apply_sla, ShiftCode.apply_one]
  bc m := by
    rcases hr with rfl | rfl | rfl <;> simp [shiftLeftBytes, exec_rotReg]

def ShiftCode.rightOp : ShiftCode → RotOp
  | .ashiftrt => .sra
  | _ => .srl

theorem shifts_si_right {code : ShiftCode} (hc : code ≠ .ashift) :
    Shifts .si (shiftRightBytes code.rightOp longBytes.reverse) (fun x => code.apply x 1) where
  value m := by
    cases code <;>
      simp [ShiftDest.value, shiftRightBytes, longBytes, lowByte, highByte, exec_rotReg,
        apply_sra, apply_srl, apply_rr, logicFlags, shiftInHigh_bytes, ShiftCode.apply_one,
        ShiftCode.rightOp, msb_hi8, getElem_lo8_zero, shiftInHigh_words, msb_words] at hc ⊢
  bc m := by
    simp [shiftRightBytes, longBytes, lowByte, highByte, exec_rotReg]

theorem shifts_hi_right {code : ShiftCode} (hc : code ≠ .ashift) {p : Pair}
    (hp : p = .hl ∨ p = .de) :
    Shifts (.hi p) (shiftRightBytes code.rightOp [highByte p, lowByte p])
      (fun x => code.apply x 1) where
  value m := by
    rcases hp with rfl | rfl <;> cases code <;>
      simp [ShiftDest.value, shiftRightBytes, lowByte, highByte, exec_rotReg,
        apply_sra, apply_srl, apply_rr, logicFlags, shiftInHigh_bytes, ShiftCode.apply_one,
        ShiftCode.rightOp, msb_hi8] at hc ⊢
  bc m := by
    rcases hp with rfl | rfl <;> simp [shiftRightBytes, lowByte, highByte, exec_rotReg]

theorem shifts_qi_right {code : ShiftCode} (hc : code ≠ .ashift) {r : Reg8}
    (hr : r = .a ∨ r = .l ∨ r = .e) :
    Shifts (.qi r) (shiftRightBytes code.rightOp [r]) (fun x => code.apply x 1) where
  value m := by
    rcases hr with rfl | rfl | rfl <;> cases code <;>
      simp [ShiftDest.value, shiftRightBytes, exec_rotReg, apply_sra, apply_srl,
        ShiftCode.apply_one, ShiftCode.rightOp] at hc ⊢
  bc m := by
    rcases hr with rfl | rfl | rfl <;> simp [shiftRightBytes, exec_rotReg]

/-- Every variable shift pattern is the counted loop around a body that shifts by one place. -/
theorem variableShift_eq {w : Nat} {code : ShiftCode} {dest : ShiftDest w} (hd : dest.Apart)
    {l0 l1 : Nat} {listing : Listing} (h : variableShift code dest l0 l1 = some listing) :
    ∃ test body, (test = testCount ∨ test = testCount ++ testCount) ∧
      Shifts dest body (fun x => code.apply x 1) ∧ listing = countLoop test body l0 l1 := by
  cases dest with
  | si =>
    cases code <;> simp only [variableShift, Option.some.injEq] at h <;> subst h
    case ashift => exact ⟨_, _, .inl rfl, shifts_si_left, rfl⟩
    case ashiftrt => exact ⟨_, _, .inl rfl, shifts_si_right (by simp), rfl⟩
    case lshiftrt => exact ⟨_, _, .inl rfl, shifts_si_right (by simp), rfl⟩
  | hi p =>
    cases code <;> simp only [variableShift, Option.ite_none_right_eq_some, Option.some.injEq] at h <;>
      obtain ⟨hp, rfl⟩ := h
    case ashift => exact ⟨_, _, .inl rfl, shifts_hi_left hp, rfl⟩
    case ashiftrt =>
      have hp' : p = .hl := hp.resolve_right hd
      exact ⟨_, _, .inl rfl, shifts_hi_right (by simp) (.inl hp'), rfl⟩
    case lshiftrt => exact ⟨_, _, .inl rfl, shifts_hi_right (by simp) hp, rfl⟩
  | qi r =>
    cases code <;> simp only [variableShift, Option.ite_none_right_eq_some, Option.some.injEq] at h <;>
      obtain ⟨hr, rfl⟩ := h
    case ashift => exact ⟨_, _, .inl rfl, shifts_qi_left hr, rfl⟩
    case ashiftrt => exact ⟨_, _, .inr rfl, shifts_qi_right (by simp) hr, rfl⟩
    case lshiftrt => exact ⟨_, _, .inl rfl, shifts_qi_right (by simp) hr, rfl⟩

/-- A variable shift terminates with its operand shifted by the low byte of the count. -/
theorem variableShift_runs {w : Nat} (code : ShiftCode) (dest : ShiftDest w) (hd : dest.Apart)
    {l0 l1 : Nat} (hl : l0 ≠ l1) {listing : Listing}
    (h : variableShift code dest l0 l1 = some listing) (m : Machine) :
    ∃ t, z80.Runs listing m ⟨none, t⟩ ∧
      dest.value t = code.apply (dest.value m) (lo8 (m.pair .bc)).toNat := by
  obtain ⟨test, body, ht, hs, rfl⟩ := variableShift_eq hd h
  obtain ⟨t, hr, hv⟩ := countLoop_runs hs hd ht hl m
  exact ⟨t, hr, hv.trans (code.iterate_apply _ _)⟩

end Bodies

/-- A shift by the count in BC executes its one-place step as often as the low byte of BC says,
shifts its operand as often, and leaves a count below 256 in BC. -/
theorem variable_shift_counts {w : Nat} (code : ShiftCode) (dest : ShiftDest w) (hd : dest.Apart)
    {l0 l1 : Nat} (hl : l0 ≠ l1) {listing : Listing}
    (h : variableShift code dest l0 l1 = some listing) (m : Machine) :
    ∃ test step t, listing = countLoop test step l0 l1 ∧
      (∀ s, dest.value (z80.execs step s) = code.apply (dest.value s) 1) ∧
      z80.logged.Runs listing (m, []) ⟨none, (t, ldReg .b .c :: test ++
        (List.replicate (lo8 (m.pair .bc)).toNat step).flatten)⟩ ∧
      dest.value t = (fun x => code.apply x 1)^[(lo8 (m.pair .bc)).toNat] (dest.value m) ∧
      (hi8 (m.pair .bc) = 0#8 → t.pair .bc = m.pair .bc) := by
  obtain ⟨test, step, ht, hs, rfl⟩ := variableShift_eq hd h
  obtain ⟨t, hr, hv, hbc⟩ := countLoop_logged hs hd ht hl m
  refine ⟨test, step, t, rfl, hs.value, hr, hv, fun h0 => ?_⟩
  rw [hbc, ← h0, hi8_append_lo8]

/-- HL shifted left by three: three steps, and BC still holds 3. -/
theorem variable_shift_counts_three :
    ∃ test step t, ashlhi3 0 1 .hl = countLoop test step 0 1 ∧
      (∀ s, (ShiftDest.hi .hl).value (z80.execs step s) =
        ShiftCode.ashift.apply ((ShiftDest.hi .hl).value s) 1) ∧
      z80.logged.Runs (ashlhi3 0 1 .hl) (Machine.ofRegs 0 5 0 3 0 0 0, [])
        ⟨none, (t, ldReg .b .c :: test ++ (List.replicate 3 step).flatten)⟩ ∧
      (ShiftDest.hi .hl).value t = 40#16 ∧ t.pair .bc = 3#16 := by
  obtain ⟨test, step, t, h1, h2, h3, h4, h5⟩ := variable_shift_counts .ashift (.hi .hl)
    (show Pair.hl ≠ Pair.bc by decide) (show 0 ≠ 1 by decide) rfl (Machine.ofRegs 0 5 0 3 0 0 0)
  exact ⟨test, step, t, h1, h2, h3, h4.trans (by decide), h5 (by decide)⟩

end Z80Gcc
