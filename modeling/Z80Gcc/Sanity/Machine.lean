import Z80Gcc.Spec.Instr

/-! What each write to the machine changes and what it leaves alone. -/

namespace Z80Gcc

open Z80Gcc.Halves Z80Gcc.Adder

namespace Machine

variable (m : Machine)

section SetPair

variable (p q : Pair) (v w : BitVec 16)

theorem setPair_pair : (m.setPair p v).pair q = if q = p then v else m.pair q := by
  simp [setPair, Function.update_apply]

@[simp] theorem setPair_pair_self : (m.setPair p v).pair p = v := by
  simp [setPair]

@[simp] theorem setPair_pair_of_ne (h : q ≠ p) : (m.setPair p v).pair q = m.pair q := by
  simp [setPair, h]

@[simp] theorem setPair_a : (m.setPair p v).a = m.a := rfl

@[simp] theorem setPair_sp : (m.setPair p v).sp = m.sp := rfl

@[simp] theorem setPair_flags : (m.setPair p v).flags = m.flags := rfl

@[simp] theorem setPair_mem : (m.setPair p v).mem = m.mem := rfl

@[simp] theorem setPair_setPair : (m.setPair p v).setPair p w = m.setPair p w := by
  simp [setPair]

@[simp] theorem setPair_get : m.setPair p (m.pair p) = m := by
  simp [setPair]

end SetPair

section SetA

variable (v : BitVec 8)

@[simp] theorem setA_a : (m.setA v).a = v := rfl

@[simp] theorem setA_pair : (m.setA v).pair = m.pair := rfl

@[simp] theorem setA_sp : (m.setA v).sp = m.sp := rfl

@[simp] theorem setA_flags : (m.setA v).flags = m.flags := rfl

@[simp] theorem setA_mem : (m.setA v).mem = m.mem := rfl

@[simp] theorem setA_get : m.setA m.a = m := rfl

@[simp] theorem setA_setA (w : BitVec 8) : (m.setA v).setA w = m.setA w := rfl

@[simp] theorem setA_setPair (p : Pair) (w : BitVec 16) :
    (m.setA v).setPair p w = (m.setPair p w).setA v := rfl

@[simp] theorem load16_setA (x : BitVec 16) : (m.setA v).load16 x = m.load16 x := rfl

@[simp] theorem ea_setA (a : MemRef) : (m.setA v).ea a = m.ea a := by
  cases a <;> rfl

@[simp] theorem get8_half_setA (p : Pair) (h : Half) :
    (m.setA v).get8 (.half p h) = m.get8 (.half p h) := by
  cases h <;> rfl

end SetA

section SetSp

variable (v : BitVec 16)

@[simp] theorem setSp_a : (m.setSp v).a = m.a := rfl

@[simp] theorem setSp_pair : (m.setSp v).pair = m.pair := rfl

@[simp] theorem setSp_sp : (m.setSp v).sp = v := rfl

@[simp] theorem setSp_flags : (m.setSp v).flags = m.flags := rfl

@[simp] theorem setSp_mem : (m.setSp v).mem = m.mem := rfl

end SetSp

section SetFlags

variable (f : Flags)

@[simp] theorem setFlags_a : (m.setFlags f).a = m.a := rfl

@[simp] theorem setFlags_pair : (m.setFlags f).pair = m.pair := rfl

@[simp] theorem setFlags_sp : (m.setFlags f).sp = m.sp := rfl

@[simp] theorem setFlags_flags : (m.setFlags f).flags = f := rfl

@[simp] theorem setFlags_mem : (m.setFlags f).mem = m.mem := rfl

@[simp] theorem setFlags_setFlags (g : Flags) : (m.setFlags f).setFlags g = m.setFlags g := rfl

@[simp] theorem setFlags_setPair (p : Pair) (v : BitVec 16) :
    (m.setFlags f).setPair p v = (m.setPair p v).setFlags f := rfl

@[simp] theorem setFlags_setA (v : BitVec 8) :
    (m.setFlags f).setA v = (m.setA v).setFlags f := rfl

@[simp] theorem load16_setFlags (x : BitVec 16) : (m.setFlags f).load16 x = m.load16 x := rfl

@[simp] theorem ea_setFlags (a : MemRef) : (m.setFlags f).ea a = m.ea a := by
  cases a <;> rfl

end SetFlags

section Store

variable (x : BitVec 16) (v : BitVec 8) (w : BitVec 16)

@[simp] theorem store8_a : (m.store8 x v).a = m.a := rfl

@[simp] theorem store8_pair : (m.store8 x v).pair = m.pair := rfl

@[simp] theorem store8_sp : (m.store8 x v).sp = m.sp := rfl

@[simp] theorem store8_flags : (m.store8 x v).flags = m.flags := rfl

@[simp] theorem store16_a : (m.store16 x w).a = m.a := rfl

@[simp] theorem store16_pair : (m.store16 x w).pair = m.pair := rfl

@[simp] theorem store16_sp : (m.store16 x w).sp = m.sp := rfl

@[simp] theorem store16_flags : (m.store16 x w).flags = m.flags := rfl

@[simp] theorem push_a : (m.push w).a = m.a := rfl

@[simp] theorem push_pair : (m.push w).pair = m.pair := rfl

@[simp] theorem push_sp : (m.push w).sp = m.sp - 2 := rfl

@[simp] theorem push_flags : (m.push w).flags = m.flags := rfl

@[simp] theorem drop_a : m.drop.a = m.a := rfl

@[simp] theorem drop_pair : m.drop.pair = m.pair := rfl

@[simp] theorem drop_sp : m.drop.sp = m.sp + 2 := rfl

@[simp] theorem drop_flags : m.drop.flags = m.flags := rfl

@[simp] theorem drop_mem : m.drop.mem = m.mem := rfl

theorem store8_mem (y : BitVec 16) : (m.store8 x v).mem y = if y = x then v else m.mem y := by
  simp [store8, Function.update_apply]

@[simp] theorem load16_store16 : (m.store16 x w).load16 x = w := by
  simp [load16, store16, store8_mem]

@[simp] theorem pop_push : (m.push w).pop = w := by
  have : (m.push w).sp = m.sp - 2 := rfl
  rw [pop, this, push]
  exact load16_store16 _ _ _

@[simp] theorem load16_push : (m.push w).load16 (m.sp - 2) = w := pop_push m w

/-- A store leaves alone every word that does not share a byte with the one it writes. -/
theorem load16_store16_of_ne {y : BitVec 16} (h1 : y ≠ x + 1) (h2 : y ≠ x) (h3 : y + 1 ≠ x) :
    (m.store16 x w).load16 y = m.load16 y := by
  have h4 : y + 1 ≠ x + 1 := by bv_omega
  simp only [load16, store16, store8_mem, h1, h2, h3, h4, if_false]

theorem load16_store16_succ : (m.store16 x w).load16 (x + 1) = m.mem (x + 2) ++ hi8 w := by
  have h1 : x + 1 + 1 ≠ x + 1 := by bv_omega
  have h2 : x + 1 + 1 ≠ x := by bv_omega
  have h3 : x + 1 + 1 = x + 2 := by bv_omega
  simp only [load16, store16, store8_mem, h1, h2, if_false, if_true]
  rw [h3]

theorem load16_store16_pred {y : BitVec 16} (h : y + 1 = x) :
    (m.store16 x w).load16 y = lo8 w ++ m.mem y := by
  have h1 : y ≠ y + 1 := by bv_omega
  have h2 : y ≠ y + 1 + 1 := by bv_omega
  have h3 : y + 1 ≠ y + 1 + 1 := by bv_omega
  subst h
  simp only [load16, store16, store8_mem, h1, h2, h3, if_false, if_true]

theorem load16_push_of_ne {y : BitVec 16} (h1 : y ≠ m.sp - 1) (h2 : y ≠ m.sp - 2)
    (h3 : y ≠ m.sp - 3) : (m.push w).load16 y = m.load16 y := by
  rw [push, load16_store16_of_ne _ _ _ (by bv_omega) h2 (by bv_omega)]
  rfl

end Store

@[simp] theorem get8_a : m.get8 .a = m.a := rfl

@[simp] theorem get8_lo (p : Pair) : m.get8 (.half p .lo) = lo8 (m.pair p) := rfl

@[simp] theorem get8_hi (p : Pair) : m.get8 (.half p .hi) = hi8 (m.pair p) := rfl

@[simp] theorem set8_a (v : BitVec 8) : m.set8 .a v = m.setA v := rfl

@[simp] theorem set8_lo (p : Pair) (v : BitVec 8) :
    m.set8 (.half p .lo) v = m.setPair p (hi8 (m.pair p) ++ v) := rfl

@[simp] theorem set8_hi (p : Pair) (v : BitVec 8) :
    m.set8 (.half p .hi) v = m.setPair p (v ++ lo8 (m.pair p)) := rfl

@[simp] theorem get8_set8 (r : Reg8) (v : BitVec 8) : (m.set8 r v).get8 r = v := by
  rcases r with _ | ⟨p, _ | _⟩ <;> simp

@[simp] theorem get8_setFlags (r : Reg8) (f : Flags) : (m.setFlags f).get8 r = m.get8 r := by
  rcases r with _ | ⟨p, _ | _⟩ <;> rfl

@[simp] theorem set8_flags (r : Reg8) (v : BitVec 8) : (m.set8 r v).flags = m.flags := by
  rcases r with _ | ⟨p, _ | _⟩ <;> rfl

@[simp] theorem set8_sp (r : Reg8) (v : BitVec 8) : (m.set8 r v).sp = m.sp := by
  rcases r with _ | ⟨p, _ | _⟩ <;> rfl

@[simp] theorem set8_mem (r : Reg8) (v : BitVec 8) : (m.set8 r v).mem = m.mem := by
  rcases r with _ | ⟨p, _ | _⟩ <;> rfl

@[simp] theorem set16_flags (r : Reg16) (v : BitVec 16) : (m.set16 r v).flags = m.flags := by
  cases r <;> rfl

@[simp] theorem set16_a (r : Reg16) (v : BitVec 16) : (m.set16 r v).a = m.a := by
  cases r <;> rfl

@[simp] theorem set16_mem (r : Reg16) (v : BitVec 16) : (m.set16 r v).mem = m.mem := by
  cases r <;> rfl

@[simp] theorem setLoc8_flags (d : Loc8) (v : BitVec 8) : (m.setLoc8 d v).flags = m.flags := by
  cases d <;> simp [setLoc8]

end Machine

@[simp] theorem z80_exec (i : Instr) (m : Machine) : z80.exec i m = i.exec m := rfl

@[simp] theorem z80_branch (k : Cond) (m : Machine) : z80.branch k m = k.test m := rfl

end Z80Gcc
