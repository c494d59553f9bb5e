import Z80Gcc.Proofs.ConstShift
import Z80Gcc.Proofs.Extend
import Z80Gcc.Spec.RegEffects

/-! Which insns change a general register behind the back of their RTL. Most of them write only
what their RTL sets or clobbers, whatever the state; for the others it depends on the state. -/

namespace Z80Gcc

open Z80Gcc.Halves Z80Gcc.Adder

namespace GenReg

variable {r : GenReg} {m m' m'' : Machine}

theorem Same.refl (r : GenReg) (m : Machine) : r.Same m m := by
  cases r <;> rfl

theorem Same.symm (h : r.Same m m') : r.Same m' m := by
  cases r <;> exact Eq.symm h

theorem Same.trans (h : r.Same m m') (h' : r.Same m' m'') : r.Same m m'' := by
  cases r <;> exact Eq.trans h' h

theorem same_setPair {p : Pair} (h : r ≠ .pair p) (v : BitVec 16) : r.Same m (m.setPair p v) := by
  cases r with
  | a => rfl
  | pair q => exact Machine.setPair_pair_of_ne m p q v fun heq => h (heq ▸ rfl)

theorem same_set8 {d : Reg8} (h : r ≠ d.general) (v : BitVec 8) : r.Same m (m.set8 d v) := by
  rcases d with _ | ⟨p, _ | _⟩
  · cases r with
    | a => exact absurd rfl h
    | pair q => rfl
  · exact same_setPair h _
  · exact same_setPair h _

theorem same_set16 {d : Reg16} (h : r ∉ d.general) (v : BitVec 16) : r.Same m (m.set16 d v) := by
  cases d with
  | pair p => exact same_setPair (fun heq => h (by simp [heq, Reg16.general])) v
  | sp => cases r <;> rfl

theorem same_of_eq (ha : m'.a = m.a) (hp : m'.pair = m.pair) : r.Same m m' := by
  cases r with
  | a => exact ha
  | pair p => exact congrFun hp p

end GenReg

section Writes

def Loc8.general : Loc8 → List GenReg
  | .reg r => [r.general]
  | .mem _ => []

def Instr.writes : Instr → List GenReg
  | nop | st16 _ _ | push _ => []
  | ld8 d _ | inc8 d | dec8 d | rot _ d => d.general
  | ld16 d _ | pop d | add16 d _ | adc16 d _ | sbc16 d _ | inc16 d | dec16 d | lea d _ => d.general
  | ex p q => [.pair p, .pair q]
  | alu .cp _ => []
  | alu _ _ | neg | cpl | rra => [.a]

def Cond.writes : Cond → List GenReg
  | .djnz => [.pair .bc]
  | _ => []

def lineWrites : Asm.Line Instr Cond Nat → List GenReg
  | .op i => i.writes
  | .jump k _ => k.writes
  | .label _ => []

def Listing.writes (code : Listing) : List GenReg := code.flatMap lineWrites

variable {r : GenReg}

theorem same_setLoc8 {d : Loc8} (h : r ∉ d.general) (m : Machine) (v : BitVec 8) :
    r.Same m (m.setLoc8 d v) := by
  cases d with
  | reg d => exact GenReg.same_set8 (fun heq => h (by simp [heq, Loc8.general])) v
  | mem a => exact GenReg.same_of_eq rfl rfl

theorem same_setA (h : r ≠ .a) (m : Machine) (v : BitVec 8) : r.Same m (m.setA v) :=
  GenReg.same_set8 (d := .a) h v

theorem same_setFlags {m m' : Machine} (h : r.Same m m') (f : Flags) : r.Same m (m'.setFlags f) :=
  h.trans (GenReg.same_of_eq rfl rfl)

theorem exec_same {i : Instr} (h : r ∉ i.writes) (m : Machine) : r.Same m (i.exec m) := by
  cases i with
  | nop => exact GenReg.Same.refl r m
  | ld8 d s => exact same_setLoc8 h m _
  | ld16 d s => exact GenReg.same_set16 h _
  | st16 a s => exact GenReg.same_of_eq rfl rfl
  | push s => exact GenReg.same_of_eq rfl rfl
  | pop d => exact GenReg.Same.trans (GenReg.same_of_eq rfl rfl) (GenReg.same_set16 h _)
  | ex p q =>
    simp only [Instr.writes, List.mem_cons, List.not_mem_nil, or_false, not_or] at h
    exact (GenReg.same_setPair h.1 _).trans (GenReg.same_setPair h.2 _)
  | add16 d s | adc16 d s | sbc16 d s => exact same_setFlags (GenReg.same_set16 h _) _
  | inc16 d | dec16 d | lea d a => exact GenReg.same_set16 h _
  | alu op s =>
    by_cases hop : op = .cp
    · subst hop
      exact GenReg.same_of_eq rfl rfl
    · have ha : r ≠ .a := by
        intro heq
        cases op <;> simp_all [Instr.writes]
      exact same_setFlags (same_setA ha m _) _
  | inc8 d | dec8 d => exact same_setFlags (same_setLoc8 h m _) _
  | neg => exact same_setFlags (same_setA (by simpa [Instr.writes] using h) m _) _
  | cpl => exact same_setA (by simpa [Instr.writes] using h) m _
  | rot op d => exact same_setFlags (same_setLoc8 h m _) _
  | rra => exact same_setFlags (same_setA (by simpa [Instr.writes] using h) m _) _

theorem test_same {k : Cond} (h : r ∉ k.writes) (m : Machine) : r.Same m (k.test m).2 := by
  cases k with
  | djnz => exact GenReg.same_set8 (d := .b) (fun heq => h (by simp [heq, Cond.writes, Reg8.general])) _
  | _ => exact GenReg.Same.refl r m

/-- A run changes no register that no line of the listing writes. -/
theorem runs_same {code : Listing} (h : r ∉ code.writes) {m t : Machine}
    (hr : z80.Runs code m ⟨none, t⟩) : r.Same m t := by
  refine Asm.Isa.Runs.keeps (P := r.Same m) (fun ln hln => ?_) hr (GenReg.Same.refl r m)
  have hw : r ∉ lineWrites ln := fun hmem => h (List.mem_flatMap.2 ⟨ln, hln, hmem⟩)
  cases ln with
  | op i => exact fun s hs => hs.trans (exec_same hw s)
  | jump k l => exact fun s hs => hs.trans (test_same hw s)
  | label l => trivial

theorem writes_ops (is : List Instr) :
    Listing.writes (Asm.ops is) = is.flatMap Instr.writes := by
  rw [Listing.writes, Asm.ops, List.flatMap_map]
  rfl

@[simp] theorem general_a : Reg8.general .a = .a := rfl

@[simp] theorem general_half (p : Pair) (h : Half) : Reg8.general (.half p h) = .pair p := rfl

@[simp] theorem general_pair (p : Pair) : Reg16.general (.pair p) = [.pair p] := rfl

@[simp] theorem general_sp : Reg16.general .sp = [] := rfl

@[simp] theorem lowByte_general (p : Pair) : (lowByte p).general = .pair p := by
  cases p <;> rfl

@[simp] theorem highByte_general (p : Pair) : (highByte p).general = .pair p := rfl

theorem movhi_writes {p : Pair} {w : WordOperand} {is : List Instr}
    (h : movhi (.reg p) w = some is) : ∀ r ∈ is.flatMap Instr.writes, r = .pair p := by
  cases w with
  | reg q =>
    obtain rfl := Option.some.inj h
    split <;> simp [Instr.writes, Reg16.general]
  | mem a | constInt v =>
    obtain rfl := Option.some.inj h
    simp [Instr.writes, Reg16.general]
  | preDecSp => cases h

end Writes

section Shift

def WritesOnly (is : List Instr) (l : List GenReg) : Prop := ∀ r ∈ is.flatMap Instr.writes, r ∈ l

theorem WritesOnly.append {is js : List Instr} {l : List GenReg} (h : WritesOnly is l)
    (h' : WritesOnly js l) : WritesOnly (is ++ js) l := by
  intro r hr
  rw [List.flatMap_append, List.mem_append] at hr
  exact hr.elim (h r) (h' r)

theorem writesOnly_of_forall {is : List Instr} {l : List GenReg}
    (h : ∀ i ∈ is, ∀ r ∈ i.writes, r ∈ l) : WritesOnly is l := by
  intro r hr
  obtain ⟨i, hi, hw⟩ := List.mem_flatMap.1 hr
  exact h i hi r hw

theorem writesOnly_rot {op : RotOp} {r : Reg8} {l : List GenReg} (h : r.general ∈ l) :
    ∀ x ∈ (rotReg op r).writes, x ∈ l := by
  simpa [rotReg, Instr.writes, Loc8.general] using h

theorem writesOnly_replicate {i : Instr} {l : List GenReg} (h : ∀ r ∈ i.writes, r ∈ l) (k : Nat) :
    WritesOnly (List.replicate k i) l :=
  writesOnly_of_forall fun j hj => by rwa [List.eq_of_mem_replicate hj]

theorem shiftLeftBytes_writes {rs : List Reg8} {l : List GenReg} (h : ∀ r ∈ rs, r.general ∈ l) :
    WritesOnly (shiftLeftBytes rs) l := by
  refine writesOnly_of_forall fun i hi => ?_
  cases rs with
  | nil => cases hi
  | cons r rs =>
    rcases List.mem_cons.1 hi with rfl | hi
    · exact writesOnly_rot (h r List.mem_cons_self)
    · obtain ⟨s, hs, rfl⟩ := List.mem_map.1 hi
      exact writesOnly_rot (h s (List.mem_cons_of_mem r hs))

theorem shiftRightBytes_writes {op : RotOp} {rs : List Reg8} {l : List GenReg}
    (h : ∀ r ∈ rs, r.general ∈ l) : WritesOnly (shiftRightBytes op rs) l := by
  refine writesOnly_of_forall fun i hi => ?_
  cases rs with
  | nil => cases hi
  | cons r rs =>
    rcases List.mem_cons.1 hi with rfl | hi
    · exact writesOnly_rot (h r List.mem_cons_self)
    · obtain ⟨s, hs, rfl⟩ := List.mem_map.1 hi
      exact writesOnly_rot (h s (List.mem_cons_of_mem r hs))

theorem longBytes_general : ∀ r ∈ longBytes, r.general ∈ LongReg.hl.general := by
  decide

theorem pairBytes_general (p : Pair) :
    ∀ r ∈ [lowByte p, highByte p], r.general ∈ [GenReg.pair p] := by
  simp

theorem writesOnly_ldReg {d s : Reg8} {l : List GenReg} (h : d.general ∈ l) :
    ∀ x ∈ (ldReg d s).writes, x ∈ l := by
  simpa [ldReg, Instr.writes, Loc8.general] using h

theorem writesOnly_ldImm {d : Reg8} {n : BitVec 8} {l : List GenReg} (h : d.general ∈ l) :
    ∀ x ∈ (ldImm d n).writes, x ∈ l := by
  simpa [ldImm, Instr.writes, Loc8.general] using h

theorem ashlhi3Const_writes (p : Pair) (n : Int) : WritesOnly (ashlhi3Const p n) [.pair p] := by
  have hlow : (lowByte p).general ∈ [GenReg.pair p] := by simp
  have hhigh : (highByte p).general ∈ [GenReg.pair p] := by simp
  rw [ashlhi3Const]
  split_ifs
  · refine writesOnly_of_forall fun i hi => ?_
    simp only [List.mem_cons, List.mem_append, List.not_mem_nil, or_false] at hi
    rcases hi with rfl | (rfl | rfl | rfl) | rfl
    · exact writesOnly_ldReg hhigh
    · exact writesOnly_rot hhigh
    · exact writesOnly_ldImm hhigh
    · exact writesOnly_rot hhigh
    · exact writesOnly_ldImm hlow
  · refine writesOnly_of_forall fun i hi => ?_
    simp only [List.mem_cons, List.mem_append, List.not_mem_nil, or_false] at hi
    rcases hi with rfl | hi | rfl
    · exact writesOnly_ldReg hhigh
    · rw [List.eq_of_mem_replicate hi]
      exact writesOnly_rot hhigh
    · exact writesOnly_ldImm hlow
  · refine writesOnly_of_forall fun i hi => ?_
    obtain ⟨js, hjs, hi⟩ := List.mem_flatten.1 hi
    rw [List.eq_of_mem_replicate hjs] at hi
    simp only [List.mem_cons, List.not_mem_nil, or_false] at hi
    rcases hi with rfl | rfl
    · exact writesOnly_rot hlow
    · exact writesOnly_rot hhigh

theorem ashlqi3Const_writes (r : Reg8) (n : Int) : WritesOnly (ashlqi3Const r n) [r.general] := by
  have hr : r.general ∈ [r.general] := List.mem_cons_self
  rw [ashlqi3Const]
  split_ifs
  · refine writesOnly_of_forall fun i hi => ?_
    rw [List.mem_singleton.1 hi]
    exact writesOnly_ldImm hr
  · refine writesOnly_of_forall fun i hi => ?_
    simp only [List.mem_cons, List.not_mem_nil, or_false] at hi
    rcases hi with rfl | rfl | rfl
    · exact writesOnly_rot hr
    · exact writesOnly_ldImm hr
    · exact writesOnly_rot hr
  · exact writesOnly_replicate (writesOnly_rot hr) _

theorem ashrqi3Const_writes (r : Reg8) (n : Int) : WritesOnly (ashrqi3Const r n) [r.general] :=
  writesOnly_replicate (writesOnly_rot (by simp)) _

theorem si_writes {code : ShiftCode} {r : LongReg} {n : Nat} {is : List Instr}
    (h : constantShift code (.si r) n = some is) : WritesOnly is r.general := by
  have hlong : r = .hl → ∀ b ∈ longBytes, b.general ∈ r.general := by
    rintro rfl
    exact longBytes_general
  have hrev : r = .hl → ∀ b ∈ longBytes.reverse, b.general ∈ r.general :=
    fun hr b hb => hlong hr b (List.mem_reverse.1 hb)
  cases code with
  | ashift =>
    simp only [constantShift] at h
    split_ifs at h with h1 h16
    · obtain rfl := Option.some.inj h
      exact shiftLeftBytes_writes (hlong h1.1)
    · obtain rfl := Option.some.inj h
      simp [WritesOnly, ashlsi3Const16, ldPair, ldPairImm, Instr.writes, LongReg.general]
  | ashiftrt =>
    simp only [constantShift] at h
    split_ifs at h with h1
    obtain rfl := Option.some.inj h
    exact shiftRightBytes_writes (hrev h1.1)
  | lshiftrt =>
    simp only [constantShift] at h
    split_ifs at h with h1 h16
    · obtain rfl := Option.some.inj h
      exact shiftRightBytes_writes (hrev h1.1)
    · obtain rfl := Option.some.inj h
      simp [WritesOnly, lshrsi3Const16, ldPair, ldPairImm, Instr.writes, LongReg.general]

/-- A shift of a 16-bit register writes that register, unless it is logical and by 8. -/
theorem hi_writes {code : ShiftCode} {p : Pair} {n : Nat} {is : List Instr}
    (h : constantShift code (.hi p) n = some is) (hn : code = .lshiftrt → n ≠ 8) :
    WritesOnly is [.pair p] := by
  have hrev : ∀ b ∈ [highByte p, lowByte p], b.general ∈ [GenReg.pair p] := by simp
  cases code with
  | ashift =>
    simp only [constantShift] at h
    split_ifs at h
    · obtain rfl := Option.some.inj h
      exact shiftLeftBytes_writes (pairBytes_general p)
    · obtain rfl := Option.some.inj h
      exact ashlhi3Const_writes p n
  | ashiftrt =>
    simp only [constantShift] at h
    split_ifs at h
    obtain rfl := Option.some.inj h
    exact shiftRightBytes_writes hrev
  | lshiftrt =>
    simp only [constantShift] at h
    split_ifs at h with hp h1 h8
    · obtain rfl := Option.some.inj h
      exact shiftRightBytes_writes hrev
    · exact absurd h8 (hn rfl)

theorem qi_writes {code : ShiftCode} {r : Reg8} {n : Nat} {is : List Instr}
    (h : constantShift code (.qi r) n = some is) : WritesOnly is [r.general] := by
  have hr : ∀ op, WritesOnly [rotReg op r] [r.general] := fun op =>
    writesOnly_of_forall fun i hi => by
      rw [List.mem_singleton.1 hi]
      exact writesOnly_rot List.mem_cons_self
  cases code with
  | ashift =>
    simp only [constantShift] at h
    split_ifs at h
    · obtain rfl := Option.some.inj h
      exact hr .sla
    · obtain rfl := Option.some.inj h
      exact ashlqi3Const_writes r n
  | ashiftrt =>
    simp only [constantShift] at h
    split_ifs at h
    · obtain rfl := Option.some.inj h
      exact hr .sra
    · obtain rfl := Option.some.inj h
      exact ashrqi3Const_writes r n
  | lshiftrt =>
    simp only [constantShift] at h
    split_ifs at h
    obtain rfl := Option.some.inj h
    exact hr .srl

end Shift

namespace Insn

variable {insn : Insn} {m : Machine}

theorem noSideEffect_of_none (h : insn.listing = none) : insn.NoSideEffect m := by
  intro code hc
  rw [h] at hc
  cases hc

/-- Code that writes only what the RTL sets or clobbers. -/
theorem noSideEffect_of_writes {code : Listing} (h : insn.listing = some code)
    (hw : ∀ r ∈ code.writes, r ∈ insn.sets) : insn.NoSideEffect m := by
  intro code' hc t hr r hset
  obtain rfl := Option.some.inj (h.symm.trans hc)
  exact runs_same (fun hmem => hset (hw r hmem)) hr

/-- Straight code that writes only what the RTL sets or clobbers. -/
theorem noSideEffect_of_ops {c : List Instr} (h : insn.listing = some (Asm.ops c))
    (hw : ∀ r ∈ c.flatMap Instr.writes, r ∈ insn.sets) : insn.NoSideEffect m :=
  noSideEffect_of_writes h (by rwa [writes_ops])

theorem noSideEffect_ops_iff {is : List Instr} (h : insn.listing = some (Asm.ops is)) :
    insn.NoSideEffect m ↔ ∀ r, r ∉ insn.sets → r.Same m (z80.execs is m) := by
  constructor
  · intro hn r hr
    exact hn _ h _ (Asm.Isa.runs_ops is m) r hr
  · intro hs code hc t hr r hset
    obtain rfl := Option.some.inj (h.symm.trans hc)
    obtain rfl := congrArg Asm.Flow.state (hr.det (Asm.Isa.runs_ops is m))
    exact hs r hset

/-- Straight code that writes one register more than the RTL sets or clobbers. -/
theorem noSideEffect_iff_of_ops {c : List Instr} {x : GenReg}
    (h : insn.listing = some (Asm.ops c))
    (hw : ∀ r ∈ c.flatMap Instr.writes, r ∈ insn.sets ∨ r = x) (hx : x ∉ insn.sets) :
    insn.NoSideEffect m ↔ x.Same m (z80.execs c m) := by
  rw [noSideEffect_ops_iff h]
  refine ⟨fun hs => hs x hx, fun hsame r hr => ?_⟩
  by_cases heq : r = x
  · exact heq ▸ hsame
  · refine runs_same (fun hmem => ?_) (Asm.Isa.runs_ops c m)
    rw [writes_ops] at hmem
    exact (hw r hmem).elim hr heq

/-- When a run from `m` leaves the registers that are only inputs of the insn as they are. -/
def KeepsInputs (m : Machine) : Insn → Prop
  | compare .hi p => m.pair p.1 = 0
  | add (.addhi3 d _ (.reg _)) => d ∈ [.bc, .de] → m.pair d = 0
  | extend (.extendqihi2 _) | extend (.extendqisi2 _) => m.a = 0 ∨ m.a = -1
  | constantShift .lshiftrt (.hi p) n => n = 8 → m.get8 (nextLowByte p) = 0
  | variableShift _ dest _ _ _ => .pair .bc ∈ dest.general ∨ hi8 (m.pair .bc) = 0
  | _ => True

theorem compare_iff (mode : CmpMode) (op1 : mode.Operand1) :
    (compare mode op1).NoSideEffect m ↔ (compare mode op1).KeepsInputs m := by
  cases mode with
  | qi => exact iff_of_true (noSideEffect_of_ops rfl (by simp [CmpMode.cmp, cmpqi1, Instr.writes])) trivial
  | hi =>
    have ha : (z80.execs (cmphi1 op1.1) m).a = m.a := by
      simp [cmphi1, Instr.exec, AluOp.apply, Machine.src8, Machine.get8, Machine.set16]
    have hp : ∀ p, (z80.execs (cmphi1 op1.1) m).pair p =
        if p = .hl then m.pair .hl - m.pair op1.1 else m.pair p := by
      intro p
      simp [cmphi1, Instr.exec, AluOp.apply, Machine.src8, Machine.get8, Machine.set16,
        Machine.get16, Machine.setPair_pair, logicFlags, sbc]
    rw [noSideEffect_ops_iff rfl]
    constructor
    · intro hs
      have hhl : _ = _ := hs (.pair .hl) (by simp [sets])
      simp only [CmpMode.cmp, hp, if_true] at hhl
      simp only [KeepsInputs]
      bv_omega
    · intro h0 r _
      cases r with
      | a => exact ha
      | pair p =>
        refine (hp p).trans ?_
        split
        · next heq =>
          rw [heq, show m.pair op1.1 = 0 from h0]
          simp
        · rfl

theorem a_eq_signFill_iff (a : BitVec 8) : signFill a.msb = a ↔ a = 0 ∨ a = -1 := by
  rw [signFill]
  constructor
  · intro h
    cases hm : a.msb with
    | false => exact .inl (by simpa [hm] using h.symm)
    | true => exact .inr (by simpa [hm] using h.symm)
  · rintro (rfl | rfl) <;> decide

theorem spread_sign (m : Machine) :
    (z80.execs (rotlqi3WithCarry .a ++ subcq .a) m).a = signFill m.a.msb := by
  simp [rotlqi3WithCarry, subcq, rotReg, Instr.exec, Machine.loc8, apply_rl, logicFlags,
    AluOp.apply, Machine.setLoc8, Machine.src8, sbc_self]

theorem a_of_same {is js : List Instr} (h : GenReg.a ∉ is.flatMap Instr.writes)
    (h' : GenReg.a ∉ js.flatMap Instr.writes) (mid : List Instr) (m : Machine) :
    ∃ n : Machine, n.a = m.a ∧ (z80.execs (is ++ mid ++ js) m).a = (z80.execs mid n).a := by
  refine ⟨z80.execs is m, ?_, ?_⟩
  · exact runs_same (by rwa [writes_ops]) (Asm.Isa.runs_ops is m)
  · rw [Asm.Isa.execs_append, Asm.Isa.execs_append]
    exact runs_same (by rwa [writes_ops]) (Asm.Isa.runs_ops js _)

theorem a_same_iff (is js : List Instr) (h : GenReg.a ∉ is.flatMap Instr.writes)
    (h' : GenReg.a ∉ js.flatMap Instr.writes) (m : Machine) :
    GenReg.a.Same m (z80.execs (is ++ (rotlqi3WithCarry .a ++ subcq .a) ++ js) m) ↔
      m.a = 0 ∨ m.a = -1 := by
  obtain ⟨n, hn, ha⟩ := a_of_same h h' (rotlqi3WithCarry .a ++ subcq .a) m
  rw [GenReg.Same, ha, spread_sign, hn, a_eq_signFill_iff]

/-- Where the sign extension of a byte goes, A gets its sign. -/
theorem extendqihi2_iff (d : Reg16) :
    (extend (.extendqihi2 d)).NoSideEffect m ↔
      (extend (.extendqihi2 d)).listing = none ∨ m.a = 0 ∨ m.a = -1 := by
  cases d with
  | sp => exact iff_of_true (noSideEffect_of_none rfl) (.inl rfl)
  | pair p =>
    have hcode : (extend (.extendqihi2 (.pair p))).listing = some (Asm.ops
        ([ldReg (lowByte p) .a] ++ (rotlqi3WithCarry .a ++ subcq .a) ++ [ldReg (highByte p) .a])) :=
      rfl
    rw [noSideEffect_iff_of_ops hcode ?_ ?_,
      a_same_iff _ _ (by simp [ldReg, Instr.writes, Loc8.general])
        (by simp [ldReg, Instr.writes, Loc8.general])]
    · exact (or_iff_right (by rw [hcode]; simp)).symm
    · simp [rotlqi3WithCarry, subcq, rotReg, ldReg, Instr.writes, Loc8.general, sets,
        ExtendInsn.sets]
    · simp [sets, ExtendInsn.sets]

/-- The sign extensions of a byte spread its sign in A, which is only their input. -/
theorem extend_iff (e : ExtendInsn) :
    (extend e).NoSideEffect m ↔ (extend e).listing = none ∨ (extend e).KeepsInputs m := by
  cases e with
  | zeroExtendqihi2 d =>
    refine iff_of_true ?_ (.inr trivial)
    cases d with
    | sp => exact noSideEffect_of_none rfl
    | pair p =>
      refine noSideEffect_of_ops rfl ?_
      simp [ldReg, ldImm, Instr.writes, Loc8.general, sets, ExtendInsn.sets]
  | zeroExtendqisi2 d s =>
    refine iff_of_true (noSideEffect_of_ops rfl ?_) (.inr trivial)
    simp [ldReg, ldImm, Instr.writes, Loc8.general, sets, ExtendInsn.sets, LongReg.general]
  | zeroExtendhisi2 d s =>
    refine iff_of_true ?_ (.inr trivial)
    cases hlow : movhiReg d.low s with
    | none => exact noSideEffect_of_none (by simp [listing, ExtendInsn.code, zeroExtendhisi2, hlow])
    | some is =>
      have hw : ∀ r ∈ is.flatMap Instr.writes, r = .pair d.low := by
        cases s with
        | pair q => exact movhi_writes (show movhi (.reg d.low) (.reg q) = some is from hlow)
        | sp =>
          simp only [movhiReg, Option.ite_none_right_eq_some, Option.some.injEq] at hlow
          obtain ⟨-, rfl⟩ := hlow
          simp [ldPairImm, Instr.writes]
      refine noSideEffect_of_ops (c := is ++ [ldPairImm d.high 0]) ?_ ?_
      · simp [listing, ExtendInsn.code, zeroExtendhisi2, hlow]
        rfl
      · intro r hr
        rw [List.flatMap_append, List.mem_append] at hr
        rcases hr with hr | hr
        · simp [hw r hr, sets, ExtendInsn.sets, LongReg.general]
        · have hr' : r = .pair d.high := by simpa [ldPairImm, Instr.writes] using hr
          simp [hr', sets, ExtendInsn.sets, LongReg.general]
  | extendqihi2 d => exact extendqihi2_iff d
  | extendqisi2 d =>
    have hcode : (extend (.extendqisi2 d)).listing = some (Asm.ops
        ([ldReg (lowByte d.low) .a] ++ (rotlqi3WithCarry .a ++ subcq .a) ++
          [ldReg (highByte d.low) .a, ldReg (lowByte d.high) (highByte d.low),
            ldReg (highByte d.high) (highByte d.low)])) := rfl
    rw [noSideEffect_iff_of_ops hcode ?_ ?_, 
      a_same_iff _ _ (by simp [ldReg, Instr.writes, Loc8.general])
        (by simp [ldReg, Instr.writes, Loc8.general])]
    · exact (or_iff_right (by rw [hcode]; simp)).symm
    · simp [rotlqi3WithCarry, subcq, rotReg, ldReg, Instr.writes, Loc8.general, sets,
        ExtendInsn.sets, LongReg.general]
    · simp [sets, ExtendInsn.sets, LongReg.general]
  | extendhisi2 d =>
    refine iff_of_true ?_ (.inr trivial)
    cases d with
    | hl =>
      refine noSideEffect_of_ops rfl ?_
      simp [ldReg, rotReg, Instr.writes, Loc8.general, rotlqi3WithCarry, subchi3, sets,
        ExtendInsn.sets, LongReg.general, LongReg.low, LongReg.high]
    | bc => exact noSideEffect_of_none rfl

section Add

theorem addsi3_quiet (src : LongSource) : (add (.addsi3 src)).NoSideEffect m := by
  obtain ⟨low, hlow⟩ : ∃ is, movhi (.reg .bc) (z80GenLowpart src.operand) = some is := by
    rcases src with r | a | v
    · cases r <;> exact ⟨_, rfl⟩
    · exact ⟨_, rfl⟩
    · exact ⟨_, rfl⟩
  obtain ⟨high, hhigh⟩ : ∃ is, movhi (.reg .bc) (z80GenHighpart src.operand) = some is := by
    rcases src with r | a | v
    · cases r <;> exact ⟨_, rfl⟩
    · exact ⟨_, rfl⟩
    · exact ⟨_, rfl⟩
  refine noSideEffect_of_ops (c := low ++ addhi3 .bc ++ high ++ swapAreg .hl .de ++ adch .bc ++
    swapAreg .hl .de) (by simp [listing, AddInsn.code, addsi3, hlow, hhigh]) ?_
  intro r hr
  simp only [List.flatMap_append, List.mem_append, or_assoc] at hr
  simp only [sets, AddInsn.sets]
  rcases hr with hr | hr | hr | hr
  · simp [movhi_writes hlow r hr]
  · simp [addhi3, Instr.writes] at hr
    simp [hr]
  · simp [movhi_writes hhigh r hr]
  · simp [swapAreg, adch, Instr.writes] at hr ⊢
    tauto

theorem addhiMov_quiet (d : Pair) (b : BaseReg) (v : Int) :
    (add (.addhiMov d b v)).NoSideEffect m := by
  by_cases hv : -65536 ≤ v ∧ v ≤ 65535
  · refine noSideEffect_of_ops (c := [.lea (.pair d) (.idx b.pair (BitVec.ofInt 16 v))])
      (by simp [listing, AddInsn.code, addhiMov, hv]) ?_
    simp [Instr.writes, sets, AddInsn.sets]
  by_cases hd : d = b.pair
  · have hbc : b.pair ≠ .bc := by cases b <;> decide
    subst hd
    rw [noSideEffect_iff_of_ops (c := [.push (.pair .bc), ldPairImm .bc (BitVec.ofInt 16 v),
      .add16 (.pair b.pair) (.pair .bc), .pop (.pair .bc)]) (x := .pair .bc)
      (by simp [listing, AddInsn.code, addhiMov, hv]) ?_ ?_]
    · simp [ldPairImm, Instr.exec, GenReg.Same, Machine.set16, Machine.get16, Machine.src16]
      exact Machine.pop_push m (m.pair .bc)
    · simp [ldPairImm, Instr.writes, sets, AddInsn.sets, or_comm]
    · simpa [sets, AddInsn.sets] using hbc.symm
  · exact noSideEffect_of_none (by simp [listing, AddInsn.code, addhiMov, hv, hd])

theorem addhi3_reg_iff (d s : Pair) (r : Reg16) :
    (add (.addhi3 d s (.reg r))).NoSideEffect m ↔
      (add (.addhi3 d s (.reg r))).listing = none ∨ (d ∈ [.bc, .de] → m.pair d = 0) := by
  cases hcode : (AddInsn.addhi3 d s (.reg r)).code with
  | none =>
    have hnone : (add (.addhi3 d s (.reg r))).listing = none := by rw [listing, hcode]; rfl
    exact iff_of_true (noSideEffect_of_none hnone) (.inl hnone)
  | some is =>
    have hlist : (add (.addhi3 d s (.reg r))).listing = some (Asm.ops is) := by
      rw [listing, hcode]
      rfl
    rw [or_iff_right (by rw [hlist]; simp)]
    simp only [AddInsn.code, addhi3Insn] at hcode
    split_ifs at hcode with hs hhl hr hxy hr hr
    · obtain rfl := Option.some.inj hcode
      refine iff_of_true (noSideEffect_of_ops hlist ?_) (by simp [hhl])
      simp [Instr.writes, sets, AddInsn.sets]
    · obtain rfl := Option.some.inj hcode
      refine iff_of_true (noSideEffect_of_ops hlist ?_) (by rcases hxy with rfl | rfl <;> simp)
      simp [Instr.writes, sets, AddInsn.sets]
    · obtain rfl := Option.some.inj hcode
      obtain rfl : s = d := not_not.1 hs
      have hbd : s ∈ [.bc, .de] := by cases s <;> simp_all
      obtain ⟨q, rfl, hq⟩ : ∃ q, r = .pair q ∧ q ≠ s := by
        cases r with
        | sp => simp at hr
        | pair q =>
          refine ⟨q, rfl, ?_⟩
          rintro rfl
          cases q <;> simp_all
      rw [noSideEffect_iff_of_ops (x := .pair q) hlist ?_ ?_]
      · simp [hbd, GenReg.Same, Instr.exec, Machine.set16, Machine.get16, Machine.src16, hq]
      · simp [Instr.writes, sets, AddInsn.sets, or_comm]
      · simpa [sets, AddInsn.sets] using hq

theorem addhi3_iff (d s : Pair) (src : AddSource Reg16) :
    (add (.addhi3 d s src)).NoSideEffect m ↔
      (add (.addhi3 d s src)).listing = none ∨ (add (.addhi3 d s src)).KeepsInputs m := by
  cases src with
  | reg r => exact addhi3_reg_iff d s r
  | mem a | constInt v =>
    refine iff_of_true ?_ (.inr trivial)
    by_cases h : d ∈ [.hl, .ix, .iy] ∧ s ∈ [.bc, .de]
    · refine noSideEffect_of_ops (by rw [listing, AddInsn.code, addhi3Insn, if_pos h]; rfl) ?_
      simp [Instr.writes, sets, AddInsn.sets]
    · exact noSideEffect_of_none (by rw [listing, AddInsn.code, addhi3Insn, if_neg h]; rfl)

theorem addqi3_quiet (d : Reg8) (src : AddSource Reg8) : (add (.addqi3 d src)).NoSideEffect m := by
  cases hcode : addqi3 d src with
  | none => exact noSideEffect_of_none (by rw [listing, AddInsn.code, hcode]; rfl)
  | some is =>
    refine noSideEffect_of_ops (c := is) (by rw [listing, AddInsn.code, hcode]; rfl) ?_
    rcases src with r | a | v
    · simp only [addqi3, Option.ite_none_right_eq_some, Option.some.injEq] at hcode
      obtain ⟨⟨rfl, -⟩, rfl⟩ := hcode
      simp [Instr.writes, sets, AddInsn.sets]
    · cases a with
      | const n => cases hcode
      | base b k =>
        simp only [addqi3, Option.ite_none_right_eq_some, Option.some.injEq] at hcode
        obtain ⟨rfl, rfl⟩ := hcode
        simp [Instr.writes, sets, AddInsn.sets]
    · simp only [addqi3] at hcode
      split_ifs at hcode with h1 h2 h3
      · obtain rfl := Option.some.inj hcode
        simp [Instr.writes, Loc8.general, sets, AddInsn.sets]
      · obtain rfl := Option.some.inj hcode
        simp [Instr.writes, Loc8.general, sets, AddInsn.sets]
      · obtain rfl := Option.some.inj hcode
        subst h3
        simp [Instr.writes, sets, AddInsn.sets]

/-- The additions: only `*addhi3` into BC or DE makes the sum in its second operand. -/
theorem add_iff (i : AddInsn) :
    (add i).NoSideEffect m ↔ (add i).listing = none ∨ (add i).KeepsInputs m := by
  cases i with
  | addsi3 src => exact iff_of_true (addsi3_quiet src) (.inr trivial)
  | addhiSp src =>
    refine iff_of_true (noSideEffect_of_ops rfl ?_) (.inr trivial)
    simp [addhiSp, Instr.writes, sets, AddInsn.sets]
  | inchi d =>
    refine iff_of_true (noSideEffect_of_ops rfl ?_) (.inr trivial)
    simp [Instr.writes, sets, AddInsn.sets]
  | dechi d =>
    refine iff_of_true (noSideEffect_of_ops rfl ?_) (.inr trivial)
    simp [Instr.writes, sets, AddInsn.sets]
  | addhiMov d b v => exact iff_of_true (addhiMov_quiet d b v) (.inr trivial)
  | addhi3 d s src => exact addhi3_iff d s src
  | adch r =>
    refine iff_of_true ?_ (.inr trivial)
    by_cases hr : r ∈ [.pair .hl, .pair .bc, .pair .de, .sp]
    · refine noSideEffect_of_ops (by rw [listing, AddInsn.code, adchInsn, if_pos hr]; rfl) ?_
      simp [Instr.writes, sets, AddInsn.sets]
    · exact noSideEffect_of_none (by rw [listing, AddInsn.code, adchInsn, if_neg hr]; rfl)
  | addqi3 d src => exact iff_of_true (addqi3_quiet d src) (.inr trivial)
  | adcq src =>
    refine iff_of_true (noSideEffect_of_ops rfl ?_) (.inr trivial)
    simp [adcq, Instr.writes, sets, AddInsn.sets]

end Add

section Shift

variable {w : Nat}

/-- Clearing a byte keeps its register if the byte is zero. -/
theorem same_set8_zero_iff (r : Reg8) (m : Machine) :
    r.general.Same m (m.set8 r 0) ↔ m.get8 r = 0 := by
  rcases r with _ | ⟨p, _ | _⟩
  · exact eq_comm
  · simp only [GenReg.Same, general_half, Machine.set8_lo, Machine.setPair_pair_self, append_eq_iff,
      true_and, Machine.get8_lo]
    exact eq_comm
  · simp only [GenReg.Same, general_half, Machine.set8_hi, Machine.setPair_pair_self, append_eq_iff,
      and_true, Machine.get8_hi]
    exact eq_comm

theorem same_clear_iff {d s : Reg8} (h : s.general ≠ d.general) (m : Machine) :
    s.general.Same m (z80.execs [ldReg d s, ldImm s 0] m) ↔ m.get8 s = 0 := by
  have hsame : s.general.Same m (m.set8 d (m.get8 s)) := GenReg.same_set8 h _
  have hget : (m.set8 d (m.get8 s)).get8 s = m.get8 s := by
    rcases s with _ | ⟨p, _ | _⟩
    · exact hsame
    · exact congrArg lo8 hsame
    · exact congrArg hi8 hsame
  rw [← hget, ← same_set8_zero_iff s (m.set8 d (m.get8 s))]
  exact ⟨fun hs => GenReg.Same.symm hsame |>.trans hs, fun hs => hsame.trans hs⟩

/-- The logical shift of a 16-bit register right by 8 clears the low byte of the next one. -/
theorem lshrhi3_eight_iff (p : Pair) :
    (constantShift .lshiftrt (.hi p) 8).NoSideEffect m ↔
      (constantShift .lshiftrt (.hi p) 8).listing = none ∨ m.get8 (nextLowByte p) = 0 := by
  by_cases hp : p ∈ [.hl, .bc, .de]
  · have hlist : (constantShift .lshiftrt (.hi p) 8).listing =
        some (Asm.ops (lshrhi3Const8 p)) := by
      simp only [List.mem_cons, List.not_mem_nil, or_false] at hp
      rcases hp with rfl | rfl | rfl <;> rfl
    obtain ⟨q, hq, hne⟩ : ∃ q, nextLowByte p = lowByte q ∧ q ≠ p := by
      simp only [List.mem_cons, List.not_mem_nil, or_false] at hp
      rcases hp with rfl | rfl | rfl
      · exact ⟨.de, rfl, by decide⟩
      · exact ⟨.iy, rfl, by decide⟩
      · exact ⟨.bc, rfl, by decide⟩
    rw [or_iff_right (by rw [hlist]; simp)]
    rw [noSideEffect_iff_of_ops (x := (nextLowByte p).general) hlist ?_ ?_]
    · exact same_clear_iff (by rw [hq, lowByte_general, lowByte_general]; simpa using hne) m
    · simp [lshrhi3Const8, ldReg, ldImm, Instr.writes, Loc8.general, hq, sets, ConstDest.general]
    · simpa [sets, ConstDest.general, hq] using hne
  · have hnone : (constantShift .lshiftrt (.hi p) 8).listing = none := by
      simp [listing, constantShiftBy, Z80Gcc.constantShift, hp]
    exact iff_of_true (noSideEffect_of_none hnone) (.inl hnone)

def ByEight : ShiftCode → ConstDest w → Int → Prop
  | .lshiftrt, .hi _, n => n = 8
  | _, _, _ => False

/-- Of the constant shifts only that one writes more than its operand. -/
theorem constantShift_writes {code : ShiftCode} {dest : ConstDest w} {n : Int} {is : List Instr}
    (h : constantShiftBy code dest n = some is) (hn : ¬ByEight code dest n) :
    WritesOnly is dest.general := by
  rcases n with n | n
  · cases dest with
    | si r => exact si_writes h
    | hi p =>
      refine hi_writes h ?_
      rintro rfl rfl
      exact hn rfl
    | qi r => exact qi_writes h
  · cases code <;> cases dest <;>
      simp only [constantShiftBy, Option.ite_none_right_eq_some, Option.some.injEq, reduceCtorEq] at h <;>
      obtain ⟨-, rfl⟩ := h
    · exact ashlhi3Const_writes _ _
    · exact ashlqi3Const_writes _ _
    · exact ashrqi3Const_writes _ _

theorem constant_quiet {code : ShiftCode} {dest : ConstDest w} {n : Int}
    (hn : ¬ByEight code dest n) : (constantShift code dest n).NoSideEffect m := by
  cases h : constantShiftBy code dest n with
  | none => exact noSideEffect_of_none (by simp [listing, h])
  | some is => exact noSideEffect_of_ops (by simp [listing, h]) (constantShift_writes h hn)

theorem constant_iff (code : ShiftCode) (dest : ConstDest w) (n : Int) :
    (constantShift code dest n).NoSideEffect m ↔
      (constantShift code dest n).listing = none ∨ (constantShift code dest n).KeepsInputs m := by
  cases dest with
  | si r | qi r =>
    refine iff_of_true (constant_quiet ?_) (.inr ?_)
    · cases code <;> exact id
    · cases code <;> trivial
  | hi p =>
    cases code with
    | ashift | ashiftrt => exact iff_of_true (constant_quiet id) (.inr trivial)
    | lshiftrt =>
      by_cases hn : n = 8
      · subst hn
        simpa [KeepsInputs] using lshrhi3_eight_iff p
      · exact iff_of_true (constant_quiet hn) (.inr fun h8 => absurd h8 hn)

theorem countLoop_writes {test body : List Instr} {l0 l1 : Nat} {l : List GenReg}
    (ht : test = testCount ∨ test = testCount ++ testCount) (hb : WritesOnly body l) :
    ∀ r ∈ (countLoop test body l0 l1).writes, r ∈ l ∨ r = .pair .bc := by
  intro r hr
  have htest : ∀ x ∈ (ldReg .b .c :: test).flatMap Instr.writes, x = .pair .bc := by
    rcases ht with rfl | rfl <;> simp [testCount, ldReg, Instr.writes, Loc8.general]
  have hlist : (countLoop test body l0 l1).writes =
      (ldReg .b .c :: test).flatMap Instr.writes ++
        (body.flatMap Instr.writes ++ [GenReg.pair .bc]) := by
    rw [← writes_ops, ← writes_ops]
    simp [Listing.writes, countLoop, lineWrites, Cond.writes]
  rw [hlist, List.mem_append, List.mem_append, List.mem_singleton] at hr
  rcases hr with hr | hr | hr
  · exact .inr (htest r hr)
  · exact .inl (hb r hr)
  · exact .inr hr

theorem variableShift_writes {code : ShiftCode} {dest : ShiftDest w} {l0 l1 : Nat}
    {listing : Listing} (h : Z80Gcc.variableShift code dest l0 l1 = some listing) :
    ∀ r ∈ listing.writes, r ∈ dest.general ∨ r = .pair .bc := by
  cases dest with
  | si =>
    have hrev : ∀ b ∈ longBytes.reverse, b.general ∈ LongReg.hl.general :=
      fun b hb => longBytes_general b (List.mem_reverse.1 hb)
    cases code <;> obtain rfl := Option.some.inj h
    · exact countLoop_writes (.inl rfl) (shiftLeftBytes_writes longBytes_general)
    · exact countLoop_writes (.inl rfl) (shiftRightBytes_writes hrev)
    · exact countLoop_writes (.inl rfl) (shiftRightBytes_writes hrev)
  | hi p =>
    have hrev : ∀ b ∈ [highByte p, lowByte p], b.general ∈ [GenReg.pair p] := by simp
    cases code <;>
      simp only [Z80Gcc.variableShift, Option.ite_none_right_eq_some, Option.some.injEq] at h <;>
      obtain ⟨-, rfl⟩ := h
    · exact countLoop_writes (.inl rfl) (shiftLeftBytes_writes (pairBytes_general p))
    · exact countLoop_writes (.inl rfl) (shiftRightBytes_writes hrev)
    · exact countLoop_writes (.inl rfl) (shiftRightBytes_writes hrev)
  | qi r =>
    have hr : ∀ b ∈ [r], b.general ∈ [r.general] := by simp
    cases code <;>
      simp only [Z80Gcc.variableShift, Option.ite_none_right_eq_some, Option.some.injEq] at h <;>
      obtain ⟨-, rfl⟩ := h
    · exact countLoop_writes (.inl rfl) (shiftLeftBytes_writes hr)
    · exact countLoop_writes (.inr rfl) (shiftRightBytes_writes hr)
    · exact countLoop_writes (.inl rfl) (shiftRightBytes_writes hr)

theorem variable_iff (code : ShiftCode) (dest : ShiftDest w) {l0 l1 : Nat} (new : l0 ≠ l1) :
    (variableShift code dest l0 l1 new).NoSideEffect m ↔
      (variableShift code dest l0 l1 new).listing = none ∨
        (variableShift code dest l0 l1 new).KeepsInputs m := by
  cases hlist : (variableShift code dest l0 l1 new).listing with
  | none => exact iff_of_true (noSideEffect_of_none hlist) (.inl rfl)
  | some code' =>
    have hw := variableShift_writes hlist
    rw [or_iff_right (by simp), KeepsInputs]
    by_cases hbc : .pair .bc ∈ dest.general
    · refine iff_of_true (noSideEffect_of_writes hlist fun r hr => ?_) (.inl hbc)
      rcases hw r hr with hr | rfl
      · exact hr
      · exact hbc
    · have hd : dest.Apart := by
        cases dest with
        | si => trivial
        | hi p => exact fun heq => hbc (by simp [ShiftDest.general, heq])
        | qi r =>
          refine ⟨?_, ?_⟩ <;>
            · rintro rfl
              exact hbc (by simp [ShiftDest.general])
      obtain ⟨test, body, ht, hs, rfl⟩ := variableShift_eq hd hlist
      obtain ⟨t, hr, -, hend⟩ := countLoop_logged hs hd ht new m
      rw [or_iff_right hbc]
      constructor
      · intro hn
        have hsame : t.pair .bc = m.pair .bc := hn _ hlist t hr.of_logged (.pair .bc) hbc
        rw [← hsame, hend, hi8_append]
        rfl
      · intro h0 code'' hc t' hr' r hset
        obtain rfl := Option.some.inj (hlist.symm.trans hc)
        obtain rfl := congrArg Asm.Flow.state (hr'.det hr.of_logged)
        by_cases hreg : r = .pair .bc
        · have h0' : (0#8 : BitVec 8) = hi8 (m.pair .bc) := h0.symm
          rw [hreg, GenReg.Same, hend, h0', hi8_append_lo8]
        · exact runs_same (fun hmem => (hw r hmem).elim hset hreg) hr'

end Shift

end Insn

open Insn

/-- Which insns leave every general register alone that their RTL neither sets nor clobbers: all
but the compare of HL, the sign extensions of a byte, the addition into BC or DE, the logical shift
right by 8 and the variable shifts, and these from the states in which nothing is lost. -/
theorem no_side_effect_iff (insn : Insn) (m : Machine) :
    insn.NoSideEffect m ↔ insn.listing = none ∨ insn.KeepsInputs m := by
  cases insn with
  | compare mode op1 => exact (compare_iff mode op1).trans (or_iff_right (by simp [listing])).symm
  | add i => exact add_iff i
  | extend e => exact extend_iff e
  | constantShift code dest n => exact constant_iff code dest n
  | variableShift code dest l0 l1 new => exact variable_iff code dest new

/-- HL with 5 compared to DE with 3: HL is then 2. -/
theorem compare_loses_hl :
    ¬(Insn.compare .hi ⟨.de, .inr (.inr rfl)⟩).NoSideEffect (Machine.ofRegs 0 5 3 0 0 0 0) := by
  intro hn
  have hhl : _ = _ := hn _ rfl _ (Asm.Isa.runs_ops _ _) (.pair .hl) (by simp [sets])
  revert hhl
  decide

end Z80Gcc
