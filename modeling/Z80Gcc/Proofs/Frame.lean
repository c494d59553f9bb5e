import Z80Gcc.Sanity.Machine
import Z80Gcc.Spec.Frame

/-! Which functions leave as they were entered. The epilogue pops the saved registers in the
order in which the prologue pushed them and takes SP from IX whether or not IX was set up. -/

namespace Z80Gcc

open Z80Gcc.Halves Z80Gcc.Adder

namespace FrameShape

variable (f : FrameShape) (m : Machine)

/-- The prologue up to the pushes of the saved registers. -/
def entered : Machine := z80.execs (f.createFrame ++ f.allocate) m

def fpBytes : BitVec 16 := if f.framePointerNeeded then 2 else 0

theorem entered_sp : (f.entered m).sp = m.sp - f.fpBytes - BitVec.ofNat 16 f.size := by
  rcases f with ⟨size, _ | _, saved, irq⟩ <;> rcases Nat.eq_zero_or_pos size with rfl | h <;>
    simp [entered, createFrame, allocate, fpBytes, Instr.exec, Machine.set16, Machine.get16,
      Machine.src16, *] <;> bv_omega

/-- The prologue writes IX when it makes a frame pointer and IY when it allocates locals. -/
theorem entered_pair (p : Pair) :
    (f.entered m).pair p =
      if p = .iy ∧ f.size > 0 then (f.entered m).sp
      else if p = .ix ∧ f.framePointerNeeded = true then m.sp - 2
      else m.pair p := by
  rcases f with ⟨size, _ | _, saved, irq⟩ <;> rcases Nat.eq_zero_or_pos size with rfl | h <;>
    cases p <;>
    simp [entered, createFrame, allocate, Instr.exec, Machine.set16, Machine.get16,
      Machine.src16, *]

theorem entered_mem :
    (f.entered m).mem =
      if f.framePointerNeeded then (m.push (m.pair .ix)).mem else m.mem := by
  rcases f with ⟨size, _ | _, saved, irq⟩ <;> rcases Nat.eq_zero_or_pos size with rfl | h <;>
    simp [entered, createFrame, allocate, Instr.exec, Machine.set16, Machine.get16,
      Machine.src16, *]

/-- What is to hold at the return insn: SP, the return address, and the registers. -/
structure Restored (saved : List Pair) (m e : Machine) : Prop where
  sp : e.sp = m.sp
  returns : (f.returnVoid.exec e).1 = m.pop
  pairs : ∀ p ∈ saved, e.pair p = m.pair p
  ix : f.framePointerNeeded = true → e.pair .ix = m.pair .ix

/-- The function has an entry and an exit, and every body that keeps what it must keep is left
with everything restored. -/
def Right : Prop :=
  ∃ pro epi saved, f.expandPrologue = some pro ∧ f.expandEpilogue = some epi ∧
    f.savedPairs = some saved ∧
    ∀ m m', f.BodyKeeps m.sp (z80.execs pro m) m' → f.Restored saved m (z80.execs epi m')

/-- Exactly one order of pushes is undone by pops in the same order: that of at most one register.
IY is saved after it was used to allocate; a frame of almost 64 KiB wraps onto the words above. -/
def Exact : Prop :=
  f.framePointerNeeded = true ∧
    (f.savedRegnos = [] ∨
      ∃ r p, f.savedRegnos = [r] ∧ pushablePair r = some p ∧ (p = .iy → f.size = 0) ∧
        f.size % 65536 < 65531)

theorem BodyKeeps.refl (entry : BitVec 16) : f.BodyKeeps entry m m :=
  ⟨rfl, fun _ _ => ⟨rfl, rfl⟩, fun _ => rfl⟩

variable {f}

theorem expandPrologue_eq {saved : List Pair} (h : f.savedPairs = some saved) :
    f.expandPrologue =
      some (f.createFrame ++ f.allocate ++ saved.map (fun p => .push (.pair p))) := by
  simp [expandPrologue, h]

theorem expandEpilogue_eq {saved : List Pair} (h : f.savedPairs = some saved) :
    f.expandEpilogue =
      some (saved.map (fun p => .pop (.pair p)) ++ [.ld16 .sp (.reg (.pair .ix))] ++
        (if f.framePointerNeeded then [.pop (.pair .ix)] else [])) := by
  simp [expandEpilogue, h]

theorem Right.of_empty_body {saved : List Pair} (h : f.Right) (hs : f.savedPairs = some saved)
    (m : Machine) :
    f.Restored saved m
      (z80.execs (saved.map (fun p => .pop (.pair p)) ++ [.ld16 .sp (.reg (.pair .ix))] ++
          (if f.framePointerNeeded then [.pop (.pair .ix)] else []))
        (z80.execs (saved.map (fun p => .push (.pair p))) (f.entered m))) := by
  obtain ⟨pro, epi, saved', hp, he, hs', hr⟩ := h
  rw [hs, Option.some.injEq] at hs'
  subst hs'
  rw [expandPrologue_eq hs, Option.some.injEq] at hp
  rw [expandEpilogue_eq hs, Option.some.injEq] at he
  have := hr m _ (BodyKeeps.refl f (z80.execs pro m) m.sp)
  rw [← hp, ← he, Asm.Isa.execs_append z80 (f.createFrame ++ f.allocate)] at this
  exact this

end FrameShape

section PushPop

theorem execs_push_pair (ps : List Pair) (m : Machine) :
    (z80.execs (ps.map (fun p => .push (.pair p))) m).pair = m.pair := by
  induction ps generalizing m with
  | nil => rfl
  | cons p ps ih =>
    rw [List.map_cons, Asm.Isa.execs_cons, ih]
    rfl

theorem execs_push_pop (ps : List Pair) (q : Pair) (m : Machine) :
    (z80.execs ((ps ++ [q]).map (fun p => .push (.pair p))) m).pop = m.pair q := by
  rw [List.map_append, Asm.Isa.execs_append]
  simp only [List.map_cons, List.map_nil, Asm.Isa.execs_cons, Asm.Isa.execs_nil, z80_exec,
    Instr.exec, Machine.get16, Machine.pop_push, execs_push_pair]

theorem execs_pop_pair {ps : List Pair} {q : Pair} (h : q ∉ ps) (m : Machine) :
    (z80.execs (ps.map (fun p => .pop (.pair p))) m).pair q = m.pair q := by
  induction ps generalizing m with
  | nil => rfl
  | cons p ps ih =>
    rw [List.mem_cons, not_or] at h
    rw [List.map_cons, Asm.Isa.execs_cons, ih h.2]
    simp [Instr.exec, Machine.set16, h.1]

end PushPop

namespace FrameShape

variable {f : FrameShape}

theorem exists_of_mem_mapM {rs : List Nat} {ps : List Pair} (h : rs.mapM pushablePair = some ps)
    {p : Pair} (hp : p ∈ ps) : ∃ r ∈ rs, pushablePair r = some p := by
  induction rs generalizing ps with
  | nil =>
    simp only [List.mapM_nil, Option.pure_def, Option.some.injEq] at h
    simp [← h] at hp
  | cons r rs ih =>
    rw [List.mapM_cons] at h
    obtain ⟨q, hq, h⟩ := Option.bind_eq_some_iff.mp h
    obtain ⟨qs, hqs, h⟩ := Option.bind_eq_some_iff.mp h
    simp only [Option.pure_def, Option.some.injEq] at h
    rw [← h, List.mem_cons] at hp
    rcases hp with rfl | hp
    · exact ⟨r, by simp, hq⟩
    · obtain ⟨r', hr', hp'⟩ := ih hqs hp
      exact ⟨r', by simp [hr'], hp'⟩

theorem pushablePair_eq_some {r : Nat} {p : Pair} (h : pushablePair r = some p) :
    r ≤ 5 ∧ (p = .ix ↔ r = 5) := by
  unfold pushablePair at h
  split at h <;> simp at h <;> subst h <;> simp

theorem pushablePair_inj {r r' : Nat} {p : Pair} (h : pushablePair r = some p)
    (h' : pushablePair r' = some p) : r = r' := by
  unfold pushablePair at h h'
  split at h <;> simp at h <;> subst h <;> split at h' <;> simp at h' <;> rfl

theorem savedRegnos_pairwise : f.savedRegnos.Pairwise (· < ·) :=
  List.Pairwise.filter _ List.pairwise_lt_range

/-- Of two saved registers the first is not IX, nor saved again. -/
theorem savedPairs_cons {r : Nat} {rs : List Nat} {saved : List Pair}
    (hr : f.savedRegnos = r :: rs) (h : f.savedPairs = some saved) (hrs : rs ≠ []) :
    ∃ p mid q, saved = p :: (mid ++ [q]) ∧ p ∉ mid ++ [q] ∧ p ≠ .ix := by
  have hlt := savedRegnos_pairwise (f := f)
  rw [hr, List.pairwise_cons] at hlt
  rw [savedPairs, hr, List.mapM_cons] at h
  obtain ⟨p, hp, h⟩ := Option.bind_eq_some_iff.mp h
  obtain ⟨ps, hps, h⟩ := Option.bind_eq_some_iff.mp h
  simp only [Option.pure_def, Option.some.injEq] at h
  have hnot : p ∉ ps := by
    intro hmem
    obtain ⟨r', hr', hp'⟩ := exists_of_mem_mapM hps hmem
    have := hlt.1 r' hr'
    rw [pushablePair_inj hp hp'] at this
    exact lt_irrefl _ this
  have hne : ps ≠ [] := by
    rintro rfl
    cases rs with
    | nil => exact hrs rfl
    | cons r' rs =>
      rw [List.mapM_cons] at hps
      obtain ⟨q, _, hps⟩ := Option.bind_eq_some_iff.mp hps
      obtain ⟨qs, _, hps⟩ := Option.bind_eq_some_iff.mp hps
      simp at hps
  obtain ⟨mid, q, rfl⟩ := (List.eq_nil_or_concat ps).resolve_left hne
  refine ⟨p, mid, q, by simp [← h], by simpa using hnot, ?_⟩
  rintro rfl
  obtain ⟨r', hr', hq⟩ := exists_of_mem_mapM hps (p := q) (by simp)
  have h5 := (pushablePair_eq_some hp).2.mp rfl
  have := hlt.1 r' hr'
  have := (pushablePair_eq_some hq).1
  omega

theorem entered_pair_setPair {p q : Pair} (h : q ≠ p) (m : Machine) (v : BitVec 16) :
    (f.entered (m.setPair p v)).pair q = (f.entered m).pair q := by
  simp [entered_pair, entered_sp, h]

/-- No 16-bit value is the same as both contents of a register that may hold anything. -/
theorem not_forall_pair_eq {p : Pair} {g : Machine → BitVec 16}
    (hg : ∀ m v, g (m.setPair p v) = g m) : ¬∀ m, g m = m.pair p := by
  intro h
  have h0 := h (Machine.ofRegs 0 0 0 0 0 0 0)
  have h1 := h ((Machine.ofRegs 0 0 0 0 0 0 0).setPair p (g (Machine.ofRegs 0 0 0 0 0 0 0) + 1))
  rw [hg, Machine.setPair_pair_self] at h1
  bv_omega

theorem exit_pair {ps : List Pair} {p : Pair} (hp : p ∉ ps) (hix : p ≠ .ix) (m : Machine) :
    (z80.execs (ps.map (fun p => .pop (.pair p)) ++ [.ld16 .sp (.reg (.pair .ix))] ++
      (if f.framePointerNeeded then [.pop (.pair .ix)] else [])) m).pair p = m.pair p := by
  rw [Asm.Isa.execs_append, Asm.Isa.execs_append, ← execs_pop_pair hp m]
  cases f.framePointerNeeded <;> simp [Instr.exec, Machine.set16, hix]

/-- With two saved registers the first gets the value of the last. -/
theorem not_right_of_two {r : Nat} {rs : List Nat} (hr : f.savedRegnos = r :: rs) (hrs : rs ≠ []) :
    ¬f.Right := by
  intro h
  obtain ⟨-, -, saved, -, -, hs, -⟩ := id h
  obtain ⟨p, mid, q, rfl, hnot, hix⟩ := savedPairs_cons hr hs hrs
  have hqp : q ≠ p := fun e => hnot (by simp [e])
  refine not_forall_pair_eq (p := p) (g := fun m => (f.entered m).pair q)
    (fun m v => entered_pair_setPair hqp m v) fun m => ?_
  have hres := (h.of_empty_body hs m).pairs p (by simp)
  rw [List.map_cons, List.cons_append, List.cons_append, Asm.Isa.execs_cons,
    exit_pair hnot hix] at hres
  have hpop := execs_push_pop (p :: mid) q (f.entered m)
  rw [List.cons_append] at hpop
  rw [← hres, ← hpop]
  simp [Instr.exec, Machine.set16]

/-- Without a frame pointer SP is taken from an IX that nobody set. -/
theorem not_right_of_no_frame_pointer (hf : f.framePointerNeeded = false) {saved : List Pair}
    (hs : f.savedPairs = some saved) (hk : saved.length ≤ 1) : ¬f.Right := by
  intro h
  obtain ⟨m, hsp, hix⟩ : ∃ m : Machine, m.sp = 0 ∧ m.pair .ix = 1 :=
    ⟨Machine.ofRegs 0 0 0 0 1 0 0, rfl, rfl⟩
  have hres := (h.of_empty_body hs m).sp
  rw [hsp] at hres
  have hix : (f.entered m).pair .ix = 1 := by
    simp [entered_pair, hf, hix]
  match saved, hk with
  | [], _ =>
    simp [hf, Instr.exec, Machine.set16, Machine.src16, Machine.get16, hix] at hres
  | [p], _ =>
    by_cases hp : p = .ix
    · subst hp
      simp [hf, Instr.exec, Machine.set16, Machine.src16, Machine.get16, hix] at hres
    · simp [hf, Instr.exec, Machine.set16, Machine.src16, Machine.get16, hix, Ne.symm hp] at hres

theorem not_right_of_iy (hs : f.savedPairs = some [.iy])
    (hsize : 0 < f.size) : ¬f.Right := by
  intro h
  refine not_forall_pair_eq (p := .iy) (g := fun m => (f.entered m).sp)
    (fun m v => by simp [entered_sp]) fun m => ?_
  have hres := (h.of_empty_body hs m).pairs .iy (by simp)
  rw [List.map_cons, List.cons_append, List.cons_append, Asm.Isa.execs_cons,
    exit_pair (by simp) (by simp)] at hres
  rw [← hres]
  simp [Instr.exec, Machine.set16, Machine.get16, entered_pair, hsize]

/-- The exit of a function with a frame pointer, after the pops of the saved registers. -/
def leave : List Instr := [.ld16 .sp (.reg (.pair .ix)), .pop (.pair .ix)]

theorem leave_sp (s : Machine) : (z80.execs leave s).sp = s.pair .ix + 2 := by
  simp [leave, Instr.exec, Machine.set16, Machine.src16, Machine.get16]

theorem leave_pair (s : Machine) (p : Pair) :
    (z80.execs leave s).pair p = if p = .ix then s.load16 (s.pair .ix) else s.pair p := by
  by_cases h : p = .ix
  · subst h
    simp [leave, Instr.exec, Machine.set16, Machine.src16, Machine.get16, Machine.pop,
      Machine.load16]
  · simp [leave, Instr.exec, Machine.set16, Machine.src16, Machine.get16, h]

theorem leave_pop (s : Machine) : (z80.execs leave s).pop = s.load16 (s.pair .ix + 2) := by
  rw [Machine.pop, leave_sp]
  rfl

theorem BodyKeeps.load16 {entry : BitVec 16} {m m' : Machine} (h : f.BodyKeeps entry m m')
    {a : BitVec 16} (ha : a ∈ f.keptWords entry m.sp) : m'.load16 a = m.load16 a := by
  rw [Machine.load16, Machine.load16, (h.words a ha).1, (h.words a ha).2]

theorem restored_of_leave {saved : List Pair}
    {m s : Machine} (hix : s.pair .ix = m.sp - 2) (hold : s.load16 (m.sp - 2) = m.pair .ix)
    (hret : s.load16 m.sp = m.pop) (hp : ∀ p ∈ saved, p ≠ .ix → s.pair p = m.pair p) :
    f.Restored saved m (z80.execs leave s) where
  sp := by
    rw [leave_sp, hix]
    bv_omega
  returns := by
    rw [Return.exec, leave_pop, hix, show m.sp - 2 + 2 = m.sp by bv_omega, hret]
  pairs p hmem := by
    rw [leave_pair]
    by_cases h : p = .ix
    · rw [if_pos h, hix, hold, h]
    · rw [if_neg h, hp p hmem h]
  ix _ := by
    rw [leave_pair, if_pos rfl, hix, hold]

theorem entered_load16_ix (hf : f.framePointerNeeded = true) (m : Machine) :
    (f.entered m).load16 (m.sp - 2) = m.pair .ix := by
  rw [Machine.load16, entered_mem, if_pos hf]
  exact Machine.load16_push m (m.pair .ix)

theorem entered_load16_ret (hf : f.framePointerNeeded = true) (m : Machine) :
    (f.entered m).load16 m.sp = m.pop := by
  rw [Machine.load16, entered_mem, if_pos hf]
  exact Machine.load16_push_of_ne m _ (by bv_omega) (by bv_omega) (by bv_omega)

theorem right_of_none (hf : f.framePointerNeeded = true) (hr : f.savedRegnos = []) : f.Right := by
  have hs : f.savedPairs = some [] := by simp [savedPairs, hr]
  refine ⟨_, _, _, expandPrologue_eq hs, expandEpilogue_eq hs, hs, fun m m' h => ?_⟩
  rw [List.map_nil, List.append_nil] at h
  change f.BodyKeeps m.sp (f.entered m) m' at h
  simp only [List.map_nil, List.nil_append, hf, if_true, List.cons_append]
  refine restored_of_leave ?_ ?_ ?_ (by simp)
  · rw [h.ix hf, entered_pair]
    simp [hf]
  · rw [h.load16 (by simp [keptWords, hf]), entered_load16_ix hf]
  · rw [h.load16 (by simp [keptWords, hf]), entered_load16_ret hf]

theorem right_of_one (hf : f.framePointerNeeded = true) {r : Nat} {p : Pair}
    (hr : f.savedRegnos = [r]) (hp : pushablePair r = some p) (hiy : p = .iy → f.size = 0)
    (hsize : f.size % 65536 < 65531) : f.Right := by
  have hs : f.savedPairs = some [p] := by simp [savedPairs, hr, hp]
  refine ⟨_, _, _, expandPrologue_eq hs, expandEpilogue_eq hs, hs, fun m m' h => ?_⟩
  rw [Asm.Isa.execs_append] at h
  change f.BodyKeeps m.sp ((f.entered m).push ((f.entered m).pair p)) m' at h
  simp only [List.map_cons, List.map_nil, List.cons_append, List.nil_append, hf, if_true,
    Asm.Isa.execs_cons]
  have hsp := f.entered_sp m
  rw [fpBytes, if_pos hf] at hsp
  have htop : m'.pop = (f.entered m).pair p := by
    rw [Machine.pop, h.sp, h.load16 (by simp [keptWords, hf, hr])]
    exact Machine.pop_push _ _
  have hofs : (BitVec.ofNat 16 f.size).toNat < 65531 := by simpa using hsize
  have hkeep : ∀ a, a ∈ f.keptWords m.sp ((f.entered m).push ((f.entered m).pair p)).sp →
      (a = m.sp ∨ a = m.sp - 2) → m'.load16 a = (f.entered m).load16 a := by
    intro a ha hcases
    rw [h.load16 ha]
    rcases hcases with rfl | rfl <;>
      exact Machine.load16_push_of_ne _ _ (by bv_omega) (by bv_omega) (by bv_omega)
  refine restored_of_leave ?_ ?_ ?_ ?_
  · by_cases hx : p = .ix
    · subst hx
      simp [Instr.exec, Machine.set16, htop, entered_pair, hf]
    · have := h.ix hf
      simp [Instr.exec, Machine.set16, Ne.symm hx, this, entered_pair, hf]
  · change m'.load16 (m.sp - 2) = _
    rw [hkeep _ (by simp [keptWords, hf]) (.inr rfl), entered_load16_ix hf]
  · change m'.load16 m.sp = _
    rw [hkeep _ (by simp [keptWords]) (.inl rfl), entered_load16_ret hf]
  · intro q hq hx
    obtain rfl : q = p := by simpa using hq
    have hsz : ¬(q = .iy ∧ f.size > 0) := fun hc => by
      have := hiy hc.1
      omega
    simp [Instr.exec, Machine.set16, htop, entered_pair, hx, hsz]

theorem hi8_lo8_of_append {h l : BitVec 8} {v : BitVec 16} (e : h ++ l = v) :
    h = hi8 v ∧ l = lo8 v := by
  subst e
  simp

/-- The saved register lands on the caller's frame pointer or on the return address. -/
theorem not_right_of_wrap (hf : f.framePointerNeeded = true) {p : Pair}
    (hs : f.savedPairs = some [p]) (hiy : p ≠ .iy) (hsize : 65531 ≤ f.size % 65536) :
    ¬f.Right := by
  intro h
  obtain ⟨m, hsp, hix, hother, hpop⟩ : ∃ m : Machine, m.sp = 2 ∧ m.pair .ix = 0xffff ∧
      (∀ q, q ≠ .ix → m.pair q = 0) ∧ m.pop = 0xffff :=
    ⟨{ Machine.ofRegs 0 0 0 0 0xffff 0 2 with mem := fun _ => 0xff }, rfl, rfl,
      fun q hq => by cases q <;> first | rfl | exact absurd rfl hq, by decide⟩
  have hres := h.of_empty_body hs m
  simp only [List.map_cons, List.map_nil, List.cons_append, List.nil_append, hf, if_true,
    Asm.Isa.execs_cons, Asm.Isa.execs_nil] at hres
  have hv : (f.entered m).pair p = 0 := by
    by_cases hx : p = .ix
    · simp [entered_pair, hx, hf, hsp]
    · simp [entered_pair, hx, hiy, hother p hx]
  have hslot : (f.entered m).sp - 2 = -BitVec.ofNat 16 f.size - 2 := by
    rw [entered_sp, fpBytes, if_pos hf, hsp]
    bv_omega
  set s := z80.exec (.pop (.pair p)) (z80.exec (.push (.pair p)) (f.entered m)) with hsdef
  have hsix : s.pair .ix = 0 := by
    by_cases hx : p = .ix
    · subst hx
      simp [hsdef, Instr.exec, Machine.set16, Machine.get16, hv]
    · simp [hsdef, Instr.exec, Machine.set16, Ne.symm hx, entered_pair, hf, hsp]
  have hmem : s.mem = ((f.entered m).push 0).mem := by
    simp [hsdef, Instr.exec, Machine.get16, hv]
  have hlow : s.mem ((f.entered m).sp - 2) = 0 := by
    simp [hmem, Machine.push, Machine.store16, Machine.store8_mem, lo8]
  have hhigh : s.mem ((f.entered m).sp - 2 + 1) = 0 := by
    simp [hmem, Machine.push, Machine.store16, Machine.store8_mem, hi8]
  have hfp := hres.ix hf
  change (z80.execs leave s).pair .ix = _ at hfp
  rw [leave_pair, if_pos rfl, hsix, hix] at hfp
  have hret := hres.returns
  change (z80.execs leave s).pop = _ at hret
  rw [leave_pop, hsix, hpop] at hret
  obtain ⟨h1, h0⟩ := hi8_lo8_of_append hfp
  obtain ⟨h3, h2⟩ := hi8_lo8_of_append hret
  rw [hslot] at hlow hhigh
  have hcases : f.size % 65536 = 65531 ∨ f.size % 65536 = 65532 ∨ f.size % 65536 = 65533 ∨
      f.size % 65536 = 65534 ∨ f.size % 65536 = 65535 := by omega
  have hofs : BitVec.ofNat 16 f.size = BitVec.ofNat 16 (f.size % 65536) := by
    apply BitVec.eq_of_toNat_eq
    simp
  rw [hofs] at hlow hhigh
  rcases hcases with e | e | e | e | e <;> rw [e] at hlow hhigh
  · exact absurd (h3.symm.trans hlow) (by decide)
  · exact absurd (h2.symm.trans hlow) (by decide)
  · exact absurd (h1.symm.trans hlow) (by decide)
  · exact absurd (h0.symm.trans hlow) (by decide)
  · exact absurd (h0.symm.trans hhigh) (by decide)

/-- A function is left as it was entered, whatever its body, exactly when it has a frame pointer
and saves nothing or one register that the frame neither spoils nor overlaps. -/
theorem frame_right_iff (f : FrameShape) : f.Right ↔ f.Exact := by
  constructor
  · intro h
    obtain ⟨-, -, saved, -, -, hs, -⟩ := id h
    match hr : f.savedRegnos with
    | [] =>
      have hs' : f.savedPairs = some [] := by simp [savedPairs, hr]
      refine ⟨?_, .inl hr⟩
      by_contra hf
      exact not_right_of_no_frame_pointer (by simpa using hf) hs' (by simp) h
    | [r] =>
      obtain ⟨p, hp⟩ : ∃ p, pushablePair r = some p := by
        rw [savedPairs, hr, List.mapM_cons] at hs
        obtain ⟨p, hp, -⟩ := Option.bind_eq_some_iff.mp hs
        exact ⟨p, hp⟩
      have hs' : f.savedPairs = some [p] := by simp [savedPairs, hr, hp]
      have hf : f.framePointerNeeded = true := by
        by_contra hf
        exact not_right_of_no_frame_pointer (by simpa using hf) hs' (by simp) h
      have hiy : p = .iy → f.size = 0 := by
        rintro rfl
        by_contra hpos
        exact not_right_of_iy hs' (by omega) h
      refine ⟨hf, .inr ⟨r, p, hr, hp, hiy, ?_⟩⟩
      by_contra hsize
      exact not_right_of_wrap hf hs' (fun e => by have := hiy e; omega) (by omega) h
    | r :: r' :: rs => exact absurd h (not_right_of_two hr (by simp))
  · rintro ⟨hf, hr | ⟨r, p, hr, hp, hiy, hsize⟩⟩
    · exact right_of_none hf hr
    · exact right_of_one hf hr hp hiy hsize

/-- HL and DE are saved: the epilogue pops them in the order of the pushes. -/
theorem frame_wrong_two_saved :
    ¬(FrameShape.mk 0 true (fun r => r == 1 || r == 2) false).Right :=
  not_right_of_two (show _ = 1 :: [2] by decide) (by simp)

end FrameShape

end Z80Gcc
