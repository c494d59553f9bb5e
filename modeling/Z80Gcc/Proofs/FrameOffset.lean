import Z80Gcc.Proofs.Frame

/-! Frame-pointer elimination against the frame layout. The elimination offset counts the locals
and the saved registers, so SP plus the offset is SP at entry; IX is set two bytes below it,
after the caller's frame pointer was pushed. -/

namespace Z80Gcc

namespace FrameShape

variable {f : FrameShape}

theorem execs_push_sp (ps : List Pair) (m : Machine) :
    (z80.execs (ps.map (fun p => .push (.pair p))) m).sp =
      m.sp - BitVec.ofNat 16 (2 * ps.length) := by
  induction ps generalizing m with
  | nil => simp
  | cons p ps ih =>
    rw [List.map_cons, Asm.Isa.execs_cons, ih, List.length_cons]
    simp only [z80_exec, Instr.exec, Machine.push_sp]
    bv_omega

theorem length_mapM {rs : List Nat} {ps : List Pair} (h : rs.mapM pushablePair = some ps) :
    ps.length = rs.length := by
  induction rs generalizing ps with
  | nil =>
    simp only [List.mapM_nil, Option.pure_def, Option.some.injEq] at h
    simp [← h]
  | cons r rs ih =>
    rw [List.mapM_cons] at h
    obtain ⟨q, hq, h⟩ := Option.bind_eq_some_iff.mp h
    obtain ⟨qs, hqs, h⟩ := Option.bind_eq_some_iff.mp h
    simp only [Option.pure_def, Option.some.injEq] at h
    simp [← h, ih hqs]

theorem pushable_of_mapM {rs : List Nat} {ps : List Pair} (h : rs.mapM pushablePair = some ps) :
    ∀ r ∈ rs, r < 8 := by
  induction rs generalizing ps with
  | nil => simp
  | cons r rs ih =>
    rw [List.mapM_cons] at h
    obtain ⟨q, hq, h⟩ := Option.bind_eq_some_iff.mp h
    obtain ⟨qs, hqs, h⟩ := Option.bind_eq_some_iff.mp h
    have := (pushablePair_eq_some hq).1
    intro r' hr'
    rcases List.mem_cons.mp hr' with rfl | hr'
    · omega
    · exact ih hqs r' hr'

/-- The offset covers the locals and every saved register that can be pushed. -/
theorem initialFramePointerOffset_eq {saved : List Pair} (hs : f.savedPairs = some saved) :
    f.initialFramePointerOffset = f.size + 2 * saved.length := by
  have hlt := pushable_of_mapM hs
  have hrange : List.range firstPseudoRegister =
      List.range 8 ++ [8, 9, 10, 11, 12, 13, 14, 15, 16, 17, 18] := by decide
  have hnil : [8, 9, 10, 11, 12, 13, 14, 15, 16, 17, 18].filter f.saved = [] := by
    rw [List.filter_eq_nil_iff]
    intro r hr hsaved
    have : r ∈ f.savedRegnos := by
      rw [savedRegnos, hrange, List.filter_append, List.mem_append]
      exact .inr (List.mem_filter.mpr ⟨hr, hsaved⟩)
    have := hlt r this
    simp at hr
    omega
  have hlen : ((List.range 8).filter f.saved).length = saved.length := by
    rw [length_mapM hs, savedRegnos, hrange, List.filter_append, hnil, List.append_nil]
  rw [initialFramePointerOffset, ← hlen]
  generalize (List.range 8).filter f.saved = rs
  generalize f.size = n
  induction rs generalizing n with
  | nil => simp
  | cons r rs ih =>
    rw [List.foldl_cons, ih, List.length_cons]
    omega

/-- Through IX a reference is two bytes below the place it has through SP, for every frame size,
every set of saved registers and every displacement. -/
theorem frame_pointer_never_agrees (f : FrameShape) (m : Machine) (d : Int) : ¬f.Agree m d := by
  rintro ⟨a, hfp, hel⟩
  obtain ⟨pro, hpro, hfp⟩ := Option.bind_eq_some_iff.mp hfp
  obtain ⟨pro', hpro', hel⟩ := Option.bind_eq_some_iff.mp hel
  obtain ⟨saved, hs, -⟩ := Option.bind_eq_some_iff.mp hpro'
  have hs : f.savedPairs = some saved := hs
  have hs1 : FrameShape.savedPairs { f with framePointerNeeded := true } = some saved := hs
  have hs2 : FrameShape.savedPairs { f with framePointerNeeded := false } = some saved := hs
  rw [expandPrologue_eq hs1, Option.some.injEq] at hpro
  rw [expandPrologue_eq hs2, Option.some.injEq] at hpro'
  simp only [← hpro, ← hpro', Asm.Isa.execs_append z80 (_ ++ _), execs_push_pair, execs_push_sp,
    Option.pure_def, Option.some.injEq, initialFramePointerOffset_eq hs] at hfp hel
  have hix := entered_pair { f with framePointerNeeded := true } m .ix
  have hsp := entered_sp { f with framePointerNeeded := false } m
  simp only [entered, fpBytes, reduceCtorEq, false_and, if_false, and_self, if_true,
    Bool.false_eq_true] at hix hsp
  rw [hix] at hfp
  rw [hsp] at hel
  bv_omega

/-- A parameter at `FIRST_PARM_OFFSET` of a function without locals or saved registers. -/
theorem frame_pointer_wrong_first_parm :
    (FrameShape.mk 0 true (fun _ => false) false).framePointerAddress
        (Machine.ofRegs 0 0 0 0 0 0 0x1000) firstParmOffset = some 0x1002 ∧
      (FrameShape.mk 0 true (fun _ => false) false).eliminatedAddress
        (Machine.ofRegs 0 0 0 0 0 0 0x1000) firstParmOffset = some 0x1004 := by
  constructor <;> decide

end FrameShape

end Z80Gcc
