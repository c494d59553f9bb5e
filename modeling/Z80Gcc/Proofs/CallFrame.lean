import Z80Gcc.Spec.CallFrame

/-! A reader of the recorded call frame instructions comes to the frame address that was asked for last. -/

namespace Z80Gcc.Dwarf

section Replay

variable {t : FrameTarget}

theorem replay_append_singleton (l : List Cfi) (c : Cfi) :
    replay t (l ++ [c]) = (replay t l).step (c.instr t) := by
  rw [replay, List.map_append]
  exact CallFrame.run_append_singleton ..

/-- Once a frame address is defined, looking at the operands finds it. -/
theorem foldl_lookupCfa1 (l : List Cfi) (p : Nat × Int) {q : Nat × Int} (h : (replay t l).cfa = some q) :
    l.foldl lookupCfa1 p = q := by
  induction l using List.reverseRecOn generalizing q with
  | nil => cases h
  | append_singleton l c ih =>
    rw [replay_append_singleton] at h
    rw [List.foldl_append]
    cases c with
    | defCfa regNum offset =>
      cases h
      rfl
    | defCfaRegister regNum =>
      obtain ⟨q', hq', rfl⟩ := Option.map_eq_some_iff.1 h
      exact congrArg (fun p : Nat × Int => (regNum, p.2)) (ih hq')
    | defCfaOffset offset =>
      obtain ⟨q', hq', rfl⟩ := Option.map_eq_some_iff.1 h
      exact congrArg (fun p : Nat × Int => (p.1, offset)) (ih hq')
    | advanceLoc4 | offset | offsetExtended | register | gnuWindowSave | gnuArgsSize => exact ih h

end Replay

section Calls

variable {t : FrameTarget} {s s' : FrameState} {p : Nat × Int}

/-- The frame address of the lists, and the place that the function's list is at. -/
structure Recorded (t : FrameTarget) (cie : List Cfi) (p : Nat × Int) (s : FrameState) : Prop where
  cie : s.cieCfi = cie
  cfa : (replay t s.recorded).cfa = some p
  loc : ∃ fde, s.fde = some fde ∧ (replay t fde.cfi).loc = fde.currentLabel

theorem Recorded.lookupCfa {cie : List Cfi} (hs : Recorded t cie p s) : s.lookupCfa t = p := by
  obtain ⟨fde, hfde, -⟩ := hs.loc
  have hcfa := hs.cfa
  rw [FrameState.recorded, hfde] at hcfa
  rw [FrameState.lookupCfa, hfde, ← foldl_lookupCfa1 _ (t.noReg, 0) hcfa, List.foldl_append]
  rfl

/-- The label that a call stands for. -/
def FrameState.labelOf (t : FrameTarget) (s : FrameState) (label : String) : String := (s.cfiLabel t label).1

theorem cfiLabel_cieCfi (s : FrameState) (label : String) : (s.cfiLabel t label).2.cieCfi = s.cieCfi := by
  unfold FrameState.cfiLabel
  split <;> rfl

/-- An instruction is put behind an advance to its label. -/
def PutBehind (t : FrameTarget) (s s' : FrameState) (label : String) (c : Cfi) : Prop :=
  ∃ advance, s'.recorded = s.recorded ++ advance ++ [c] ∧
    (advance = [] ∨ advance = [.advanceLoc4 (s.labelOf t label)]) ∧
    (replay t (s.recorded ++ advance)).loc = some (s.labelOf t label)

/-- Only the lists and the number of the next label matter. -/
theorem PutBehind.congr {s₁ : FrameState} {label : String} {c : Cfi} (hput : PutBehind t s₁ s' label c)
    (hrec : s₁.recorded = s.recorded) (hnum : s₁.labelNum = s.labelNum) : PutBehind t s s' label c := by
  have hlabel : s₁.labelOf t label = s.labelOf t label := by
    unfold FrameState.labelOf FrameState.cfiLabel
    rw [hnum]
    split <;> rfl
  unfold PutBehind at hput ⊢
  rw [← hrec, ← hlabel]
  exact hput

theorem advanceTo_spec {fde : Fde} (hloc : (replay t fde.cfi).loc = fde.currentLabel) (label : String) :
    ∃ advance, (fde.advanceTo label).cfi = fde.cfi ++ advance ∧
      (advance = [] ∨ advance = [.advanceLoc4 label]) ∧ (fde.advanceTo label).currentLabel = some label ∧
      (replay t (fde.cfi ++ advance)).loc = some label ∧
      (∀ l, (replay t (l ++ fde.cfi ++ advance)).cfa = (replay t (l ++ fde.cfi)).cfa) := by
  unfold Fde.advanceTo
  split
  · next hsame =>
    refine ⟨[], by rw [List.append_nil], .inl rfl, hsame, ?_, fun l => ?_⟩
    · rw [List.append_nil, hloc, hsame]
    · rw [List.append_nil]
  · refine ⟨[.advanceLoc4 label], rfl, .inr rfl, rfl, ?_, fun l => ?_⟩
    · rw [replay_append_singleton]
      rfl
    · rw [replay_append_singleton]
      rfl

/-- `add_fde_cfi` with an instruction that is not an advance. -/
theorem Recorded.addFdeCfi {cie : List Cfi} {label : String} {c : Cfi} {q : Nat × Int} (hs : Recorded t cie p s)
    (hc : (c.instr t).isAdvance = false)
    (hq : ∀ l, (replay t l).cfa = some p → (replay t (l ++ [c])).cfa = some q)
    (h : s.addFdeCfi t (some label) c = some s') :
    Recorded t cie q s' ∧ PutBehind t s s' label c := by
  obtain ⟨fde, hfde, hloc⟩ := hs.loc
  have hcfa := hs.cfa
  have hrec : s.recorded = cie ++ fde.cfi := by rw [FrameState.recorded, hfde, hs.cie]; rfl
  obtain ⟨given, hgiven⟩ : ∃ given, given = s.labelOf t label := ⟨_, rfl⟩
  obtain ⟨advance, hcfi, hadvance, hlabel, hat, hkeep⟩ := advanceTo_spec hloc given
  have hs' : s'.cieCfi = cie ∧ s'.fde = some ((fde.advanceTo given).addCfi c) := by
    rw [FrameState.addFdeCfi, hfde, Option.map_some, Option.some.injEq] at h
    rw [← h, hgiven, FrameState.labelOf]
    exact ⟨(cfiLabel_cieCfi s label).trans hs.cie, rfl⟩
  have hrec' : s'.recorded = s.recorded ++ advance ++ [c] := by
    rw [FrameState.recorded, hs'.1, hs'.2, hrec, Option.map_some, Option.getD_some, Fde.addCfi, hcfi]
    simp only [List.append_assoc]
  have hplace : (replay t (s.recorded ++ advance)).loc = some given := by
    rw [hrec, List.append_assoc, replay, List.map_append]
    exact CallFrame.run_append_loc hat
  refine ⟨⟨hs'.1, ?_, _, hs'.2, ?_⟩, advance, hrec', ?_⟩
  · rw [hrec']
    refine hq _ ?_
    rw [hrec, hkeep, ← hrec]
    exact hcfa
  · rw [Fde.addCfi, replay_append_singleton, CallFrame.Row.step_loc hc, hcfi, hat, hlabel]
  · rw [← hgiven]
    exact ⟨hadvance, hplace⟩

/-- What does not touch the lists and the labels changes nothing here. -/
theorem Recorded.congr {cie : List Cfi} (hs : Recorded t cie p s) (hcie : s'.cieCfi = s.cieCfi)
    (hfde : s'.fde = s.fde) : Recorded t cie p s' := by
  obtain ⟨hcie', hcfa, hloc⟩ := hs
  refine ⟨hcie.trans hcie', ?_, ?_⟩
  · rw [FrameState.recorded, hcie, hfde]
    exact hcfa
  · rw [hfde]
    exact hloc

/-- `dwarf2out_def_cfa`: the shortest of the three instructions that come to the new frame address. -/
theorem Recorded.defCfa {cie : List Cfi} {label : String} {reg : Nat} {offset : Int} (hs : Recorded t cie p s)
    (h : s.defCfa t (some label) reg offset = some s') :
    Recorded t cie (t.regnum reg, offset) s' ∧
      (s'.recorded = s.recorded ∨ ∃ c, PutBehind t s s' label c) := by
  obtain ⟨s₁, hs₁⟩ : ∃ s₁ : FrameState, s₁ = if s.cfaStoreReg = reg then
      { s with cfaReg := reg, cfaOffset := offset, cfaStoreOffset := offset }
    else { s with cfaReg := reg, cfaOffset := offset } := ⟨_, rfl⟩
  have hsame : s₁.cieCfi = s.cieCfi ∧ s₁.fde = s.fde ∧ s₁.labelNum = s.labelNum := by
    rw [hs₁]
    split <;> exact ⟨rfl, rfl, rfl⟩
  have hrec : s₁.recorded = s.recorded := by
    rw [FrameState.recorded, hsame.1, hsame.2.1]
    rfl
  have hs₁' : Recorded t cie p s₁ := hs.congr hsame.1 hsame.2.1
  unfold FrameState.defCfa at h
  dsimp only at h
  rw [← hs₁, hs₁'.lookupCfa] at h
  split at h
  · next hboth =>
    cases h
    rw [hboth.1, hboth.2]
    exact ⟨hs₁', .inl hrec⟩
  · split at h
    · next hreg =>
      obtain ⟨hrec', hplace⟩ := hs₁'.addFdeCfi (q := (t.regnum reg, offset)) rfl (fun l hl => by
        rw [replay_append_singleton, hreg]
        exact congrArg (Option.map fun p : Nat × Int => (p.1, offset)) hl) h
      exact ⟨hrec', .inr ⟨_, hplace.congr hrec hsame.2.2⟩⟩
    · split at h
      · next hoffset =>
        obtain ⟨hrec', hplace⟩ := hs₁'.addFdeCfi (q := (t.regnum reg, offset)) rfl (fun l hl => by
          rw [replay_append_singleton, hoffset.1]
          exact congrArg (Option.map fun p : Nat × Int => (t.regnum reg, p.2)) hl) h
        exact ⟨hrec', .inr ⟨_, hplace.congr hrec hsame.2.2⟩⟩
      · obtain ⟨hrec', hplace⟩ := hs₁'.addFdeCfi (q := (t.regnum reg, offset)) rfl (fun l _ => by
          rw [replay_append_singleton]
          rfl) h
        exact ⟨hrec', .inr ⟨_, hplace.congr hrec hsame.2.2⟩⟩

/-- An instruction that says nothing about the frame address. -/
theorem Recorded.addKeep {cie : List Cfi} {label : String} {c : Cfi} (hs : Recorded t cie p s)
    (hc : (c.instr t).isAdvance = false) (hkeep : (c.instr t).keepsCfa = true)
    (h : s.addFdeCfi t (some label) c = some s') : Recorded t cie p s' ∧ PutBehind t s s' label c := by
  refine hs.addFdeCfi hc (fun l hl => ?_) h
  rw [replay_append_singleton, CallFrame.Row.step_cfa hkeep, hl]

theorem Recorded.regSave {cie : List Cfi} {label : String} {reg : Nat} {sreg : Option Nat} {offset : Int}
    (hs : Recorded t cie p s) (h : s.regSave t (some label) reg sreg offset = some s') :
    Recorded t cie p s' ∧ ∃ c, PutBehind t s s' label c := by
  unfold FrameState.regSave at h
  cases sreg with
  | none =>
    dsimp only at h
    split at h
    · cases h
    · split at h
      · obtain ⟨hrec, hplace⟩ := hs.addKeep rfl rfl h
        exact ⟨hrec, _, hplace⟩
      · obtain ⟨hrec, hplace⟩ := hs.addKeep rfl rfl h
        exact ⟨hrec, _, hplace⟩
  | some sreg =>
    obtain ⟨hrec, hplace⟩ := hs.addKeep rfl rfl h
    exact ⟨hrec, _, hplace⟩

theorem Recorded.call {cie : List Cfi} {c : FrameCall} (hs : Recorded t cie p s) (h : s.call t c = some s') :
    Recorded t cie (lastCfa t p [c]) s' ∧
      (s'.recorded = s.recorded ∨ ∃ cfi, PutBehind t s s' c.label cfi) := by
  cases c with
  | defCfa label reg offset => exact hs.defCfa h
  | regSave label reg sreg offset => exact (hs.regSave h).imp id .inr
  | windowSave label =>
    obtain ⟨hrec, hplace⟩ := hs.addKeep rfl rfl h
    exact ⟨hrec, .inr ⟨_, hplace⟩⟩
  | argsSize label size =>
    rw [FrameState.call, FrameState.argsSize] at h
    split at h
    · cases h
      exact ⟨hs, .inl rfl⟩
    · have hs₁ : Recorded t cie p { s with oldArgsSize := size } := hs.congr rfl rfl
      obtain ⟨hrec, hplace⟩ := hs₁.addKeep rfl rfl h
      exact ⟨hrec, .inr ⟨_, hplace.congr rfl rfl⟩⟩

theorem lastCfa_append (p : Nat × Int) (l l' : List FrameCall) :
    lastCfa t p (l ++ l') = lastCfa t (lastCfa t p l) l' := by
  induction l generalizing p with
  | nil => rfl
  | cons c l ih => cases c <;> exact ih _

theorem Recorded.calls {cie : List Cfi} {cs : List FrameCall} (hs : Recorded t cie p s)
    (h : s.calls t cs = some s') : Recorded t cie (lastCfa t p cs) s' := by
  induction cs generalizing s p with
  | nil =>
    cases h
    exact hs
  | cons c cs ih =>
    obtain ⟨s₁, hcall, hrest⟩ := Option.bind_eq_some_iff.1 h
    have hlast : lastCfa t p (c :: cs) = lastCfa t (lastCfa t p [c]) cs := lastCfa_append p [c] cs
    rw [hlast]
    exact ih (hs.call hcall).1 hrest

/-- At the start of a function the frame address is that of the CIE. -/
theorem Recorded.begin {cie : List Cfi} (hcie : (replay t cie).cfa = some p) (hs : s.cieCfi = cie) :
    Recorded t cie p s.beginPrologue := by
  refine ⟨hs, ?_, _, rfl, rfl⟩
  rw [FrameState.recorded, FrameState.beginPrologue, hs]
  simpa using hcie

end Calls

section Results

/-- After any calls on a function, a reader of the CIE and of the function's list, and `lookup_cfa`, come to
the frame address that was asked for last; and the next call that adds to the list puts its instruction behind
an advance to its label. -/
theorem call_frame_replays {t : FrameTarget} {s s' : FrameState} {p : Nat × Int} {cs : List FrameCall}
    (hcie : (replay t s.cieCfi).cfa = some p) (hrun : s.beginPrologue.calls t cs = some s') :
    (replay t s'.recorded).cfa = some (lastCfa t p cs) ∧ s'.lookupCfa t = lastCfa t p cs ∧
      ∀ c s'', s'.call t c = some s'' →
        s''.recorded = s'.recorded ∨ ∃ cfi, PutBehind t s' s'' c.label cfi := by
  have hrec := (Recorded.begin hcie rfl).calls hrun
  exact ⟨hrec.cfa, hrec.lookupCfa, fun c s'' hcall => (hrec.call hcall).2⟩

/-- A state before the function, with the CIE of the Z80. -/
def afterInit : FrameState := ⟨[.defCfa 6 2, .offset 10 1], none, 0, 6, 2, 0, 0, 0⟩

/-- A push, the frame pointer, and a register save. -/
theorem call_frame_replays_prologue :
    ∃ s', afterInit.beginPrologue.calls z80Frame [.defCfa "" 6 4, .regSave "L1" 5 none (-4), .defCfa "L1" 5 4] =
        some s' ∧
      (replay z80Frame s'.recorded).cfa = some (5, 4) ∧ s'.lookupCfa z80Frame = (5, 4) := by
  obtain ⟨s', hs'⟩ : ∃ s', afterInit.beginPrologue.calls z80Frame
      [.defCfa "" 6 4, .regSave "L1" 5 none (-4), .defCfa "L1" 5 4] = some s' := ⟨_, rfl⟩
  have h := call_frame_replays (p := (6, 2)) (by rfl) hs'
  exact ⟨s', hs', h.1, h.2.1⟩

end Results

end Z80Gcc.Dwarf
