import Z80Gcc.Spec.Profile

/-! The shape of the flow graph that `branch_prob` builds. -/

namespace Z80Gcc.Profile

/-- The labels that jumps refer to. -/
def Pattern.labels : Pattern → List Nat
  | .parallelUse label | .parallelSet label | .direct label | .ifThenElse label => [label]
  | .table labels => labels
  | .ret | .other => []

/-- Every label of a jump is in the insn chain. -/
def LabelsPresent (insns : List Insn) : Prop :=
  ∀ pattern, .jump pattern ∈ insns → ∀ label ∈ pattern.labels, .codeLabel label ∈ insns

section Blocks

/-- The number of the last block does not depend on the labels. -/
theorem numberBlocks_snd (insns : List Insn) (prev : Code) (i : Nat) (L L' : Nat → Nat) :
    (numberBlocks insns prev i L).2 = (numberBlocks insns prev i L').2 := by
  induction insns generalizing prev i L L' with
  | nil => rfl
  | cons insn insns ih => exact ih _ _ _ _

def lastBlock (insns : List Insn) (prev : Code) (i : Nat) : Nat :=
  (numberBlocks insns prev i fun _ => 0).2

theorem lastBlock_nil (prev : Code) (i : Nat) :
    lastBlock [] prev i = if prev.separates then i + 1 else i := rfl

theorem lastBlock_cons (insn : Insn) (insns : List Insn) (prev : Code) (i : Nat) :
    lastBlock (insn :: insns) prev i = lastBlock insns (insn.code prev) (nextBlock prev insn i) :=
  numberBlocks_snd insns _ _ _ _

theorem nextBlock_le (prev : Code) (insn : Insn) (i : Nat) : i ≤ nextBlock prev insn i := by
  unfold nextBlock
  split <;> omega

theorem le_lastBlock (insns : List Insn) (prev : Code) (i : Nat) :
    i ≤ lastBlock insns prev i ∧ (prev.separates = true → i + 1 ≤ lastBlock insns prev i) := by
  induction insns generalizing prev i with
  | nil =>
    rw [lastBlock_nil]
    split <;> simp_all
  | cons insn insns ih =>
    obtain ⟨hle, hsep⟩ := ih (insn.code prev) (nextBlock prev insn i)
    rw [lastBlock_cons]
    refine ⟨Nat.le_trans (nextBlock_le prev insn i) hle, fun hprev => ?_⟩
    by_cases hstarts : insn.starts = true
    · have hnext : nextBlock prev insn i = i + 1 := if_pos ⟨hprev, hstarts⟩
      rwa [hnext] at hle ⊢
    · have hcode : (insn.code prev).separates = true := by
        cases insn <;> simp_all [Insn.starts, Insn.code, Code.separates]
      have hnext : nextBlock prev insn i = i := if_neg fun hboth => hstarts hboth.2
      rw [hnext] at hsep ⊢
      exact hsep hcode

theorem numberBlocks_label (insns : List Insn) (prev : Code) (i : Nat) (L : Nat → Nat) {n : Nat}
    (hn : lastBlock insns prev i ≤ n) (label : Nat) (hL : L label ≤ n) :
    (numberBlocks insns prev i L).1 label ≤ n ∧
      (.codeLabel label ∈ insns ∨ 1 ≤ L label → 1 ≤ (numberBlocks insns prev i L).1 label) := by
  induction insns generalizing prev i L with
  | nil =>
    refine ⟨hL, fun hmem => hmem.resolve_left ?_⟩
    intro hmem
    cases hmem
  | cons insn insns ih =>
    rw [lastBlock_cons] at hn
    have hstep : ∀ L' : Nat → Nat, L' label ≤ n → (insn = .codeLabel label ∨ 1 ≤ L label → 1 ≤ L' label) →
        (numberBlocks insns (insn.code prev) (nextBlock prev insn i) L').1 label ≤ n ∧
          (.codeLabel label ∈ insn :: insns ∨ 1 ≤ L label →
            1 ≤ (numberBlocks insns (insn.code prev) (nextBlock prev insn i) L').1 label) := by
      intro L' hle hpos
      obtain ⟨hle', hpos'⟩ := ih (insn.code prev) (nextBlock prev insn i) L' hn hle
      refine ⟨hle', fun hmem => hpos' ?_⟩
      rcases hmem with hmem | hmem
      · rcases List.mem_cons.1 hmem with rfl | hmem
        · exact .inr (hpos (.inl rfl))
        · exact .inl hmem
      · exact .inr (hpos (.inr hmem))
    cases insn with
    | codeLabel number =>
      have hnext := (le_lastBlock insns .codeLabel i).2 rfl
      have hsame : nextBlock prev (.codeLabel number) i = i := if_neg (by simp [Insn.starts])
      rw [hsame] at hn
      have hblock : i + 1 ≤ n := Nat.le_trans hnext hn
      refine hstep (Function.update L number (i + 1)) ?_ ?_
      · by_cases heq : label = number
        · rw [heq, Function.update_self]
          exact hblock
        · rw [Function.update_of_ne heq]
          exact hL
      · intro hmem
        by_cases heq : label = number
        · rw [heq, Function.update_self]
          omega
        · rw [Function.update_of_ne heq]
          refine hmem.resolve_left fun hlabel => heq ?_
          cases hlabel
          rfl
    | _ => exact hstep L hL fun hmem => hmem.resolve_left (by simp)

end Blocks

section Arcs

/-- An arc that the second scan makes. -/
structure Arc.Fits (n : Nat) (arc : Arc) : Prop where
  target_pos : 1 ≤ arc.target
  target_lt : arc.target < n
  source_lt : arc.source < n - 1
  source_zero : arc.source = 0 → arc.fake = true
  fake : arc.fake = true → arc.source = 0 ∧ arc.target + 3 ≤ n ∨ 1 ≤ arc.source ∧ arc.target = n - 1

theorem jumpTargets_mem {L : Nat → Nat} {n : Nat} {pattern : Pattern} {targets : List Nat}
    (hrun : jumpTargets L n pattern = some targets) {dest : Nat} (hmem : dest ∈ targets) :
    dest = n - 1 ∨ ∃ label ∈ pattern.labels, dest = L label := by
  cases pattern with
  | table labels =>
    obtain rfl := Option.some.inj hrun
    obtain ⟨label, hlabel, rfl⟩ := List.mem_map.1 hmem
    exact .inr ⟨label, hlabel, rfl⟩
  | ret =>
    obtain rfl := Option.some.inj hrun
    exact .inl (List.mem_singleton.1 hmem)
  | other => cases hrun
  | _ label =>
    obtain rfl := Option.some.inj hrun
    exact .inr ⟨label, List.mem_singleton.2 rfl, List.mem_singleton.1 hmem⟩

structure Scanning (prev : Code) (i : Nat) (fallThrough : Bool) : Prop where
  started : i = 0 → prev.separates = true
  falls : fallThrough = true → 1 ≤ i

theorem insnArcs_fit {L : Nat → Nat} {n i : Nat} {prev : Code} {insn : Insn} {insns : List Insn}
    {arcs : List Arc}
    (hrun : insnArcs L n insn insns.head? i = some arcs) (hi : insn.starts = true → 1 ≤ i)
    (hlast : lastBlock insns (insn.code prev) i + 2 = n)
    (hL : ∀ pattern, insn = .jump pattern → ∀ label ∈ pattern.labels, 1 ≤ L label ∧ L label + 2 ≤ n) :
    ∀ arc ∈ arcs, arc.Fits n := by
  have hle := (le_lastBlock insns (insn.code prev) i).1
  cases insn with
  | call =>
    have hpos := hi rfl
    intro arc hmem
    have hcases : arc = ⟨0, i + 1, true, false⟩ ∧ insns.head? = some .setjmpNote ∨
        arc = ⟨i, n - 1, true, false⟩ := by
      simp only [insnArcs] at hrun
      split at hrun
      · next hnext =>
        obtain rfl := Option.some.inj hrun
        exact .inl ⟨List.mem_singleton.1 hmem, hnext⟩
      · obtain rfl := Option.some.inj hrun
        exact .inr (List.mem_singleton.1 hmem)
    obtain ⟨rfl, hnext⟩ | rfl := hcases
    · -- the note is a block of its own, and another one follows
      obtain ⟨rest, rfl⟩ : ∃ rest, insns = .setjmpNote :: rest := by
        cases insns with
        | nil => cases hnext
        | cons insn rest =>
          obtain rfl := Option.some.inj hnext
          exact ⟨rest, rfl⟩
      have hnote := (le_lastBlock rest .call (i + 1)).2 rfl
      rw [lastBlock_cons] at hlast
      have hblock : nextBlock (Insn.call.code prev) .setjmpNote i = i + 1 := rfl
      have hcode : Insn.setjmpNote.code (Insn.call.code prev) = .call := rfl
      rw [hblock, hcode] at hlast
      refine ⟨?_, ?_, ?_, fun _ => rfl, fun _ => .inl ⟨rfl, ?_⟩⟩ <;> simp only <;> omega
    · refine ⟨?_, ?_, ?_, fun _ => rfl, fun _ => .inr ⟨hpos, rfl⟩⟩ <;> simp only <;> omega
  | jump pattern =>
    have hpos := hi rfl
    intro arc hmem
    cases htargets : jumpTargets L n pattern with
    | none => simp [insnArcs, htargets] at hrun
    | some targets =>
      have harcs : targets.map (fun dest => (⟨i, dest, false, false⟩ : Arc)) = arcs := by
        simpa [insnArcs, htargets] using hrun
      rw [← harcs] at hmem
      obtain ⟨dest, hdest, rfl⟩ := List.mem_map.1 hmem
      have hbound : 1 ≤ dest ∧ dest < n := by
        obtain rfl | ⟨label, hlabel, rfl⟩ := jumpTargets_mem htargets hdest
        · omega
        · obtain ⟨hlow, hhigh⟩ := hL pattern rfl label hlabel
          omega
      refine ⟨hbound.1, hbound.2, ?_, fun hzero => ?_, nofun⟩
      · simp only
        omega
      · simp only at hzero
        omega
  | _ =>
    obtain rfl := Option.some.inj hrun
    intro arc hmem
    cases hmem

theorem Scanning.step {prev : Code} {i : Nat} {fallThrough : Bool} (hs : Scanning prev i fallThrough)
    (insn : Insn) : (insn.starts = true → 1 ≤ nextBlock prev insn i) ∧
      ∀ fallThrough', (fallThrough' = true → 1 ≤ nextBlock prev insn i) →
        Scanning (insn.code prev) (nextBlock prev insn i) fallThrough' := by
  have hstarts : insn.starts = true → 1 ≤ nextBlock prev insn i := by
    intro hstarts
    unfold nextBlock
    split
    · omega
    · next hno =>
      by_cases hzero : i = 0
      · exact absurd ⟨hs.started hzero, hstarts⟩ hno
      · omega
  refine ⟨hstarts, fun fallThrough' hfalls => ⟨fun hzero => ?_, hfalls⟩⟩
  by_cases hstart : insn.starts = true
  · have hpos := hstarts hstart
    omega
  · have hprev := hs.started (Nat.le_zero.1 (hzero ▸ nextBlock_le prev insn i))
    cases insn <;> simp_all [Insn.starts, Insn.code, Code.separates]

/-- Whether control falls through an insn, with the flag at its start. -/
theorem makeArcs_cons {L : Nat → Nat} {n i : Nat} {prev : Code} {fallThrough : Bool} {insn : Insn}
    {insns : List Insn} {arcs : List Arc}
    (hrun : makeArcs L n (insn :: insns) prev i fallThrough = some arcs) :
    ∃ arcs₁ arcs₂ fallThrough', insnArcs L n insn insns.head? (nextBlock prev insn i) = some arcs₁ ∧
      makeArcs L n insns (insn.code prev) (nextBlock prev insn i) fallThrough' = some arcs₂ ∧
      arcs = (if nextBlock prev insn i ≠ i ∧ fallThrough then
        [⟨i, nextBlock prev insn i, false, true⟩] else []) ++ arcs₁ ++ arcs₂ ∧
      (fallThrough' = true → nextBlock prev insn i ≠ i ∨ fallThrough = true ∨ insn = .call) := by
  rw [makeArcs] at hrun
  simp only [bind, Option.bind_eq_some_iff] at hrun
  obtain ⟨arcs₁, hinsn, arcs₂, hrest, harcs⟩ := hrun
  refine ⟨arcs₁, arcs₂, _, hinsn, hrest, (Option.some.inj harcs).symm, ?_⟩
  intro hfalls
  by_cases hblock : nextBlock prev insn i = i
  · refine .inr ?_
    cases insn <;> simp_all [Insn.fallsThrough]
  · exact .inl hblock

/-- All arcs that the second scan makes fit, and the last one is to the exit from the block before. -/
theorem makeArcs_fit {L : Nat → Nat} {n : Nat} (insns : List Insn) {prev : Code} {i : Nat}
    {fallThrough : Bool} {arcs : List Arc} (hs : Scanning prev i fallThrough)
    (hlast : lastBlock insns prev i + 2 = n) (hn : 3 ≤ n)
    (hL : ∀ pattern, .jump pattern ∈ insns → ∀ label ∈ pattern.labels, 1 ≤ L label ∧ L label + 2 ≤ n)
    (hrun : makeArcs L n insns prev i fallThrough = some arcs) :
    ∃ front, arcs = front ++ [⟨n - 2, n - 1, true, false⟩] ∧ ∀ arc ∈ arcs, arc.Fits n := by
  have hexit : (⟨n - 2, n - 1, true, false⟩ : Arc).Fits n := by
    refine ⟨?_, ?_, ?_, fun _ => rfl, fun _ => .inr ⟨?_, rfl⟩⟩ <;> simp only <;> omega
  induction insns generalizing prev i fallThrough arcs with
  | nil =>
    rw [lastBlock_nil] at hlast
    obtain rfl := Option.some.inj hrun
    refine ⟨_, rfl, fun arc hmem => ?_⟩
    rcases List.mem_append.1 hmem with hmem | hmem
    · split at hmem
      · next hends =>
        obtain rfl := List.mem_singleton.1 hmem
        have hpos := hs.falls hends.2
        rw [if_pos hends.1] at hlast
        refine ⟨?_, ?_, ?_, fun hzero => ?_, nofun⟩
        · simp only
          omega
        · simp only
          omega
        · simp only
          omega
        · simp only at hzero
          omega
      · cases hmem
    · obtain rfl := List.mem_singleton.1 hmem
      exact hexit
  | cons insn insns ih =>
    rw [lastBlock_cons] at hlast
    obtain ⟨hstarts, hscan⟩ := hs.step insn
    obtain ⟨arcs₁, arcs₂, fallThrough', hinsn, hrest, rfl, hfalls⟩ := makeArcs_cons hrun
    have hle := (le_lastBlock insns (insn.code prev) (nextBlock prev insn i)).1
    have hnext := nextBlock_le prev insn i
    have hfalls' : fallThrough' = true → 1 ≤ nextBlock prev insn i := by
      intro hft
      obtain hblock | hft' | rfl := hfalls hft
      · omega
      · have hpos := hs.falls hft'
        omega
      · exact hstarts rfl
    obtain ⟨front, rfl, hfits⟩ := ih (hscan fallThrough' hfalls') hlast
      (fun pattern hmem => hL pattern (List.mem_cons_of_mem _ hmem)) hrest
    refine ⟨_, (List.append_assoc ..).symm, fun arc hmem => ?_⟩
    rw [List.append_assoc, List.mem_append, List.mem_append] at hmem
    rcases hmem with hmem | hmem | hmem
    · split at hmem
      · next hentry =>
        obtain rfl := List.mem_singleton.1 hmem
        have hpos := hs.falls hentry.2
        refine ⟨?_, ?_, ?_, fun hzero => ?_, nofun⟩
        · simp only
          omega
        · simp only
          omega
        · have hne := hentry.1
          simp only
          omega
        · simp only at hzero
          omega
      · cases hmem
    · exact insnArcs_fit hinsn hstarts hlast
        (fun pattern heq => hL pattern (heq ▸ List.mem_cons_self ..)) arc hmem
    · exact hfits arc hmem

/-- A flow graph of `branch_prob`: arc 0 is from the entry to block 1, arc 1 from the exit back to the
entry, and the last arc from the last block to the exit. -/
structure Flow (g : Graph) (front : List Arc) : Prop where
  blocks : 3 ≤ g.numBlocks
  arcs : g.arcs = ⟨0, 1, false, true⟩ :: ⟨g.numBlocks - 1, 0, true, false⟩ ::
    (front ++ [⟨g.numBlocks - 2, g.numBlocks - 1, true, false⟩])
  fits : ∀ arc ∈ front ++ [⟨g.numBlocks - 2, g.numBlocks - 1, true, false⟩], arc.Fits g.numBlocks

/-- The graph that is built for a function with all labels. -/
theorem buildGraph_flow {insns : List Insn} (hlabels : LabelsPresent insns) {g : Graph}
    (hrun : buildGraph insns = some g) : ∃ front, Flow g front := by
  have hblocks := (le_lastBlock insns .jump 0).2 rfl
  have hL : ∀ pattern, .jump pattern ∈ insns → ∀ label ∈ pattern.labels,
      1 ≤ (numberBlocks insns .jump 0 fun _ => 0).1 label ∧
        (numberBlocks insns .jump 0 fun _ => 0).1 label + 2 ≤ lastBlock insns .jump 0 + 2 := by
    intro pattern hmem label hlabel
    obtain ⟨hle, hpos⟩ := numberBlocks_label insns .jump 0 (fun _ => 0) (Nat.le_refl _) label
      (Nat.zero_le (lastBlock insns .jump 0))
    exact ⟨hpos (.inl (hlabels pattern hmem label hlabel)), Nat.add_le_add_right hle 2⟩
  rw [buildGraph] at hrun
  simp only [bind, Option.bind_eq_some_iff] at hrun
  obtain ⟨arcs, harcs, hg⟩ := hrun
  obtain rfl := Option.some.inj hg
  have hscan : Scanning .jump 0 false := ⟨fun _ => rfl, fun hfalse => by cases hfalse⟩
  obtain ⟨front, rfl, hfits⟩ := makeArcs_fit insns hscan rfl (by omega) hL harcs
  exact ⟨front, ⟨Nat.add_le_add_right hblocks 2, rfl, hfits⟩⟩

end Arcs

end Z80Gcc.Profile
