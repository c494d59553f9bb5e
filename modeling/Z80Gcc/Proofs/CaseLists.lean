import Z80Gcc.Proofs.CaseTree

/-! The list of case nodes: grouping keeps the place every value goes to, and balancing makes a
tree whose order is that of the list. -/

namespace Z80Gcc

open Z80Gcc.WrapInt

variable {L : Type} {h : Host} {t : IntegerType h}

section Group

/-- Where a label leads: behind a plain jump, or to the insn itself. -/
def InsnStream.place (s : InsnStream L) (l : L) : Option (s.Insn ⊕ s.Src) :=
  (s.nextRealInsn l).map fun i =>
    match s.simplejump i with
    | some src => .inr src
    | none => .inl i

theorem InsnStream.samePlace_iff (s : InsnStream L) (a b : L) :
    s.samePlace a b = true ↔ s.place b = s.place a := by
  unfold samePlace place
  cases s.nextRealInsn a with
  | none => simp
  | some i =>
    cases s.nextRealInsn b with
    | none => simp
    | some j =>
      by_cases hij : j = i
      · simp [hij]
      cases hi : s.simplejump i <;> cases hj : s.simplejump j <;> simp [hij, hi, hj]
      exact eq_comm

/-- A value is among the values of a case. -/
def CaseNode.Holds (c : CaseNode L) (index : Int) : Prop := c.low ≤ index ∧ index ≤ c.high

variable (s : InsnStream L)

def GoesTo (cs : List (CaseNode L)) (index : Int) (place : Option (s.Insn ⊕ s.Src)) : Prop :=
  ∃ c ∈ cs, c.Holds index ∧ s.place c.codeLabel = place

@[simp] theorem goesTo_nil (index : Int) (place : Option (s.Insn ⊕ s.Src)) :
    ¬ GoesTo s [] index place := by
  simp [GoesTo]

@[simp] theorem goesTo_cons (c : CaseNode L) (cs : List (CaseNode L)) (index : Int)
    (place : Option (s.Insn ⊕ s.Src)) : GoesTo s (c :: cs) index place ↔
      c.Holds index ∧ s.place c.codeLabel = place ∨ GoesTo s cs index place := by
  simp [GoesTo]

/-- What grouping keeps of an ordered list. -/
structure Grouped (t : IntegerType h) (cs gs : List (CaseNode L)) : Prop where
  sorted : InOrder gs
  of : ∀ g ∈ gs, g.Of t
  low : ∀ g ∈ gs, ∃ c ∈ cs, c.low = g.low
  high : ∀ g ∈ gs, ∃ c ∈ cs, c.high = g.high
  goesTo : ∀ index place, GoesTo s gs index place ↔ GoesTo s cs index place

theorem groupWith_grouped (node : CaseNode L) (rest : List (CaseNode L))
    (hof : ∀ c ∈ node :: rest, c.Of t) (hsorted : InOrder (node :: rest)) :
    Grouped s t (node :: rest) ((groupWith s t node rest).1 :: (groupWith s t node rest).2) := by
  induction rest generalizing node with
  | nil => exact ⟨hsorted, hof, fun g hg => ⟨g, hg, rfl⟩, fun g hg => ⟨g, hg, rfl⟩, fun _ _ => .rfl⟩
  | cons np rest ih =>
    rw [groupWith]
    split
    · next hjoin =>
      simp only [Bool.and_eq_true, decide_eq_true_eq, s.samePlace_iff] at hjoin
      obtain ⟨⟨hplace, hlow⟩, hlt⟩ := hjoin
      obtain ⟨hnode, hrest⟩ := List.pairwise_cons.1 hsorted
      obtain ⟨hnp, hrest⟩ := List.pairwise_cons.1 hrest
      obtain ⟨hn, hn', hn''⟩ := hof node (by simp)
      obtain ⟨hp, hp', hp''⟩ := hof np (by simp)
      have hnext : np.low = node.high + 1 := by
        have hafter := hnode np (by simp)
        rw [hlow] at hafter ⊢
        exact wrap_succ hn'' hafter
      have hjoined := ih { node with high := np.high }
        (by
          intro c hc
          obtain rfl | hc := List.mem_cons.1 hc
          · exact ⟨by dsimp only; omega, hn', hp''⟩
          · exact hof c (by simp [hc]))
        (List.pairwise_cons.2 ⟨hnp, hrest⟩)
      refine ⟨hjoined.sorted, hjoined.of, ?_, ?_, ?_⟩
      · intro g hg
        obtain ⟨c, hc, hcg⟩ := hjoined.low g hg
        obtain rfl | hc := List.mem_cons.1 hc
        · exact ⟨node, by simp, hcg⟩
        · exact ⟨c, by simp [hc], hcg⟩
      · intro g hg
        obtain ⟨c, hc, hcg⟩ := hjoined.high g hg
        obtain rfl | hc := List.mem_cons.1 hc
        · exact ⟨np, by simp, hcg⟩
        · exact ⟨c, by simp [hc], hcg⟩
      · intro index place
        have hholds : CaseNode.Holds { node with high := np.high } index ↔
            node.Holds index ∨ np.Holds index := by
          simp only [CaseNode.Holds]
          omega
        rw [hjoined.goesTo, goesTo_cons, goesTo_cons, goesTo_cons, hholds, hplace]
        tauto
    · exact ⟨hsorted, hof, fun g hg => ⟨g, hg, rfl⟩, fun g hg => ⟨g, hg, rfl⟩, fun _ _ => .rfl⟩

theorem Grouped.refl {cs : List (CaseNode L)} (hof : ∀ c ∈ cs, c.Of t) (hsorted : InOrder cs) :
    Grouped s t cs cs :=
  ⟨hsorted, hof, fun g hg => ⟨g, hg, rfl⟩, fun g hg => ⟨g, hg, rfl⟩, fun _ _ => .rfl⟩

variable {s}

theorem Grouped.trans {cs ds gs : List (CaseNode L)} (hcd : Grouped s t cs ds)
    (hdg : Grouped s t ds gs) : Grouped s t cs gs := by
  refine ⟨hdg.sorted, hdg.of, ?_, ?_, ?_⟩
  · intro g hg
    obtain ⟨d, hd, hdeq⟩ := hdg.low g hg
    obtain ⟨c, hc, hceq⟩ := hcd.low d hd
    exact ⟨c, hc, hceq.trans hdeq⟩
  · intro g hg
    obtain ⟨d, hd, hdeq⟩ := hdg.high g hg
    obtain ⟨c, hc, hceq⟩ := hcd.high d hd
    exact ⟨c, hc, hceq.trans hdeq⟩
  · intro index place
    rw [hdg.goesTo, hcd.goesTo]

theorem Grouped.cons {c : CaseNode L} {cs gs : List (CaseNode L)} (hc : c.Of t)
    (hsorted : InOrder (c :: cs)) (h : Grouped s t cs gs) :
    Grouped s t (c :: cs) (c :: gs) := by
  refine ⟨List.pairwise_cons.2 ⟨?_, h.sorted⟩, List.forall_mem_cons.2 ⟨hc, h.of⟩, ?_, ?_, ?_⟩
  · intro g hg
    obtain ⟨d, hd, hdeq⟩ := h.low g hg
    exact hdeq ▸ (List.pairwise_cons.1 hsorted).1 d hd
  · refine List.forall_mem_cons.2 ⟨⟨c, by simp, rfl⟩, ?_⟩
    intro g hg
    obtain ⟨d, hd, hdeq⟩ := h.low g hg
    exact ⟨d, by simp [hd], hdeq⟩
  · refine List.forall_mem_cons.2 ⟨⟨c, by simp, rfl⟩, ?_⟩
    intro g hg
    obtain ⟨d, hd, hdeq⟩ := h.high g hg
    exact ⟨d, by simp [hd], hdeq⟩
  · intro index place
    rw [goesTo_cons, goesTo_cons, h.goesTo]

theorem groupCaseNodes_grouped (cs : List (CaseNode L)) (hof : ∀ c ∈ cs, c.Of t)
    (hsorted : InOrder cs) : Grouped s t cs (groupCaseNodes s t cs) := by
  induction cs using groupCaseNodes.induct (s := s) (t := t) with
  | case1 =>
    rw [groupCaseNodes]
    exact .refl s hof hsorted
  | case2 node rest ih =>
    rw [groupCaseNodes]
    have hfirst := groupWith_grouped s node rest hof hsorted
    obtain ⟨hnode, hrest⟩ := List.forall_mem_cons.1 hfirst.of
    exact hfirst.trans
      (.cons hnode hfirst.sorted (ih hrest (List.pairwise_cons.1 hfirst.sorted).2))

end Group

section Balance

@[simp] theorem toList_ofRightChain (cs : List (CaseNode L)) :
    (CaseTree.ofRightChain cs).toList = cs := by
  induction cs with
  | nil => rfl
  | cons c cs ih => simp [CaseTree.ofRightChain, CaseTree.toList, ih]

/-- The list is split inside it when its weights reach the amount. -/
theorem skipNodes_lt {weight : CaseNode L → Int} {i : Int} {cs : List (CaseNode L)}
    (hne : cs ≠ []) (hle : i ≤ (cs.map weight).sum) :
    ∃ k, skipNodes weight i cs = some k ∧ k < cs.length := by
  induction cs generalizing i with
  | nil => exact absurd rfl hne
  | cons c cs ih =>
    rw [skipNodes]
    split
    · exact ⟨0, rfl, by simp⟩
    · next hgt =>
      rw [List.map_cons, List.sum_cons] at hle
      have hne' : cs ≠ [] := by
        rintro rfl
        simp at hle
        omega
      obtain ⟨k, hk, hlt⟩ := ih (i := i - weight c) hne' (by omega)
      exact ⟨k + 1, by simp [hk], by simpa using hlt⟩

/-- Without a cost table, or with one that knows every value, no weight is negative. -/
def Weighable (h : Host) (useCostTable : Bool) (cs : List (CaseNode L)) : Prop :=
  ∀ c ∈ cs, 0 ≤ nodeWeight h useCostTable c

theorem splitPoint_lt {useCostTable : Bool} {cs : List (CaseNode L)}
    (hw : Weighable h useCostTable cs) (hlen : 2 < cs.length) :
    ∃ k, splitPoint h useCostTable cs = some k ∧ k < cs.length := by
  unfold splitPoint
  dsimp only
  split
  · exact ⟨1, rfl, by omega⟩
  · have hsum : 0 ≤ (cs.map (nodeWeight h useCostTable)).sum := by
      refine List.sum_nonneg ?_
      intro w hmem
      obtain ⟨c, hc, rfl⟩ := List.mem_map.1 hmem
      exact hw c hc
    refine skipNodes_lt (by rintro rfl; simp at hlen) ?_
    rw [Int.tdiv_eq_ediv_of_nonneg (by omega)]
    omega

/-- The two words of a case's bounds are in order as signed numbers too. -/
def CaseNode.Unwrapped (h : Host) (c : CaseNode L) : Prop :=
  c.low.bmod (2 ^ (2 * h.bits)) ≤ c.high.bmod (2 ^ (2 * h.bits))

theorem low_of_small {v : Int} (hlo : -1 ≤ v.bmod (2 ^ (2 * h.bits)))
    (hhi : v.bmod (2 ^ (2 * h.bits)) ≤ 127) : h.low v = v.bmod (2 ^ (2 * h.bits)) := by
  have hwide := h.wide
  have hdvd : (2 : Int) ^ h.bits ∣ v.bmod (2 ^ (2 * h.bits)) - v :=
    (pow_dvd_pow 2 (by omega)).trans (dvd_wrap_sub (u := false))
  have hpow : (2 : Int) ^ 8 ≤ 2 ^ h.bits := two_pow_le (by omega)
  have hself : wrap false h.bits (v.bmod (2 ^ (2 * h.bits))) = v.bmod (2 ^ (2 * h.bits)) :=
    bmod_eq_self_iff.2 (by omega)
  exact (wrap_eq_of_dvd (u := false) ((dvd_sub_comm).1 hdvd)).trans hself

theorem weighable_of_estimate {cs : List (CaseNode L)} (hun : ∀ c ∈ cs, c.Unwrapped h)
    (hest : estimateCaseCosts h cs = true) : Weighable h true cs := by
  intro c hc
  have hcost := List.all_eq_true.1 hest c hc
  have hle := hun c hc
  have hwide := h.wide
  have hpow : (2 : Int) ^ 8 ≤ 2 ^ (2 * h.bits) := two_pow_le (by omega)
  have hsmall : ∀ v : Int, -1 ≤ v → v ≤ 127 → v.bmod (2 ^ (2 * h.bits)) = v := by
    intro v hlo hhi
    exact bmod_eq_self_iff.2 (by omega)
  simp only [IntegerType.intCstLt, hsmall (-1) (by decide) (by decide),
    hsmall 127 (by decide) (by decide), Bool.and_eq_true, Bool.not_eq_true', decide_eq_false_iff_not,
    not_lt, List.all_eq_true, List.mem_range, decide_eq_true_eq] at hcost
  obtain ⟨⟨hlo, hhi⟩, hall⟩ := hcost
  unfold CaseNode.Unwrapped at hle
  rw [low_of_small hlo (hle.trans hhi), low_of_small (hlo.trans hle) hhi] at hall
  unfold nodeWeight
  rw [if_pos rfl, low_of_small hlo (hle.trans hhi), low_of_small (hlo.trans hle) hhi]
  have hfirst := hall 0 (by omega)
  have hlast := hall (c.high.bmod (2 ^ (2 * h.bits)) - c.low.bmod (2 ^ (2 * h.bits))).toNat (by omega)
  rw [Int.toNat_of_nonneg (by omega), add_sub_cancel] at hlast
  simp only [Nat.cast_zero, add_zero] at hfirst
  split <;> omega

theorem weighable_plain (cs : List (CaseNode L)) : Weighable h false cs := by
  intro c _
  rw [nodeWeight, if_neg Bool.false_ne_true]
  split <;> decide

theorem balanceCaseNodes_toList {useCostTable : Bool} (cs : List (CaseNode L))
    (hw : Weighable h useCostTable cs) :
    ∃ tree, balanceCaseNodes h useCostTable cs = some tree ∧ tree.toList = cs := by
  induction cs using balanceCaseNodes.induct h useCostTable with
  | case1 cs hlen =>
    rw [balanceCaseNodes, if_pos hlen]
    exact ⟨_, rfl, toList_ofRightChain cs⟩
  | case2 cs hlen hnone =>
    obtain ⟨k, hk, -⟩ := splitPoint_lt hw (by omega)
    rw [hk] at hnone
    cases hnone
  | case3 cs hlen k hk hlop =>
    rw [balanceCaseNodes, if_neg hlen, hk]
    dsimp only
    rw [if_pos hlop]
    exact ⟨_, rfl, toList_ofRightChain cs⟩
  | case4 cs hlen k hk hlop hdrop =>
    obtain ⟨k', hk', hlt⟩ := splitPoint_lt hw (by omega)
    obtain rfl : k = k' := Option.some.inj (hk.symm.trans hk')
    have := List.drop_eq_nil_iff.1 hdrop
    omega
  | case5 cs hlen k hk hlop n right hdrop ihl ihr =>
    have hcs : cs = cs.take k ++ n :: right := by rw [← hdrop, List.take_append_drop]
    obtain ⟨l, hl, hltree⟩ := ihl fun c hc => hw c (List.mem_of_mem_take hc)
    obtain ⟨r, hr, hrtree⟩ := ihr fun c hc => hw c (by rw [hcs]; simp [hc])
    refine ⟨.node l n r, ?_, ?_⟩
    · rw [balanceCaseNodes, if_neg hlen, hk]
      dsimp only
      rw [if_neg hlop]
      split
      · next hnil => rw [hnil] at hdrop; cases hdrop
      · next n' right' hdrop' =>
        rw [hdrop] at hdrop'
        cases hdrop'
        rw [hl, hr]
        rfl
    · rw [CaseTree.toList, hltree, hrtree]
      exact hcs.symm

end Balance

end Z80Gcc
