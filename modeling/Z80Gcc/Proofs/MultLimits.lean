import Z80Gcc.Proofs.SynthMult

/-! The limits at which `synth_mult` and `expand_mult` are right: the cost of an algorithm is a `short`, zero
is taken for a number that the add variant reaches, and `expand_shift` reduces the counts in a mode narrower
than a host word. -/

namespace Z80Gcc

section Overflow

variable {w : Nat}

/-- Tables in which nothing but an addition costs less than 40000. -/
def dearCosts : MultCosts where
  zeroCost := 40000
  addCost := 2731
  negateCost := 0
  shiftCost _ := 40000
  shiftaddCost _ := 40000
  shiftsubCost _ := 40000

def uninitialised : Algorithm := ⟨0, maxBitsPerWord, fun _ => .shift, fun _ => 0⟩

theorem dearCosts_derives {t m cost q : Nat} {op : AlgCode} (hd : Derives dearCosts w t op m cost q) :
    cost = 40000 ∨ cost = 2731 ∧ q % 2 = 0 := by
  cases hd with
  | shift => exact .inl rfl
  | minusOne => exact .inr ⟨rfl, rfl⟩
  | subTM2 hodd ht => exact .inr ⟨rfl, by omega⟩
  | addTM2 hodd ht => exact .inr ⟨rfl, by omega⟩
  | addFactor => exact .inl rfl
  | subFactor => exact .inl rfl
  | addT2M => exact .inl rfl
  | subT2M => exact .inl rfl

theorem zero_ne_one_of_pos (hw : 0 < w) : (0 : BitVec w) ≠ 1 := by
  intro heq
  have hnat := congrArg BitVec.toNat heq
  have hone : (1 : BitVec w).toNat = 1 := BitVec.toNat_one hw
  rw [hone] at hnat
  simp at hnat

def Lost (limit : Int) (s : MultSearch) : Prop := s.costLimit = limit ∧ s.bestAlg = uninitialised

theorem synthMult_dear (algOut : Algorithm) {t : BitVec w} (ht : t ≠ 1) {limit : Int} (hlimit : limit ≤ 35498) :
    synthMult dearCosts (fun _ _ => (uninitialised, uninitialised)) algOut t limit =
      { algOut with cost := toShort limit } := by
  induction hmeasure : multMeasure t.toNat using Nat.strong_induction_on generalizing t algOut limit with
  | _ i ih =>
    subst hmeasure
    by_cases hpos : limit ≤ 0
    · rw [synthMult, if_pos hpos]
    by_cases hzero : t = 0
    · have hdear : ((dearCosts.zeroCost : Nat) : Int) ≥ limit := by
        have hcost : dearCosts.zeroCost = 40000 := rfl
        omega
      rw [synthMult, if_neg hpos, dif_neg ht, dif_pos hzero, if_pos hdear]
    have hlt : 1 < t.toNat := by
      have hne : t.toNat ≠ 1 := fun h =>
        ht (BitVec.eq_of_toNat_eq (h.trans (toNat_one_of_ne_zero hzero).symm))
      have hne' : t.toNat ≠ 0 := fun h => hzero (BitVec.eq_of_toNat_eq h)
      omega
    have hlost : ∀ l : List (Candidate w), (∀ x ∈ l, x ∈ candidates dearCosts t) → ∀ s, Lost limit s →
        Lost limit (l.foldl (fun s x => s.record x (synthMult dearCosts
          (fun _ _ => (uninitialised, uninitialised)) s.algIn x.rest (s.costLimit - x.cost))) s) := by
      intro l
      induction l with
      | nil => exact fun _ s hs => hs
      | cons x l ihl =>
        intro hmem s hs
        obtain ⟨hx, hl⟩ := List.forall_mem_cons.1 hmem
        refine ihl hl _ ?_
        have hd := candidates_derive hzero hx
        have hcost : (synthMult dearCosts (fun _ _ => (uninitialised, uninitialised)) s.algIn x.rest
            (s.costLimit - x.cost)).cost = toShort (s.costLimit - x.cost) := by
          rw [hs.1]
          obtain hhigh | ⟨hadd, heven⟩ := dearCosts_derives hd
          · rw [synthMult, if_pos (by omega)]
          · have hne : x.rest ≠ 1 := by
              intro hrest
              rw [hrest, toNat_one_of_ne_zero hzero] at heven
              omega
            rw [ih _ (Derives.measure_lt hd hlt) s.algIn hne (by omega) rfl]
        have hle : s.costLimit - x.cost ≤ toShort (s.costLimit - x.cost) := by
          refine le_toShort ?_
          rw [hs.1]
          obtain hhigh | ⟨hadd, -⟩ := dearCosts_derives hd <;> omega
        unfold MultSearch.record
        dsimp only
        rw [hcost, if_neg (by omega)]
        exact hs
    have hdone := hlost _ (fun x hx => hx) ⟨uninitialised, uninitialised, limit⟩ ⟨rfl, rfl⟩
    rw [synthMult, if_neg hpos, dif_neg ht, dif_neg hzero]
    rw [← List.foldl_attach] at hdone
    generalize (candidates dearCosts t).attach.foldl _ _ = s at hdone ⊢
    dsimp only
    split
    · rfl
    · rw [if_pos]
      rw [hdone.2]
      rfl

theorem uninitialised_runTo {n : Nat} (shift : BitVec n → Nat → BitVec n) (cost : Int) (op0 : BitVec n)
    (i : Nat) : ({ uninitialised with cost } : Algorithm).runTo shift op0 i = none := by
  induction i with
  | zero => rfl
  | succ i ih => rw [Algorithm.runTo, ih]; rfl

/-- No other variant is taken when the algorithm costs no more than its last insn. -/
theorem tryVariant_keeps {h : Host} {c : MultCosts} {stack : BitVec h.bits → Int → Algorithm × Algorithm}
    {s : MultChoice} {multCost : Int} {variant : MultVariant} {t : BitVec h.bits} {cost : Nat}
    (hle : s.alg.cost ≤ multCost) (hs : s.alg.cost ≤ cost) :
    (s.tryVariant c stack multCost variant t cost).alg = s.alg ∧
      (s.tryVariant c stack multCost variant t cost).variant = s.variant := by
  have hleast : (if s.alg.cost < multCost then s.alg.cost else multCost) = s.alg.cost := by
    split <;> omega
  have hshort : s.alg.cost - cost ≤ toShort (s.alg.cost - cost) := le_toShort (by omega)
  have hfail : synthMult c stack s.alg2 t (s.alg.cost - cost) =
      { s.alg2 with cost := toShort (s.alg.cost - cost) } := by
    rw [synthMult, if_pos (by omega)]
  unfold MultChoice.tryVariant
  rw [hleast]
  dsimp only
  rw [hfail, if_neg (by dsimp only; omega)]
  exact ⟨rfl, rfl⟩

/-- The variants change nothing when the algorithm costs no more than their last insns. -/
theorem chooseVariant_keeps {h : Host} {c : MultCosts} {stack : BitVec h.bits → Int → Algorithm × Algorithm}
    {alg alg2 r : Algorithm} {hostBitsPerInt n : Nat} {val : BitVec h.bits} {multCost : Int}
    (hr : synthMult c stack alg val multCost = r) (hle : r.cost ≤ multCost) (hneg : r.cost ≤ c.negateCost)
    (hadd : r.cost ≤ c.addCost) :
    (chooseVariant c stack alg alg2 hostBitsPerInt n val multCost).alg = r ∧
      (chooseVariant c stack alg alg2 hostBitsPerInt n val multCost).variant = .basic := by
  unfold chooseVariant
  dsimp only
  rw [hr]
  split
  · obtain ⟨halg, hvariant⟩ := @tryVariant_keeps h c stack ⟨r, alg2, .basic⟩ multCost .negate (-val)
      c.negateCost hle hneg
    obtain ⟨halg', hvariant'⟩ := @tryVariant_keeps h c stack
      (MultChoice.tryVariant c stack ⟨r, alg2, .basic⟩ multCost .negate (-val) c.negateCost) multCost .add
      (val - 1) c.addCost (halg ▸ hle) (halg ▸ hadd)
    exact ⟨halg'.trans halg, hvariant'.trans hvariant⟩
  · exact tryVariant_keeps hle hadd

/-- A limit that does not fit makes `expand_mult` take a failure for a sequence. -/
theorem expandMult_abort {h : Host} {hostBitsPerInt n cost : Nat} (op0 : BitVec n) {val : BitVec h.bits}
    (hcost : 32767 < cost) (hval : val ≠ 1) (hneg : ¬(hostBitsPerInt < n ∧ val.toInt < 0)) :
    expandMult dearCosts (fun _ _ => (uninitialised, uninitialised)) uninitialised uninitialised
      hostBitsPerInt op0 val cost = .abort := by
  obtain ⟨multCost, hmult⟩ : ∃ m : Int, m = (min (12 * dearCosts.addCost) cost : Nat) := ⟨_, rfl⟩
  have hadd : dearCosts.addCost = 2731 := rfl
  have hshort := toShort_cases multCost
  have hbasic := synthMult_dear uninitialised hval (by omega : multCost ≤ 35498)
  have hchosen : (chooseVariant dearCosts (fun _ _ => (uninitialised, uninitialised)) uninitialised
      uninitialised hostBitsPerInt n val multCost).alg = { uninitialised with cost := toShort multCost } := by
    refine (chooseVariant_keeps hbasic ?_ ?_ ?_).1
    · dsimp only
      omega
    · dsimp only
      omega
    · dsimp only
      omega
  unfold expandMult
  rw [if_neg hneg]
  dsimp only
  rw [← hmult, hchosen, if_pos (by dsimp only; omega)]
  rw [Algorithm.emit, uninitialised_runTo]

end Overflow

section Zero

/-- Tables in which only a shift by `k` together with an addition is free. -/
def freeCosts (k addCost : Nat) : MultCosts where
  zeroCost := 40000
  addCost := addCost
  negateCost := 0
  shiftCost _ := 40000
  shiftaddCost m := if m = k then 0 else 40000
  shiftsubCost m := if m = k then 0 else 40000

section Free

variable {w : Nat} {c : MultCosts} {stack : BitVec w → Int → Algorithm × Algorithm}

theorem freeCosts_derives {k a t m cost q : Nat} {op : AlgCode} (ha : a ≤ 40000)
    (hd : Derives (freeCosts k a) w t op m cost q) (hm : m ≠ k) : a ≤ cost := by
  have hadd : (freeCosts k a).shiftaddCost m = 40000 := if_neg hm
  have hsub : (freeCosts k a).shiftsubCost m = 40000 := if_neg hm
  have hshift : (freeCosts k a).shiftCost m = 40000 := rfl
  cases hd with
  | shift | addFactor | subFactor | addT2M | subT2M => omega
  | minusOne | subTM2 | addTM2 => exact le_refl a

/-- Candidates that cost the whole limit change nothing that is kept. -/
theorem foldl_dear {limit : Int} {l : List (Candidate w)} {s : MultSearch}
    (hs : s.costLimit = limit) (hl : ∀ x ∈ l, limit ≤ x.cost) :
    ∃ algIn, l.foldl (fun s x => s.record x (synthMult c stack s.algIn x.rest (s.costLimit - x.cost))) s =
      ⟨algIn, s.bestAlg, limit⟩ := by
  induction l generalizing s with
  | nil => exact ⟨s.algIn, by rw [List.foldl_nil, ← hs]⟩
  | cons x l ih =>
    obtain ⟨hx, hl⟩ := List.forall_mem_cons.1 hl
    have hcost : (synthMult c stack s.algIn x.rest (s.costLimit - x.cost)).cost =
        toShort (s.costLimit - x.cost) := by
      rw [synthMult, if_pos (by omega)]
    have hle : s.costLimit - x.cost ≤ toShort (s.costLimit - x.cost) := le_toShort (by omega)
    have hrecord : s.record x (synthMult c stack s.algIn x.rest (s.costLimit - x.cost)) =
        { s with algIn := synthMult c stack s.algIn x.rest (s.costLimit - x.cost) } := by
      unfold MultSearch.record
      dsimp only
      rw [hcost, if_neg (by omega)]
    rw [List.foldl_cons, hrecord]
    exact ih hs hl

/-- A sequence that costs nothing is found below every limit up to a bound, whatever the counts of its shifts
become. -/
def FreeFor (c : MultCosts) (stack : BitVec w → Int → Algorithm × Algorithm) (bound : Nat) (t : BitVec w)
    (ops : Nat) (v : (Nat → Nat) → Int) : Prop :=
  ∀ algOut (limit : Int), 0 < limit → limit ≤ bound →
    (synthMult c stack algOut t limit).cost = 0 ∧ (synthMult c stack algOut t limit).ops = ops ∧
      ∀ count, (synthMult c stack algOut t limit).valueTo count (ops - 1) = some (v count)

theorem freeFor_one {bound : Nat} : FreeFor c stack bound 1 1 fun _ => 1 := by
  intro algOut limit hpos hle
  rw [synthMult, if_neg (by omega), dif_pos rfl]
  refine ⟨rfl, rfl, fun count => ?_⟩
  simp [Algorithm.valueTo]

/-- A free candidate behind dear ones is taken, and nothing replaces it. -/
theorem FreeFor.extend {t : BitVec w} {l₁ l₂ : List (Candidate w)} {y : Candidate w} {bound ops : Nat}
    {v a b : (Nat → Nat) → Int} (hbound : bound ≤ 32767) (hy : FreeFor c stack bound y.rest ops v)
    (hops : 1 ≤ ops) (hlong : ops < maxBitsPerWord) (hzero : t ≠ 0) (hone : t ≠ 1)
    (hcand : candidates c t = l₁ ++ y :: l₂) (hdear : ∀ x ∈ l₁, bound ≤ x.cost) (hfree : y.cost = 0)
    (hcoeffs : ∀ count, y.op.coeffs (count y.log) = some (a count, b count)) :
    FreeFor c stack bound t (ops + 1) fun count => a count * v count + b count := by
  intro algOut limit hpos hle
  obtain ⟨algIn, hbefore⟩ := @foldl_dear w c stack limit l₁ ⟨(stack t limit).1, (stack t limit).2, limit⟩ rfl
    (fun x hx => by have hlow := hdear x hx; omega)
  obtain ⟨hcost, hnum, hvalue⟩ := hy algIn limit hpos hle
  obtain ⟨r, hr⟩ : ∃ r, r = synthMult c stack algIn y.rest limit := ⟨_, rfl⟩
  rw [← hr] at hcost hnum hvalue
  have hrecord : (MultSearch.mk algIn (stack t limit).2 limit).record y r =
      ⟨(stack t limit).2, { r with
        log := Function.update r.log r.ops y.log
        op := Function.update r.op r.ops y.op }, 0⟩ := by
    unfold MultSearch.record
    dsimp only
    rw [hcost, hfree, if_pos (by omega)]
    rfl
  obtain ⟨algIn', hafter⟩ := @foldl_dear w c stack 0 l₂ _
    (by rw [hrecord] : ((MultSearch.mk algIn (stack t limit).2 limit).record y r).costLimit = 0)
    (fun x _ => Int.natCast_nonneg x.cost)
  have hfirst : limit - (y.cost : Nat) = limit := by
    rw [hfree]
    omega
  have hshort : toShort limit = limit := toShort_eq (by omega) (by omega)
  have hfold : (candidates c t).foldl
      (fun (s : MultSearch) x => s.record x (synthMult c stack s.algIn x.rest (s.costLimit - x.cost)))
      ⟨(stack t limit).1, (stack t limit).2, limit⟩ = ⟨algIn', { r with
        log := Function.update r.log r.ops y.log
        op := Function.update r.op r.ops y.op }, 0⟩ := by
    rw [hcand, List.foldl_append, hbefore, List.foldl_cons]
    dsimp only
    rw [hfirst, ← hr, hafter, hrecord]
  rw [synthMult, if_neg (by omega), dif_neg hone, dif_neg hzero]
  rw [← List.foldl_attach] at hfold
  generalize (candidates c t).attach.foldl _ _ = s at hfold ⊢
  subst hfold
  dsimp only
  rw [hshort, if_neg (by omega), if_neg (by omega)]
  refine ⟨rfl, by rw [hnum], fun count => ?_⟩
  have hlast : r.valueTo count (r.ops - 1) = some (v count) := by rw [hnum, hvalue]
  rw [Nat.add_sub_cancel, ← hnum, ← valueTo_update 0 (by omega : 1 ≤ r.ops) hlast (hcoeffs count)]
  refine valueTo_congr (fun j hj => if_pos ?_) fun j hj => if_pos ?_
  · exact Nat.lt_succ_of_le hj
  · exact Nat.lt_succ_of_le hj

theorem factorFrom_skip {t : BitVec w} {k i : Nat} (hi : k + i < w) (hk : 1 ≤ k)
    (hno : ∀ m, k < m → m < w → t.toNat % (2 ^ m + 1) ≠ 0 ∧ t.toNat % (2 ^ m - 1) ≠ 0) :
    factorFrom c t (k + i) = factorFrom c t k := by
  induction i with
  | zero => rfl
  | succ i ih =>
    obtain ⟨m, hm⟩ : ∃ m, k + i = m + 1 := ⟨k + i - 1, by omega⟩
    obtain ⟨hplus, hminus⟩ := @factor_toNat w m (by omega)
    obtain ⟨hplus', hminus'⟩ := hno (m + 2) (by omega) (by omega)
    rw [← Nat.add_assoc, hm, factorFrom, if_neg, if_neg, ← hm]
    · exact ih (by omega)
    · rintro ⟨hdvd, -⟩
      refine hminus' ?_
      rw [← hminus, ← BitVec.toNat_umod, hdvd]
      rfl
    · rintro ⟨hdvd, -⟩
      refine hplus' ?_
      rw [← hplus, ← BitVec.toNat_umod, hdvd]
      rfl

/-- `2 ** w - 1` has no factor `2 ** m + 1` or `2 ** m - 1` beyond the middle. -/
theorem allOnes_no_factor {m r : Nat} (hr : r < m) (hpos : 1 ≤ r) :
    (2 ^ (m + r) - 1) % (2 ^ m + 1) ≠ 0 ∧ (2 ^ (m + r) - 1) % (2 ^ m - 1) ≠ 0 := by
  have hle : 2 ^ r * 2 ≤ 2 ^ m := by
    rw [← Nat.pow_succ]
    exact Nat.pow_le_pow_right (by decide) hr
  have htwo : 2 ≤ 2 ^ r := Nat.pow_le_pow_right (by decide : 0 < 2) hpos
  rw [Nat.pow_add]
  generalize 2 ^ m = a at hle ⊢
  obtain ⟨b, hb⟩ : ∃ b, 2 ^ r = b + 1 := ⟨2 ^ r - 1, by omega⟩
  obtain ⟨d, hd⟩ : ∃ d, a = d + 1 := ⟨a - 1, by omega⟩
  have hplus : a * 2 ^ r - 1 = a - 2 ^ r + (a + 1) * b := by
    rw [hb, Nat.mul_succ, Nat.add_mul, Nat.one_mul]
    omega
  have hminus : a * 2 ^ r - 1 = 2 ^ r - 1 + (a - 1) * 2 ^ r := by
    rw [hd, Nat.add_sub_cancel, Nat.add_mul, Nat.one_mul]
    omega
  constructor
  · rw [hplus, Nat.add_mul_mod_self_left, Nat.mod_eq_of_lt (by omega)]
    omega
  · rw [hminus, Nat.add_mul_mod_self_left, Nat.mod_eq_of_lt (by omega)]
    omega

theorem exactLog2_twoPow {k : Nat} (hk : k < w) :
    exactLog2 (BitVec.twoPow w k &&& -BitVec.twoPow w k) = some k := by
  have hlow : BitVec.twoPow w k &&& -BitVec.twoPow w k = BitVec.twoPow w k := by
    apply PowerOfTwo.and_neg_eq_twoPow
    · rw [BitVec.getLsbD_twoPow]
      simp [hk]
    · intro j hj
      rw [BitVec.getLsbD_twoPow]
      simp [Nat.ne_of_gt hj]
  have hne : BitVec.twoPow w k ≠ 0 := by
    intro heq
    have hnat := congrArg BitVec.toNat heq
    rw [BitVec.toNat_twoPow_of_lt hk] at hnat
    exact Nat.two_pow_pos k |>.ne' hnat
  rw [hlow, exactLog2, if_neg, BitVec.toNat_twoPow_of_lt hk, floorLog2_two_pow]
  rw [not_or, not_not]
  exact ⟨hne, hlow.symm⟩

/-- `2 ** k - 1` is found as a shift by `k` and a subtraction. -/
theorem freeFor_ones {k a : Nat} {t : BitVec w} (ha : a ≤ 32767) (hk : 2 ≤ k) (hkw : k < w)
    (ht : t.toNat = 2 ^ k - 1) :
    FreeFor (freeCosts k a) stack a t 2 fun count => 2 ^ count k * 1 + -1 := by
  have hfour : 4 ≤ 2 ^ k := Nat.pow_le_pow_right (by decide : 0 < 2) hk
  have heven : 2 ^ k % 2 = 0 := by
    obtain ⟨j, rfl⟩ : ∃ j, k = j + 1 := ⟨k - 1, by omega⟩
    rw [Nat.pow_succ, Nat.mul_mod_left]
  have hzero : t ≠ 0 := by
    rintro rfl
    rw [show (0 : BitVec w).toNat = 0 from BitVec.toNat_zero] at ht
    omega
  have hnat := toNat_one_of_ne_zero hzero
  have hone : t ≠ 1 := by
    rintro rfl
    omega
  have hodd : t &&& 1 ≠ 0 := by
    rw [Ne, and_one_eq_zero_iff hzero]
    omega
  have hnext : t + 1 = BitVec.twoPow w k := by
    apply BitVec.eq_of_toNat_eq
    have hlt : 2 ^ k < 2 ^ w := Nat.pow_lt_pow_right (by decide) hkw
    rw [BitVec.toNat_add, hnat, ht, BitVec.toNat_twoPow_of_lt hkw, Nat.sub_add_cancel (by omega),
      Nat.mod_eq_of_lt hlt]
  have hrest : BitVec.twoPow w k >>> k = 1 := by
    apply BitVec.eq_of_toNat_eq
    rw [BitVec.toNat_ushiftRight, BitVec.toNat_twoPow_of_lt hkw, Nat.shiftRight_eq_div_pow,
      Nat.div_self (by omega), hnat]
  have hsub : shiftSub (freeCosts k a) t = some ⟨.subT2M, k, 0, 1⟩ := by
    rw [shiftSub, if_pos hodd, hnext, exactLog2_twoPow hkw, Option.map_some, hrest]
    simp [freeCosts]
  have hcand : candidates (freeCosts k a) t = ((lowZeros (freeCosts k a) t).toList ++
      (addOrSubOne (freeCosts k a) t).toList ++ (factor (freeCosts k a) t).toList ++
      (shiftAdd (freeCosts k a) t).toList) ++ ⟨.subT2M, k, 0, 1⟩ :: [] := by
    rw [candidates, hsub]
    rfl
  refine FreeFor.extend ha freeFor_one (le_refl 1) (by decide) hzero hone hcand (fun x hx => ?_) rfl
    fun _ => rfl
  refine freeCosts_derives (by omega) (candidates_derive hzero (hcand ▸ List.mem_append_left _ hx)) ?_
  simp only [List.mem_append, Option.mem_toList] at hx
  obtain ((hx | hx) | hx) | hx := hx
  · rw [lowZeros, if_neg hodd] at hx
    cases hx
  · rw [addOrSubOne, if_pos hodd] at hx
    dsimp only at hx
    split at hx
    · cases hx
      dsimp only
      omega
    · cases hx
      dsimp only
      omega
  · have hlog := factorFrom_log_le hx
    have hpred := toNat_sub_one hzero
    have hsize : (t - 1).toNat.size ≤ k := Nat.size_le.2 (by omega)
    rw [floorLog2] at hlog
    omega
  · rw [shiftAdd, if_pos hodd] at hx
    obtain ⟨m, hm, rfl⟩ := Option.map_eq_some_iff.1 hx
    dsimp only
    rintro rfl
    have hlow := (exactLog2_low hm).2
    have hpred := toNat_sub_one hzero
    obtain hquot | hquot : ((t - 1) >>> m).toNat = 0 ∨ 1 ≤ ((t - 1) >>> m).toNat := by omega
    · rw [hquot] at hlow
      omega
    · have hle := Nat.mul_le_mul_right (2 ^ m) hquot
      omega

/-- `2 ** w - 1` is then found as a product with `2 ** k + 1`, where `k` is half of `w`. -/
theorem freeFor_allOnes {k a : Nat} (ha : a ≤ 32767) (hk : 2 ≤ k) (hw : w = k + k) :
    FreeFor (freeCosts k a) stack a (-1 : BitVec w) 3
      fun count => (2 ^ count k + 1) * (2 ^ count k * 1 + -1) + 0 := by
  have hfour : 4 ≤ 2 ^ k := Nat.pow_le_pow_right (by decide : 0 < 2) hk
  have hpow : 2 ^ w = 2 ^ k * 2 ^ k := by rw [hw, Nat.pow_add]
  have hge : 2 ^ k * 4 ≤ 2 ^ k * 2 ^ k := Nat.mul_le_mul_left _ hfour
  have hnat : (1 : BitVec w).toNat = 1 := BitVec.toNat_one (by omega)
  have ht : (-1 : BitVec w).toNat = 2 ^ w - 1 := by
    rw [BitVec.toNat_neg, hnat, Nat.mod_eq_of_lt (by omega)]
  have hzero : (-1 : BitVec w) ≠ 0 := by
    intro heq
    rw [heq, show (0 : BitVec w).toNat = 0 from BitVec.toNat_zero] at ht
    omega
  have hone : (-1 : BitVec w) ≠ 1 := by
    intro heq
    rw [heq, hnat] at ht
    omega
  have hodd : (-1 : BitVec w) &&& 1 ≠ 0 := by
    rw [Ne, and_one_eq_zero_iff hzero]
    have heven : 2 ^ w % 2 = 0 := by
      obtain ⟨j, rfl⟩ : ∃ j, w = j + 1 := ⟨w - 1, by omega⟩
      rw [Nat.pow_succ, Nat.mul_mod_left]
    omega
  have hprod : 2 ^ w - 1 = (2 ^ k - 1) * (2 ^ k + 1) := by
    rw [hpow, Nat.mul_add, Nat.mul_one, Nat.sub_mul, Nat.one_mul]
    omega
  obtain ⟨j, hj⟩ : ∃ j, k = j + 2 := ⟨k - 2, by omega⟩
  obtain ⟨hplus, -⟩ := @factor_toNat w j (by omega)
  rw [← hj] at hplus
  have hfactor : factor (freeCosts k a) (-1 : BitVec w) =
      some ⟨.addFactor, k, 0, (-1 : BitVec w) / ((1 : BitVec w) <<< k + 1)⟩ := by
    have hlog : floorLog2 ((-1 : BitVec w) - 1).toNat = k + (k - 1) := by
      have hpred := toNat_sub_one hzero
      have hle : (-1 - 1 : BitVec w).toNat.size ≤ w := Nat.size_le.2 (BitVec.isLt _)
      have hlt : w - 1 < (-1 - 1 : BitVec w).toNat.size := by
        rw [Nat.lt_size]
        have hhalf : 2 ^ w = 2 * 2 ^ (w - 1) := by
          rw [← Nat.pow_succ']
          congr 1
          omega
        omega
      rw [floorLog2]
      omega
    rw [factor, hlog, factorFrom_skip (by omega) (by omega)]
    · rw [hj, factorFrom, ← hj, if_pos]
      · simp [freeCosts]
      · constructor
        · apply BitVec.eq_of_toNat_eq
          rw [BitVec.toNat_umod, ht, hplus, hprod, Nat.mul_mod_left]
          rfl
        · rw [BitVec.lt_def, hplus, ht]
          omega
    · intro m hkm hmw
      obtain ⟨r, hr⟩ : ∃ r, w = m + r := ⟨w - m, by omega⟩
      rw [ht, hr]
      exact allOnes_no_factor (by omega) (by omega)
  have hrest : ((-1 : BitVec w) / ((1 : BitVec w) <<< k + 1)).toNat = 2 ^ k - 1 := by
    rw [BitVec.toNat_udiv, ht, hplus, hprod, Nat.mul_div_cancel _ (by omega)]
  have hcand : candidates (freeCosts k a) (-1 : BitVec w) = ((lowZeros (freeCosts k a) (-1 : BitVec w)).toList ++
      (addOrSubOne (freeCosts k a) (-1 : BitVec w)).toList) ++
      ⟨.addFactor, k, 0, (-1 : BitVec w) / ((1 : BitVec w) <<< k + 1)⟩ ::
        ((shiftAdd (freeCosts k a) (-1 : BitVec w)).toList ++ (shiftSub (freeCosts k a) (-1 : BitVec w)).toList) := by
    rw [candidates, hfactor]
    simp
  refine FreeFor.extend ha (freeFor_ones ha hk (by omega) hrest) (by decide) (by decide) hzero hone hcand
    (fun x hx => ?_) rfl fun _ => rfl
  refine freeCosts_derives (by omega) (candidates_derive hzero (hcand ▸ List.mem_append_left _ hx)) ?_
  simp only [List.mem_append, Option.mem_toList] at hx
  obtain hx | hx := hx
  · rw [lowZeros, if_neg hodd] at hx
    cases hx
  · rw [addOrSubOne, if_pos hodd] at hx
    dsimp only at hx
    split at hx
    · cases hx
      dsimp only
      omega
    · cases hx
      dsimp only
      omega

end Free

section Expand

variable {h : Host} {c : MultCosts} {stack : BitVec h.bits → Int → Algorithm × Algorithm}

/-- Zero is right in a wide mode while the sequence for it, or the insn, costs no more than an addition. -/
theorem expandMult_zero_right (alg alg2 : Algorithm) {hostBitsPerInt n cost : Nat} (op0 : BitVec n)
    (hint : hostBitsPerInt ≤ h.bits) (hn : h.bits < n) (hshort : min (12 * c.addCost) cost ≤ 32767)
    (hcheap : min c.zeroCost (min (12 * c.addCost) cost) ≤ c.addCost) :
    expandMult c stack alg alg2 hostBitsPerInt op0 0 cost = .multInsn ∨
      expandMult c stack alg alg2 hostBitsPerInt op0 0 cost =
        .seq (BitVec.ofInt n (0 : BitVec h.bits).toInt * op0) := by
  obtain ⟨m, hm⟩ : ∃ m, m = min (12 * c.addCost) cost := ⟨_, rfl⟩
  rw [← hm] at hshort hcheap
  have hneg : ¬(hostBitsPerInt < n ∧ (0 : BitVec h.bits).toInt < 0) := by simp
  have hshort' : toShort m = m := toShort_eq (by omega) (by omega)
  have hwide := h.wide
  have hne : (0 : BitVec h.bits) ≠ 1 := zero_ne_one_of_pos (by omega)
  unfold expandMult
  rw [if_neg hneg]
  dsimp only
  rw [← hm]
  obtain ⟨r, hr⟩ : ∃ r, r = synthMult c stack alg (0 : BitVec h.bits) m := ⟨_, rfl⟩
  have hkeeps : ∀ (hle : r.cost ≤ m) (hadd : r.cost ≤ c.addCost),
      (chooseVariant c stack alg alg2 hostBitsPerInt n (0 : BitVec h.bits) m).alg = r ∧
        (chooseVariant c stack alg alg2 hostBitsPerInt n (0 : BitVec h.bits) m).variant = .basic := by
    intro hle hadd
    unfold chooseVariant
    dsimp only
    rw [if_neg (by omega), ← hr]
    exact tryVariant_keeps hle hadd
  rw [synthMult, dif_neg hne, dif_pos rfl] at hr
  split at hr
  · obtain ⟨halg, -⟩ := hkeeps (by rw [hr]; dsimp only; omega) (by rw [hr]; dsimp only; omega)
    rw [halg, hr, if_neg (by dsimp only; omega)]
    exact .inl rfl
  · split at hr
    · obtain ⟨halg, -⟩ := hkeeps (by rw [hr]; dsimp only; omega) (by rw [hr]; dsimp only; omega)
      rw [halg, hr, if_neg (by dsimp only; omega)]
      exact .inl rfl
    · have hzero : toShort c.zeroCost = c.zeroCost := toShort_eq (by omega) (by omega)
      obtain ⟨halg, hvariant⟩ := hkeeps (by rw [hr]; dsimp only; omega) (by rw [hr]; dsimp only; omega)
      rw [halg, hvariant, hr, if_pos (by dsimp only; omega)]
      right
      simp [Algorithm.emit, Algorithm.run, Algorithm.runTo, MultVariant.finish]

/-- In a wide mode the add variant takes `2 ** w - 1` for the number before zero. -/
theorem expandMult_zero_wrong {hostBitsPerInt n cost : Nat} (hint : hostBitsPerInt ≤ h.bits) (hn : h.bits < n)
    (hcost : 2 ≤ cost) (hshort : cost ≤ 32767) (alg alg2 : Algorithm) (op0 : BitVec n) :
    expandMult (freeCosts (h.bits / 2) (cost - 1)) stack alg alg2 hostBitsPerInt op0 (0 : BitVec h.bits) cost =
      .seq (BitVec.twoPow n h.bits * op0) := by
  have hwide := h.wide
  have heven := h.even
  obtain ⟨c, hc⟩ : ∃ c, c = freeCosts (h.bits / 2) (cost - 1) := ⟨_, rfl⟩
  have hadd : c.addCost = cost - 1 := by rw [hc]; rfl
  have hzero : c.zeroCost = 40000 := by rw [hc]; rfl
  have hneg : ¬(hostBitsPerInt < n ∧ (0 : BitVec h.bits).toInt < 0) := by simp
  have hshort' : toShort cost = cost := toShort_eq (by omega) (by omega)
  have hne : (0 : BitVec h.bits) ≠ 1 := zero_ne_one_of_pos (by omega)
  obtain ⟨hfree, hops, hvalue⟩ := @freeFor_allOnes h.bits stack (h.bits / 2) (cost - 1) (by omega) (by omega)
    (by omega) alg2 1 (by omega) (by omega)
  have hbasic : synthMult c stack alg (0 : BitVec h.bits) cost = { alg with cost := cost } := by
    rw [synthMult, if_neg (by omega), dif_neg hne, dif_pos rfl, if_pos (by omega), hshort']
  rw [← hc] at hfree hops hvalue ⊢
  have hlimit : (if (cost : Int) < cost then (cost : Int) else cost) - c.addCost = 1 := by
    rw [if_neg (lt_irrefl _)]
    omega
  have hchosen : chooseVariant c stack alg alg2 hostBitsPerInt n (0 : BitVec h.bits) cost =
      ⟨synthMult c stack alg2 (-1) 1, synthMult c stack alg2 (-1) 1, .add⟩ := by
    unfold chooseVariant
    dsimp only
    rw [if_neg (by omega : ¬n ≤ hostBitsPerInt), hbasic]
    unfold MultChoice.tryVariant
    dsimp only
    rw [hlimit, zero_sub, hfree, if_pos (by omega)]
  have hmin : min (12 * c.addCost) cost = cost := by omega
  have hprod : (2 ^ (h.bits / 2) + 1) * (2 ^ (h.bits / 2) * 1 + -1) + 0 = (2 : Int) ^ h.bits - 1 := by
    have hhalf : (2 : Int) ^ h.bits = 2 ^ (h.bits / 2) * 2 ^ (h.bits / 2) := by
      rw [← pow_add, ← two_mul, Nat.mul_div_cancel' (Nat.dvd_of_mod_eq_zero heven)]
    rw [hhalf]
    ring
  have hcast : ∀ m : Nat, ((2 ^ h.bits - 1 : Int) : BitVec m) = 2 ^ h.bits - 1 := by
    intro m
    push_cast
    rfl
  have hcount : truncatedCount n (h.bits / 2) = h.bits / 2 := truncatedCount_of_lt (by omega)
  have hemit := hvalue (truncatedCount n)
  have hrun := hvalue id
  dsimp only at hemit hrun
  rw [hcount, hprod] at hemit
  rw [id_eq, hprod] at hrun
  unfold expandMult
  rw [if_neg hneg, hmin]
  dsimp only
  rw [hchosen]
  dsimp only
  rw [hfree, if_pos (by omega), emit_eq, run_eq, hops, hemit, hrun, Option.map_some, Option.map_some]
  dsimp only
  rw [hcast, hcast, MultVariant.finish, MultVariant.finish, InverseTo.two_pow_eq_zero (le_refl _), if_neg]
  · have hpow : BitVec.twoPow n h.bits = 2 ^ h.bits := by
      rw [← mul_one (2 ^ h.bits), mul_comm, ← shiftLeft_eq_mul, BitVec.twoPow]
      rfl
    rw [hpow, sub_mul, one_mul, sub_add_cancel]
  · simp

theorem expandMult_one_right (alg alg2 : Algorithm) {hostBitsPerInt n cost : Nat} (op0 : BitVec n) :
    expandMult c stack alg alg2 hostBitsPerInt op0 1 cost = .multInsn ∨
      expandMult c stack alg alg2 hostBitsPerInt op0 1 cost =
        .seq (BitVec.ofInt n (1 : BitVec h.bits).toInt * op0) := by
  have hwide := h.wide
  have hone : (1 : BitVec h.bits).toInt = 1 := BitVec.toInt_one (by omega)
  obtain ⟨m, hm⟩ : ∃ m, m = min (12 * c.addCost) cost := ⟨_, rfl⟩
  unfold expandMult
  rw [if_neg (by omega)]
  dsimp only
  rw [← hm]
  obtain ⟨r, hr⟩ : ∃ r, synthMult c stack alg (1 : BitVec h.bits) m = r := ⟨_, rfl⟩
  obtain hzero | hpos := Nat.eq_zero_or_pos m
  · have hcost : r.cost = 0 := by
      rw [← hr, synthMult, if_pos (by omega), hzero]
      rfl
    obtain ⟨halg, -⟩ := @chooseVariant_keeps h c stack alg alg2 r hostBitsPerInt n 1 m hr (by omega) (by omega)
      (by omega)
    rw [halg, if_neg (by omega)]
    exact .inl rfl
  · obtain ⟨hcost, -⟩ := @synthMult_one h.bits c stack alg m (by omega)
    rw [hr] at hcost
    obtain ⟨halg, hvariant⟩ := @chooseVariant_keeps h c stack alg alg2 r hostBitsPerInt n 1 m hr (by omega)
      (by omega) (by omega)
    obtain ⟨-, hops, hvalue⟩ := @freeFor_one h.bits c stack m alg m (by omega) (le_refl _)
    rw [hr] at hops hvalue
    rw [halg, hvariant, if_pos (by omega), emit_eq, run_eq, hops, hvalue, hvalue, hone]
    right
    simp [MultVariant.finish]

/-- In a mode narrower than a host word the shift by the size of the mode is none, and a multiplication by
minus one that is not sign-extended gives zero. -/
theorem expandMult_ones_wrong {hostBitsPerInt n cost : Nat} {val : BitVec h.bits} (hn : n < h.bits) (htwo : 2 ≤ n)
    (hval : val.toNat = 2 ^ n - 1) (hpos : 1 ≤ cost) (hshort : cost ≤ 32767) (alg alg2 : Algorithm)
    (op0 : BitVec n) :
    expandMult (freeCosts n cost) stack alg alg2 hostBitsPerInt op0 val cost = .seq 0 := by
  have hpow : (2 : Nat) ^ n * 2 ≤ 2 ^ h.bits := by
    rw [← Nat.pow_succ]
    exact Nat.pow_le_pow_right (by decide) hn
  have hint : val.toInt = 2 ^ n - 1 := by
    have hone := Nat.two_pow_pos n
    rw [BitVec.toInt_eq_toNat_cond, if_pos (by omega), hval, Nat.cast_sub hone]
    push_cast
    rfl
  have hnonneg : ¬(hostBitsPerInt < n ∧ val.toInt < 0) := by
    have hone : (0 : Int) < 2 ^ n := Int.pow_pos (by decide)
    omega
  have hadd : (freeCosts n cost).addCost = cost := rfl
  have hmin : min (12 * (freeCosts n cost).addCost) cost = cost := by omega
  obtain ⟨hfree, hops, hvalue⟩ := @freeFor_ones h.bits stack n cost val hshort htwo hn hval alg cost (by omega)
    (le_refl _)
  obtain ⟨r, hr⟩ : ∃ r, synthMult (freeCosts n cost) stack alg val cost = r := ⟨_, rfl⟩
  rw [hr] at hfree hops hvalue
  obtain ⟨halg, hvariant⟩ := @chooseVariant_keeps h (freeCosts n cost) stack alg alg2 r hostBitsPerInt n val cost
    hr (by omega) (by omega) (by omega)
  have hcount : truncatedCount n n = 0 := by
    unfold truncatedCount
    rw [if_pos (le_refl n), Nat.mod_self]
  have hself : ((2 ^ n * 1 + -1 : Int) : BitVec h.bits) = val := by
    rw [mul_one, ← sub_eq_add_neg, ← hint]
    exact BitVec.ofInt_toInt
  have hemit := hvalue (truncatedCount n)
  have hrun := hvalue id
  dsimp only at hemit hrun
  rw [hcount] at hemit
  rw [id_eq] at hrun
  unfold expandMult
  rw [if_neg hnonneg, hmin]
  dsimp only
  rw [halg, hvariant, if_pos (by omega), emit_eq, run_eq, hops, hemit, hrun]
  simp only [Option.map_some]
  rw [hself, mul_one, if_neg (by simp [MultVariant.finish])]
  simp [MultVariant.finish]

end Expand

end Zero

section Results

/-- What is promised of `synth_mult`: below the limit the sequence multiplies, and its cost is that of its
steps. -/
def SynthRight {w : Nat} (c : MultCosts) (stack : BitVec w → Int → Algorithm × Algorithm) (algOut : Algorithm)
    (t : BitVec w) (limit : Int) : Prop :=
  (synthMult c stack algOut t limit).cost < limit →
    (∀ x : BitVec w, (synthMult c stack algOut t limit).run x = some (t * x)) ∧
      (synthMult c stack algOut t limit).cost = (synthMult c stack algOut t limit).sumCost c

/-- What is promised of `expand_mult` for a constant: a multiplication insn, or a sequence that multiplies. -/
def ExpandRight {h : Host} (c : MultCosts) (stack : BitVec h.bits → Int → Algorithm × Algorithm)
    (alg alg2 : Algorithm) (hostBitsPerInt : Nat) {n : Nat} (op0 : BitVec n) (val : BitVec h.bits)
    (cost : Nat) : Prop :=
  expandMult c stack alg alg2 hostBitsPerInt op0 val cost = .multInsn ∨
    expandMult c stack alg alg2 hostBitsPerInt op0 val cost = .seq (BitVec.ofInt n val.toInt * op0)

theorem synthRight_of_short {w : Nat} (hw : 2 ≤ w) {c : MultCosts}
    {stack : BitVec w → Int → Algorithm × Algorithm} {algOut : Algorithm} {t : BitVec w} {limit : Int}
    (hlimit : limit ≤ 32767) : SynthRight c stack algOut t limit := by
  intro hcost
  obtain ⟨hfail, -⟩ | ⟨-, hmult⟩ := @synthMult_answer w c stack hw algOut t limit hlimit
  · omega
  · obtain ⟨v, cost, hv, hmakes, -⟩ := hmult.made id
    obtain ⟨⟨k, hk⟩, -⟩ := hmakes.standsFor hw fun _ _ => rfl
    refine ⟨fun x => ?_, hmult.cost⟩
    have hcast : (v : BitVec w) = t := by
      rw [hk]
      push_cast
      rw [InverseTo.two_pow_eq_zero (le_refl w), zero_mul, add_zero, BitVec.natCast_eq_ofNat,
        BitVec.ofNat_toNat, BitVec.setWidth_eq]
    rw [run_eq, hv, Option.map_some, hcast]

/-- `expand_mult` keeps its promise for all tables. -/
def ExpandAlways {h : Host} (hostBitsPerInt n cost : Nat) (val : BitVec h.bits) : Prop :=
  ∀ c stack alg alg2 (op0 : BitVec n), ExpandRight c stack alg alg2 hostBitsPerInt op0 val cost

/-- What the cost and the constant have to be for that. -/
def ExpandLimits {h : Host} (hostBitsPerInt n cost : Nat) (val : BitVec h.bits) : Prop :=
  cost ≤ 32767 ∧ (n ≤ h.bits ∨ val ≠ 0 ∨ cost ≤ 1) ∨ val = 1 ∨ hostBitsPerInt < n ∧ val.toInt < 0

section ExpandMult

variable {h : Host} {hostBitsPerInt n cost : Nat} {val : BitVec h.bits}

theorem expandRight_of_fit {c : MultCosts} (hint : hostBitsPerInt ≤ h.bits)
    (hshort : min (12 * c.addCost) cost ≤ 32767)
    (hmode : n ≤ h.bits ∨ val ≠ 0 ∨ min c.zeroCost (min (12 * c.addCost) cost) ≤ c.addCost)
    (hfit : h.bits ≤ n ∨ val = 1 ∨ SequencesFit c hostBitsPerInt n val (min (12 * c.addCost) cost : Nat))
    (stack : BitVec h.bits → Int → Algorithm × Algorithm) (alg alg2 : Algorithm) (op0 : BitVec n) :
    ExpandRight c stack alg alg2 hostBitsPerInt op0 val cost := by
  by_cases hone : val = 1
  · subst hone
    exact expandMult_one_right alg alg2 op0
  by_cases hdomain : n ≤ h.bits ∨ val ≠ 0
  · exact expandMult_right alg alg2 op0 hint (.inl hshort) hdomain (hfit.imp id fun h => h.resolve_left hone)
  · rw [not_or, not_not] at hdomain
    obtain ⟨hn, rfl⟩ := hdomain
    exact expandMult_zero_right alg alg2 op0 hint (by omega) hshort
      ((hmode.resolve_left hn).resolve_left fun hne => hne rfl)

/-- Where no sequence fits, only the insn is right. -/
theorem multInsn_of_misfit {c : MultCosts} (hshort : min (12 * c.addCost) cost ≤ 32767)
    (hmisfit : SequencesMisfit c hostBitsPerInt n val (min (12 * c.addCost) cost : Nat))
    {stack : BitVec h.bits → Int → Algorithm × Algorithm} {alg alg2 : Algorithm}
    (hright : ∀ op0 : BitVec n, ExpandRight c stack alg alg2 hostBitsPerInt op0 val cost) (op0 : BitVec n) :
    expandMult c stack alg alg2 hostBitsPerInt op0 val cost = .multInsn := by
  obtain hinsn | ⟨-, variant, v, hafford, hseq⟩ :=
    @expandMult_made h c stack alg alg2 hostBitsPerInt n cost val (.inl hshort)
  · exact hinsn op0
  · exfalso
    refine hmisfit variant v hafford ?_
    obtain hinsn | hprod := hright 1
    · exact absurd (hinsn.symm.trans (hseq 1)) fun h => by cases h
    · have heq := (hseq 1).symm.trans hprod
      rw [mul_one, mul_one, MultExpansion.seq.injEq] at heq
      exact heq

theorem expandLimits_of_always (hint : hostBitsPerInt ≤ h.bits)
    (hall : ExpandAlways hostBitsPerInt n cost val) : ExpandLimits hostBitsPerInt n cost val := by
  have hwide := h.wide
  by_contra hno
  unfold ExpandLimits at hno
  rw [not_or, not_or] at hno
  obtain ⟨hcost, hval, hneg⟩ := hno
  by_cases hshort : cost ≤ 32767
  · -- zero in a wide mode
    obtain ⟨hn, hzero, hdear⟩ : ¬n ≤ h.bits ∧ ¬val ≠ 0 ∧ ¬cost ≤ 1 := by
      refine ⟨fun hn => hcost ⟨hshort, .inl hn⟩, fun hne => hcost ⟨hshort, .inr (.inl hne)⟩,
        fun hle => hcost ⟨hshort, .inr (.inr hle)⟩⟩
    obtain rfl := not_not.1 hzero
    have hwrong := @expandMult_zero_wrong h (fun _ _ => (uninitialised, uninitialised)) hostBitsPerInt n cost hint
      (by omega) (by omega) hshort uninitialised uninitialised 1
    obtain hinsn | hseq := hall (freeCosts (h.bits / 2) (cost - 1)) (fun _ _ => (uninitialised, uninitialised))
      uninitialised uninitialised 1
    · rw [hwrong] at hinsn
      cases hinsn
    · rw [hwrong, mul_one, mul_one, MultExpansion.seq.injEq] at hseq
      have hnat := congrArg BitVec.toNat hseq
      rw [BitVec.toNat_twoPow_of_lt (by omega)] at hnat
      simp at hnat
  · have habort := @expandMult_abort h hostBitsPerInt n cost 0 val (by omega) hval hneg
    obtain hinsn | hseq := hall dearCosts (fun _ _ => (uninitialised, uninitialised)) uninitialised
      uninitialised 0
    · rw [habort] at hinsn
      cases hinsn
    · rw [habort] at hseq
      cases hseq

theorem expandAlways_of_limits (hint : hostBitsPerInt ≤ h.bits) (hn : h.bits ≤ n ∨ val = 1)
    (hcond : ExpandLimits hostBitsPerInt n cost val) : ExpandAlways hostBitsPerInt n cost val := by
  intro c stack alg alg2 op0
  by_cases hone : val = 1
  · subst hone
    exact expandMult_one_right alg alg2 op0
  · obtain ⟨hcost, hmode⟩ | hval | hneg := hcond
    · refine expandRight_of_fit hint (by omega) (hmode.imp id fun h => h.imp id fun hle => ?_)
        (.inl (hn.resolve_right hone)) stack alg alg2 op0
      omega
    · exact absurd hval hone
    · exact .inl (if_pos hneg)

/-- Minus one that is not sign-extended, in a narrow mode. -/
theorem expandAlways_ones_iff (hint : hostBitsPerInt ≤ h.bits) (hn : n < h.bits) (htwo : 2 ≤ n) (hval : val.toNat = 2 ^ n - 1) :
    ExpandAlways hostBitsPerInt n cost val ↔ cost = 0 := by
  have hpow : (2 : Nat) ^ n * 2 ≤ 2 ^ h.bits := by
    rw [← Nat.pow_succ]
    exact Nat.pow_le_pow_right (by decide) hn
  have hfour : 4 ≤ 2 ^ n := Nat.pow_le_pow_right (by decide : 0 < 2) htwo
  have hnonneg : ¬val.toInt < 0 := by
    rw [BitVec.toInt_eq_toNat_cond, if_pos (by omega)]
    omega
  constructor
  · intro hall
    by_contra hpos
    by_cases hshort : cost ≤ 32767
    · obtain hinsn | hseq := hall (freeCosts n cost) (fun _ _ => (uninitialised, uninitialised)) uninitialised
        uninitialised 1
      · rw [expandMult_ones_wrong hn htwo hval (by omega) hshort] at hinsn
        cases hinsn
      · rw [expandMult_ones_wrong hn htwo hval (by omega) hshort, mul_one, MultExpansion.seq.injEq] at hseq
        have hnat := congrArg BitVec.toNat hseq
        rw [BitVec.toInt_eq_toNat_cond, if_pos (by omega), BitVec.ofInt_natCast, BitVec.toNat_ofNat, hval,
          Nat.mod_eq_of_lt (by omega)] at hnat
        simp at hnat
        omega
    · have hone : val ≠ 1 := by
        rintro rfl
        rw [show (1 : BitVec h.bits).toNat = 1 from BitVec.toNat_one (by omega)] at hval
        omega
      have habort := @expandMult_abort h hostBitsPerInt n cost 0 val (by omega) hone fun h => hnonneg h.2
      obtain hinsn | hseq := hall dearCosts (fun _ _ => (uninitialised, uninitialised)) uninitialised
        uninitialised 0
      · rw [habort] at hinsn
        cases hinsn
      · rw [habort] at hseq
        cases hseq
  · rintro rfl c stack alg alg2 op0
    refine expandRight_of_fit hint (by omega) (.inl hn.le) (.inr (.inr ?_)) stack alg alg2 op0
    rintro variant v ⟨cost, -, hle, -⟩
    omega

end ExpandMult

end Results

end Z80Gcc
