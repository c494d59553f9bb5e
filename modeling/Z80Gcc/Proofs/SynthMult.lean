import Mathlib.Tactic.Ring
import Mathlib.Tactic.LinearCombination
import Z80Gcc.Lib.InverseMod
import Z80Gcc.Spec.SynthMult

/-! The sequence that `synth_mult` finds multiplies by its constant, and so do the variants of
`expand_mult`. -/

namespace Z80Gcc

section Values

variable {n : Nat} {c : MultCosts} {shift : BitVec n → Nat → BitVec n} {count : Nat → Nat}

/-- A step takes `v` times the operand to `a * v + b` times the operand. -/
def AlgCode.coeffs (op : AlgCode) (log : Nat) : Option (Int × Int) :=
  match op with
  | .shift => some (2 ^ log, 0)
  | .addTM2 => some (1, 2 ^ log)
  | .subTM2 => some (1, -2 ^ log)
  | .addT2M => some (2 ^ log, 1)
  | .subT2M => some (2 ^ log, -1)
  | .addFactor => some (2 ^ log + 1, 0)
  | .subFactor => some (2 ^ log - 1, 0)
  | .zero | .m => none

/-- What a step costs. -/
def AlgCode.cost (c : MultCosts) (op : AlgCode) (log : Nat) : Nat :=
  match op with
  | .zero => c.zeroCost
  | .m => 0
  | .shift => c.shiftCost log
  | .addTM2 | .subTM2 => c.addCost
  | .addT2M => c.shiftaddCost log
  | .subT2M => c.shiftsubCost log
  | .addFactor => min (c.shiftaddCost log) (c.addCost + c.shiftCost log)
  | .subFactor => min (c.shiftsubCost log) (c.addCost + c.shiftCost log)

theorem shiftLeft_eq_mul (x : BitVec n) (k : Nat) : x <<< k = x * 2 ^ k := by
  have hcast : (2 : BitVec n) ^ k = ((2 ^ k : Nat) : BitVec n) := by
    push_cast
    rfl
  have hpow : BitVec.twoPow n k = ((2 ^ k : Nat) : BitVec n) := by
    apply BitVec.eq_of_toNat_eq
    rw [BitVec.toNat_twoPow, BitVec.natCast_eq_ofNat, BitVec.toNat_ofNat]
  rw [BitVec.shiftLeft_eq_mul_twoPow, hpow, hcast]

theorem step_eq (hshift : ∀ x k, shift x k = x * 2 ^ count k) (op : AlgCode) (log : Nat) (x : BitVec n)
    (v : Int) : op.step shift log x (v * x) =
      (op.coeffs (count log)).map fun p => ((p.1 * v + p.2 : Int) : BitVec n) * x := by
  cases op with
  | zero => rfl
  | m => rfl
  | shift | addTM2 | subTM2 | addT2M | subT2M | addFactor | subFactor =>
    simp only [AlgCode.step, AlgCode.coeffs, Option.map_some, hshift, Option.some.injEq]
    push_cast
    ring

/-- The number that the sequence multiplies by, up to a place, when `count` of a logarithm is shifted by. -/
def Algorithm.valueTo (count : Nat → Nat) (alg : Algorithm) : Nat → Option Int
  | 0 =>
    match alg.op 0 with
    | .zero => some 0
    | .m => some 1
    | _ => none
  | i + 1 => (alg.valueTo count i).bind fun v =>
      ((alg.op (i + 1)).coeffs (count (alg.log (i + 1)))).map fun p => p.1 * v + p.2

theorem runTo_eq (hshift : ∀ x k, shift x k = x * 2 ^ count k) (alg : Algorithm) (x : BitVec n) (i : Nat) :
    alg.runTo shift x i = (alg.valueTo count i).map fun (v : Int) => (v : BitVec n) * x := by
  induction i with
  | zero =>
    rw [Algorithm.runTo, Algorithm.valueTo]
    cases alg.op 0 <;> simp
  | succ i ih =>
    rw [Algorithm.runTo, Algorithm.valueTo, ih]
    cases alg.valueTo count i with
    | none => rfl
    | some v =>
      rw [Option.map_some, Option.bind_some, step_eq hshift, Option.bind_some, Option.map_map]
      rfl

theorem run_eq (alg : Algorithm) (x : BitVec n) :
    alg.run x = (alg.valueTo id (alg.ops - 1)).map fun (v : Int) => (v : BitVec n) * x :=
  runTo_eq shiftLeft_eq_mul alg x _

theorem emit_eq (alg : Algorithm) (x : BitVec n) :
    alg.emit x = (alg.valueTo (truncatedCount n) (alg.ops - 1)).map fun (v : Int) => (v : BitVec n) * x :=
  @runTo_eq n expandShift (truncatedCount n) (fun y k => shiftLeft_eq_mul y (truncatedCount n k)) alg x _

theorem truncatedCount_of_lt {k : Nat} (hk : k < n) : truncatedCount n k = k := if_neg (Nat.not_le_of_lt hk)

def Algorithm.costTo (c : MultCosts) (alg : Algorithm) : Nat → Nat
  | 0 => 0
  | i + 1 => alg.costTo c i + (alg.op i).cost c (alg.log i)

/-- The sum of the costs of the steps. -/
def Algorithm.sumCost (c : MultCosts) (alg : Algorithm) : Nat := alg.costTo c alg.ops

variable {alg alg' : Algorithm}

theorem valueTo_congr {i : Nat} (hop : ∀ j ≤ i, alg'.op j = alg.op j) (hlog : ∀ j ≤ i, alg'.log j = alg.log j) :
    alg'.valueTo count i = alg.valueTo count i := by
  induction i with
  | zero => rw [Algorithm.valueTo, Algorithm.valueTo, hop 0 (le_refl 0)]
  | succ i ih =>
    rw [Algorithm.valueTo, Algorithm.valueTo, hop _ (le_refl _), hlog _ (le_refl _),
      ih (fun j hj => hop j (hj.trans (Nat.le_succ i))) fun j hj => hlog j (hj.trans (Nat.le_succ i))]

theorem costTo_congr {i : Nat} (hop : ∀ j < i, alg'.op j = alg.op j) (hlog : ∀ j < i, alg'.log j = alg.log j) :
    alg'.costTo c i = alg.costTo c i := by
  induction i with
  | zero => rfl
  | succ i ih =>
    rw [Algorithm.costTo, Algorithm.costTo, hop i (Nat.lt_succ_self i), hlog i (Nat.lt_succ_self i),
      ih (fun j hj => hop j (Nat.lt_succ_of_lt hj)) fun j hj => hlog j (Nat.lt_succ_of_lt hj)]

theorem valueTo_update {op : AlgCode} {m : Nat} {v a b : Int} (cost : Int) (hops : 1 ≤ alg.ops)
    (hv : alg.valueTo count (alg.ops - 1) = some v) (hcoeffs : op.coeffs (count m) = some (a, b)) :
    (Algorithm.mk cost (alg.ops + 1) (Function.update alg.op alg.ops op)
      (Function.update alg.log alg.ops m)).valueTo count alg.ops = some (a * v + b) := by
  have hop : ∀ j, j ≠ alg.ops → Function.update alg.op alg.ops op j = alg.op j := fun j hj =>
    Function.update_of_ne hj ..
  have hlog : ∀ j, j ≠ alg.ops → Function.update alg.log alg.ops m j = alg.log j := fun j hj =>
    Function.update_of_ne hj ..
  have hbefore : (Algorithm.mk cost (alg.ops + 1) (Function.update alg.op alg.ops op)
      (Function.update alg.log alg.ops m)).valueTo count (alg.ops - 1) = some v := by
    rw [← hv]
    exact valueTo_congr (fun j hj => hop j (by omega)) fun j hj => hlog j (by omega)
  obtain ⟨i, hi⟩ : ∃ i, alg.ops = i + 1 := ⟨alg.ops - 1, by omega⟩
  rw [hi, Nat.add_sub_cancel] at hbefore
  rw [hi, Algorithm.valueTo, hbefore]
  dsimp only
  rw [Function.update_self, Function.update_self, Option.bind_some, hcoeffs, Option.map_some]

/-- The coefficient is the number modulo `2 ^ w`, and the number itself below half of that. -/
def StandsFor (w t : Nat) (v : Int) : Prop :=
  (∃ k : Int, v = t + 2 ^ w * k) ∧ (t ≤ 2 ^ (w - 1) → v = t)

/-- A number, the cost of a sequence that the candidates allow for it, and what that sequence multiplies by
when `count` of each logarithm is shifted by. -/
inductive Makes (c : MultCosts) (count : Nat → Nat) {w : Nat} : BitVec w → Nat → Int → Prop
  | zero : Makes c count 0 c.zeroCost 0
  | m : Makes c count 1 0 1
  | step {t : BitVec w} {x : Candidate w} {cost : Nat} {v a b : Int} (hzero : t ≠ 0) (hone : t ≠ 1)
      (hx : x ∈ candidates c t) (hrest : Makes c count x.rest cost v)
      (hcoeffs : x.op.coeffs (count x.log) = some (a, b)) : Makes c count t (x.cost + cost) (a * v + b)

/-- A finished sequence for a number. -/
structure Multiplies (c : MultCosts) {w : Nat} (t : BitVec w) (alg : Algorithm) : Prop where
  ops : 1 ≤ alg.ops
  cost : alg.cost = alg.sumCost c
  made : ∀ count, ∃ v cost, alg.valueTo count (alg.ops - 1) = some v ∧ Makes c count t cost v ∧ alg.cost = (cost : Nat)

theorem Multiplies.congr {w : Nat} {t : BitVec w} (hm : Multiplies c t alg) (hops : alg'.ops = alg.ops)
    (hcost : alg'.cost = alg.cost) (hop : ∀ j < alg.ops, alg'.op j = alg.op j)
    (hlog : ∀ j < alg.ops, alg'.log j = alg.log j) : Multiplies c t alg' := by
  obtain ⟨hpos, hsum, hmade⟩ := hm
  refine ⟨hops ▸ hpos, ?_, fun count => ?_⟩
  · rw [hcost, hsum, Algorithm.sumCost, Algorithm.sumCost, hops, costTo_congr hop hlog]
  · obtain ⟨v, cost, hv, hmakes, hsame⟩ := hmade count
    refine ⟨v, cost, ?_, hmakes, hcost.trans hsame⟩
    rw [hops, valueTo_congr (fun j hj => hop j (by omega)) fun j hj => hlog j (by omega), hv]

theorem Derives.exists_coeffs {w t m cost q : Nat} {op : AlgCode} (hd : Derives c w t op m cost q) (k : Nat) :
    ∃ a b, op.coeffs k = some (a, b) := by
  cases hd <;> exact ⟨_, _, rfl⟩

/-- A way from one number to another is a step of the sequence. -/
theorem Derives.coeffs {w t m cost q : Nat} {op : AlgCode} (hw : 2 ≤ w) (hd : Derives c w t op m cost q) :
    op.cost c m = cost ∧ ∃ a b : Int, op.coeffs m = some (a, b) ∧ (∃ k : Int, a * q + b = t + 2 ^ w * k) ∧
      (t ≤ 2 ^ (w - 1) → q ≤ 2 ^ (w - 1) ∧ a * q + b = t) := by
  obtain ⟨j, rfl⟩ : ∃ j, w = j + 2 := ⟨w - 2, by omega⟩
  have hhalf : (2 : Nat) ^ (j + 2 - 1) = 2 * 2 ^ j := by
    rw [Nat.add_sub_assoc (by decide), Nat.pow_succ, Nat.mul_comm]
  have hfull : (2 : Nat) ^ (j + 2) = 4 * 2 ^ j := by ring
  have hone : 1 ≤ 2 ^ j := Nat.one_le_two_pow
  have hexact : ∀ a b : Int, a * q + b = t → q ≤ 2 ^ (j + 2 - 1) ∨ ¬ t ≤ 2 ^ (j + 2 - 1) →
      (∃ k : Int, a * q + b = t + 2 ^ (j + 2) * k) ∧
        (t ≤ 2 ^ (j + 2 - 1) → q ≤ 2 ^ (j + 2 - 1) ∧ a * q + b = t) := by
    intro a b heq hle
    exact ⟨⟨0, by rw [heq]; ring⟩, fun ht => ⟨hle.resolve_right fun hnot => hnot ht, heq⟩⟩
  cases hd with
  | shift hm ht =>
    refine ⟨rfl, _, _, rfl, hexact _ _ (by subst ht; push_cast; ring) ?_⟩
    have hle : q * 1 ≤ q * 2 ^ m := Nat.mul_le_mul_left q Nat.one_le_two_pow
    omega
  | minusOne ht =>
    refine ⟨rfl, _, _, rfl, ⟨-1, ?_⟩, fun hle => ?_⟩
    · have hcast : ((t : Int) + 1) = 2 ^ (j + 2) := by exact_mod_cast ht
      push_cast
      linear_combination -hcast
    · omega
  | subTM2 hodd ht =>
    refine ⟨rfl, _, _, rfl, hexact _ _ (by subst ht; push_cast; ring) ?_⟩
    omega
  | addTM2 hodd ht =>
    refine ⟨rfl, _, _, rfl, hexact _ _ (by subst ht; push_cast; ring) ?_⟩
    omega
  | addFactor hm ht =>
    refine ⟨rfl, _, _, rfl, hexact _ _ (by subst ht; push_cast; ring) ?_⟩
    have hle : q * 1 ≤ q * (2 ^ m + 1) := Nat.mul_le_mul_left q (Nat.le_add_left 1 _)
    omega
  | subFactor hm ht =>
    have hfour : 4 ≤ 2 ^ m := Nat.pow_le_pow_right (by decide : 0 < 2) hm
    have hcast : ((2 ^ m - 1 : Nat) : Int) = 2 ^ m - 1 := by
      rw [Nat.cast_sub (by omega)]
      push_cast
      rfl
    refine ⟨rfl, _, _, rfl, hexact _ _ (by rw [ht]; push_cast [hcast]; ring) ?_⟩
    have hle : q * 1 ≤ q * (2 ^ m - 1) := Nat.mul_le_mul_left q (by omega)
    omega
  | addT2M hodd ht =>
    refine ⟨rfl, _, _, rfl, hexact _ _ (by subst ht; push_cast; ring) ?_⟩
    have hle : q * 1 ≤ q * 2 ^ m := Nat.mul_le_mul_left q Nat.one_le_two_pow
    omega
  | subT2M hodd ht =>
    have hcast : ((t : Int) + 1) = q * 2 ^ m := by exact_mod_cast ht
    refine ⟨rfl, _, _, rfl, hexact _ _ (by linear_combination -hcast) ?_⟩
    have hle : q * 1 ≤ q * 2 ^ m := Nat.mul_le_mul_left q Nat.one_le_two_pow
    omega

theorem floorLog2_toNat_lt {w : Nat} (hw : 0 < w) (x : BitVec w) : floorLog2 x.toNat < w := by
  have hsize : x.toNat.size ≤ w := Nat.size_le.2 x.isLt
  unfold floorLog2
  omega

theorem exactLog2_lt {w m : Nat} (hw : 0 < w) {x : BitVec w} (hm : exactLog2 x = some m) : m < w := by
  unfold exactLog2 at hm
  split at hm
  · cases hm
  · cases hm
    exact floorLog2_toNat_lt hw x

theorem factorFrom_log_le {w m : Nat} {t : BitVec w} {x : Candidate w} (hx : factorFrom c t m = some x) :
    x.log ≤ m := by
  induction m with
  | zero => cases hx
  | succ m ih =>
    obtain rfl | ⟨m, rfl⟩ : m = 0 ∨ ∃ k, m = k + 1 := by
      cases m with
      | zero => exact .inl rfl
      | succ k => exact .inr ⟨k, rfl⟩
    · cases hx
    rw [factorFrom] at hx
    split at hx
    · cases hx
      exact le_refl _
    · split at hx
      · cases hx
        exact le_refl _
      · exact (ih hx).trans (Nat.le_succ _)

theorem candidates_log_lt {w : Nat} (hw : 0 < w) {t : BitVec w} {x : Candidate w} (hx : x ∈ candidates c t) :
    x.log < w := by
  simp only [candidates, List.mem_append, Option.mem_toList] at hx
  obtain (((hx | hx) | hx) | hx) | hx := hx
  · unfold lowZeros at hx
    split at hx
    · cases hx
      exact floorLog2_toNat_lt hw _
    · cases hx
  · unfold addOrSubOne at hx
    dsimp only at hx
    split at hx
    · split at hx
      · cases hx
        exact hw
      · cases hx
        exact hw
    · cases hx
  · exact (factorFrom_log_le hx).trans_lt (floorLog2_toNat_lt hw _)
  · unfold shiftAdd at hx
    split at hx
    · obtain ⟨m, hm, rfl⟩ := Option.map_eq_some_iff.1 hx
      exact exactLog2_lt hw hm
    · cases hx
  · unfold shiftSub at hx
    split at hx
    · obtain ⟨m, hm, rfl⟩ := Option.map_eq_some_iff.1 hx
      exact exactLog2_lt hw hm
    · cases hx

theorem Makes.standsFor {w cost : Nat} {t : BitVec w} {v : Int} (hw : 2 ≤ w) (hcount : ∀ k < w, count k = k)
    (hm : Makes c count t cost v) : StandsFor w t.toNat v := by
  induction hm with
  | zero => exact ⟨⟨0, by simp⟩, fun _ => by simp⟩
  | m =>
    have hnat : (1 : BitVec w).toNat = 1 := BitVec.toNat_one (by omega)
    rw [hnat]
    exact ⟨⟨0, by simp⟩, fun _ => rfl⟩
  | step hzero hone hx hrest hcoeffs ih =>
    obtain ⟨⟨k, hk⟩, hexact⟩ := ih
    obtain ⟨-, a', b', hcoeffs', ⟨k', hk'⟩, hnext⟩ := (candidates_derive hzero hx).coeffs hw
    rw [hcount _ (candidates_log_lt (by omega) hx), hcoeffs', Option.some.injEq, Prod.mk.injEq] at hcoeffs
    obtain ⟨rfl, rfl⟩ := hcoeffs
    refine ⟨⟨a' * k + k', ?_⟩, fun ht => ?_⟩
    · rw [hk]
      linear_combination hk'
    · obtain ⟨hle, heq⟩ := hnext ht
      rw [hexact hle, heq]

/-- Numbers below `2 ** n - 1` are made from such numbers, with logarithms below `n`. -/
theorem Derives.small {w t m cost q : Nat} {op : AlgCode} (hd : Derives c w t op m cost q) (hn : n < w)
    (hzero : t ≠ 0) (hone : t ≠ 1) (ht : t + 2 ≤ 2 ^ n) : m < n ∧ q + 2 ≤ 2 ^ n := by
  have hpos : 0 < n := by
    by_contra hno
    obtain rfl : n = 0 := by omega
    rw [Nat.pow_zero] at ht
    omega
  have heven : 2 ^ n % 2 = 0 := by
    obtain ⟨j, rfl⟩ : ∃ j, n = j + 1 := ⟨n - 1, by omega⟩
    rw [Nat.pow_succ, Nat.mul_mod_left]
  have hlog : ∀ k, 2 ^ k < 2 ^ n → k < n := fun k hk => (Nat.pow_lt_pow_iff_right (by decide)).1 hk
  have hpow := Nat.one_le_two_pow (n := m)
  have hle : ∀ a, 1 ≤ a → q * 1 ≤ q * a := fun a ha => Nat.mul_le_mul_left q ha
  have hle' : ∀ a, q ≠ 0 → 1 * a ≤ q * a := fun a hq => Nat.mul_le_mul_right a (Nat.pos_of_ne_zero hq)
  have hquot : ∀ a, t = q * a → q ≠ 0 := fun a heq hq => hzero (by rw [heq, hq, Nat.zero_mul])
  cases hd with
  | shift hm heq =>
    have hlow := hle' (2 ^ m) (hquot _ heq)
    have hhigh := hle (2 ^ m) hpow
    exact ⟨hlog m (by omega), by omega⟩
  | minusOne heq =>
    have hwide : (2 : Nat) ^ n ≤ 2 ^ w := Nat.pow_le_pow_right (by decide) hn.le
    omega
  | subTM2 hodd heq => exact ⟨hpos, by omega⟩
  | addTM2 hodd heq => exact ⟨hpos, by omega⟩
  | addFactor hm heq =>
    have hlow := hle' (2 ^ m + 1) (hquot _ heq)
    have hhigh := hle (2 ^ m + 1) (by omega)
    exact ⟨hlog m (by omega), by omega⟩
  | subFactor hm heq =>
    have hfour : 4 ≤ 2 ^ m := Nat.pow_le_pow_right (by decide : 0 < 2) hm
    have hlow := hle' (2 ^ m - 1) (hquot _ heq)
    have hhigh := hle (2 ^ m - 1) (by omega)
    exact ⟨hlog m (by omega), by omega⟩
  | addT2M hodd heq =>
    have hlow := hle' (2 ^ m) fun hq => hone (by rw [heq, hq, Nat.zero_mul])
    have hhigh := hle (2 ^ m) hpow
    exact ⟨hlog m (by omega), by omega⟩
  | subT2M hodd heq =>
    have hlow := hle' (2 ^ m) fun hq => by
      rw [hq, Nat.zero_mul] at heq
      omega
    have hhigh := hle (2 ^ m) hpow
    exact ⟨hlog m (by omega), by omega⟩

theorem Makes.eq_of_small {w cost : Nat} {t : BitVec w} {v : Int} (hw : 2 ≤ w) (hn : n < w)
    (hm : Makes c (truncatedCount n) t cost v) (ht : t.toNat + 2 ≤ 2 ^ n) : v = t.toNat := by
  induction hm with
  | zero => simp
  | m =>
    have hnat : (1 : BitVec w).toNat = 1 := BitVec.toNat_one (by omega)
    rw [hnat]
    rfl
  | @step t x cost v a b hzero hone hx hrest hcoeffs ih =>
    have hd := candidates_derive hzero hx
    have hne : t.toNat ≠ 0 := fun h => hzero (BitVec.eq_of_toNat_eq h)
    have hne' : t.toNat ≠ 1 := fun h => hone (BitVec.eq_of_toNat_eq (h.trans (toNat_one_of_ne_zero hzero).symm))
    obtain ⟨hlog, hrange⟩ := hd.small hn hne hne' ht
    obtain ⟨-, a', b', hcoeffs', -, hnext⟩ := hd.coeffs hw
    rw [truncatedCount_of_lt hlog, hcoeffs', Option.some.injEq, Prod.mk.injEq] at hcoeffs
    obtain ⟨rfl, rfl⟩ := hcoeffs
    have hhalf : (2 : Nat) ^ n ≤ 2 ^ (w - 1) := Nat.pow_le_pow_right (by decide) (by omega)
    rw [ih hrange]
    exact (hnext (by omega)).2

/-- A sequence for the rest of a candidate, and the candidate's step behind it. -/
theorem Multiplies.extend {w : Nat} (hw : 2 ≤ w) {t : BitVec w} {x : Candidate w} (hzero : t ≠ 0) (hone : t ≠ 1)
    (hx : x ∈ candidates c t) (hm : Multiplies c x.rest alg) :
    Multiplies c t ⟨x.cost + alg.cost, alg.ops + 1, Function.update alg.op alg.ops x.op,
      Function.update alg.log alg.ops x.log⟩ := by
  obtain ⟨hops, hsum, hmade⟩ := hm
  have hd := candidates_derive hzero hx
  obtain ⟨hcost, -⟩ := hd.coeffs hw
  obtain ⟨alg', halg⟩ : ∃ alg', alg' = Algorithm.mk (x.cost + alg.cost) (alg.ops + 1)
    (Function.update alg.op alg.ops x.op) (Function.update alg.log alg.ops x.log) := ⟨_, rfl⟩
  have hcostTo : alg'.costTo c alg.ops = alg.costTo c alg.ops := by
    subst halg
    exact costTo_congr (fun j hj => Function.update_of_ne (Nat.ne_of_lt hj) ..)
      fun j hj => Function.update_of_ne (Nat.ne_of_lt hj) ..
  have hlast : alg'.op alg.ops = x.op ∧ alg'.log alg.ops = x.log := by
    subst halg
    exact ⟨Function.update_self .., Function.update_self ..⟩
  have hfields : alg'.ops = alg.ops + 1 ∧ alg'.cost = x.cost + alg.cost := by
    subst halg
    exact ⟨rfl, rfl⟩
  rw [← halg]
  refine ⟨?_, ?_, fun count => ?_⟩
  · rw [hfields.1]
    exact Nat.le_add_left 1 _
  · rw [hfields.2, Algorithm.sumCost, hfields.1, Algorithm.costTo, hlast.1, hlast.2, hcost, hcostTo, hsum,
      Algorithm.sumCost]
    push_cast
    ring
  · obtain ⟨v, cost, hv, hmakes, hsame⟩ := hmade count
    obtain ⟨a, b, hcoeffs⟩ := hd.exists_coeffs (count x.log)
    refine ⟨a * v + b, x.cost + cost, ?_, hmakes.step hzero hone hx hcoeffs, ?_⟩
    · rw [hfields.1, Nat.add_sub_cancel]
      subst halg
      exact valueTo_update _ hops hv hcoeffs
    · rw [hfields.2, hsame]
      push_cast
      rfl

end Values

section Search

variable {w : Nat} {c : MultCosts} {stack : BitVec w → Int → Algorithm × Algorithm} {t : BitVec w}

theorem toShort_cases (v : Int) :
    toShort v = v % 65536 ∧ v % 65536 < 32768 ∨ toShort v = v % 65536 - 65536 ∧ 32768 ≤ v % 65536 := by
  have hdef : toShort v = if v % 65536 < 32768 then v % 65536 else v % 65536 - 65536 := Int.bmod_def v 65536
  rw [hdef]
  split <;> omega

theorem le_toShort {v : Int} (hv : v ≤ 32767) : v ≤ toShort v := by
  have hcases := toShort_cases v
  omega

theorem toShort_eq {v : Int} (hneg : 0 ≤ v) (hv : v ≤ 32767) : toShort v = v := by
  have hcases := toShort_cases v
  omega

/-- What is returned below a limit: a failure that is seen as one, or a sequence for the number. -/
def Answer (c : MultCosts) (t : BitVec w) (limit : Int) (r : Algorithm) : Prop :=
  limit ≤ r.cost ∧ r.cost = toShort limit ∨ r.cost < limit ∧ Multiplies c t r

/-- The search has found nothing, or a sequence but for its length, cheaper than the limit. -/
def Found (c : MultCosts) (t : BitVec w) (limit : Int) (s : MultSearch) : Prop :=
  s.costLimit = limit ∨ s.costLimit < limit ∧
    Multiplies c t ⟨s.costLimit, s.bestAlg.ops + 1, s.bestAlg.op, s.bestAlg.log⟩

theorem Found.record {limit : Int} {s : MultSearch} {x : Candidate w} {r : Algorithm} (hw : 2 ≤ w)
    (hzero : t ≠ 0) (hone : t ≠ 1) (hs : Found c t limit s) (hx : x ∈ candidates c t) (hr : Answer c x.rest (s.costLimit - x.cost) r) :
    Found c t limit (s.record x r) := by
  have hle : s.costLimit ≤ limit := by
    obtain heq | ⟨hlt, -⟩ := hs <;> omega
  unfold MultSearch.record
  dsimp only
  split
  · next hcheap =>
    obtain ⟨hfail, -⟩ | ⟨-, hmult⟩ := hr
    · omega
    · refine .inr ⟨?_, hmult.extend hw hzero hone hx⟩
      dsimp only
      omega
  · exact hs

theorem Found.foldl {limit : Int} {s : MultSearch} {l : List (Candidate w)} (hw : 2 ≤ w) (hzero : t ≠ 0)
    (hone : t ≠ 1) (hl : ∀ x ∈ l, x ∈ candidates c t ∧ ∀ algOut limit, limit ≤ 32767 →
      Answer c x.rest limit (synthMult c stack algOut x.rest limit))
    (hlimit : limit ≤ 32767) (hs : Found c t limit s) :
    Found c t limit
      (l.foldl (fun s x => s.record x (synthMult c stack s.algIn x.rest (s.costLimit - x.cost))) s) := by
  induction l generalizing s with
  | nil => exact hs
  | cons x l ih =>
    obtain ⟨⟨hx, hanswer⟩, hl⟩ := List.forall_mem_cons.1 hl
    have hle : s.costLimit ≤ limit := by
      obtain heq | ⟨hlt, -⟩ := hs <;> omega
    exact ih hl (hs.record hw hzero hone hx (hanswer _ _ (by omega)))

theorem synthMult_one (algOut : Algorithm) {limit : Int} (hpos : 0 < limit) :
    (synthMult c stack algOut (1 : BitVec w) limit).cost = 0 ∧
      Multiplies c (1 : BitVec w) (synthMult c stack algOut (1 : BitVec w) limit) := by
  rw [synthMult, if_neg (by omega), dif_pos rfl]
  refine ⟨rfl, le_refl 1, ?_, fun count => ⟨1, 0, ?_, .m, rfl⟩⟩
  · simp [Algorithm.sumCost, Algorithm.costTo, AlgCode.cost]
  · simp [Algorithm.valueTo]

theorem synthMult_answer (hw : 2 ≤ w) (algOut : Algorithm) (t : BitVec w) {limit : Int}
    (hlimit : limit ≤ 32767) : Answer c t limit (synthMult c stack algOut t limit) := by
  induction hmeasure : multMeasure t.toNat using Nat.strong_induction_on generalizing t algOut limit with
  | _ i ih =>
    subst hmeasure
    have hfailed : ∀ r : Algorithm, r.cost = toShort limit → Answer c t limit r := fun r hr =>
      .inl ⟨hr ▸ le_toShort hlimit, hr⟩
    by_cases hone : t = 1
    · subst hone
      by_cases hpos : 0 < limit
      · obtain ⟨hcost, hmult⟩ := @synthMult_one w c stack algOut limit hpos
        exact .inr ⟨hcost ▸ hpos, hmult⟩
      · rw [synthMult, if_pos (by omega)]
        exact hfailed _ rfl
    rw [synthMult]
    split
    · exact hfailed _ rfl
    · next hpos =>
      split
      · next hzero =>
        subst hzero
        split
        · exact hfailed _ rfl
        · next hcheap =>
          have hshort : toShort c.zeroCost = c.zeroCost := toShort_eq (by omega) (by omega)
          refine .inr ⟨by dsimp only; omega, ?_, ?_, fun count => ⟨0, c.zeroCost, ?_, Makes.zero, ?_⟩⟩
          · exact le_refl 1
          · simp [Algorithm.sumCost, Algorithm.costTo, AlgCode.cost, hshort]
          · simp [Algorithm.valueTo]
          · dsimp only
            rw [hshort]
      · next hzero =>
        have hlt : 1 < t.toNat := by
          have hne : t.toNat ≠ 1 := fun h =>
            hone (BitVec.eq_of_toNat_eq (h.trans (toNat_one_of_ne_zero hzero).symm))
          have hne' : t.toNat ≠ 0 := fun h => hzero (BitVec.eq_of_toNat_eq h)
          omega
        have hfound := @Found.foldl w c stack t limit
          ⟨(stack t limit).1, (stack t limit).2, limit⟩ (candidates c t) hw hzero hone
          (fun x hx => ⟨hx, fun algOut limit hlimit =>
            ih _ (Derives.measure_lt (candidates_derive hzero hx) hlt) algOut x.rest hlimit rfl⟩)
          hlimit (.inl rfl)
        rw [← List.foldl_attach] at hfound
        generalize (candidates c t).attach.foldl _ _ = s at hfound ⊢
        have hshort : toShort limit = limit := toShort_eq (by omega) hlimit
        dsimp only
        split
        · exact hfailed _ rfl
        · next hless =>
          rw [hshort] at hless
          split
          · exact hfailed _ rfl
          · obtain heq | ⟨hlow, hmult⟩ := hfound
            · exact absurd heq hless
            · have hnonneg : 0 ≤ s.costLimit := by
                have hcost := hmult.cost
                dsimp only at hcost
                omega
              have hcost : toShort s.costLimit = s.costLimit := toShort_eq hnonneg (by omega)
              refine .inr ⟨by dsimp only; omega, hmult.congr rfl hcost ?_ ?_⟩
              · intro j hj
                exact if_pos hj
              · intro j hj
                exact if_pos hj

end Search

section Expand

variable {h : Host} {c : MultCosts} {stack : BitVec h.bits → Int → Algorithm × Algorithm}

/-- The coefficient of the whole sequence, from that of the algorithm. -/
def MultVariant.coeff (variant : MultVariant) (v : Int) : Int :=
  match variant with
  | .basic => v
  | .negate => -v
  | .add => v + 1

theorem MultVariant.finish_mul {n : Nat} (variant : MultVariant) (v : Int) (x : BitVec n) :
    variant.finish x ((v : BitVec n) * x) = ((variant.coeff v : Int) : BitVec n) * x := by
  cases variant with
  | basic => rfl
  | negate | add =>
    simp only [finish, coeff]
    push_cast
    ring

theorem exists_bmod (v : Int) (w : Nat) : ∃ k : Int, v.bmod (2 ^ w) = v + 2 ^ w * k := by
  obtain ⟨k, hk⟩ : ((2 ^ w : Nat) : Int) ∣ v.bmod (2 ^ w) - v := Int.dvd_bmod_sub_self
  refine ⟨k, ?_⟩
  push_cast at hk
  linear_combination hk

theorem toNat_eq_toInt_add {w : Nat} (x : BitVec w) : ∃ k : Int, (x.toNat : Int) = x.toInt + 2 ^ w * k := by
  obtain ⟨k, hk⟩ := exists_bmod x.toNat w
  refine ⟨-k, ?_⟩
  rw [BitVec.toInt_eq_toNat_bmod, hk]
  ring

theorem toNat_of_toInt_pos {w : Nat} {x : BitVec w} (hx : 0 < x.toInt) :
    (x.toNat : Int) = x.toInt ∧ x.toNat ≤ 2 ^ (w - 1) := by
  have hlt := x.isLt
  rw [BitVec.toInt_eq_toNat_cond] at hx ⊢
  split at hx
  · next hhalf =>
    rw [if_pos hhalf]
    refine ⟨rfl, ?_⟩
    cases w with
    | zero => omega
    | succ w =>
      rw [Nat.pow_succ] at hhalf
      rw [Nat.add_sub_cancel]
      omega
  · omega

/-- A coefficient is right for the constant if it is congruent to it, and equal in a mode that is wider than
an `int`. -/
def RightFor (val : BitVec h.bits) (hostBitsPerInt n : Nat) (v : Int) : Prop :=
  (∃ k : Int, v = val.toInt + 2 ^ h.bits * k) ∧ (hostBitsPerInt < n → 0 < val.toInt → v = val.toInt)

theorem rightFor_basic {val : BitVec h.bits} {hostBitsPerInt n : Nat} {v : Int}
    (hv : StandsFor h.bits val.toNat v) : RightFor val hostBitsPerInt n (MultVariant.basic.coeff v) := by
  obtain ⟨⟨k, hk⟩, hexact⟩ := hv
  obtain ⟨k', hk'⟩ := toNat_eq_toInt_add val
  refine ⟨⟨k' + k, ?_⟩, fun _ hpos => ?_⟩
  · rw [MultVariant.coeff, hk, hk']
    ring
  · obtain ⟨heq, hle⟩ := toNat_of_toInt_pos hpos
    exact (hexact hle).trans heq

theorem rightFor_negate {val : BitVec h.bits} {hostBitsPerInt n : Nat} {v : Int} (hn : n ≤ hostBitsPerInt)
    (hv : StandsFor h.bits (-val).toNat v) : RightFor val hostBitsPerInt n (MultVariant.negate.coeff v) := by
  obtain ⟨⟨k, hk⟩, -⟩ := hv
  obtain ⟨k', hk'⟩ := toNat_eq_toInt_add (-val)
  obtain ⟨k'', hk''⟩ := exists_bmod (-val.toInt) h.bits
  rw [BitVec.toInt_neg, hk''] at hk'
  refine ⟨⟨-(k'' + k' + k), ?_⟩, fun hlt => absurd hn (Nat.not_le_of_lt hlt)⟩
  rw [MultVariant.coeff, hk, hk']
  ring

theorem rightFor_add {val : BitVec h.bits} {hostBitsPerInt n : Nat} {v : Int}
    (hv : StandsFor h.bits (val - 1).toNat v) : RightFor val hostBitsPerInt n (MultVariant.add.coeff v) := by
  have hwide := h.wide
  have hone : (1 : BitVec h.bits).toInt = 1 := BitVec.toInt_one (by omega)
  obtain ⟨⟨k, hk⟩, hexact⟩ := hv
  refine ⟨?_, fun _ hpos => ?_⟩
  · obtain ⟨k', hk'⟩ := toNat_eq_toInt_add (val - 1)
    obtain ⟨k'', hk''⟩ := exists_bmod (val.toInt - 1) h.bits
    rw [BitVec.toInt_sub, hone, hk''] at hk'
    refine ⟨k'' + k' + k, ?_⟩
    rw [MultVariant.coeff, hk, hk']
    ring
  · obtain ⟨heq, hle⟩ := toNat_of_toInt_pos hpos
    have hne : val ≠ 0 := by
      rintro rfl
      simp at hpos
    have hpred := toNat_sub_one hne
    rw [MultVariant.coeff, hexact (by omega)]
    omega

/-- The number that a variant asks `synth_mult` for. -/
def MultVariant.constant (variant : MultVariant) (val : BitVec h.bits) : BitVec h.bits :=
  match variant with
  | .basic => val
  | .negate => -val
  | .add => val - 1

/-- What the last insn of a variant costs. -/
def MultVariant.lastCost (c : MultCosts) (variant : MultVariant) : Nat :=
  match variant with
  | .basic => 0
  | .negate => c.negateCost
  | .add => c.addCost

theorem rightFor_constant {val : BitVec h.bits} {hostBitsPerInt n : Nat} {v : Int} {variant : MultVariant}
    (hn : variant = .negate → n ≤ hostBitsPerInt) (hv : StandsFor h.bits (variant.constant val).toNat v) :
    RightFor val hostBitsPerInt n (variant.coeff v) := by
  cases variant with
  | basic => exact rightFor_basic hv
  | negate => exact rightFor_negate (hn rfl) hv
  | add => exact rightFor_add hv

/-- With a variant, some sequence below the limit multiplies by `v` when `count` of each logarithm is
shifted by. -/
def Affordable (c : MultCosts) (count : Nat → Nat) (hostBitsPerInt n : Nat) (val : BitVec h.bits) (limit : Int)
    (variant : MultVariant) (v : Int) : Prop :=
  ∃ cost : Nat, Makes c count (variant.constant val) cost v ∧ (cost : Int) + variant.lastCost c < limit ∧
    (variant = .negate → n ≤ hostBitsPerInt)

/-- The algorithm chosen, if it is cheap enough, is one of those for its variant. -/
structure Chosen (c : MultCosts) (val : BitVec h.bits) (hostBitsPerInt n : Nat) (multCost : Int)
    (s : MultChoice) : Prop where
  short : s.alg.cost ≤ 32767
  made : s.alg.cost = multCost ∨ s.alg.cost < multCost ∧ ∀ count, ∃ v,
    s.alg.valueTo count (s.alg.ops - 1) = some v ∧ Affordable c count hostBitsPerInt n val multCost s.variant v

/-- Another variant is taken only if its algorithm was found below the limit. -/
theorem Chosen.tryVariant (variant : MultVariant) {val : BitVec h.bits} {hostBitsPerInt n : Nat}
    {multCost : Int} {s : MultChoice} (hs : Chosen c val hostBitsPerInt n multCost s)
    (hn : variant = .negate → n ≤ hostBitsPerInt) :
    Chosen c val hostBitsPerInt n multCost
      (s.tryVariant c stack multCost variant (variant.constant val) (variant.lastCost c)) := by
  have hwide := h.wide
  have hshort := hs.short
  have hle : s.alg.cost ≤ multCost := by
    obtain heq | ⟨hlt, -⟩ := hs.made <;> omega
  have hleast : (if s.alg.cost < multCost then s.alg.cost else multCost) = s.alg.cost := by
    split <;> omega
  unfold MultChoice.tryVariant
  dsimp only
  rw [hleast]
  split
  · next hcheap =>
    obtain ⟨hfail, -⟩ | ⟨hlt, hmult⟩ := @synthMult_answer h.bits c stack (by omega) s.alg2
      (variant.constant val) (s.alg.cost - variant.lastCost c) (by omega)
    · omega
    · refine ⟨?_, .inr ⟨?_, fun count => ?_⟩⟩
      · dsimp only
        omega
      · dsimp only
        omega
      · obtain ⟨v, cost, hv, hmakes, hcost⟩ := hmult.made count
        refine ⟨v, hv, cost, hmakes, ?_, hn⟩
        dsimp only
        omega
  · exact ⟨hs.short, hs.made⟩

theorem chooseVariant_chosen (alg alg2 : Algorithm) (hostBitsPerInt n : Nat) (val : BitVec h.bits)
    {multCost : Int} (hpos : 0 ≤ multCost) (hshort : multCost ≤ 32767 ∨ val = 1) :
    Chosen c val hostBitsPerInt n multCost
      (chooseVariant c stack alg alg2 hostBitsPerInt n val multCost) := by
  have hwide := h.wide
  have hnone : MultVariant.basic = .negate → n ≤ hostBitsPerInt := fun hno => nomatch hno
  have hbasic : Chosen c val hostBitsPerInt n multCost ⟨synthMult c stack alg val multCost, alg2, .basic⟩ := by
    by_cases hle : multCost ≤ 32767
    · obtain ⟨-, hfail⟩ | ⟨hlt, hmult⟩ := @synthMult_answer h.bits c stack (by omega) alg val multCost hle
      · have hcost := hfail.trans (toShort_eq hpos hle)
        exact ⟨hcost.trans_le hle, .inl hcost⟩
      · refine ⟨by dsimp only; omega, .inr ⟨hlt, fun count => ?_⟩⟩
        obtain ⟨v, cost, hv, hmakes, hcost⟩ := hmult.made count
        refine ⟨v, hv, cost, hmakes, ?_, hnone⟩
        dsimp only [MultVariant.lastCost]
        omega
    · obtain rfl := hshort.resolve_left hle
      obtain ⟨hcost, hmult⟩ := @synthMult_one h.bits c stack alg multCost (by omega)
      refine ⟨by dsimp only; omega, .inr ⟨by dsimp only; omega, fun count => ?_⟩⟩
      obtain ⟨v, cost', hv, hmakes, hsame⟩ := hmult.made count
      refine ⟨v, hv, cost', hmakes, ?_, hnone⟩
      dsimp only [MultVariant.lastCost]
      omega
  unfold chooseVariant
  dsimp only
  refine Chosen.tryVariant .add ?_ fun hno => nomatch hno
  split
  · next hn => exact Chosen.tryVariant .negate hbasic fun _ => hn
  · exact hbasic

/-- A right coefficient is the constant in the mode, when the mode is no wider than a host word or the
constant is not zero. -/
theorem RightFor.cast_eq {val : BitVec h.bits} {hostBitsPerInt n m : Nat} {v : Int}
    (hv : RightFor val hostBitsPerInt n v)
    (hm : m ≤ h.bits ∨ m = n ∧ hostBitsPerInt < n ∧ 0 < val.toInt) : (v : BitVec m) = (val.toInt : BitVec m) := by
  obtain ⟨⟨k, hk⟩, hexact⟩ := hv
  obtain hle | ⟨-, hint, hpos⟩ := hm
  · rw [hk]
    push_cast
    rw [InverseTo.two_pow_eq_zero hle]
    ring
  · rw [hexact hint hpos]

/-- `expand_mult` leaves the multiplication to an insn, or its insns multiply by what some sequence below the
limit multiplies by when its counts are reduced. -/
theorem expandMult_made (alg alg2 : Algorithm) {hostBitsPerInt n cost : Nat}
    {val : BitVec h.bits} (hshort : min (12 * c.addCost) cost ≤ 32767 ∨ val = 1) :
    (∀ op0 : BitVec n, expandMult c stack alg alg2 hostBitsPerInt op0 val cost = .multInsn) ∨
      ¬(hostBitsPerInt < n ∧ val.toInt < 0) ∧ ∃ variant v,
        Affordable c (truncatedCount n) hostBitsPerInt n val (min (12 * c.addCost) cost : Nat) variant v ∧
        ∀ op0 : BitVec n, expandMult c stack alg alg2 hostBitsPerInt op0 val cost =
          .seq (((variant.coeff v : Int) : BitVec n) * op0) := by
  have hwide := h.wide
  unfold expandMult
  by_cases hneg : hostBitsPerInt < n ∧ val.toInt < 0
  · exact .inl fun op0 => if_pos hneg
  simp only [if_neg hneg]
  have hchosen := @chooseVariant_chosen h c stack alg alg2 hostBitsPerInt n val
    ((min (12 * c.addCost) cost : Nat) : Int) (by omega) (hshort.imp (fun hle => by omega) id)
  generalize chooseVariant c stack alg alg2 hostBitsPerInt n val _ = chosen at hchosen ⊢
  by_cases hcheap : chosen.alg.cost < ((min (12 * c.addCost) cost : Nat) : Int)
  · obtain heq | ⟨-, hmade⟩ := hchosen.made
    · omega
    · obtain ⟨v, hv, hafford⟩ := hmade (truncatedCount n)
      obtain ⟨v', hv', cost', hmakes, -, hn⟩ := hmade id
      have hright := (rightFor_constant hn (hmakes.standsFor (by omega) fun _ _ => rfl)).cast_eq
        (m := h.bits) (.inl (le_refl _))
      have hself : val = (val.toInt : BitVec h.bits) * 1 := by
        rw [mul_one]
        exact BitVec.ofInt_toInt.symm
      refine .inr ⟨hneg, chosen.variant, v, hafford, fun op0 => ?_⟩
      rw [if_pos hcheap, emit_eq, run_eq, hv, hv']
      simp only [Option.map_some]
      rw [MultVariant.finish_mul, MultVariant.finish_mul, hright, if_neg (not_not.2 hself)]
  · exact .inl fun op0 => if_neg hcheap

theorem Affordable.cast_eq {hostBitsPerInt n : Nat} {val : BitVec h.bits} {limit : Int} {variant : MultVariant}
    {v : Int} (hv : Affordable c (truncatedCount n) hostBitsPerInt n val limit variant v) (hn : h.bits ≤ n)
    (hneg : ¬(hostBitsPerInt < n ∧ val.toInt < 0)) (hint : hostBitsPerInt ≤ h.bits)
    (hwide : n ≤ h.bits ∨ val ≠ 0) : ((variant.coeff v : Int) : BitVec n) = BitVec.ofInt n val.toInt := by
  have hbits := h.wide
  obtain ⟨cost, hmakes, -, hvariant⟩ := hv
  have hmode : n ≤ h.bits ∨ n = n ∧ hostBitsPerInt < n ∧ 0 < val.toInt := by
    obtain hle | hne := hwide
    · exact .inl hle
    · by_cases hle : n ≤ h.bits
      · exact .inl hle
      · have hne' : val.toInt ≠ 0 := fun hzero => hne (BitVec.eq_of_toInt_eq (by rw [hzero]; simp))
        exact .inr ⟨rfl, by omega, by omega⟩
  exact (rightFor_constant hvariant (hmakes.standsFor (by omega) fun k hk =>
    truncatedCount_of_lt (hk.trans_le hn))).cast_eq hmode

/-- Every sequence below the limit multiplies by the constant when its counts are reduced. -/
def SequencesFit (c : MultCosts) (hostBitsPerInt n : Nat) (val : BitVec h.bits) (limit : Int) : Prop :=
  ∀ variant v, Affordable c (truncatedCount n) hostBitsPerInt n val limit variant v →
    ((variant.coeff v : Int) : BitVec n) = BitVec.ofInt n val.toInt

/-- No sequence below the limit does. -/
def SequencesMisfit (c : MultCosts) (hostBitsPerInt n : Nat) (val : BitVec h.bits) (limit : Int) : Prop :=
  ∀ variant v, Affordable c (truncatedCount n) hostBitsPerInt n val limit variant v →
    ((variant.coeff v : Int) : BitVec n) ≠ BitVec.ofInt n val.toInt

/-- In a narrow mode the sequences fit for a number that is neither zero nor minus one in the mode, when the
negate variant costs too much. -/
theorem sequencesFit_of_small {hostBitsPerInt n : Nat} {val : BitVec h.bits} {limit : Int} (hn : n < h.bits)
    (hzero : val ≠ 0) (hval : val.toNat + 2 ≤ 2 ^ n) (hnegate : limit ≤ c.negateCost) :
    SequencesFit c hostBitsPerInt n val limit := by
  have hwide := h.wide
  have hhalf : (2 : Nat) ^ n * 2 ≤ 2 ^ h.bits := by
    rw [← Nat.pow_succ]
    exact Nat.pow_le_pow_right (by decide) hn
  have hint : val.toInt = val.toNat := by
    rw [BitVec.toInt_eq_toNat_cond, if_pos (by omega)]
  rintro variant v ⟨cost, hmakes, hle, -⟩
  cases variant with
  | basic =>
    have hv := hmakes.eq_of_small (by omega) hn hval
    rw [MultVariant.coeff, hv, hint]
    rfl
  | negate =>
    unfold MultVariant.lastCost at hle
    dsimp only at hle
    omega
  | add =>
    have hpred := toNat_sub_one hzero
    have hv := hmakes.eq_of_small (by omega) hn (by unfold MultVariant.constant; dsimp only; omega)
    have hsum : v + 1 = val.toNat := by
      unfold MultVariant.constant at hv
      dsimp only at hv
      omega
    rw [MultVariant.coeff, hsum, hint]
    rfl

/-- `expand_mult` leaves the multiplication to an insn, or its sequence multiplies by the constant. -/
theorem expandMult_right (alg alg2 : Algorithm) {hostBitsPerInt n cost : Nat} (op0 : BitVec n)
    {val : BitVec h.bits} (hint : hostBitsPerInt ≤ h.bits)
    (hshort : min (12 * c.addCost) cost ≤ 32767 ∨ val = 1) (hwide : n ≤ h.bits ∨ val ≠ 0)
    (hfit : h.bits ≤ n ∨ SequencesFit c hostBitsPerInt n val (min (12 * c.addCost) cost : Nat)) :
    expandMult c stack alg alg2 hostBitsPerInt op0 val cost = .multInsn ∨
      expandMult c stack alg alg2 hostBitsPerInt op0 val cost = .seq (BitVec.ofInt n val.toInt * op0) := by
  obtain hinsn | ⟨hneg, variant, v, hafford, hseq⟩ :=
    @expandMult_made h c stack alg alg2 hostBitsPerInt n cost val hshort
  · exact .inl (hinsn op0)
  · right
    obtain hn | hfit := hfit
    · rw [hseq, hafford.cast_eq hn hneg hint hwide]
    · rw [hseq, hfit variant v hafford]

end Expand

end Z80Gcc
