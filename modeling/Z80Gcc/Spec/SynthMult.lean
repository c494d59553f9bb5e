import Mathlib.Logic.Function.Basic
import Z80Gcc.Lib.PowerOfTwo
import Z80Gcc.Spec.Divmod

/-! Multiplication by a constant (expmed.c): `synth_mult` looks for the cheapest sequence of shifts and
additions, and `expand_mult` emits it. -/

namespace Z80Gcc

/-- `enum alg_code`, as far as it is used. -/
inductive AlgCode where
  | zero | m | shift | addTM2 | subTM2 | addFactor | subFactor | addT2M | subT2M
  deriving DecidableEq

/-- `struct algorithm`. The `cost` is a `short`. -/
structure Algorithm where
  cost : Int
  ops : Nat
  op : Nat → AlgCode
  log : Nat → Nat

/-- The tables of `init_expmed`; a cost is not negative. What is read behind the end of a table counts as a
part of it. -/
structure MultCosts where
  zeroCost : Nat
  addCost : Nat
  negateCost : Nat
  shiftCost : Nat → Nat
  shiftaddCost : Nat → Nat
  shiftsubCost : Nat → Nat

/-- `BITS_PER_WORD`. -/
def maxBitsPerWord : Nat := 16

/-- A value stored in a `short`. -/
def toShort (v : Int) : Int := v.bmod (2 ^ 16)

/-- `exact_log2`; `none` is -1. -/
def exactLog2 {w : Nat} (x : BitVec w) : Option Nat :=
  if x = 0 ∨ x ≠ x &&& -x then none else some (floorLog2 x.toNat)

/-- One way to come to a number from another one. -/
structure Candidate (w : Nat) where
  op : AlgCode
  log : Nat
  cost : Nat
  rest : BitVec w

section Candidates

variable {w : Nat} (c : MultCosts) (t : BitVec w)

/-- "If we have a group of zero bits at the low-order part of T". -/
def lowZeros : Option (Candidate w) :=
  if t &&& 1 = 0 then
    let m := floorLog2 (t &&& -t).toNat
    some ⟨.shift, m, c.shiftCost m, t >>> m⟩
  else none

/-- `for (w = 1; (w & t) != 0; w <<= 1);` -/
def lowOnesEnd : Nat → BitVec w → BitVec w
  | 0, b => b
  | n + 1, b => if b &&& t ≠ 0 then lowOnesEnd n (b <<< 1) else b

def addOrSubOne : Option (Candidate w) :=
  if t &&& 1 ≠ 0 then
    let b := lowOnesEnd t w 1
    if b = 0 ∨ 2 < b ∧ t ≠ 3 then some ⟨.subTM2, 0, c.addCost, t + 1⟩
    else some ⟨.addTM2, 0, c.addCost, t - 1⟩
  else none

/-- The factors `2 ** m + 1` and `2 ** m - 1`, from the given `m` down to 2. -/
def factorFrom : Nat → Option (Candidate w)
  | 0 => none
  | 1 => none
  | m + 2 =>
    let plus := (1 : BitVec w) <<< (m + 2) + 1
    let minus := (1 : BitVec w) <<< (m + 2) - 1
    if t % plus = 0 ∧ plus < t then
      some ⟨.addFactor, m + 2, min (c.shiftaddCost (m + 2)) (c.addCost + c.shiftCost (m + 2)), t / plus⟩
    else if t % minus = 0 ∧ minus < t then
      some ⟨.subFactor, m + 2, min (c.shiftsubCost (m + 2)) (c.addCost + c.shiftCost (m + 2)), t / minus⟩
    else factorFrom (m + 1)

def factor : Option (Candidate w) := factorFrom c t (floorLog2 (t - 1).toNat)

/-- "Try shift-and-add (load effective address) instructions". -/
def shiftAdd : Option (Candidate w) :=
  if t &&& 1 ≠ 0 then
    (exactLog2 ((t - 1) &&& -(t - 1))).map fun m => ⟨.addT2M, m, c.shiftaddCost m, (t - 1) >>> m⟩
  else none

def shiftSub : Option (Candidate w) :=
  if t &&& 1 ≠ 0 then
    (exactLog2 ((t + 1) &&& -(t + 1))).map fun m => ⟨.subT2M, m, c.shiftsubCost m, (t + 1) >>> m⟩
  else none

/-- What is tried, in this order. -/
def candidates : List (Candidate w) :=
  (lowZeros c t).toList ++ (addOrSubOne c t).toList ++ (factor c t).toList ++ (shiftAdd c t).toList ++
    (shiftSub c t).toList

variable {c t}

theorem toNat_one_of_ne_zero (ht : t ≠ 0) : (1 : BitVec w).toNat = 1 := by
  refine BitVec.toNat_one ?_
  by_contra hno
  obtain rfl : w = 0 := by omega
  exact ht (Subsingleton.elim _ _)

theorem and_one_eq_zero_iff (ht : t ≠ 0) : t &&& 1 = 0 ↔ t.toNat % 2 = 0 := by
  rw [← BitVec.toNat_inj, BitVec.toNat_and, toNat_one_of_ne_zero ht, Nat.and_one_is_mod]
  rfl

theorem toNat_sub_one (ht : t ≠ 0) : (t - 1).toNat + 1 = t.toNat := by
  have hpos : t.toNat ≠ 0 := fun h => ht (BitVec.eq_of_toNat_eq h)
  have hone := toNat_one_of_ne_zero ht
  rw [BitVec.toNat_sub_of_le (by rw [BitVec.le_def, hone]; omega), hone]
  omega

theorem toNat_add_one (ht : t ≠ 0) :
    t + 1 = 0 ∧ t.toNat + 1 = 2 ^ w ∨ t + 1 ≠ 0 ∧ (t + 1).toNat = t.toNat + 1 := by
  have hlt := t.isLt
  have hmod : (t + 1).toNat = (t.toNat + 1) % 2 ^ w := by
    rw [BitVec.toNat_add, toNat_one_of_ne_zero ht]
  obtain heq | hne := eq_or_ne (t.toNat + 1) (2 ^ w)
  · rw [heq, Nat.mod_self] at hmod
    exact .inl ⟨BitVec.eq_of_toNat_eq hmod, heq⟩
  · rw [Nat.mod_eq_of_lt (by omega)] at hmod
    refine .inr ⟨fun hzero => ?_, hmod⟩
    rw [hzero] at hmod
    exact absurd hmod (by simp)

theorem exactLog2_low {m : Nat} (hm : exactLog2 (t &&& -t) = some m) :
    t ≠ 0 ∧ (t >>> m).toNat * 2 ^ m = t.toNat := by
  unfold exactLog2 at hm
  split at hm
  · cases hm
  · next hne =>
    have ht : t ≠ 0 := by
      rintro rfl
      exact hne (.inl (by simp))
    obtain ⟨k, hk, hlow⟩ := PowerOfTwo.exists_lowest ht
    rw [PowerOfTwo.and_neg_eq_twoPow hk hlow, BitVec.toNat_twoPow_of_lt (BitVec.lt_of_getLsbD hk),
      floorLog2_two_pow] at hm
    cases hm
    rw [BitVec.toNat_ushiftRight, Nat.shiftRight_eq_div_pow]
    exact ⟨ht, Nat.div_mul_cancel (PowerOfTwo.two_pow_dvd hlow)⟩

/-- The ways in which a number comes from a smaller one, with the operation, its coefficient and cost. -/
inductive Derives (c : MultCosts) (w t : Nat) : AlgCode → Nat → Nat → Nat → Prop
  | shift {q m} (hm : 1 ≤ m) (ht : t = q * 2 ^ m) : Derives c w t .shift m (c.shiftCost m) q
  | minusOne (ht : t + 1 = 2 ^ w) : Derives c w t .subTM2 0 c.addCost 0
  | subTM2 {q} (hodd : t % 2 = 1) (ht : t + 1 = q) : Derives c w t .subTM2 0 c.addCost q
  | addTM2 {q} (hodd : t % 2 = 1) (ht : t = q + 1) : Derives c w t .addTM2 0 c.addCost q
  | addFactor {q m} (hm : 2 ≤ m) (ht : t = q * (2 ^ m + 1)) :
      Derives c w t .addFactor m (min (c.shiftaddCost m) (c.addCost + c.shiftCost m)) q
  | subFactor {q m} (hm : 2 ≤ m) (ht : t = q * (2 ^ m - 1)) :
      Derives c w t .subFactor m (min (c.shiftsubCost m) (c.addCost + c.shiftCost m)) q
  | addT2M {q m} (hodd : t % 2 = 1) (ht : t = q * 2 ^ m + 1) :
      Derives c w t .addT2M m (c.shiftaddCost m) q
  | subT2M {q m} (hodd : t % 2 = 1) (ht : t + 1 = q * 2 ^ m) :
      Derives c w t .subT2M m (c.shiftsubCost m) q

def Candidate.Derives (c : MultCosts) (t : BitVec w) (x : Candidate w) : Prop :=
  Z80Gcc.Derives c w t.toNat x.op x.log x.cost x.rest.toNat

theorem mul_of_mod_eq_zero {d : BitVec w} (hmod : t % d = 0) : t.toNat = (t / d).toNat * d.toNat := by
  have hdvd := congrArg BitVec.toNat hmod
  rw [BitVec.toNat_umod] at hdvd
  rw [BitVec.toNat_udiv]
  exact (Nat.div_mul_cancel (Nat.dvd_of_mod_eq_zero hdvd)).symm

theorem factor_toNat {m : Nat} (hm : m + 2 < w) :
    ((1 : BitVec w) <<< (m + 2) + 1).toNat = 2 ^ (m + 2) + 1 ∧
      ((1 : BitVec w) <<< (m + 2) - 1).toNat = 2 ^ (m + 2) - 1 := by
  have hpow : 2 ^ (m + 2) * 2 ≤ 2 ^ w := by
    rw [← Nat.pow_succ]
    exact Nat.pow_le_pow_right (by decide) hm
  have hfour : 4 ≤ 2 ^ (m + 2) := Nat.pow_le_pow_right (by decide : 0 < 2) (Nat.le_add_left 2 m)
  have hone : (1 : BitVec w).toNat = 1 := BitVec.toNat_one (by omega)
  have hbit : ((1 : BitVec w) <<< (m + 2)).toNat = 2 ^ (m + 2) := by
    rw [BitVec.toNat_shiftLeft, hone, Nat.one_shiftLeft, Nat.mod_eq_of_lt (by omega)]
  constructor
  · rw [BitVec.toNat_add, hbit, hone, Nat.mod_eq_of_lt (by omega)]
  · rw [BitVec.toNat_sub_of_le (by rw [BitVec.le_def, hone, hbit]; omega), hone, hbit]

theorem factorFrom_derives {m : Nat} {x : Candidate w} (hm : m < w) (hx : factorFrom c t m = some x) :
    x.Derives c t := by
  induction m with
  | zero => cases hx
  | succ m ih =>
    obtain rfl | ⟨m, rfl⟩ : m = 0 ∨ ∃ k, m = k + 1 := by
      cases m with
      | zero => exact .inl rfl
      | succ k => exact .inr ⟨k, rfl⟩
    · cases hx
    obtain ⟨hplus, hminus⟩ := factor_toNat hm
    rw [factorFrom] at hx
    split at hx
    · next hfactor =>
      cases hx
      refine .addFactor (Nat.le_add_left 2 m) ?_
      rw [← hplus]
      exact mul_of_mod_eq_zero hfactor.1
    · split at hx
      · next hfactor =>
        cases hx
        refine .subFactor (Nat.le_add_left 2 m) ?_
        rw [← hminus]
        exact mul_of_mod_eq_zero hfactor.1
      · exact ih (by omega) hx

theorem candidates_derive {x : Candidate w} (ht : t ≠ 0) (hx : x ∈ candidates c t) : x.Derives c t := by
  simp only [candidates, List.mem_append, Option.mem_toList] at hx
  obtain (((hx | hx) | hx) | hx) | hx := hx
  · unfold lowZeros at hx
    split at hx
    · next heven =>
      cases hx
      obtain ⟨k, hk, -, hlow, hdvd⟩ := PowerOfTwo.and_neg_of_even ht heven
      unfold Candidate.Derives
      dsimp only
      rw [hlow, floorLog2_two_pow]
      refine .shift hk ?_
      rw [BitVec.toNat_ushiftRight, Nat.shiftRight_eq_div_pow]
      exact (Nat.div_mul_cancel hdvd).symm
    · cases hx
  · unfold addOrSubOne at hx
    split at hx
    · next hodd =>
      rw [Ne, and_one_eq_zero_iff ht, Nat.mod_two_not_eq_zero] at hodd
      dsimp only at hx
      split at hx
      · cases hx
        unfold Candidate.Derives
        dsimp only
        obtain ⟨hzero, hlast⟩ | ⟨-, hsum⟩ := toNat_add_one ht
        · rw [hzero]
          exact .minusOne hlast
        · exact .subTM2 hodd hsum.symm
      · cases hx
        exact .addTM2 hodd (toNat_sub_one ht).symm
    · cases hx
  · refine factorFrom_derives ?_ hx
    have hw : 0 < w := by
      by_contra hno
      obtain rfl : w = 0 := by omega
      exact ht (Subsingleton.elim _ _)
    have hsize : (t - 1).toNat.size ≤ w := Nat.size_le.2 (t - 1).isLt
    unfold floorLog2
    omega
  · unfold shiftAdd at hx
    split at hx
    · next hodd =>
      rw [Ne, and_one_eq_zero_iff ht, Nat.mod_two_not_eq_zero] at hodd
      obtain ⟨m, hm, rfl⟩ := Option.map_eq_some_iff.1 hx
      refine .addT2M hodd ?_
      rw [(exactLog2_low hm).2, toNat_sub_one ht]
    · cases hx
  · unfold shiftSub at hx
    split at hx
    · next hodd =>
      rw [Ne, and_one_eq_zero_iff ht, Nat.mod_two_not_eq_zero] at hodd
      obtain ⟨m, hm, rfl⟩ := Option.map_eq_some_iff.1 hx
      obtain ⟨hne, hlow⟩ := exactLog2_low hm
      refine .subT2M hodd ?_
      rw [hlow]
      exact ((toNat_add_one ht).resolve_left fun h => hne h.1).2.symm
    · cases hx

def multMeasure (t : Nat) : Nat := if t % 2 = 0 then t + 1 else 2 * t

theorem multMeasure_cases (t : Nat) :
    t % 2 = 0 ∧ multMeasure t = t + 1 ∨ t % 2 = 1 ∧ multMeasure t = 2 * t := by
  unfold multMeasure
  split <;> omega

theorem Derives.measure_lt {t m cost q : Nat} {op : AlgCode} (h : Z80Gcc.Derives c w t op m cost q) (ht : 1 < t) :
    multMeasure q < multMeasure t := by
  have hq := multMeasure_cases q
  have htm := multMeasure_cases t
  cases h with
  | shift hm heq =>
    have hpow : 2 ≤ 2 ^ m := Nat.pow_le_pow_right (by decide : 0 < 2) hm
    have hle : q * 2 ≤ q * 2 ^ m := Nat.mul_le_mul_left q hpow
    omega
  | minusOne => omega
  | subTM2 => omega
  | addTM2 => omega
  | addFactor hm heq =>
    have hpow : 4 ≤ 2 ^ m := Nat.pow_le_pow_right (by decide : 0 < 2) hm
    have hle : q * 3 ≤ q * (2 ^ m + 1) := Nat.mul_le_mul_left q (by omega)
    omega
  | subFactor hm heq =>
    have hpow : 4 ≤ 2 ^ m := Nat.pow_le_pow_right (by decide : 0 < 2) hm
    have hle : q * 3 ≤ q * (2 ^ m - 1) := Nat.mul_le_mul_left q (by omega)
    omega
  | addT2M hodd heq =>
    have hle : q * 1 ≤ q * 2 ^ m := Nat.mul_le_mul_left q Nat.one_le_two_pow
    omega
  | subT2M hodd heq =>
    cases m with
    | zero =>
      rw [Nat.pow_zero] at heq
      omega
    | succ m =>
      have hle : q * 2 ≤ q * 2 ^ (m + 1) :=
        Nat.mul_le_mul_left q (Nat.pow_le_pow_right (by decide : 0 < 2) (Nat.le_add_left 1 m))
      omega

end Candidates

structure MultSearch where
  algIn : Algorithm
  bestAlg : Algorithm
  costLimit : Int

/-- After the search for the rest of a candidate: the structures are swapped if it is cheaper than what was
found before. -/
def MultSearch.record {w : Nat} (s : MultSearch) (x : Candidate w) (algIn : Algorithm) : MultSearch :=
  let cost := x.cost + algIn.cost
  if cost < s.costLimit then
    { algIn := s.bestAlg
      bestAlg := { algIn with
        log := Function.update algIn.log algIn.ops x.log
        op := Function.update algIn.op algIn.ops x.op }
      costLimit := cost }
  else { s with algIn }

section SynthMult

variable {w : Nat} (c : MultCosts) (stack : BitVec w → Int → Algorithm × Algorithm)

/-- `synth_mult`. `stack` is what the two structures hold that are allocated and not initialised. -/
def synthMult (algOut : Algorithm) (t : BitVec w) (costLimit : Int) : Algorithm :=
  let failed := { algOut with cost := toShort costLimit }
  if costLimit ≤ 0 then failed
  else if h1 : t = 1 then { algOut with ops := 1, cost := 0, op := Function.update algOut.op 0 .m }
  else if h0 : t = 0 then
    if c.zeroCost ≥ costLimit then failed
    else { algOut with ops := 1, cost := toShort c.zeroCost, op := Function.update algOut.op 0 .zero }
  else
    let s := (candidates c t).attach.foldl
      (fun (s : MultSearch) x => s.record x.1 (synthMult s.algIn x.1.rest (s.costLimit - x.1.cost)))
      ⟨(stack t costLimit).1, (stack t costLimit).2, costLimit⟩
    if s.costLimit = failed.cost then failed
    else if s.bestAlg.ops = maxBitsPerWord then failed
    else
      let ops := s.bestAlg.ops + 1
      { ops
        cost := toShort s.costLimit
        op := fun i => if i < ops then s.bestAlg.op i else algOut.op i
        log := fun i => if i < ops then s.bestAlg.log i else algOut.log i }
termination_by multMeasure t.toNat
decreasing_by
  refine Derives.measure_lt (candidates_derive h0 x.2) ?_
  have hne : t.toNat ≠ 1 := fun h => h1 (BitVec.eq_of_toNat_eq (h.trans (toNat_one_of_ne_zero h0).symm))
  have hpos : t.toNat ≠ 0 := fun h => h0 (BitVec.eq_of_toNat_eq h)
  omega

end SynthMult

section Run

variable {n : Nat}

/-- The count in the insn of a shift by a constant. `SHIFT_COUNT_TRUNCATED` is 1. -/
def truncatedCount (n count : Nat) : Nat := if n ≤ count then count % n else count

/-- `expand_shift` to the left by a constant. -/
def expandShift (shifted : BitVec n) (count : Nat) : BitVec n := shifted <<< truncatedCount n count

variable (shift : BitVec n → Nat → BitVec n)

/-- A step of the sequence; `none` is a call of `abort`. -/
def AlgCode.step (op : AlgCode) (log : Nat) (op0 accum : BitVec n) : Option (BitVec n) :=
  match op with
  | .shift => some (shift accum log)
  | .addTM2 => some (accum + shift op0 log)
  | .subTM2 => some (accum - shift op0 log)
  | .addT2M => some (shift accum log + op0)
  | .subT2M => some (shift accum log - op0)
  | .addFactor => some (accum + shift accum log)
  | .subFactor => some (shift accum log - accum)
  | .zero | .m => none

def Algorithm.runTo (alg : Algorithm) (op0 : BitVec n) : Nat → Option (BitVec n)
  | 0 =>
    match alg.op 0 with
    | .zero => some 0
    | .m => some op0
    | _ => none
  | opno + 1 => (alg.runTo op0 opno).bind ((alg.op (opno + 1)).step shift (alg.log (opno + 1)) op0)

/-- The sequence as `struct algorithm` documents it; `val_so_far` is its value at 1. -/
def Algorithm.run (alg : Algorithm) (op0 : BitVec n) : Option (BitVec n) :=
  alg.runTo (fun x count => x <<< count) op0 (alg.ops - 1)

/-- The insns that `expand_mult` emits for it. -/
def Algorithm.emit (alg : Algorithm) (op0 : BitVec n) : Option (BitVec n) :=
  alg.runTo expandShift op0 (alg.ops - 1)

end Run

inductive MultVariant where
  | basic | negate | add
  deriving DecidableEq

/-- What `expand_mult` makes of a constant. -/
inductive MultExpansion (n : Nat) where
  | abort
  | multInsn
  | seq (accum : BitVec n)

section ExpandMult

variable {h : Host} (c : MultCosts) (stack : BitVec h.bits → Int → Algorithm × Algorithm)

/-- The local variables of `expand_mult`. -/
structure MultChoice where
  alg : Algorithm
  alg2 : Algorithm
  variant : MultVariant

/-- Another variant is tried; `cost` is that of its last insn. -/
def MultChoice.tryVariant (s : MultChoice) (multCost : Int) (variant : MultVariant) (t : BitVec h.bits)
    (cost : Nat) : MultChoice :=
  let limit := (if s.alg.cost < multCost then s.alg.cost else multCost) - cost
  let alg2 := synthMult c stack s.alg2 t limit
  if alg2.cost + cost < s.alg.cost then { alg := alg2, alg2, variant } else { s with alg2 }

/-- "Try to do the computation three ways". `alg` and `alg2` are not initialised; `hostBitsPerInt` is
`HOST_BITS_PER_INT`, and `n` the size of the mode. -/
def chooseVariant (alg alg2 : Algorithm) (hostBitsPerInt n : Nat) (val : BitVec h.bits) (multCost : Int) :
    MultChoice :=
  let s : MultChoice := { alg := synthMult c stack alg val multCost, alg2, variant := .basic }
  let s := if n ≤ hostBitsPerInt then s.tryVariant c stack multCost .negate (-val) c.negateCost else s
  s.tryVariant c stack multCost .add (val - 1) c.addCost

def MultVariant.finish {n : Nat} (variant : MultVariant) (op0 accum : BitVec n) : BitVec n :=
  match variant with
  | .basic => accum
  | .negate => -accum
  | .add => accum + op0

/-- `expand_mult` with a `CONST_INT`; `cost` is the cost of the multiplication. -/
def expandMult (alg alg2 : Algorithm) (hostBitsPerInt : Nat) {n : Nat} (op0 : BitVec n)
    (val : BitVec h.bits) (cost : Nat) : MultExpansion n :=
  if hostBitsPerInt < n ∧ val.toInt < 0 then .multInsn
  else
    let multCost := min (12 * c.addCost) cost
    let chosen := chooseVariant c stack alg alg2 hostBitsPerInt n val multCost
    if chosen.alg.cost < multCost then
      match chosen.alg.emit op0, chosen.alg.run (1 : BitVec h.bits) with
      | some accum, some valSoFar =>
        if val ≠ chosen.variant.finish 1 valSoFar then .abort else .seq (chosen.variant.finish op0 accum)
      | _, _ => .abort
    else .multInsn

/-- The product that is left in a register; `none` after a call of `abort`. -/
def MultExpansion.product {n : Nat} (op0 op1 : BitVec n) : MultExpansion n → Option (BitVec n)
  | .abort => none
  | .multInsn => some (op0 * op1)
  | .seq accum => some accum

/-- What the `EXACT_DIV_EXPR` case of `expand_divmod` makes of a dividend. -/
inductive ExactExpansion (w : Nat) where
  | abort
  | fail
  | quotient (q : BitVec w)
  deriving DecidableEq

/-- The factor that stands for the odd part of a divisor. -/
def exactInverse (w : Nat) (d : BitVec h.bits) : BitVec h.bits :=
  let postShift := floorLog2 (d &&& -d).toNat
  invertMod2n (d.sshiftRight postShift) w

/-- The `EXACT_DIV_EXPR` case, for a divisor `d`; `cost` is that of a multiplication. -/
def expandExactDiv (alg alg2 : Algorithm) (hostBitsPerInt cost : Nat) {w : Nat} (unsignedp : Bool)
    (op0 : BitVec w) (d : BitVec h.bits) : ExactExpansion w :=
  if h.bits ≥ w then
    let postShift := floorLog2 (d &&& -d).toNat
    let ml := exactInverse w d
    match (expandMult c stack alg alg2 hostBitsPerInt op0 ml cost).product op0 (ml.setWidth w) with
    | none => .abort
    | some t1 =>
      let count := truncatedCount w postShift
      .quotient (if unsignedp then t1 >>> count else t1.sshiftRight count)
  else .fail

end ExpandMult

end Z80Gcc
