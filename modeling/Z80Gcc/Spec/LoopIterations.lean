import Z80Gcc.Lib.DoWhile
import Z80Gcc.Spec.CompareBranch
import Z80Gcc.Spec.DoubleInt

/-! `loop_iterations` (unroll.c) for a loop whose initial value, final comparison value and increment are
constants. -/

namespace Z80Gcc.LoopIterations

variable {h : Host}

/-- `unsigned_p`, `compare_dir` and `off_by_one`. -/
structure CompareFlags where
  unsignedP : Bool
  compareDir : Int
  offByOne : Int

/-- The switch on the code of the comparison. `GTU` and `GT` set `compare_dir` to -1 and fall into `NE`. -/
def compareFlags : Code → CompareFlags
  | .leu => ⟨true, 1, 1⟩
  | .le => ⟨false, 1, 1⟩
  | .geu => ⟨true, -1, -1⟩
  | .ge => ⟨false, -1, -1⟩
  | .eq => ⟨false, 0, 0⟩
  | .ltu => ⟨true, 1, 0⟩
  | .lt => ⟨false, 1, 0⟩
  | .gtu => ⟨true, 0, 0⟩
  | .gt => ⟨false, 0, 0⟩
  | .ne => ⟨false, 0, 0⟩

/-- The fields of `struct loop_info` that are set from the constants; `none` is a null pointer. -/
structure LoopInfo (h : Host) where
  nIterations : BitVec h.bits
  initialValue : BitVec h.bits
  initialEquivValue : BitVec h.bits
  comparisonValue : BitVec h.bits
  finalValue : Option (BitVec h.bits)
  finalEquivValue : Option (BitVec h.bits)
  increment : BitVec h.bits
  comparisonCode : Code
  vtop : Bool

/-- "Final_larger is 1 if final larger, 0 if they are equal, otherwise -1." -/
def finalLarger (unsignedP : Bool) (initial final : BitVec h.bits) : Int :=
  if unsignedP then (initial.ult final).toInt - (final.ult initial).toInt
  else (initial.slt final).toInt - (final.slt initial).toInt

def incrementDir (increment : BitVec h.bits) : Int :=
  if (0 : BitVec h.bits).slt increment then 1 else if increment = 0 then 0 else -1

/-- `abs_diff` and `abs_inc`. -/
def absDiff (initial final increment : BitVec h.bits) : BitVec h.bits :=
  if (0 : BitVec h.bits).slt increment then final - initial else initial - final

def absInc (increment : BitVec h.bits) : BitVec h.bits :=
  if (0 : BitVec h.bits).slt increment then increment else -increment

/-- `abs_diff / abs_inc + ((abs_diff % abs_inc) != 0)`. -/
def iterationCount (diff inc : BitVec h.bits) : BitVec h.bits := diff / inc + if diff % inc ≠ 0 then 1 else 0

/-- `plus_constant (comparison_value, off_by_one)`. -/
def finalOf (code : Code) (comparison : BitVec h.bits) : BitVec h.bits :=
  comparison + BitVec.ofInt h.bits (compareFlags code).offByOne

/-- `loop_iterations`. The values are constants; there is no equivalent value to be found for them. -/
def loopIterations (code : Code) (vtop : Bool) (initial comparison increment : BitVec h.bits) : LoopInfo h :=
  let flags := compareFlags code
  let final := finalOf code comparison
  let info : LoopInfo h :=
    { nIterations := 0
      initialValue := initial
      initialEquivValue := initial
      comparisonValue := comparison
      finalValue := if code = .eq then none else some final
      finalEquivValue := if code = .eq then none else some final
      increment := increment
      comparisonCode := code
      vtop := vtop }
  if code = .eq then info
  else
    let larger := finalLarger flags.unsignedP initial final
    if larger = incrementDir increment ∧ larger ≠ 0 ∧ (larger = flags.compareDir ∨ flags.compareDir = 0) then
      let diff := absDiff initial final increment
      let inc := absInc increment
      -- "For NE tests, make sure that the iteration variable won't miss the final value."
      if flags.compareDir = 0 ∧ diff % inc ≠ 0 then info
      else { info with nIterations := iterationCount diff inc }
    else info

/-- The loop on an iteration variable of `w` bits. `vtop` is the test at the top. -/
def loopOf {w : Nat} (code : Code) (vtop : Bool) (initial final increment : BitVec w) : DoWhile (BitVec w) where
  topTest := vtop
  first := initial
  next x := x + increment
  again x := code.holds x final = true

def signedCode : Code → Bool
  | .lt | .le | .gt | .ge => true
  | _ => false

/-- No addition that the loop makes overflows as a signed one. -/
def NoOverflow {w : Nat} (l : DoWhile (BitVec w)) (increment : BitVec w) : Prop :=
  ∀ k x, l.Enters k x → (x + increment).toInt = x.toInt + increment.toInt

/-- A count that is not zero is the number of times that the body runs. The constants are sign-extended to
`HOST_WIDE_INT`. -/
def CountRight (h : Host) {w : Nat} (code : Code) (vtop : Bool) (initial final increment : BitVec w) : Prop :=
  let n := (loopIterations (h := h) code vtop (initial.signExtend h.bits) (final.signExtend h.bits)
    (increment.signExtend h.bits)).nIterations
  let l := loopOf code vtop initial final increment
  n ≠ 0 → (signedCode code = true → NoOverflow l increment) → l.RunsBody n.toNat

/-- The distance of two values is the same in the mode and in the host's word. -/
def SameDistance (h : Host) {w : Nat} (x y : BitVec w) : Prop := w = h.bits ∨ x.msb = y.msb

/-- The first value at or above `limit` on the way up from `first`, and the first one at or below it on the way
down. -/
def valueAbove (first limit inc : Int) : Int := limit + (first - limit) % inc

def valueBelow (first limit inc : Int) : Int := limit - (limit - first) % inc

/-- Where the count of a loop is right: a loop with `GT` or `GTU` does not count up (but for a single turn), and
the variable of an unsigned comparison keeps its distance in the host's word and leaves the loop before it
wraps around. -/
def CountExact (h : Host) {w : Nat} (code : Code) (vtop : Bool) (initial final increment : BitVec w) : Prop :=
  match code with
  | .gt => initial.toInt < final.toInt → 0 < increment.toInt →
      increment.toInt ∣ final.toInt - initial.toInt →
      vtop = false ∧ final.toInt - initial.toInt = increment.toInt
  | .gtu =>
      (initial.toNat < final.toNat → 0 < increment.toInt →
        increment.toInt ∣ (final.toInt - initial.toInt) % 2 ^ h.bits →
        vtop = false ∧ SameDistance h initial final ∧ (final.toNat : Int) - initial.toNat = increment.toInt) ∧
      (final.toNat < initial.toNat → increment.toInt < 0 →
        increment.toInt ∣ (initial.toInt - final.toInt) % 2 ^ h.bits → SameDistance h initial final)
  | .ltu => initial.toNat < final.toNat → 0 < increment.toInt →
      SameDistance h initial final ∧ valueAbove initial.toNat final.toNat increment.toInt < 2 ^ w
  | .leu => initial.toNat ≤ final.toNat → final.toNat + 1 < 2 ^ w → 0 < increment.toInt →
      SameDistance h initial final ∧ valueAbove initial.toNat (final.toNat + 1) increment.toInt < 2 ^ w
  | .geu => final.toNat ≤ initial.toNat → 0 < final.toNat → increment.toInt < 0 →
      SameDistance h initial final ∧ 0 ≤ valueBelow initial.toNat (final.toNat - 1) increment.toInt
  | _ => True

end Z80Gcc.LoopIterations
