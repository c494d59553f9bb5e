import Mathlib.Data.Nat.Size
import Z80Gcc.Spec.DoubleInt

/-! `expand_divmod` of expmed.c for a constant divisor: the values that the emitted insns compute
from the dividend, or why there are none. The costs that choose between equal sequences are
answers of the target. -/

namespace Z80Gcc

/-- The value of an insn of the sequence in a mode of `w` bits, as an expression in the dividend. -/
inductive DivExpr (w : Nat) where
  | dividend
  | const (c : BitVec w)
  | neg (x : DivExpr w)
  | not (x : DivExpr w)
  | plus (x y : DivExpr w)
  | minus (x y : DivExpr w)
  | mult (x y : DivExpr w)
  | and (x y : DivExpr w)
  | ior (x y : DivExpr w)
  | xor (x y : DivExpr w)
  | lshiftrt (x : DivExpr w) (k : Nat)
  | ashiftrt (x : DivExpr w) (k : Nat)
  | umulHighpart (x y : DivExpr w)
  | smulHighpart (x y : DivExpr w)
  | geu (x y : DivExpr w)
  | eq (x y : DivExpr w)
  /-- `do_cmp_and_jump (x, const0_rtx, GE, mode, label); expand_inc (x, y); emit_label (label)` -/
  | incIfNeg (x y : DivExpr w)
  deriving DecidableEq, Repr

def DivExpr.eval {w : Nat} (n : BitVec w) : DivExpr w → BitVec w
  | .dividend => n
  | .const c => c
  | .neg x => -x.eval n
  | .not x => ~~~x.eval n
  | .plus x y => x.eval n + y.eval n
  | .minus x y => x.eval n - y.eval n
  | .mult x y => x.eval n * y.eval n
  | .and x y => x.eval n &&& y.eval n
  | .ior x y => x.eval n ||| y.eval n
  | .xor x y => x.eval n ^^^ y.eval n
  | .lshiftrt x k => x.eval n >>> k
  | .ashiftrt x k => (x.eval n).sshiftRight k
  | .umulHighpart x y => BitVec.ofNat w ((x.eval n).toNat * (y.eval n).toNat / 2 ^ w)
  | .smulHighpart x y => BitVec.ofInt w ((x.eval n).toInt * (y.eval n).toInt / 2 ^ w)
  | .geu x y => if y.eval n ≤ x.eval n then 1 else 0
  | .eq x y => if x.eval n = y.eval n then 1 else 0
  | .incIfNeg x y => if (x.eval n).msb then x.eval n + y.eval n else x.eval n

/-- `floor_log2` of a number that is not zero. -/
def floorLog2 (x : Nat) : Nat := x.size - 1

theorem floorLog2_two_pow (k : Nat) : floorLog2 (2 ^ k) = k := by
  rw [floorLog2, Nat.size_pow, Nat.add_sub_cancel]

/-- `ceil_log2`; `floor_log2` of zero is minus one. -/
def ceilLog2 (x : Nat) : Nat := (x - 1).size

/-- `EXACT_POWER_OF_2_OR_ZERO_P`. -/
def exactPowerOf2OrZero {w : Nat} (x : BitVec w) : Bool := x &&& (x - 1) == 0

/-- `(unsigned HOST_WIDE_INT) 1 << k`. -/
def Host.bit (h : Host) (k : Nat) : BitVec h.bits := (1 : BitVec h.bits) <<< k

structure Multiplier (h : Host) where
  /-- The value returned, the bit above the multiplier. -/
  mh : BitVec h.bits
  ml : BitVec h.bits
  postShift : Nat
  lgup : Nat
  deriving DecidableEq

section ChooseMultiplier

variable {h : Host}

def reduceToLowest : Nat → DoubleInt h → DoubleInt h → Nat × DoubleInt h
  | 0, _, mhigh => (0, mhigh)
  | postShift + 1, mlow, mhigh =>
      let mlLo := mlow.high <<< (h.bits - 1) ||| mlow.low >>> 1
      let mhLo := mhigh.high <<< (h.bits - 1) ||| mhigh.low >>> 1
      if mlLo ≥ mhLo then (postShift + 1, mhigh) else reduceToLowest postShift ⟨mlLo, 0⟩ ⟨mhLo, 0⟩

/-- `choose_multiplier`; `none` is a call of `abort`. -/
def chooseMultiplier (d : BitVec h.bits) (n precision : Nat) : Option (Multiplier h) :=
  let lgup := ceilLog2 d.toNat
  let pow := n + lgup
  let pow2 := n + lgup - precision
  let num : DoubleInt h :=
    if pow ≥ h.bits then ⟨0, h.bit (pow - h.bits)⟩ else ⟨h.bit pow, 0⟩
  let mlow := num.divAndRoundDouble d
  let num : DoubleInt h :=
    if pow2 ≥ h.bits then ⟨num.low, num.high ||| h.bit (pow2 - h.bits)⟩
    else ⟨num.low ||| h.bit pow2, num.high⟩
  let mhigh := num.divAndRoundDouble d
  if lgup > n then none
  else if pow = 2 * h.bits then none
  else if mhigh.high ≠ 0 ∧ num.high - d ≥ d then none
  else if mhigh.high > 1 ∨ mlow.high > 1 then none
  else if ¬(mlow.high < mhigh.high ∨ mlow.high = mhigh.high ∧ mlow.low < mhigh.low) then none
  else
    let r := reduceToLowest lgup mlow mhigh
    let mask := h.bit n - 1
    if n < h.bits then some ⟨if r.2.low ≥ mask then 1 else 0, r.2.low &&& mask, r.1, lgup⟩
    else some ⟨r.2.high, r.2.low, r.1, lgup⟩

end ChooseMultiplier

/-- What the target answers: `BRANCH_COST`, whether a division by a power of two is cheap, and
whether it has a multiplication for the high half and a store-flag insn. -/
structure DivTarget where
  branchCost : Nat
  sdivPow2Cheap : Bool
  smodPow2Cheap : Bool
  multHighpart : Bool
  storeFlag : Bool

/-- `seq` builds the result from the constant; `fail` leaves it to a division insn or call. -/
inductive Expansion (w : Nat) where
  | abort
  | fail
  | seq (e : DivExpr w)
  deriving DecidableEq, Repr

inductive DivCode where
  | trunc | floor
  deriving DecidableEq, Repr

section ExpandDivmod

variable {h : Host} {w : Nat} (t : DivTarget) (rem : Bool)

def finishDivmod (op0 quotient op1 : DivExpr w) : Expansion w :=
  .seq (if rem then .minus op0 (.mult quotient op1) else quotient)

/-- The multiplier and `pre_shift` of an unsigned division. -/
def chooseUnsigned (w : Nat) (d : BitVec h.bits) : Option (Multiplier h × Nat) :=
  (chooseMultiplier d w w).bind fun r =>
    if r.mh ≠ 0 ∧ d &&& 1 = 0 then
      let preShift := floorLog2 (d &&& -d).toNat
      (chooseMultiplier (d >>> preShift) w (w - preShift)).bind fun r =>
        if r.mh ≠ 0 then none else some (r, preShift)
    else some (r, 0)

/-- The unsigned half of the `TRUNC` cases. -/
def expandTruncUnsigned (op0 : DivExpr w) (d : BitVec h.bits) : Expansion w :=
  let op1 : DivExpr w := .const (d.setWidth w)
  if exactPowerOf2OrZero d then
    let preShift := floorLog2 d.toNat
    if rem then .seq (.and op0 (.const ((h.bit preShift - 1).setWidth w)))
    else finishDivmod rem op0 (.lshiftrt op0 preShift) op1
  else if ¬w ≤ h.bits then .fail
  else if d ≥ h.bit (w - 1) then
    if t.storeFlag then finishDivmod rem op0 (.geu op0 op1) op1 else .fail
  else
    match chooseUnsigned w d with
    | none => .abort
    | some (r, preShift) =>
        let ml : DivExpr w := .const (r.ml.setWidth w)
        if ¬t.multHighpart then .fail
        else if r.mh ≠ 0 then
          let t1 := .umulHighpart op0 ml
          let t2 := .minus op0 t1
          let t3 := .lshiftrt t2 1
          let t4 := .plus t1 t3
          finishDivmod rem op0 (.lshiftrt t4 (r.postShift - 1)) op1
        else
          let t1 := .lshiftrt op0 preShift
          let t2 := .umulHighpart t1 ml
          finishDivmod rem op0 (.lshiftrt t2 r.postShift) op1

/-- `abs_d`. -/
def absWord (d : BitVec h.bits) : BitVec h.bits := if d.msb then -d else d

def remDivisor (d : BitVec h.bits) : BitVec h.bits := if rem && d.msb then absWord d else d

/-- "We have computed OP0 / abs(OP1)." for a power of two. -/
def truncPow2 (op0 : DivExpr w) (absD : BitVec h.bits) : DivExpr w :=
  let lgup := floorLog2 absD.toNat
  if absD ≠ 2 ∧ t.branchCost < 3 then
    .ashiftrt (.incIfNeg op0 (.const ((absD - 1).setWidth w))) lgup
  else
    let t1 := .ashiftrt op0 (w - 1)
    let t2 := .lshiftrt t1 (w - lgup)
    .ashiftrt (.plus op0 t2) lgup

def truncMultiply (op0 : DivExpr w) (negative : Bool) (r : Multiplier h) : DivExpr w :=
  let t4 := .ashiftrt op0 (w - 1)
  let t3 :=
    if r.ml < h.bit (w - 1) then
      .ashiftrt (.smulHighpart op0 (.const (r.ml.setWidth w))) r.postShift
    else
      let ml : BitVec h.bits := r.ml ||| BitVec.allOnes h.bits <<< (w - 1)
      let t1 := .smulHighpart op0 (.const (ml.setWidth w))
      .ashiftrt (.plus t1 op0) r.postShift
  if negative then .minus t4 t3 else .minus t3 t4

/-- The signed half of the `TRUNC` cases. -/
def expandTruncSigned (op0 : DivExpr w) (d : BitVec h.bits) : Expansion w :=
  let absD := absWord d
  let d := remDivisor rem d
  let op1 : DivExpr w := .const (d.setWidth w)
  if d = 1 then finishDivmod rem op0 op0 op1
  else if d = -1 then finishDivmod rem op0 (.neg op0) op1
  else if absD = h.bit (w - 1) then
    if t.storeFlag then finishDivmod rem op0 (.eq op0 op1) op1 else .fail
  else if exactPowerOf2OrZero d && (if rem then t.smodPow2Cheap else t.sdivPow2Cheap) then .fail
  else if exactPowerOf2OrZero absD then
    let quotient := truncPow2 t op0 absD
    finishDivmod rem op0 (if d.msb then .neg quotient else quotient) op1
  else if ¬w ≤ h.bits then .fail
  else
    match chooseMultiplier absD w (w - 1) with
    | none => .abort
    | some r =>
        if t.multHighpart then finishDivmod rem op0 (truncMultiply op0 d.msb r) op1 else .fail

/-- The `FLOOR` cases, which are signed. -/
def expandFloor (op0 : DivExpr w) (d : BitVec h.bits) : Expansion w :=
  let op1 : DivExpr w := .const (d.setWidth w)
  if ¬w ≤ h.bits then .fail
  else if !d.msb then
    if exactPowerOf2OrZero d then
      let preShift := floorLog2 d.toNat
      if rem then .seq (.and op0 (.const ((h.bit preShift - 1).setWidth w)))
      else finishDivmod rem op0 (.ashiftrt op0 preShift) op1
    else
      match chooseMultiplier d w (w - 1) with
      | none => .abort
      | some r =>
          if r.mh ≠ 0 then .abort
          else if ¬t.multHighpart then .fail
          else
            let t1 := .ashiftrt op0 (w - 1)
            let t2 := .xor op0 t1
            let t3 := .umulHighpart t2 (.const (r.ml.setWidth w))
            let t4 := .lshiftrt t3 r.postShift
            finishDivmod rem op0 (.xor t4 t1) op1
  else
    let t1 := .plus op0 (.const (-1))
    let t2 := .ior op0 t1
    let nsign := .ashiftrt t2 (w - 1)
    let t3 := .minus t1 nsign
    match expandTruncSigned t false t3 d with
    | .abort => .abort
    | .fail => .fail
    | .seq t4 => finishDivmod rem op0 (.plus t4 (.not nsign)) op1

/-- The loop of `invert_mod2n`. -/
def invertLoop (x mask : BitVec h.bits) (n nbit : Nat) (hpos : 0 < nbit) (y : BitVec h.bits) :
    BitVec h.bits :=
  if nbit < n then invertLoop x mask n (nbit * 2) (by omega) (y * (2 - x * y) &&& mask) else y
termination_by n - nbit

def invertMod2n (x : BitVec h.bits) (n : Nat) : BitVec h.bits :=
  let mask := if n = h.bits then ~~~0 else h.bit n - 1
  invertLoop x mask n 3 (by decide) x

/-- `expand_divmod` at a constant `op1`, given by its `INTVAL`. -/
def expandDivmod (code : DivCode) (unsignedp : Bool) (op1 : BitVec h.bits) : Expansion w :=
  if op1 = 1 then .seq (if rem then .const 0 else .dividend)
  else if op1 = 0 then .fail
  else if unsignedp then expandTruncUnsigned t rem .dividend op1
  else
    match code with
    | .trunc => expandTruncSigned t rem .dividend op1
    | .floor => expandFloor t rem .dividend op1

end ExpandDivmod

/-- The `CONST_INT` of a constant: sign-extended, or zero-extended in an unsigned operation. -/
def IsIntval {h : Host} {w : Nat} (unsignedp : Bool) (c : BitVec w) (op1 : BitVec h.bits) : Prop :=
  op1 = c.signExtend h.bits ∨ unsignedp = true ∧ op1 = c.setWidth h.bits

/-- The rounded quotient. -/
def DivCode.quotient {w : Nat} (code : DivCode) (unsignedp : Bool) (n c : BitVec w) : Int :=
  if unsignedp then n.toNat / c.toNat
  else
    match code with
    | .trunc => n.toInt.tdiv c.toInt
    | .floor => n.toInt.fdiv c.toInt

/-- A dividend without remainder. -/
def ExactMultiple {w : Nat} (unsignedp : Bool) (n c : BitVec w) : Prop :=
  if unsignedp then c.toNat ∣ n.toNat else c.toInt ∣ n.toInt

/-- The quotient or the remainder in the mode. -/
def DivCode.result {w : Nat} (code : DivCode) (rem unsignedp : Bool) (n c : BitVec w) : BitVec w :=
  let q := BitVec.ofInt w (code.quotient unsignedp n c)
  if rem then n - q * c else q

/-- No abort is reached, and a sequence computes `f` of the dividend. -/
def Expansion.Computes {w : Nat} (f : BitVec w → BitVec w) : Expansion w → Prop
  | .abort => False
  | .fail => True
  | .seq e => ∀ n, e.eval n = f n

end Z80Gcc
