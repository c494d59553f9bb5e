import Z80Gcc.Spec.DoubleInt
import Mathlib.Algebra.Order.Group.Unbundled.Int

/-! `div_and_round_double` of fold-const.c in full: the division of two doubleword integers, signed
or unsigned, with its four ways to round. -/

namespace Z80Gcc

namespace Host

variable (h : Host)

section Multiply

/-- The inner loop of `mul_double`, over the digits of the second factor, with `prod` from place
`i` on; the last carry goes to `prod[i + 4]`. -/
def mulRow (arg1 : Nat) : List Nat → List Nat → Nat → List Nat
  | arg2 :: rest, prod :: prods, carry =>
      let carry := h.word (h.word (carry + h.word (arg1 * arg2)) + prod)
      h.lowpart carry :: mulRow arg1 rest prods (h.highpart carry)
  | [], _ :: prods, carry => carry :: prods
  | _, [], _ => []

def mulRows : List Nat → List Nat → List Nat → List Nat
  | arg1 :: rest, arg2, prod =>
      match h.mulRow arg1 arg2 prod 0 with
      | p :: prods => p :: mulRows rest arg2 prods
      | [] => []
  | [], _, prod => prod

end Multiply

section LongDivide

/-- The loop that subtracts `quoEst` times the divisor. -/
def mulSubDigits (quoEst : Nat) : List Nat → List Nat → Nat → List Nat × Nat
  | num :: nums, den :: dens, carry =>
      let digit := h.mulSubDigit quoEst num den carry
      let rest := mulSubDigits quoEst nums dens digit.2
      (digit.1 :: rest.1, rest.2)
  | _, _, carry => ([], carry)

def addBackDigits : List Nat → List Nat → Nat → List Nat × Nat
  | num :: nums, den :: dens, carry =>
      let digit := h.addBackDigit num den carry
      let rest := addBackDigits nums dens digit.2
      (digit.1 :: rest.1, rest.2)
  | _, _, carry => ([], carry)

/-- One turn of the main loop, for a divisor of any number of digits: `s` holds the digits
`num[i + 1]` to `num[num_hi_sig]`, and `num` is `num[i]`. -/
def quotientDigits (den : List Nat) (num : Nat) (s : List Nat) : List Nat × Nat :=
  let window := num :: s
  let top := window.getD den.length 0
  let den1 := den.getD (den.length - 1) 0
  let work := h.word (h.word (top * h.base) + window.getD (den.length - 1) 0)
  let quoEst := if top ≠ den1 then work / den1 else h.base - 1
  let tmp := h.wordSub work (h.word (quoEst * den1))
  let quoEst :=
    if tmp < h.base ∧ h.word (den.getD (den.length - 2) 0 * quoEst) >
        h.word (h.word (tmp * h.base) + window.getD (den.length - 2) 0) then
      h.wordSub quoEst 1
    else quoEst
  let r := h.mulSubDigits quoEst window den 0
  if top < r.2 then ((h.addBackDigits r.1 den 0).1, h.wordSub quoEst 1) else (r.1, quoEst)

/-- `den_hi_sig`: the place of the highest digit that is not zero. -/
def hiSig : List Nat → Nat
  | [] => 0
  | _ :: dens => if ∀ d ∈ dens, d = 0 then 0 else hiSig dens + 1

/-- The division by a divisor that is not below `BASE`; `num[4]` takes the dividend's carry. -/
def longDivide (num den : List Nat) : List Nat :=
  let denHiSig := hiSig den
  let scale := h.base / (den.getD denHiSig 0 + 1)
  let num := if scale > 1 then h.scaleDigits scale num 0 else (num, 0)
  let den := if scale > 1 then (h.scaleDigits scale den 0).1 else den
  let denHiSig := if scale > 1 then hiSig den else denHiSig
  let digits := num.1 ++ [num.2]
  ((digits.take (4 - denHiSig)).mapAccumr (h.quotientDigits (den.take (denHiSig + 1)))
    (digits.drop (4 - denHiSig))).2 ++ List.replicate denHiSig 0

end LongDivide

end Host

inductive DivTreeCode where
  | truncDivExpr | truncModExpr | exactDivExpr
  | floorDivExpr | floorModExpr
  | ceilDivExpr | ceilModExpr
  | roundDivExpr | roundModExpr
  deriving DecidableEq, Repr

namespace DoubleInt

variable {h : Host}

/-- `mul_double`, with its test for overflow. -/
def mulDouble (x y : DoubleInt h) : DoubleInt h × Bool :=
  let prod := h.mulRows x.digits y.digits (List.replicate 8 0)
  let v : DoubleInt h := ofDigits prod
  let top : DoubleInt h := ofDigits (prod.drop 4)
  let top := if x.high.msb then (addDouble y.negDouble.1 top).1 else top
  let top := if y.high.msb then (addDouble x.negDouble.1 top).1 else top
  (v, (if v.high.msb then ~~~(top.low &&& top.high) else top.low ||| top.high) != 0)

section DivAndRound

/-- What is stored into `*lquo`, `*hquo`, `*lrem` and `*hrem`, and what is returned. -/
structure DivResult (h : Host) where
  overflow : Bool
  quo : DoubleInt h
  rem : DoubleInt h

def unsignedQuotient (num den : DoubleInt h) : DoubleInt h :=
  if num.high = 0 ∧ den.high = 0 then ⟨num.low / den.low, 0⟩
  else if num.high = 0 then ⟨0, 0⟩
  else if den.high = 0 ∧ den.low.slt (BitVec.ofNat h.bits h.base) then
    ofDigits (num.digits.mapAccumr (h.shortDigit den.low.toNat) 0).2
  else ofDigits (h.longDivide num.digits den.digits)

/-- `rem = num - (quo * den)`. -/
def remainder (num quo den : DoubleInt h) : DoubleInt h :=
  (num.addDouble (quo.mulDouble den).1.negDouble.1).1

/-- `if (2 * abs (rem) >= abs (den))`, as the code tests it. -/
def roundsUp (rem den : DoubleInt h) : Bool :=
  let absRem := if rem.high.msb then rem.negDouble.1 else rem
  let absDen := if den.high.msb then den.negDouble.1 else den
  let twice := ((⟨2, 0⟩ : DoubleInt h).mulDouble absRem).1
  absDen.high.ult twice.high || absDen.high == twice.high && absDen.low.ult twice.low

/-- The sign as `uns` lets the code see it, and the number without it. -/
def isNeg (uns : Bool) (x : DoubleInt h) : Bool := !uns && x.high.msb

def absolute (uns : Bool) (x : DoubleInt h) : DoubleInt h :=
  if isNeg uns x then x.negDouble.1 else x

def trialQuotient (uns : Bool) (num den : DoubleInt h) : DoubleInt h :=
  let quo := unsignedQuotient (absolute uns num) (absolute uns den)
  if isNeg uns num != isNeg uns den then quo.negDouble.1 else quo

/-- What the `switch` adds to the quotient; `none` where it returns at once. -/
def correction (code : DivTreeCode) (quoNeg : Bool) (quo rem den : DoubleInt h) :
    Option (DoubleInt h) :=
  match code with
  | .truncDivExpr | .truncModExpr | .exactDivExpr => none
  | .floorDivExpr | .floorModExpr =>
      if quoNeg && (rem.low != 0 || rem.high != 0) then some ⟨-1, -1⟩ else none
  | .ceilDivExpr | .ceilModExpr =>
      if !quoNeg && (rem.low != 0 || rem.high != 0) then some ⟨1, 0⟩ else none
  | .roundDivExpr | .roundModExpr =>
      if roundsUp rem den then some (if quo.high.msb then ⟨-1, -1⟩ else ⟨1, 0⟩) else none

def divAndRound (code : DivTreeCode) (uns : Bool) (numOrig denOrig : DoubleInt h) : DivResult h :=
  let zero := decide (denOrig.high = 0 ∧ denOrig.low = 0)
  let den := if zero then ⟨1, denOrig.high⟩ else denOrig
  -- the minimum divided by -1
  let overflow :=
    zero || isNeg uns numOrig && (numOrig.negDouble.2 && den.low &&& den.high == -1)
  let quo := trialQuotient uns numOrig den
  let rem := remainder numOrig quo denOrig
  match correction code (isNeg uns numOrig != isNeg uns den) quo rem (absolute uns den) with
  | none => ⟨overflow, quo, rem⟩
  | some step =>
      let quo := (quo.addDouble step).1
      ⟨overflow, quo, remainder numOrig quo denOrig⟩

end DivAndRound

section Purpose

/-! What the division is for. -/

/-- The two words as one. -/
def bv (x : DoubleInt h) : BitVec (h.bits + h.bits) := x.high ++ x.low

def value (x : DoubleInt h) (uns : Bool) : Int := if uns then x.bv.toNat else x.bv.toInt

/-- The quotient of integers, rounded as the code says; a tie is rounded away from zero. -/
def roundedQuotient (code : DivTreeCode) (num den : Int) : Int :=
  match code with
  | .truncDivExpr | .truncModExpr | .exactDivExpr => num.tdiv den
  | .floorDivExpr | .floorModExpr => num.fdiv den
  | .ceilDivExpr | .ceilModExpr => -((-num).fdiv den)
  | .roundDivExpr | .roundModExpr =>
      if 2 * |num.tmod den| ≥ |den| then
        if num < 0 ↔ den < 0 then num.tdiv den + 1 else num.tdiv den - 1
      else num.tdiv den

/-- The signed minimum divided by -1. -/
def Overflows (uns : Bool) (num den : DoubleInt h) : Prop :=
  uns = false ∧ num.bv = BitVec.intMin (h.bits + h.bits) ∧ den.bv = -1

/-- What a division promises: it reports just a zero divisor and an overflow, and otherwise the
quotient is rounded as the code says and the remainder is what that quotient leaves. -/
def DividesRight (code : DivTreeCode) (uns : Bool) (num den : DoubleInt h) (r : DivResult h) :
    Prop :=
  (r.overflow = true ↔ den.bv = 0 ∨ Overflows uns num den) ∧
    (den.bv ≠ 0 → ¬Overflows uns num den →
      r.quo.value uns = roundedQuotient code (num.value uns) (den.value uns) ∧
        r.rem.bv = BitVec.ofInt _ (num.value uns - r.quo.value uns * den.value uns))

end Purpose

end DoubleInt

end Z80Gcc
