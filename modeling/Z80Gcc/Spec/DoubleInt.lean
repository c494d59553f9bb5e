import Mathlib.Data.BitVec
import Mathlib.Data.List.Defs

/-! The doubleword integers of fold-const.c: a low and a high `HOST_WIDE_INT`. -/

namespace Z80Gcc

/-- The compiler's host; `HOST_BITS_PER_WIDE_INT` is at least 32, and fold-const.c halves it. -/
structure Host where
  bits : Nat
  wide : 32 ≤ bits
  even : bits % 2 = 0
  /-- A word shifted to the left by all its bits, which C leaves open. -/
  shiftByWord : BitVec bits → BitVec bits
  shiftByWord_zero : shiftByWord 0 = 0

/-- `<<` on an `unsigned HOST_WIDE_INT`, by at most all its bits. -/
def Host.shl (h : Host) (x : BitVec h.bits) (n : Nat) : BitVec h.bits :=
  if n < h.bits then x <<< n else h.shiftByWord x

/-- A host with 32-bit words, which takes the count of a shift modulo 32. -/
def host32 : Host := ⟨32, le_refl 32, rfl, id, rfl⟩

/-- `TREE_INT_CST_LOW` and `TREE_INT_CST_HIGH`. -/
@[ext] structure DoubleInt (h : Host) where
  low : BitVec h.bits
  high : BitVec h.bits
  deriving DecidableEq

namespace DoubleInt

variable {h : Host}

/-- The constant of a value of an unsigned or signed type of `w` bits, as `force_fit_type` leaves
it. -/
def ofBits {w : Nat} (unsigned : Bool) (x : BitVec w) : DoubleInt h :=
  if unsigned then ⟨x.setWidth h.bits, 0⟩
  else ⟨x.signExtend h.bits, if x.msb then -1 else 0⟩

/-- `rshift_double`; `count` is not negative. -/
def rshiftDouble (x : DoubleInt h) (count : Nat) (prec : Nat) (arith : Bool) : DoubleInt h :=
  let signmask : BitVec h.bits := if arith then -(x.high >>> (h.bits - 1)) else 0
  let count := count % prec
  if count ≥ h.bits then
    ⟨signmask <<< (2 * h.bits - count - 1) <<< 1 ||| x.high >>> (count - h.bits), signmask⟩
  else
    ⟨x.low >>> count ||| x.high <<< (h.bits - count - 1) <<< 1,
      h.shl signmask (h.bits - count) ||| x.high >>> count⟩

/-- `lshift_double`; a negative count shifts right. -/
def lshiftDouble (x : DoubleInt h) (count : Int) (prec : Nat) (arith : Bool) : DoubleInt h :=
  if count < 0 then rshiftDouble x (-count).toNat prec arith
  else
    let count := count.toNat % prec
    if count ≥ h.bits then ⟨0, x.low <<< (count - h.bits)⟩
    else
      ⟨x.low <<< count, x.high <<< count ||| x.low >>> (h.bits - count - 1) >>> 1⟩

/-- The value that `force_fit_type` leaves of a constant in a type of `w` bits. -/
def toBits (x : DoubleInt h) (w : Nat) : BitVec w := x.low.setWidth w

def toNat (x : DoubleInt h) : Nat := x.high.toNat * 2 ^ h.bits + x.low.toNat

def overflowSumSign {w : Nat} (a b sum : BitVec w) : Bool :=
  (~~~(a ^^^ b) &&& (a ^^^ sum)).msb

/-- `add_double`, with its test for overflow. -/
def addDouble (x y : DoubleInt h) : DoubleInt h × Bool :=
  let l := x.low + y.low
  let hi := x.high + y.high + if l.ult x.low then 1 else 0
  (⟨l, hi⟩, overflowSumSign x.high y.high hi)

def negDouble (x : DoubleInt h) : DoubleInt h × Bool :=
  if x.low = 0 then (⟨0, -x.high⟩, (-x.high &&& x.high).msb) else (⟨-x.low, ~~~x.high⟩, false)

end DoubleInt

namespace Host

variable (h : Host)

/-- `BASE`, the base of the half-word digits. -/
def base : Nat := 2 ^ (h.bits / 2)

/-- A number as an `unsigned HOST_WIDE_INT` keeps it. -/
def word (x : Nat) : Nat := x % 2 ^ h.bits

def wordSub (x y : Nat) : Nat := h.word (x + (2 ^ h.bits - h.word y))

/-- `LOWPART` and `HIGHPART`. -/
def lowpart (x : Nat) : Nat := x % h.base
def highpart (x : Nat) : Nat := x / h.base

/-- One turn of the loop for a divisor below `BASE`. -/
def shortDigit (lden num carry : Nat) : Nat × Nat :=
  let work := h.word (num + h.word (carry * h.base))
  (work % lden, work / lden)

/-- The loops that scale the dividend and the divisor; the second part is the last carry. -/
def scaleDigits (scale : Nat) : List Nat → Nat → List Nat × Nat
  | [], carry => ([], carry)
  | num :: rest, carry =>
      let work := h.word (h.word (num * scale) + carry)
      let r := scaleDigits scale rest (h.highpart work)
      (h.lowpart work :: r.1, r.2)

/-- One turn of the loop that subtracts `quoEst` times the divisor: the digit and the carry. -/
def mulSubDigit (quoEst num den carry : Nat) : Nat × Nat :=
  let prod := h.word (h.word (quoEst * den) + carry)
  let work := h.wordSub num (h.lowpart prod)
  (h.lowpart work, h.word (h.highpart prod + if h.highpart work ≠ 0 then 1 else 0))

def addBackDigit (num den carry : Nat) : Nat × Nat :=
  let work := h.word (h.word (num + den) + carry)
  (h.lowpart work, h.highpart work)

/-- One turn of the main loop for a divisor of two digits: `s` holds `num[num_hi_sig]` and
`num[num_hi_sig - 1]`, and `num` is the digit below. -/
def quotientDigit (den1 den0 num : Nat) (s : Nat × Nat) : (Nat × Nat) × Nat :=
  let work := h.word (h.word (s.1 * h.base) + s.2)
  let quoEst := if s.1 ≠ den1 then work / den1 else h.base - 1
  let tmp := h.wordSub work (h.word (quoEst * den1))
  let quoEst :=
    if tmp < h.base ∧ h.word (den0 * quoEst) > h.word (h.word (tmp * h.base) + num) then
      h.wordSub quoEst 1
    else quoEst
  let n0 := h.mulSubDigit quoEst num den0 0
  let n1 := h.mulSubDigit quoEst s.2 den1 n0.2
  if s.1 < n1.2 then
    let m0 := h.addBackDigit n0.1 den0 0
    let m1 := h.addBackDigit n1.1 den1 m0.2
    ((m1.1, m0.1), h.wordSub quoEst 1)
  else ((n1.1, n0.1), quoEst)

/-- The division by a divisor of two digits, after scaling; `num[4]` takes the dividend's carry. -/
def longDigits (num : List Nat) (den1 den0 : Nat) : List Nat :=
  let scale := h.base / (den1 + 1)
  let num := if scale > 1 then h.scaleDigits scale num 0 else (num, 0)
  let den := if scale > 1 then (h.scaleDigits scale [den0, den1] 0).1 else [den0, den1]
  ((num.1.take 3).mapAccumr (h.quotientDigit (den.getD 1 0) (den.getD 0 0))
    (num.2, num.1.getD 3 0)).2 ++ [0]

end Host

namespace DoubleInt

variable {h : Host}

/-- `encode`. -/
def digits (x : DoubleInt h) : List Nat :=
  [h.lowpart x.low.toNat, h.highpart x.low.toNat, h.lowpart x.high.toNat, h.highpart x.high.toNat]

/-- `decode`. -/
def ofDigits (words : List Nat) : DoubleInt h where
  low := BitVec.ofNat h.bits (words.getD 0 0 ||| words.getD 1 0 * h.base)
  high := BitVec.ofNat h.bits (words.getD 2 0 ||| words.getD 3 0 * h.base)

/-- `div_and_round_double` for `TRUNC_DIV_EXPR` with `uns` set and a divisor of one word: the
quotient. The test for a small divisor compares signed words. -/
def divAndRoundDouble (num : DoubleInt h) (lden : BitVec h.bits) : DoubleInt h :=
  let lden := if lden = 0 then 1 else lden
  if num.high = 0 then ⟨num.low / lden, 0⟩
  else if lden.slt (BitVec.ofNat h.bits h.base) then
    ofDigits (num.digits.mapAccumr (h.shortDigit lden.toNat) 0).2
  else
    ofDigits (h.longDigits num.digits (h.highpart lden.toNat) (h.lowpart lden.toNat))

end DoubleInt

/-- The `LSHIFT_EXPR` and `RSHIFT_EXPR` cases of `int_const_binop`: a right shift is a left shift by
the negated count. -/
def intConstShift {w : Nat} (h : Host) (right unsigned : Bool) (x : BitVec w) (n : BitVec 16) :
    BitVec w :=
  let int2l : Int := if right then -n.toNat else n.toNat
  ((DoubleInt.ofBits unsigned x : DoubleInt h).lshiftDouble int2l w (!unsigned)).toBits w

end Z80Gcc
