import Z80Gcc.Lib.BinaryFloat
import Mathlib.Data.BitVec

/-! The floating point library fp-bit.c: the constants of its two versions, `unpack_d`, `pack_d`, the comparisons and the conversions. -/

namespace Z80Gcc.FpBit

/-- The constants under `#ifdef FLOAT`, with what the routines rely on. -/
structure Format where
  nGards : Nat
  gardRound : Nat
  gardMask : Nat
  gardMsb : Nat
  expBits : Nat
  expBias : Nat
  fracBits : Nat
  expMax : Nat
  quietNan : Nat
  fracNbits : Nat
  gards_ge : 3 ≤ nGards
  gardMsb_eq : gardMsb = 2 ^ (nGards - 1)
  gardRound_eq : gardRound + 1 = gardMsb
  gardMask_eq : gardMask = 2 ^ nGards - 1
  expMax_eq : expMax = 2 ^ expBits - 1
  expBias_eq : 2 * expBias + 1 = expMax
  width_eq : fracBits + expBits + 1 = fracNbits
  sign_offset : fracBits ||| expBits = fracBits + expBits
  room : fracBits + nGards + 2 ≤ fracNbits
  long_exp : 2 * fracNbits ≤ expBias
  quiet_pos : 0 < quietNan
  quiet_lt : quietNan < 2 ^ fracBits
  int_fits : 30 ≤ fracBits + nGards

def float : Format where
  nGards := 7
  gardRound := 0x3f
  gardMask := 0x7f
  gardMsb := 0x40
  expBits := 8
  expBias := 127
  fracBits := 23
  expMax := 0xff
  quietNan := 0x100000
  fracNbits := 32
  gards_ge := by decide
  gardMsb_eq := by decide
  gardRound_eq := by decide
  gardMask_eq := by decide
  expMax_eq := by decide
  expBias_eq := by decide
  width_eq := by decide
  sign_offset := by decide
  room := by decide
  long_exp := by decide
  quiet_pos := by decide
  quiet_lt := by decide
  int_fits := by decide

def double : Format where
  nGards := 8
  gardRound := 0x7f
  gardMask := 0xff
  gardMsb := 0x80
  expBits := 11
  expBias := 1023
  fracBits := 52
  expMax := 0x7ff
  quietNan := 0x8000000000000
  fracNbits := 64
  gards_ge := by decide
  gardMsb_eq := by decide
  gardRound_eq := by decide
  gardMask_eq := by decide
  expMax_eq := by decide
  expBias_eq := by decide
  width_eq := by decide
  sign_offset := by decide
  room := by decide
  long_exp := by decide
  quiet_pos := by decide
  quiet_lt := by decide
  int_fits := by decide

namespace Format

variable (f : Format)

/-- `FLO_type`, as its `value_raw`. -/
abbrev Raw : Type := BitVec f.fracNbits

/-- `NORMAL_EXPMIN`, `IMPLICIT_1` and `IMPLICIT_2`. -/
def normalExpMin : Int := -f.expBias + 1
def implicit1 : Nat := 1 <<< (f.fracBits + f.nGards)
def implicit2 : Nat := 1 <<< (f.fracBits + 1 + f.nGards)

/-- A result of `fractype`. -/
def word (x : Nat) : Nat := x % 2 ^ f.fracNbits

end Format

inductive FpClass where
  | snan | qnan | zero | number | infinity
  deriving DecidableEq, Repr

/-- `fp_number_type`. The fraction has its point under the bit `IMPLICIT_1`; a zero and an infinity have neither exponent nor
fraction set, and none is looked at. -/
structure FpNumber where
  fpClass : FpClass
  sign : Bool
  normalExp : Int
  fraction : Nat
  deriving DecidableEq, Repr

namespace FpNumber

def isnan (x : FpNumber) : Bool := x.fpClass = .snan || x.fpClass = .qnan
def isinf (x : FpNumber) : Bool := x.fpClass = .infinity
def iszero (x : FpNumber) : Bool := x.fpClass = .zero

end FpNumber

/-- `nan ()`: a static variable that is never set. -/
def nan : FpNumber := ⟨.snan, false, 0, 0⟩

def lshift (a : Nat) : Nat := (a &&& 1) ||| (a >>> 1)

section Pack

variable (f : Format)

/-- The loop that shifts a fraction up to `IMPLICIT_1`; a fraction of 0 is not given to it, or stops it. -/
def normalize (fraction : Nat) (normalExp : Int) : Nat × Int :=
  if fraction < f.implicit1 ∧ 0 < fraction then normalize (fraction <<< 1) (normalExp - 1) else (fraction, normalExp)
termination_by f.implicit1 - fraction
decreasing_by
  rw [Nat.shiftLeft_eq]
  omega

/-- The exponent and the fraction that `pack_d` puts together for a number that is not 0. -/
def packNumber (normalExp : Int) (fraction : Nat) : Nat × Nat :=
  if normalExp < f.normalExpMin then
    let shift := f.normalExpMin - normalExp
    let fraction := if shift > f.fracNbits - f.nGards then 0 else fraction >>> shift.toNat
    (0, fraction >>> f.nGards)
  else if normalExp > f.expBias then (f.expMax, 0)
  else
    let exp := (normalExp + f.expBias).toNat
    let fraction :=
      if fraction &&& f.gardMask = f.gardMsb then
        if fraction &&& (1 <<< f.nGards) ≠ 0 then f.word (fraction + (f.gardRound + 1)) else fraction
      else f.word (fraction + f.gardRound)
    if fraction ≥ f.implicit2 then (exp + 1, fraction >>> 1 >>> f.nGards) else (exp, fraction >>> f.nGards)

def assemble (sign : Bool) (exp fraction : Nat) : f.Raw :=
  BitVec.ofNat f.fracNbits ((fraction &&& ((1 <<< f.fracBits) - 1)) ||| (exp &&& ((1 <<< f.expBits) - 1)) <<< f.fracBits |||
    sign.toNat <<< (f.fracBits ||| f.expBits))

def packD (src : FpNumber) : f.Raw :=
  if src.isnan then assemble f src.sign f.expMax (src.fraction ||| f.quietNan)
  else if src.isinf then assemble f src.sign f.expMax 0
  else if src.iszero then assemble f src.sign 0 0
  else if src.fraction = 0 then assemble f src.sign 0 0
  else
    let p := packNumber f src.normalExp src.fraction
    assemble f src.sign p.1 p.2

def unpackD (src : f.Raw) : FpNumber :=
  let fraction := src.toNat &&& ((1 <<< f.fracBits) - 1)
  let exp := (src.toNat >>> f.fracBits) &&& ((1 <<< f.expBits) - 1)
  let sign := (src.toNat >>> (f.fracBits + f.expBits)) &&& 1 = 1
  if exp = 0 then
    if fraction = 0 then ⟨.zero, sign, 0, 0⟩
    else
      let p := normalize f (fraction <<< f.nGards) (exp - f.expBias + 1)
      ⟨.number, sign, p.2, p.1⟩
  else if exp = f.expMax then
    if fraction = 0 then ⟨.infinity, sign, 0, 0⟩
    else ⟨if fraction &&& f.quietNan ≠ 0 then .qnan else .snan, sign, 0, fraction⟩
  else ⟨.number, sign, exp - f.expBias, (fraction <<< f.nGards) ||| f.implicit1⟩

end Pack

section Compare

variable (f : Format)

def fpcmpParts (a b : FpNumber) : Int :=
  if a.isnan || b.isnan then 1
  else if a.isinf && b.isinf then b.sign.toNat - a.sign.toNat
  else if a.isinf then if a.sign then -1 else 1
  else if b.isinf then if b.sign then 1 else -1
  else if a.iszero && b.iszero then 0
  else if a.iszero then if b.sign then 1 else -1
  else if b.iszero then if a.sign then -1 else 1
  else if a.sign ≠ b.sign then if a.sign then -1 else 1
  else if a.normalExp > b.normalExp then if a.sign then -1 else 1
  else if a.normalExp < b.normalExp then if a.sign then 1 else -1
  else if a.fraction > b.fraction then if a.sign then -1 else 1
  else if a.fraction < b.fraction then if a.sign then 1 else -1
  else 0

/-- The comparisons differ in what they return for a NaN. -/
def compareF2 (unordered : Int) (a b : f.Raw) : Int :=
  let a := unpackD f a
  let b := unpackD f b
  if a.isnan || b.isnan then unordered else fpcmpParts a b

def eqF2 (a b : f.Raw) : Int := compareF2 f 1 a b
def neF2 (a b : f.Raw) : Int := compareF2 f 1 a b
def gtF2 (a b : f.Raw) : Int := compareF2 f (-1) a b
def geF2 (a b : f.Raw) : Int := compareF2 f (-1) a b
def ltF2 (a b : f.Raw) : Int := compareF2 f 1 a b
def leF2 (a b : f.Raw) : Int := compareF2 f 1 a b

end Compare

section Convert

variable (f : Format)

/-- `-2147483648.0`. -/
def minIntConst : f.Raw := assemble f true (31 + f.expBias) 0

def siToFloat (arg : BitVec 32) : f.Raw :=
  let sign := arg.slt 0
  if arg = 0 then packD f ⟨.zero, sign, 0, 0⟩
  else if sign ∧ arg = 0x80000000 then minIntConst f
  else
    let fraction := if sign then (-arg).toNat else arg.toNat
    let p := normalize f fraction (f.fracBits + f.nGards)
    packD f ⟨.number, sign, p.2, p.1⟩

/-- `MAX_SI_INT`; an `unsigned` has 16 bits. -/
def maxSiInt : BitVec 32 := (BitVec.allOnes 16 >>> 1).setWidth 32

def floatToSi (arg : f.Raw) : BitVec 32 :=
  let a := unpackD f arg
  if a.iszero then 0
  else if a.isnan then 0
  else if a.isinf then if a.sign then -maxSiInt - 1 else maxSiInt
  else if a.normalExp < 0 then 0
  else if a.normalExp > 30 then if a.sign then -maxSiInt - 1 else maxSiInt
  else
    let tmp := BitVec.ofNat 32 (a.fraction >>> (f.fracBits + f.nGards - a.normalExp).toNat)
    if a.sign then -tmp else tmp

end Convert

section Ieee

variable {f : Format}

/-- The sign of a number, and its bits without it. -/
def neg (x : f.Raw) : Bool := x.msb
def bits (x : f.Raw) : Nat := x.toNat % 2 ^ (f.fracBits + f.expBits)

/-- An infinity; what is above is a NaN. -/
def Format.infBits (f : Format) : Nat := f.expMax * 2 ^ f.fracBits

def IsNan (x : f.Raw) : Prop := f.infBits < bits x
def IsInf (x : f.Raw) : Prop := bits x = f.infBits
def IsFinite (x : f.Raw) : Prop := bits x < f.infBits

instance (x : f.Raw) : Decidable (IsNan x) := inferInstanceAs (Decidable (f.infBits < bits x))
instance (x : f.Raw) : Decidable (IsInf x) := inferInstanceAs (Decidable (bits x = f.infBits))
instance (x : f.Raw) : Decidable (IsFinite x) := inferInstanceAs (Decidable (bits x < f.infBits))

/-- The smallest subnormal is `2 ^ -f.quantum`; values are counted in it. -/
def Format.quantum (f : Format) : Nat := f.expBias - 1 + f.fracBits

def magnitude (x : f.Raw) : Nat := BinaryFloat.magnitude f.fracBits (bits x)

/-- The value of a number that is no NaN; an infinity is above all others. -/
def value (x : f.Raw) : Int := if neg x then -(magnitude x : Int) else magnitude x

def pattern (f : Format) (sign : Bool) (bits : Nat) : f.Raw :=
  BitVec.ofNat f.fracNbits (bits + sign.toNat * 2 ^ (f.fracBits + f.expBits))

/-- `n / d` rounded to nearest, ties to even, with overflow to an infinity. -/
def IsRounded (sign : Bool) (n d : Nat) (r : f.Raw) : Prop :=
  ∃ b, BinaryFloat.IsNearest f.fracBits n d b ∧ r = pattern f sign (min b f.infBits)

/-- The comparisons as their callers test them: of a NaN only the inequality holds. -/
structure Compares (f : Format) (a b : f.Raw) : Prop where
  eq : eqF2 f a b = 0 ↔ (¬ IsNan a ∧ ¬ IsNan b) ∧ value a = value b
  ne : neF2 f a b ≠ 0 ↔ ¬ ((¬ IsNan a ∧ ¬ IsNan b) ∧ value a = value b)
  gt : gtF2 f a b > 0 ↔ (¬ IsNan a ∧ ¬ IsNan b) ∧ value a > value b
  ge : geF2 f a b ≥ 0 ↔ (¬ IsNan a ∧ ¬ IsNan b) ∧ value a ≥ value b
  lt : ltF2 f a b < 0 ↔ (¬ IsNan a ∧ ¬ IsNan b) ∧ value a < value b
  le : leF2 f a b ≤ 0 ↔ (¬ IsNan a ∧ ¬ IsNan b) ∧ value a ≤ value b

/-- A number with its fraction dropped, or the nearer of the limits of `SItype`. -/
def truncated (a : f.Raw) : Int :=
  let n := (value a).tdiv (2 ^ f.quantum)
  if -2 ^ 31 ≤ n ∧ n < 2 ^ 31 then n else if neg a then -2 ^ 31 else 2 ^ 31 - 1

/-- What the comparisons, the conversions and the packing are to be, for two numbers and an integer. -/
structure ConversionsRight (f : Format) (a b : f.Raw) (n : BitVec 32) : Prop where
  compare : Compares f a b
  siToFloat : IsRounded (decide (n.toInt < 0)) (n.toInt.natAbs * 2 ^ f.quantum) 1 (siToFloat f n)
  floatToSi : ¬ IsNan a → (floatToSi f a).toInt = truncated a
  pack : ¬ IsNan a → packD f (unpackD f a) = a

end Ieee

end Z80Gcc.FpBit
