import Z80Gcc.Spec.FpBit

/-! The arithmetic of fp-bit.c: `add` and `sub`, `multiply` and `divide`. -/

namespace Z80Gcc.FpBit

section Add

variable (f : Format)

/-- A value as `intfrac`. -/
def Format.intfrac (x : Int) : Int := x.bmod (2 ^ f.fracNbits)

/-- The loop that shifts a fraction down until its exponent is not less than the other. -/
def alignTo (fraction : Nat) (exp target : Int) : Nat × Int :=
  if target > exp then alignTo (lshift fraction) (exp + 1) target else (fraction, exp)
termination_by (target - exp).toNat

/-- The fractions of two numbers for one exponent, and the exponent. -/
def alignParts (a b : FpNumber) : Nat × Nat × Int :=
  let diff := (a.normalExp - b.normalExp).natAbs
  if diff < f.fracNbits then
    let b' := alignTo b.fraction b.normalExp a.normalExp
    let a' := alignTo a.fraction a.normalExp b'.2
    (a'.1, b'.1, a'.2)
  else if a.normalExp > b.normalExp then (a.fraction, 0, a.normalExp)
  else (0, b.fraction, b.normalExp)

/-- The sum of two fractions with their signs, not yet shifted down. -/
def addFractions (aSign bSign : Bool) (aFraction bFraction : Nat) (exp : Int) : FpNumber :=
  if aSign ≠ bSign then
    let tfraction := f.intfrac (if aSign then -aFraction + bFraction else aFraction - bFraction)
    let p := normalize f (f.word tfraction.natAbs) exp
    ⟨.number, !(tfraction ≥ 0), p.2, p.1⟩
  else ⟨.number, aSign, exp, f.word (aFraction + bFraction)⟩

def renormalize (tmp : FpNumber) : FpNumber :=
  if tmp.fraction ≥ f.implicit2 then { tmp with fraction := lshift tmp.fraction, normalExp := tmp.normalExp + 1 } else tmp

def fpaddParts (a b : FpNumber) : FpNumber :=
  if a.isnan then a
  else if b.isnan then b
  else if a.isinf then if b.isinf && a.sign ≠ b.sign then nan else a
  else if b.isinf then b
  else if b.iszero then if a.iszero then { a with sign := a.sign && b.sign } else a
  else if a.iszero then b
  else
    let p := alignParts f a b
    renormalize f (addFractions f a.sign b.sign p.1 p.2.1 p.2.2)

def add (a b : f.Raw) : f.Raw := packD f (fpaddParts f (unpackD f a) (unpackD f b))

def sub (a b : f.Raw) : f.Raw :=
  let b := unpackD f b
  packD f (fpaddParts f (unpackD f a) { b with sign := !b.sign })

end Add

section Multiply

/-- The versions of the library: with `FLOAT` and without. -/
inductive Version where
  | float | double
  deriving DecidableEq, Repr

def Version.format : Version → Format
  | .float => FpBit.float
  | .double => FpBit.double

/-- The product of two fractions as a high and a low word. -/
def mulWords : Version → Nat → Nat → Nat × Nat
  | .float, x, y =>
    let answer := BitVec.ofNat 64 x * BitVec.ofNat 64 y
    (((answer.sshiftRight 32).setWidth 32).toNat, (answer.setWidth 32).toNat)
  | .double, x, y =>
    let nl := BitVec.ofNat 64 x &&& 0xffffffff#64
    let nh := BitVec.ofNat 64 x >>> 32
    let ml := BitVec.ofNat 64 y &&& 0xffffffff#64
    let mh := BitVec.ofNat 64 y >>> 32
    let ppLl := ml * nl
    let ppHl := mh * nl
    let ppLh := ml * nh
    let ppHh := mh * nh
    let psHh := ppHl + ppLh
    let res2 := if psHh < ppHl then 0x100000000#64 else 0#64
    let ppHl := (psHh <<< 32) &&& 0xffffffff00000000#64
    let res0 := ppLl + ppHl
    let res2 := if res0 < ppLl then res2 + 1#64 else res2
    let res2 := res2 + (((psHh >>> 32) &&& 0xffffffff#64) + ppHh)
    (res2.toNat, res0.toNat)

/-- What is added to the exponents for the place of the point in the high word. -/
def mulExp : Version → Int
  | .float => 2
  | .double => 4

variable (f : Format)

def Format.fracHigh : Nat := 1 <<< (f.fracNbits - 1)

/-- The loop that shifts a product down. It shifts the low word only under an odd high one, but no product is that long. -/
def mulDown (high low : Nat) (exp : Int) : Nat × Nat × Int :=
  if high ≥ f.implicit2 then mulDown (high >>> 1) (if high &&& 1 ≠ 0 then low >>> 1 ||| f.fracHigh else low) (exp + 1)
  else (high, low, exp)
termination_by high
decreasing_by
  have hpos : 0 < f.implicit2 := by
    rw [Format.implicit2, Nat.one_shiftLeft]
    exact Nat.two_pow_pos _
  rw [Nat.shiftRight_eq_div_pow]
  omega

/-- The loop that shifts a product up; the high word is not 0. -/
def mulUp (high low : Nat) (exp : Int) : Nat × Nat × Int :=
  if high < f.implicit1 ∧ 0 < high then
    mulUp (high <<< 1 ||| if low &&& f.fracHigh ≠ 0 then 1 else 0) (f.word (low <<< 1)) (exp - 1)
  else (high, low, exp)
termination_by f.implicit1 - high
decreasing_by
  next h =>
    refine Nat.sub_lt_sub_left h.1 (Nat.lt_of_lt_of_le ?_ Nat.left_le_or)
    rw [Nat.shiftLeft_eq]
    omega

/-- The rounding where the guards are half way, if `pack_d` would not see what is below them; `rest` is that. -/
def roundHalfway (fraction rest : Nat) : Nat :=
  if fraction &&& f.gardMask = f.gardMsb then
    if fraction &&& (1 <<< f.nGards) ≠ 0 then f.word (fraction + (f.gardRound + 1))
    else if rest ≠ 0 then f.word (fraction + (f.gardRound + 1))
    else fraction
  else fraction

def fpmulParts (v : Version) (a b : FpNumber) : FpNumber :=
  let sign := a.sign ≠ b.sign
  if a.isnan then { a with sign := sign }
  else if b.isnan then { b with sign := sign }
  else if a.isinf then if b.iszero then nan else { a with sign := sign }
  else if b.isinf then if a.iszero then nan else { b with sign := sign }
  else if a.iszero then { a with sign := sign }
  else if b.iszero then { b with sign := sign }
  else
    let p := mulWords v a.fraction b.fraction
    let p := mulDown v.format p.1 p.2 (a.normalExp + b.normalExp + mulExp v)
    let p := mulUp v.format p.1 p.2.1 p.2.2
    ⟨.number, sign, p.2.2, roundHalfway v.format p.1 p.2.1⟩

def multiply (v : Version) (a b : v.format.Raw) : v.format.Raw :=
  packD v.format (fpmulParts v (unpackD v.format a) (unpackD v.format b))

end Multiply

section Divide

variable (f : Format)

/-- The division loop: the quotient, and what is left of the numerator. -/
def divLoop (bit numerator denominator quotient : Nat) : Nat × Nat :=
  if 0 < bit then
    let p := if numerator ≥ denominator then (quotient ||| bit, numerator - denominator) else (quotient, numerator)
    divLoop (bit >>> 1) (f.word (p.2 * 2)) denominator p.1
  else (quotient, numerator)
termination_by bit
decreasing_by
  rw [Nat.shiftRight_eq_div_pow]
  omega

def fpdivParts (a b : FpNumber) : FpNumber :=
  if a.isnan then a
  else if b.isnan then b
  else
    let a := { a with sign := a.sign ^^ b.sign }
    if a.isinf || a.iszero then if a.fpClass = b.fpClass then nan else a
    else if b.isinf then { a with fraction := 0, normalExp := 0 }
    else if b.iszero then { a with fpClass := .infinity }
    else
      let exp := a.normalExp - b.normalExp
      let less := a.fraction < b.fraction
      let p := divLoop f f.implicit1 (if less then f.word (a.fraction * 2) else a.fraction) b.fraction 0
      { a with normalExp := if less then exp - 1 else exp, fraction := roundHalfway f p.1 p.2 }

def divide (a b : f.Raw) : f.Raw := packD f (fpdivParts f (unpackD f a) (unpackD f b))

end Divide

section Ieee

variable {f : Format}

/-- The number with the other sign. -/
def opposite (x : f.Raw) : f.Raw := pattern f (!neg x) (bits x)

/-- The sum of two numbers that are no NaN; where it is 0 it is negative only if both are. -/
def IsSum (a b r : f.Raw) : Prop :=
  if IsInf a ∧ IsInf b ∧ neg a ≠ neg b then IsNan r
  else if IsInf a then r = a
  else if IsInf b then r = b
  else if value a + value b = 0 then r = pattern f (neg a && neg b) 0
  else IsRounded (decide (value a + value b < 0)) (value a + value b).natAbs 1 r

/-- The product of two numbers that are no NaN. -/
def IsProduct (a b r : f.Raw) : Prop :=
  if IsInf a ∧ bits b = 0 ∨ bits a = 0 ∧ IsInf b then IsNan r
  else if IsInf a ∨ IsInf b then r = pattern f (neg a ^^ neg b) f.infBits
  else IsRounded (neg a ^^ neg b) (magnitude a * magnitude b) (2 ^ f.quantum) r

/-- The quotient of two numbers that are no NaN. -/
def IsQuotient (a b r : f.Raw) : Prop :=
  if IsInf a ∧ IsInf b ∨ bits a = 0 ∧ bits b = 0 then IsNan r
  else if IsInf a ∨ bits b = 0 then r = pattern f (neg a ^^ neg b) f.infBits
  else if IsInf b then r = pattern f (neg a ^^ neg b) 0
  else IsRounded (neg a ^^ neg b) (magnitude a * 2 ^ f.quantum) (magnitude b) r

/-- Where `n / d`, in quanta, is rounded as it should be: from the smallest normal number on; below it where nothing is rounded up,
or where all bits above the guards are set and the guards are half way, so that the rounding before the packing carries through them,
but not into the normal numbers. -/
def Rounds (f : Format) (n d : Nat) : Prop :=
  2 ^ f.fracBits * d ≤ n ∨ BinaryFloat.roundEven n d = n / d ∨
    ∃ h, 0 < h ∧ (2 ^ f.fracBits * d ≤ n * 2 ^ h ∧ n * 2 ^ h < 2 ^ (f.fracBits + 1) * d) ∧
      2 ^ (f.nGards + h) ∣ n * 2 ^ (f.nGards + h) / d + f.gardMsb ∧ n / d + 1 < 2 ^ f.fracBits

/-- The products that are rounded right, and the quotients. -/
def ProductRounds (a b : f.Raw) : Prop := IsInf a ∨ IsInf b ∨ Rounds f (magnitude a * magnitude b) (2 ^ f.quantum)

def QuotientRounds (a b : f.Raw) : Prop := IsInf a ∨ IsInf b ∨ bits b = 0 ∨ Rounds f (magnitude a * 2 ^ f.quantum) (magnitude b)

end Ieee

end Z80Gcc.FpBit
