import Z80Gcc.Spec.ETypeIeee

/-! Integers and reals: `ereal_from_int`, `ereal_from_uint`, `ereal_to_int` and `eifrac`. A host word has 32 bits, a
`REAL_VALUE_TYPE` is a double, and `FIXUNS_TRUNC_LIKE_FIX_TRUNC` is defined. What `warning` prints is left out. -/

namespace Z80Gcc.Emulator

open BinaryFloat

abbrev HostWord := BitVec 32

section Integer

def eldexp (c : RoundControl) (x : EType) (pwr2 : Int) : EType × RoundControl :=
  let xi := emovi x
  let r := emdnorm c xi false false (xi.exp.toNat + pwr2) 64
  (emovo r.1, r.2)

/-- The end of `ltoe` and `ultoe`. -/
def fromWord (sign : Word) (ll : HostWord) : EType :=
  let sig : Sig := (ll >>> 16).setWidth 16 ::ᵥ ll.setWidth 16 ::ᵥ zeros 5
  let (k, sig) := enormlz sig
  if nbits < k then emovo ⟨0, 0, zeros 7⟩
  else emovo ⟨sign, BitVec.ofInt 16 (exone + 15) - BitVec.ofInt 16 k, sig⟩

def ultoe (lp : HostWord) : EType := fromWord 0 lp

/-- The end of `eifrac` and `euifrac`: what is under the high guard word is the fraction. -/
def fractionOf (sig : Sig) : EType :=
  let (k, sig) := enormlz (0 ::ᵥ sig.tail)
  if nbits < k then emovo ⟨0, 0, zeros 7⟩
  else emovo ⟨0, BitVec.ofInt 16 (exone - 1) - BitVec.ofInt 16 k, sig⟩

/-- Shift more than 16 bits: first by `k mod 16`, then by 16's. -/
def shiftOut (sig : Sig) (k : Nat) : HostWord × Sig :=
  let sig := (eshift sig (k % 16 : Nat)).2
  let body (r : HostWord × Sig) : HostWord × Sig :=
    let sig := eshup6 r.2
    (r.1 <<< 16 ||| (word sig 2).setWidth 32, sig)
  body^[k / 16] ((word sig 2).setWidth 32, sig)

/-- Shift not more than 16 bits. -/
def shiftFew (sig : Sig) (k : Nat) : HostWord × Sig :=
  let sig := (eshift sig k).2
  ((word sig 2).setWidth 32 &&& 0xffff, sig)

def euifrac (x : EType) : HostWord × EType :=
  let xi := emovi x
  let k : Int := xi.exp.toNat - (exone - 1)
  if k ≤ 0 then (0, emovo xi)
  else
    let (i, sig) :=
      if 32 < k then (~~~0, (eshift xi.sig k).2) else if 16 < k then shiftOut xi.sig k.toNat else shiftFew xi.sig k.toNat
    -- a negative value yields unsigned integer 0
    (if xi.sign ≠ 0 then 0 else i, fractionOf sig)

def eifrac (x : EType) : HostWord × EType :=
  let xi := emovi x
  let k : Int := xi.exp.toNat - (exone - 1)
  if k ≤ 0 then (0, emovo xi)
  else if 31 < k then
    if xi.sign ≠ 0 then ((1 : HostWord) <<< 31, fractionOf (eshift xi.sig k).2)
    -- let it overflow and convert as if unsigned
    else euifrac x
  else
    let (i, sig) := if 16 < k then shiftOut xi.sig k.toNat else shiftFew xi.sig k.toNat
    (if xi.sign ≠ 0 then -i else i, fractionOf sig)

end Integer

section Real

/-- What `ereal_from_int` and `ereal_from_uint` make of two words. -/
def fromWords (c : RoundControl) (low high : HostWord) : EType × RoundControl :=
  let (df, c) := eldexp c eone 32
  let dg := ultoe high
  let (dg, c) := emul c dg df dg
  eadd c (ultoe low) dg

/-- Round off to the requested precision, and `PUT_REAL`. Modes of 96 and of 128 bits are left out. -/
def putRounded (mode : Format) (bigEndian : Bool) (c : RoundControl) (dg : EType) : Packed .double × RoundControl :=
  match mode with
  | .single =>
    let (df, c) := etoe24 bigEndian c dg
    etoe53 bigEndian c (e24toe df)
  | .double =>
    let (df, c) := etoe53 bigEndian c dg
    etoe53 bigEndian c (e53toe df)

def erealFromInt (mode : Format) (bigEndian : Bool) (c : RoundControl) (i j : HostWord) : Packed .double × RoundControl :=
  let sign := j.slt 0
  -- complement and add 1
  let (low, high) := if sign then if i ≠ 0 then (-i, ~~~j) else (i, ~~~j + 1) else (i, j)
  let (dg, c) := fromWords c low high
  putRounded mode bigEndian c (if sign then eneg dg else dg)

def erealFromUint (mode : Format) (bigEndian : Bool) (c : RoundControl) (i j : HostWord) : Packed .double × RoundControl :=
  let (dg, c) := fromWords c i j
  putRounded mode bigEndian c dg

/-- `ereal_to_int` after `GET_REAL`: the low word, and the high one. The words of `old` are those that the quotient
replaces. -/
def toWords (c : RoundControl) (d old : EType) : HostWord × HostWord :=
  if eisnan d then (-1, -1)
  else
    -- convert positive value
    let s := eisneg d
    let d := if s then eneg d else d
    let (df, c) := eldexp c eone 32
    let (dg, c) := ediv c df d old
    let (high, dh) := euifrac dg
    let (dg, _) := emul c df dh dg
    let (low, _) := euifrac dg
    -- complement and add 1
    if s then if low ≠ 0 then (-low, ~~~high) else (low, ~~~high + 1) else (low, high)

def erealToInt (c : RoundControl) (rr : Packed .double) (old : EType) : HostWord × HostWord := toWords c (e53toe rr) old

end Real

section Meaning

/-- The integer part. -/
def EType.trunc (x : EType) : Int := (if eisneg x then -1 else 1) * (x.magnitude / unitsInOne : Nat)

def IsNearestTo (f : Packed .single) (v : Int) : Prop :=
  f.sign = decide (v < 0) ∧
    f.bits = min Format.single.overflow (roundMagnitude 23 (v.natAbs * Format.single.units) 1)

/-- The four conversions do what they are to do, the last one of `x`. -/
structure ConvertsRight (bigEndian : Bool) (c : RoundControl) (x old : EType) : Prop where
  fromInt : ∀ i j, ∃ f, IsNearestTo f (j ++ i).toInt ∧ (erealFromInt .single bigEndian c i j).1.number.Same f.number
  fromUint : ∀ i j, ∃ f, IsNearestTo f (j ++ i).toNat ∧ (erealFromUint .single bigEndian c i j).1.number.Same f.number
  toInt : x.magnitude < 2 ^ 63 * unitsInOne →
    (toWords c x old).2 ++ (toWords c x old).1 = BitVec.ofInt 64 x.trunc
  frac : -2 ^ 31 ≤ x.trunc → x.trunc < 2 ^ 31 → (eifrac x).1 = BitVec.ofInt 32 x.trunc ∧
    ∃ neg n, (eifrac x).2.number = .finite neg n unitsInOne ∧ n < unitsInOne ∧ (neg = true → n = 0) ∧
      x.magnitude = x.magnitude / unitsInOne * unitsInOne + n

/-- A fraction that keeps its sign. -/
def KeepsSign (x : EType) : Prop := eisneg x = true ∧ 0 < x.magnitude ∧ x.magnitude < unitsInOne

end Meaning

end Z80Gcc.Emulator
