import Z80Gcc.Spec.ETypeNumber

/-! Single and double precision in the emulator: `etoe24`, `toe24` and `e24toe`, and `etoe53`, `toe53` and `e53toe`. -/

namespace Z80Gcc.Emulator

open WordList BinaryFloat

inductive Format where
  | single | double

namespace Format

def low : Format → Nat
  | single => 1
  | double => 3

def high : Format → Nat
  | single => 7
  | double => 4

def precision : Format → Precision
  | single => .p24
  | double => .p53

def top : Format → Nat
  | single => 255
  | double => 2047

def one : Format → Nat
  | single => 0x7f
  | double => 0x3ff

def infinity : Format → Word
  | single => 0x7f80
  | double => 0x7ff0

def mask : Format → Word
  | single => 0x7f
  | double => 0x0f

def implied : Format → Word
  | single => 0x80
  | double => 0x10

def stripped : Format → Word
  | single => 0x807f
  | double => 0x800f

/-- The first word of `SFlittlenan` and `DFlittlenan`. -/
def littlenan : Format → Word
  | single => 0xffc0
  | double => 0xfff8

theorem low_le (fmt : Format) : fmt.low ≤ 6 := by
  cases fmt <;> decide

end Format

section Conversion

/-- The words of a float, the most significant one first; the target says which one comes first in memory. -/
structure Packed (fmt : Format) where
  high : Word
  low : List.Vector Word fmt.low

variable (fmt : Format)

def makeNan (bigEndian sign : Bool) : Packed fmt :=
  let nan : Packed fmt :=
    if bigEndian then ⟨0x7fff, List.Vector.replicate _ 0xffff⟩ else ⟨fmt.littlenan, zeros _⟩
  { nan with high := (if sign then 0x8000 else 0) ||| nan.high &&& 0x7fff }

/-- Convert an exploded number that has already been rounded to the precision. -/
def toIeee (bigEndian : Bool) (x : Exploded) : Packed fmt :=
  if eiisnan x then makeNan fmt bigEndian (eiisneg x)
  else
    let y : Word := if x.sign ≠ 0 then 0x8000 else 0
    if fmt.top ≤ x.exp.toNat then ⟨y ||| fmt.infinity, zeros _⟩
    else
      let (i, sig) :=
        if x.exp = 0 then (x.exp, (eshift x.sig fmt.high).2) else (x.exp <<< fmt.high, (eshift x.sig (fmt.high + 1)).2)
      ⟨y ||| (i ||| word sig 2 &&& fmt.mask), sig.toList.tail.take fmt.low, by
        rw [List.length_take, List.length_tail, sig.toList_length]
        exact Nat.min_eq_left fmt.low_le⟩

def etoIeee (bigEndian : Bool) (c : RoundControl) (x : EType) : Packed fmt × RoundControl :=
  if eisnan x then (makeNan fmt bigEndian (eisneg x), c)
  else
    let xi := emovi x
    -- adjust exponent for offsets
    let exp : Int := xi.exp.toNat - (exone - fmt.one)
    if eisinf x then (toIeee fmt bigEndian xi, c)
    else
      let r := emdnorm (c.withPrecision fmt.precision) xi false false exp 64
      (toIeee fmt bigEndian r.1, r.2.withPrecision c.rndprc)

def moveIn {fmt : Format} (m : Word) (low : List.Vector Word fmt.low) : Sig :=
  ⟨m :: (low.toList ++ List.replicate (6 - fmt.low) 0), by
    have hle := fmt.low_le
    rw [List.length_cons, List.length_append, low.toList_length, List.length_replicate]
    omega⟩

def ieeeToe (pe : Packed fmt) : EType :=
  let sign : Word := if pe.high &&& 0x8000 ≠ 0 then 0xffff else 0
  let m := pe.high &&& fmt.mask ||| fmt.implied
  let r := pe.high &&& ~~~fmt.stripped
  if r = fmt.infinity then
    if pe.high &&& fmt.mask ≠ 0 ∨ pe.low.toList.any (· ≠ 0) then enan (sign ≠ 0)
    else
      let y := einfin eclear
      if sign ≠ 0 then eneg y else y
  else
    let r := r >>> fmt.high
    -- take back the understood high significand bit of a denormal
    let m := if r = 0 then m &&& ~~~fmt.implied else m
    let exp := r + BitVec.ofInt 16 (exone - fmt.one)
    let sig := (eshift (moveIn m pe.low) (-(fmt.high + 1 : Nat))).2
    if r = 0 then
      let (k, sig) := enormlz sig
      if nbits < k then emovo (ecleazs ⟨sign, exp, sig⟩)
      else emovo ⟨sign, exp - BitVec.ofInt 16 (k - 1), sig⟩
    else emovo ⟨sign, exp, sig⟩

def toe24 := toIeee .single

def etoe24 := etoIeee .single

def e24toe := ieeeToe .single

def toe53 := toIeee .double

def etoe53 := etoIeee .double

def e53toe := ieeeToe .double

end Conversion

section Meaning

namespace Format

def fraction (fmt : Format) : Nat := fmt.high + 16 * fmt.low

/-- The pattern of the infinity. -/
def overflow (fmt : Format) : Nat := fmt.top * 2 ^ fmt.fraction

def units (fmt : Format) : Nat := 2 ^ (fmt.one + fmt.fraction - 1)

end Format

namespace Packed

variable {fmt : Format} (f : Packed fmt)

def sign : Bool := 2 ^ 15 ≤ f.high.toNat

/-- The pattern without its sign. -/
def bits : Nat := f.high.toNat % 2 ^ 15 * 2 ^ (16 * fmt.low) + value f.low.toList

def number : Number :=
  if fmt.overflow < f.bits then .nan
  else if f.bits = fmt.overflow then .infinite f.sign
  else .finite f.sign (magnitude fmt.fraction f.bits) fmt.units

end Packed

def Number.Same : Number → Number → Prop
  | nan, nan => True
  | infinite s, infinite t => s = t
  | finite s m c, finite t n d => s = t ∧ m * d = n * c
  | _, _ => False

/-- The conversions to and from a precision. -/
structure IeeeRight (fmt : Format) (toFormat : EType → Packed fmt) (fromFormat : Packed fmt → EType) : Prop where
  rounds : ∀ x : EType, x.WellFormed → ∀ neg n d, x.number = .finite neg n d →
    (toFormat x).sign = neg ∧ (toFormat x).bits = min fmt.overflow (roundMagnitude fmt.fraction (n * fmt.units) d)
  exact : ∀ f : Packed fmt, f.number ≠ .nan → (fromFormat f).WellFormed ∧ (fromFormat f).number.Same f.number
  back : ∀ f : Packed fmt, f.number ≠ .nan → toFormat (fromFormat f) = f

end Meaning

end Z80Gcc.Emulator
