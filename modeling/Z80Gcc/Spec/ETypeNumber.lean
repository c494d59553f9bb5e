import Z80Gcc.Lib.BinaryFloat
import Z80Gcc.Spec.EType

/-! What e-type numbers stand for, and what the operations on them are to store: the exact result, rounded to the
nearest number. -/

namespace Z80Gcc.Emulator

open WordList BinaryFloat

section Numbers

/-- A number that is computed exactly; a finite one is a fraction with a sign. -/
inductive Number where
  | nan
  | infinite (neg : Bool)
  | finite (neg : Bool) (n d : Nat)

namespace Number

def neg : Number → Number
  | nan => nan
  | infinite s => infinite !s
  | finite s n d => finite (!s) n d

/-- A sum of numbers with different signs that is zero is positive. -/
def add : Number → Number → Number
  | nan, _ => nan
  | _, nan => nan
  | infinite s, infinite t => if s = t then infinite s else nan
  | infinite s, finite _ _ _ => infinite s
  | finite _ _ _, infinite t => infinite t
  | finite s m c, finite t n d =>
      if s = t then finite s (m * d + n * c) (c * d)
      else if n * c < m * d then finite s (m * d - n * c) (c * d)
      else if m * d < n * c then finite t (n * c - m * d) (c * d)
      else finite false 0 (c * d)

def sub (x y : Number) : Number := x.add y.neg

def mul : Number → Number → Number
  | nan, _ => nan
  | _, nan => nan
  | infinite s, infinite t => infinite (s ^^ t)
  | infinite s, finite t n _ => if n = 0 then nan else infinite (s ^^ t)
  | finite s m _, infinite t => if m = 0 then nan else infinite (s ^^ t)
  | finite s m c, finite t n d => finite (s ^^ t) (m * n) (c * d)

/-- A quotient; the divisor is not zero. -/
def div : Number → Number → Number
  | nan, _ => nan
  | _, nan => nan
  | infinite _, infinite _ => nan
  | infinite s, finite t _ _ => infinite (s ^^ t)
  | finite s _ _, infinite t => finite (s ^^ t) 0 1
  | finite s m c, finite t n d => finite (s ^^ t) (m * d) (c * n)

end Number

end Numbers

section Meaning

def EType.significand (x : EType) : Nat := value x.sig.toList

def EType.exponent (x : EType) : Nat := (x.top &&& 0x7fff).toNat

/-- The format: the top bit of the significand is set, unless the exponent is zero; an infinity has no significand. -/
def EType.WellFormed (x : EType) : Prop :=
  if x.exponent = 0x7fff then x.significand = 0 else x.exponent ≠ 0 → 2 ^ 79 ≤ x.significand

instance (x : EType) : Decidable x.WellFormed :=
  inferInstanceAs (Decidable (if x.exponent = 0x7fff then x.significand = 0 else x.exponent ≠ 0 → 2 ^ 79 ≤ x.significand))

def unitsInOne : Nat := 2 ^ (exone.toNat + 79)

/-- The number of smallest denormals that a finite number is. -/
def EType.magnitude (x : EType) : Nat := x.significand * 2 ^ x.exponent

def EType.number (x : EType) : Number :=
  if x.exponent = 0x7fff then if x.significand = 0 then .infinite (eisneg x) else .nan
  else .finite (eisneg x) x.magnitude unitsInOne

def infinity (neg : Bool) : EType := ⟨zeros 5, if neg then 0xffff else 0x7fff⟩

def encode (neg : Bool) (exp sig : Nat) : EType :=
  ⟨⟨WordList.ofNat 16 5 sig, WordList.length_ofNat 16 5 sig⟩, BitVec.ofNat 16 exp ||| if neg then 0x8000 else 0⟩

/-- The number with some bits: the exponent above the fraction, with the top bit of the significand counted into it. -/
def ofBits (neg : Bool) (bits : Nat) : EType :=
  if 0x7fff * 2 ^ 79 + 2 ^ 79 ≤ bits then infinity neg
  else
    let exp := bits / 2 ^ 79 - 1
    encode neg exp (bits - exp * 2 ^ 79)

/-- `x` is the number, rounded to the nearest one of 80 bits; it is a NaN if that is none. -/
def Stores (x : EType) : Number → Prop
  | .nan => eisnan x = true
  | .infinite neg => x = infinity neg
  | .finite neg n d => x = ofBits neg (roundMagnitude 79 (n * unitsInOne) d)

/-- The addition of the magnitudes carries out of the significand, and the only bit that the smaller number has below
the guard word's last one is the bit that this loses: it decides between two numbers that are as near without it. -/
def LosesCarryFrom (small big : EType) : Prop :=
  small.exponent + 16 ≤ big.exponent ∧ big.exponent + 1 < 0x7fff ∧
    small.significand % 2 ^ (big.exponent - small.exponent) = 2 ^ (big.exponent - small.exponent - 16) ∧
    2 ^ 80 ≤ big.significand + small.significand / 2 ^ (big.exponent - small.exponent) ∧
    (big.significand + small.significand / 2 ^ (big.exponent - small.exponent)) % 4 = 1

instance (small big : EType) : Decidable (LosesCarryFrom small big) :=
  inferInstanceAs (Decidable (_ ∧ _ ∧ _ ∧ _ ∧ _))

def LosesCarry (a b : EType) : Prop := LosesCarryFrom a b ∨ LosesCarryFrom b a

instance (a b : EType) : Decidable (LosesCarry a b) := inferInstanceAs (Decidable (_ ∨ _))

/-- The four operations store what they are to store, whatever the words of `old` are. -/
structure ArithRight (c : RoundControl) (a b old : EType) : Prop where
  eadd : Stores (eadd c a b).1 (a.number.add b.number)
  esub : Stores (esub c a b).1 (b.number.sub a.number)
  emul : Stores (emul c a b old).1 (a.number.mul b.number)
  ediv : (∀ neg d, a.number ≠ .finite neg 0 d) → Stores (ediv c a b old).1 (b.number.div a.number)

end Meaning

end Z80Gcc.Emulator
