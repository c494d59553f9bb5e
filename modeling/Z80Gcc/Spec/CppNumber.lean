import Mathlib.Data.List.Basic
import Mathlib.Data.BitVec

/-! Integers in `#if` (cppexp.c), and what the C standard takes as an integer constant. -/

namespace Z80Gcc.Cpp

/-- What `parse_number` complains about. -/
inductive NumberDiag where
  | float | invalid | tooManyL | tooManyU | beyondRadix | outOfRange | soLarge
  deriving DecidableEq, Repr

def NumberDiag.text : NumberDiag → String
  | float => "floating point numbers are not allowed in #if expressions"
  | invalid => "invalid number in #if expression"
  | tooManyL => "too many `l' suffixes in integer constant"
  | tooManyU => "too many `u' suffixes in integer constant"
  | beyondRadix => "integer constant contains digits beyond the radix"
  | outOfRange => "integer constant out of range"
  | soLarge => "integer constant is so large that it is unsigned"

/-- `cpp_error`, `cpp_pedwarn` and `cpp_warning`. -/
inductive Severity where
  | error | pedwarn | warning
  deriving DecidableEq, Repr

def NumberDiag.severity : NumberDiag → Severity
  | float | invalid | tooManyL | tooManyU => .error
  | beyondRadix | outOfRange => .pedwarn
  | soLarge => .warning

/-- `struct operation`, with the `op` in the constructor; the field `unsignedp` is a `char`. -/
inductive Operation (w : Nat) where
  | int (value : BitVec w) (unsignedp : BitVec 8)
  | error
  deriving DecidableEq, Repr

/-- A `char` as an `int`. -/
def charValue (charSigned : Bool) (c : BitVec 8) : Int := if charSigned then c.toInt else c.toNat

def numberBase : List Char → Nat × List Char
  | '0' :: c :: d :: p => if c = 'x' ∨ c = 'X' then (16, d :: p) else (8, c :: d :: p)
  | '0' :: p => (8, p)
  | p => (10, p)

def digitOf (base : Nat) (c : Char) : Option Nat :=
  if '0' ≤ c ∧ c ≤ '9' then some (c.toNat - '0'.toNat)
  else if base = 16 ∧ 'a' ≤ c ∧ c ≤ 'f' then some (c.toNat - 'a'.toNat + 10)
  else if base = 16 ∧ 'A' ≤ c ∧ c ≤ 'F' then some (c.toNat - 'A'.toNat + 10)
  else none

structure Scan (w : Nat) where
  n : BitVec w
  overflow : Bool
  largestDigit : Nat
  deriving DecidableEq, Repr

section Parse

variable {w : Nat}

def Scan.start : Scan w := ⟨0, false, 0⟩

def maxOverBase (w base : Nat) : BitVec w := BitVec.allOnes w / BitVec.ofNat w base

def Scan.add (base : Nat) (s : Scan w) (digit : Nat) : Scan w :=
  let nd := s.n * BitVec.ofNat w base + BitVec.ofNat w digit
  { n := nd
    overflow := s.overflow || (maxOverBase w base < s.n || nd < s.n)
    largestDigit := if s.largestDigit < digit then digit else s.largestDigit }

/-- The loop over the digits, and what is left behind them; `none` at a point. -/
def scanDigits (base : Nat) : List Char → Scan w → Option (List Char × Scan w)
  | [], s => some ([], s)
  | c :: p, s =>
    match digitOf base c with
    | some digit => scanDigits base p (s.add base digit)
    | none => if c = '.' then none else some (c :: p, s)

/-- `spec_long` and `op.unsignedp`. -/
structure Suffix where
  specLong : Nat
  unsignedp : BitVec 8
  deriving DecidableEq, Repr

def isLong (c : Char) : Bool := c = 'l' || c = 'L'
def isUnsigned (c : Char) : Bool := c = 'u' || c = 'U'

def scanSuffix : List Char → Suffix → List Char × Suffix
  | [], s => ([], s)
  | c :: p, s =>
    if isLong c then scanSuffix p { s with specLong := s.specLong + 1 }
    else if isUnsigned c then scanSuffix p { s with unsignedp := s.unsignedp + 1 }
    else (c :: p, s)

def maxLong (c89 : Bool) : Nat := if c89 then 1 else 2

/-- The end of `parse_number`. -/
def finishNumber (base : Nat) (s : Scan w) (unsignedp : BitVec 8) : Operation w × List NumberDiag :=
  let radix := if base ≤ s.largestDigit then [NumberDiag.beyondRadix] else []
  if s.overflow then (.int s.n unsignedp, radix ++ [.outOfRange])
  else if s.n.msb ∧ unsignedp = 0 then (.int s.n 1, radix ++ if base = 10 then [.soLarge] else [])
  else (.int s.n unsignedp, radix)

/-- `parse_number`, with the option `-lang-c89` and the signedness of the host's `char`. -/
def parseNumber (w : Nat) (c89 charSigned : Bool) (token : List Char) : Operation w × List NumberDiag :=
  let start := numberBase token
  match scanDigits start.1 start.2 (Scan.start : Scan w) with
  | none => (.error, [.float])
  | some (p, s) =>
    let suffix := scanSuffix p ⟨0, 0⟩
    if suffix.1 ≠ [] then (.error, [.invalid])
    else if maxLong c89 < suffix.2.specLong then (.error, [.tooManyL])
    else if 1 < charValue charSigned suffix.2.unsignedp then (.error, [.tooManyU])
    else finishNumber start.1 s suffix.2.unsignedp

end Parse

section Constants

inductive BasePrefix : Nat → List Char → Prop
  | hex {x : Char} (hx : x = 'x' ∨ x = 'X') : BasePrefix 16 ['0', x]
  | octal : BasePrefix 8 ['0']
  | decimal : BasePrefix 10 []

def digitsValue (base : Nat) (digits : List Char) : Nat :=
  digits.foldl (fun n c => n * base + (digitOf base c).getD 0) 0

/-- A prefix, digits of its base, and letters of a suffix, without regard to their order. A decimal constant does not start
with a 0. -/
structure Spelled (token : List Char) (base : Nat) (digits letters : List Char) : Prop where
  token_eq : ∃ start, BasePrefix base start ∧ token = start ++ (digits ++ letters)
  digits_lt : ∀ c ∈ digits, ∃ d, digitOf base c = some d ∧ d < base
  letters_suffix : ∀ c ∈ letters, isLong c ∨ isUnsigned c
  decimal : base = 10 → ∃ c rest, digits = c :: rest ∧ c ≠ '0'

/-- The suffixes of the standard: at most one u, and an l, or but for C89 two equal l, before or after it. -/
def longSuffixes (c89 : Bool) : List (List Char) :=
  [[], ['l'], ['L']] ++ if c89 then [] else [['l', 'l'], ['L', 'L']]

def unsignedSuffixes : List (List Char) := [[], ['u'], ['U']]

def IsSuffix (c89 : Bool) (letters : List Char) : Prop :=
  ∃ l ∈ longSuffixes c89, ∃ u ∈ unsignedSuffixes, letters = l ++ u ∨ letters = u ++ l

/-- An integer constant with its value, and whether it has the suffix u. -/
def IsConstant (c89 : Bool) (token : List Char) (value : Nat) (unsigned : Prop) : Prop :=
  ∃ base digits letters, Spelled token base digits letters ∧ (base = 16 → digits ≠ []) ∧ IsSuffix c89 letters ∧
    value = digitsValue base digits ∧ (unsigned ↔ ∃ c ∈ letters, isUnsigned c)

def Rejected (diags : List NumberDiag) : Prop := ∃ d ∈ diags, d.severity = .error ∨ d = .beyondRadix

/-- What is expected of `parse_number`. -/
structure NumberRight {w : Nat} (c89 : Bool) (token : List Char) (r : Operation w × List NumberDiag) : Prop where
  accepts : ∀ value unsigned, IsConstant c89 token value unsigned → ¬ Rejected r.2
  range : ∀ value unsigned, IsConstant c89 token value unsigned → (.outOfRange ∈ r.2 ↔ 2 ^ w ≤ value)
  value : ∀ value unsigned, IsConstant c89 token value unsigned → value < 2 ^ w →
    ∃ unsignedp : BitVec 8, r.1 = .int (BitVec.ofNat w value) unsignedp ∧
      (unsignedp ≠ 0 ↔ unsigned ∨ 2 ^ (w - 1) ≤ value)
  rejects : (¬ ∃ value unsigned, IsConstant c89 token value unsigned) → Rejected r.2

/-- When as many letters as are let through come after digits of the base, there is a digit before them, and they are a suffix. -/
def RegularSpelling (c89 charSigned : Bool) (token : List Char) : Prop :=
  ∀ base digits letters, Spelled token base digits letters → letters.countP isLong ≤ maxLong c89 →
    charValue charSigned (BitVec.ofNat 8 (letters.countP isUnsigned)) ≤ 1 →
      (base = 16 → digits = [] → letters = []) ∧ IsSuffix c89 letters

/-- A number of the lexer starts with a digit, or with a point and a digit. -/
def IsNumberToken : List Char → Prop
  | [] => False
  | c :: _ => '0' ≤ c ∧ c ≤ '9' ∨ c = '.'

end Constants

end Z80Gcc.Cpp
