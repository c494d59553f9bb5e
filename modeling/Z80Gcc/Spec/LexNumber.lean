import Z80Gcc.Spec.CaseStmt
import Z80Gcc.Spec.CppNumber

/-! Integer constants in the lexer (the number case of `yylex` in c-lex.c). Floating and imaginary constants are
told apart, and not followed further. -/

namespace Z80Gcc.LexNumber

open Cpp (isLong isUnsigned Severity Spelled digitsValue)

inductive LexDiag where
  | nondigits | noDigits | beyondRadix | twoU | threeL | longLong | outOfRange
  | widthChanges | unsignedInAnsi | widthMayChange | soLarge | missingSpace
  deriving DecidableEq, Repr

namespace LexDiag

def text : LexDiag → String
  | nondigits => "nondigits in number and not hexadecimal"
  | noDigits => "numeric constant with no digits"
  | beyondRadix => "numeric constant contains digits beyond the radix"
  | twoU => "two `u's in integer constant"
  | threeL => "three `l's in integer constant"
  | longLong => "ANSI C forbids long long integer constants"
  | outOfRange => "integer constant out of range"
  | widthChanges => "width of integer constant changes with -traditional"
  | unsignedInAnsi => "integer constant is unsigned in ANSI C, signed with -traditional"
  | widthMayChange => "width of integer constant may change on other systems with -traditional"
  | soLarge => "decimal constant is so large that it is unsigned"
  | missingSpace => "missing white space after number `%s'"

def severity : LexDiag → Severity
  | nondigits | noDigits | beyondRadix | twoU | threeL | missingSpace => .error
  | longLong | outOfRange => .pedwarn
  | widthChanges | unsignedInAnsi | widthMayChange | soLarge => .warning

end LexDiag

structure LexOptions where
  pedantic : Bool
  inSystemHeader : Bool
  warnLongLong : Bool
  flagTraditional : Bool
  warnTraditional : Bool

/-- The nodes of the integer types; two nodes of one width are still two. -/
inductive TypeNode where
  | integer | unsigned | longInteger | longUnsigned | longLongInteger | longLongUnsigned
  deriving DecidableEq, Repr

/-- The types of z80.h: `INT_TYPE_SIZE` 16, `LONG_TYPE_SIZE` and `LONG_LONG_TYPE_SIZE` 32. -/
def TypeNode.type {h : Host} : TypeNode → IntegerType h
  | integer => ⟨16, false, -2 ^ 15, some (2 ^ 15 - 1)⟩
  | unsigned => ⟨16, true, 0, some (2 ^ 16 - 1)⟩
  | longInteger | longLongInteger => ⟨32, false, -2 ^ 31, some (2 ^ 31 - 1)⟩
  | longUnsigned | longLongUnsigned => ⟨32, true, 0, some (2 ^ 32 - 1)⟩

/-- An `INTEGER_CST`; its two words as a number. -/
structure Literal where
  type : TypeNode
  value : Int
  deriving DecidableEq, Repr

def Literal.fits (h : Host) (c : Literal) (node : TypeNode) : Bool :=
  CaseStmt.intFitsType ⟨(c.type.type : IntegerType h), c.value, false⟩ node.type

def isAlnum (c : Char) : Bool := c.isAlphanum

def isImaginary (c : Char) : Bool := c = 'i' || c = 'I' || c = 'j' || c = 'J'

/-- `parts`, without the topmost one, and that; they are `int`s. -/
structure Scan where
  parts : List (BitVec 32)
  top : BitVec 32
  overflow : Bool
  largestDigit : Nat
  numdigits : Nat
  diags : List LexDiag

section Digits

/-- `TOTAL_PARTS` is one more. -/
def lowParts (h : Host) : Nat := h.bits / 8 * 2 + 1

/-- The loop over the parts, up to the topmost one: what is left of them, and what goes into the next. -/
def multiplyParts (base : BitVec 32) : BitVec 32 → List (BitVec 32) → List (BitVec 32) × BitVec 32
  | carry, [] => ([], carry)
  | carry, x :: parts =>
    let y := x * base + carry
    let r := multiplyParts base (y.sshiftRight 8) parts
    ((y &&& 255) :: r.1, r.2)

def Scan.add (base : Nat) (s : Scan) (digit : Nat) : Scan :=
  let r := multiplyParts (BitVec.ofNat 32 base) (BitVec.ofNat 32 digit) s.parts
  let top := s.top * BitVec.ofNat 32 base + r.2
  { s with
    parts := r.1
    top := top
    overflow := s.overflow || top != 0
    largestDigit := if s.largestDigit ≤ digit then digit else s.largestDigit
    numdigits := s.numdigits + 1 }

inductive CharClass where
  | digit (d : Nat)
  | nondigit
  | floating
  | stop
  deriving DecidableEq

def classify (base : Nat) (c : Char) : CharClass :=
  if c = '.' then .floating
  else if !isAlnum c || isLong c || isUnsigned c || isImaginary c then .stop
  else if c.isDigit then .digit (c.toNat - '0'.toNat)
  else if base ≤ 10 then if c = 'e' ∨ c = 'E' then .floating else .nondigit
  else if base = 16 ∧ (c = 'p' ∨ c = 'P') then .floating
  else if 'a' ≤ c then .digit (c.toNat - 'a'.toNat + 10)
  else .digit (c.toNat - 'A'.toNat + 10)

/-- "Read all the digits-and-decimal-points." `none` is a floating constant. -/
def scanDigits (base : Nat) : List Char → Scan → Option (List Char × Scan)
  | [], s => some ([], s)
  | c :: p, s =>
    match classify base c with
    | .floating => none
    | .stop => some (c :: p, s)
    | .nondigit => scanDigits base p (({ s with diags := s.diags ++ [.nondigits] } : Scan).add base 0)
    | .digit d => scanDigits base p (s.add base d)

/-- The base, where the digits start, and `numdigits`. "Leading 0 forces octal unless the 0 is the only digit." -/
def numberStart : List Char → Nat × List Char × Nat
  | '0' :: c :: p =>
    if c = 'x' ∨ c = 'X' then (16, p, 0) else if c.isDigit then (8, c :: p, 1) else (10, c :: p, 1)
  | ['0'] => (10, [], 1)
  | p => (10, p, 0)

end Digits

structure Suffix where
  specUnsigned : Bool
  specLong : Bool
  specLongLong : Bool
  diags : List LexDiag

def Suffix.addUnsigned (s : Suffix) : Suffix :=
  { s with specUnsigned := true, diags := s.diags ++ if s.specUnsigned then [.twoU] else [] }

def Suffix.addLong (opts : LexOptions) (s : Suffix) : Suffix :=
  if s.specLong then
    { s with
      specLongLong := true
      diags := s.diags ++
        if s.specLongLong then [.threeL]
        else if opts.pedantic && !opts.inSystemHeader && opts.warnLongLong then [.longLong]
        else [] }
  else { s with specLong := true }

/-- `none` is an imaginary constant. -/
def scanSuffix (opts : LexOptions) : List Char → Suffix → Option (List Char × Suffix)
  | [], s => some ([], s)
  | c :: p, s =>
    if isUnsigned c then scanSuffix opts p s.addUnsigned
    else if isLong c then scanSuffix opts p (s.addLong opts)
    else if isImaginary c then none
    else some (c :: p, s)

section Types

variable (h : Host)

/-- One of the words `low` and `high`, from the parts from `start` on. -/
def wordOfParts (parts : List (BitVec 32)) (start : Nat) : BitVec h.bits :=
  (List.range (h.bits / 8)).foldl
    (fun word i => word ||| (parts.getD (i + start) 0).signExtend h.bits <<< (i * 8)) 0

def wordsOfParts (parts : List (BitVec 32)) : DoubleInt h where
  low := wordOfParts h parts 0
  high := wordOfParts h parts (h.bits / 8)

def ansiType (base : Nat) (s : Suffix) (c : Literal) : TypeNode :=
  if !s.specLong && !s.specUnsigned && c.fits h .integer then .integer
  else if !s.specLong && (base ≠ 10 || s.specUnsigned) && c.fits h .unsigned then .unsigned
  else if !s.specUnsigned && !s.specLongLong && c.fits h .longInteger then .longInteger
  else if !s.specLongLong && c.fits h .longUnsigned then .longUnsigned
  else if !s.specUnsigned && c.fits h .longLongInteger then .longLongInteger
  else .longLongUnsigned

def traditionalType (base : Nat) (s : Suffix) (c : Literal) : TypeNode :=
  if !s.specLong && base ≠ 10 && c.fits h .unsigned then if s.specUnsigned then .unsigned else .integer
  else if !s.specLong && base = 10 && c.fits h .integer then if s.specUnsigned then .unsigned else .integer
  else if !s.specLongLong then if s.specUnsigned then .longUnsigned else .longInteger
  else if s.specUnsigned then .longLongUnsigned
  else .longLongInteger

/-- The warning of `-Wtraditional`. -/
def traditionalWarning (traditional ansi : TypeNode) : LexDiag :=
  if (traditional.type : IntegerType h).precision ≠ (ansi.type : IntegerType h).precision then .widthChanges
  else if (traditional.type : IntegerType h).unsignedp ≠ (ansi.type : IntegerType h).unsignedp then .unsignedInAnsi
  else .widthMayChange

def finishInteger (opts : LexOptions) (base : Nat) (s : Scan) (suffix : Suffix) : Literal × List LexDiag :=
  let c : Literal := ⟨.longLongUnsigned, (wordsOfParts h s.parts).toNat⟩
  let traditional := traditionalType h base suffix c
  let ansi := ansiType h base suffix c
  let node := if opts.flagTraditional then traditional else ansi
  let type : IntegerType h := node.type
  let long : IntegerType h := TypeNode.longInteger.type
  let wide := opts.pedantic && !opts.flagTraditional && !suffix.specLongLong && !s.overflow &&
    long.precision < type.precision
  let result : Literal :=
    if opts.flagTraditional && !c.fits h node then ⟨node, type.wrap c.value⟩ else { c with type := node }
  (result,
    (if s.overflow then [.outOfRange] else []) ++
      (if opts.warnTraditional && traditional ≠ ansi then [traditionalWarning h traditional ansi] else []) ++
      (if wide then [.outOfRange] else []) ++
      (if base = 10 && !suffix.specUnsigned && type.unsignedp then [.soLarge] else []) ++
      (if !(s.overflow || wide) && !result.fits h result.type then [.outOfRange] else []))

/-- Is white space missing between a number that ends in `last` and what follows? -/
def missingSpace (opts : LexOptions) (last : Option Char) (rest : List Char) : Bool :=
  rest.head?.any fun c => isAlnum c || c = '.' || c = '_' || c = '$' ||
    (!opts.flagTraditional && (c = '-' || c = '+') && last.any fun e => e = 'e' || e = 'E')

/-- The number case of `yylex`, with its shortcut for a single 0 or 1: the constant, the diagnostics and the rest of
the input. -/
def lexNumber (opts : LexOptions) (input : List Char) : Option (Literal × List LexDiag × List Char) :=
  if (input.head? = some '0' ∨ input.head? = some '1') ∧ !(input.tail.head?.any fun c => isAlnum c || c = '.') then
    some (⟨.integer, if input.head? = some '0' then 0 else 1⟩, [], input.tail)
  else
    let (base, p, numdigits) := numberStart input
    match scanDigits base p ⟨List.replicate (lowParts h) 0, 0, false, 0, numdigits, []⟩ with
    | none => none
    | some (p, s) =>
      match scanSuffix opts p ⟨false, false, false, []⟩ with
      | none => none
      | some (rest, suffix) =>
        let r := finishInteger h opts base s suffix
        let last := (input.take (input.length - rest.length)).getLast?
        some (r.1, s.diags ++ (if s.numdigits = 0 then [.noDigits] else []) ++
          (if base ≤ s.largestDigit then [.beyondRadix] else []) ++ suffix.diags ++ r.2 ++
          (if missingSpace opts last rest then [.missingSpace] else []), rest)

end Types

section Purpose

/-- The types that the C standard tries for a constant, in this order. -/
def cOrder (base : Nat) (letters : List Char) : List TypeNode :=
  match letters.countP isUnsigned, letters.countP isLong with
  | 0, 0 =>
    if base = 10 then [.integer, .longInteger, .longUnsigned]
    else [.integer, .unsigned, .longInteger, .longUnsigned]
  | _, 0 => [.unsigned, .longUnsigned]
  | 0, 1 => [.longInteger, .longUnsigned]
  | _, 1 => [.longUnsigned]
  | _, _ => []

def maxOf : TypeNode → Nat
  | .integer => 2 ^ 15 - 1
  | .unsigned => 2 ^ 16 - 1
  | .longInteger | .longLongInteger => 2 ^ 31 - 1
  | .longUnsigned | .longLongUnsigned => 2 ^ 32 - 1

/-- What is expected of the lexer for a constant in front of `rest`. -/
structure LiteralRight (h : Host) (opts : LexOptions) (token rest : List Char) (base : Nat)
    (digits letters : List Char) : Prop where
  typed : ∀ node, (cOrder base letters).find? (fun t => digitsValue base digits ≤ maxOf t) = some node →
    ∃ diags, lexNumber h opts (token ++ rest) = some (⟨node, digitsValue base digits⟩, diags, rest)
  exact : digitsValue base digits < 2 ^ (2 * h.bits) →
    ∃ node diags, lexNumber h opts (token ++ rest) = some (⟨node, digitsValue base digits⟩, diags, rest)
  diagnosed : 2 ^ (2 * h.bits) ≤ digitsValue base digits →
    ∃ c diags, lexNumber h opts (token ++ rest) = some (c, diags, rest) ∧ LexDiag.outOfRange ∈ diags

end Purpose

end Z80Gcc.LexNumber
