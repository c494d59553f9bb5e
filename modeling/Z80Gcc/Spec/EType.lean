import Mathlib.Data.Vector.Snoc
import Z80Gcc.Lib.WordList

/-! The floating point emulator of real.c with `NE` 6: e-type numbers, their significands in words, `emdnorm`, and the
four operations. What `mtherr` and `warning` print is left out. -/

namespace Z80Gcc.Emulator

abbrev Word := BitVec 16

/-- The significand of an exploded number: `x[M]`, the high guard word, to `x[NI-1]`, the low one. -/
abbrev Sig := List.Vector Word 7

/-- An e-type number: the words from `e[NE-2]` down to `e[0]`, and the exponent word with the sign. -/
structure EType where
  sig : List.Vector Word 5
  top : Word
  deriving DecidableEq

/-- An exploded number: `x[0]`, `x[E]`, and the rest. -/
structure Exploded where
  sign : Word
  exp : Word
  sig : Sig
  deriving DecidableEq

def nbits : Int := 80

def exone : Int := 0x3fff

/-- The word `x[i]`, from `x[M]` on. -/
def word (x : Sig) (i : Nat) : Word := x.toList.getD (i - 2) 0

def zeros (n : Nat) : List.Vector Word n := List.Vector.replicate n 0

section Loops

variable {S : Type}

def down (f : Word → S → S × Word) (x : Sig) (s : S) : Sig :=
  ⟨(WordList.mapAccuml f x.toList s).2, by rw [WordList.length_mapAccuml, x.toList_length]⟩

/-- A loop that ends before `n` rounds. -/
def whileUpTo : Nat → (S → Bool) → (S → S) → S → S
  | 0, _, _, s => s
  | n + 1, test, body, s => if test s then whileUpTo n test body (body s) else s

end Loops

section Significands

def eshdn1Step (x bits : Word) : Word × Word :=
  let bits := if x &&& 1 ≠ 0 then bits ||| 1 else bits
  let x := x >>> 1
  (bits <<< 1, if bits &&& 2 ≠ 0 then x ||| 0x8000 else x)

def eshdn1 (x : Sig) : Sig := down eshdn1Step x 0

def eshup1Step (x bits : Word) : Word × Word :=
  let bits := if x &&& 0x8000 ≠ 0 then bits ||| 1 else bits
  let x := x <<< 1
  (bits <<< 1, if bits &&& 2 ≠ 0 then x ||| 1 else x)

def eshup1 (x : Sig) : Sig := (x.mapAccumr eshup1Step 0).2

def eshdn8Step (x oldbyt : Word) : Word × Word := (x <<< 8, x >>> 8 ||| oldbyt)

def eshdn8 (x : Sig) : Sig := down eshdn8Step x 0

def eshup8Step (x oldbyt : Word) : Word × Word := (x >>> 8, x <<< 8 ||| oldbyt)

def eshup8 (x : Sig) : Sig := (x.mapAccumr eshup8Step 0).2

def eshup6 (x : Sig) : Sig := List.Vector.snoc x.tail 0

def eshdn6 (x : Sig) : Sig := ⟨0 :: x.toList.dropLast, by rw [List.length_cons, List.length_dropLast, x.toList_length]⟩

def eaddmStep (x y : Word) (carry : BitVec 32) : BitVec 32 × Word :=
  let a := x.setWidth 32 + y.setWidth 32 + carry
  (if a &&& 0x10000 ≠ 0 then 1 else 0, a.setWidth 16)

/-- `X + Y` replaces `Y`. -/
def eaddm (x y : Sig) : Sig := (x.mapAccumr₂ eaddmStep y 0).2

def esubmStep (x y : Word) (carry : BitVec 32) : BitVec 32 × Word :=
  let a := y.setWidth 32 - x.setWidth 32 - carry
  (if a &&& 0x10000 ≠ 0 then 1 else 0, a.setWidth 16)

/-- `Y - X` replaces `Y`. -/
def esubm (x y : Sig) : Sig := (x.mapAccumr₂ esubmStep y 0).2

def compareWords : List Word → List Word → Int
  | x :: xs, y :: ys => if x ≠ y then if y < x then 1 else -1 else compareWords xs ys
  | _, _ => 0

def ecmpm (a b : Sig) : Int := compareWords a.toList b.toList

/-- One word of `m16m`. The state is `*pp` and the word above it. -/
def m16mStep (a x : Word) (pp : Word × Word) : (Word × Word) × Word :=
  if x = 0 then ((pp.2, 0), pp.1)
  else
    let m := a.setWidth 32 * x.setWidth 32
    let carry := (m &&& 0xffff) + pp.1.setWidth 32
    let low := carry.setWidth 16
    let carry := carry >>> 16 + m >>> 16 + pp.2.setWidth 32
    ((carry.setWidth 16, (carry >>> 16).setWidth 16), low)

def m16m (a : Word) (b : Sig) : Sig :=
  let r := b.tail.mapAccumr (m16mStep a) (0, 0)
  r.1.1 ::ᵥ r.2

def edivmStep (den num : Sig) : Word × Sig :=
  let tdenm := (word den 3).setWidth 32
  let tnum := (word num 2).setWidth 32 <<< 16 + (word num 3).setWidth 32
  let tquot : Word := if tdenm * 0xffff < tnum then 0xffff else (tnum / tdenm).setWidth 16
  let tprod := m16m tquot den
  -- the quotient digit may have been overestimated
  let (tquot, tprod) :=
    if 0 < ecmpm tprod num then
      let tprod := esubm den tprod
      if 0 < ecmpm tprod num then (tquot - 2, esubm den tprod) else (tquot - 1, tprod)
    else (tquot, tprod)
  (tquot, eshup6 (esubm tprod num))

def edivmLoop (den : Sig) : (n : Nat) → Sig → List.Vector Word n × Sig
  | 0, num => (List.Vector.nil, num)
  | n + 1, num =>
    let r := edivmStep den num
    let r' := edivmLoop den n r.2
    (r.1 ::ᵥ r'.1, r'.2)

/-- `edivm`: whether there is a remainder, and the quotient. -/
def edivm (den num : Sig) : Bool × Sig :=
  let r := edivmLoop den 7 (eshdn1 num)
  (r.2.toList.foldl (· ||| ·) 0 ≠ 0, r.1)

def emulmStep (b : Sig) (x : Word) (r : Word × Sig) : Word × Sig :=
  let equot := if x = 0 then r.2 else eaddm (m16m x b) r.2
  (r.1 ||| word equot 8, eshdn6 equot)

/-- `emulm`: whether nonzero bits are lost, and the product. -/
def emulm (a b : Sig) : Bool × Sig :=
  let r := a.tail.toList.foldr (emulmStep b) (0, zeros 7)
  (r.1 ≠ 0, r.2)

/-- `eshift`: the lost bits, and the significand shifted up, or down if `sc` is negative. -/
def eshift (x : Sig) (sc : Int) : Bool × Sig :=
  let n := sc.natAbs
  if sc < 0 then
    let shift (step : Sig → Sig) (mask : Word) (r : Word × Sig) := (r.1 ||| word r.2 8 &&& mask, step r.2)
    let r := (shift eshdn6 0xffff)^[n / 16] (0, x)
    let r := (shift eshdn8 0xff)^[n % 16 / 8] r
    let r := (shift eshdn1 1)^[n % 8] r
    (r.1 ≠ 0, r.2)
  else (false, eshup1^[n % 8] (eshup8^[n % 16 / 8] (eshup6^[n / 16] x)))

/-- `enormlz`: the shift count, and the significand with its top bit under the high guard word. -/
def enormlz (x : Sig) : Int × Sig :=
  if word x 2 ≠ 0 then
    let r := if word x 2 &&& 0xff00 ≠ 0 then (-8, eshdn8 x) else (0, x)
    whileUpTo 16 (fun r => word r.2 2 ≠ 0) (fun r => (r.1 - 1, eshdn1 r.2)) r
  else if word x 3 &&& 0x8000 ≠ 0 then (0, x)
  else
    let r := whileUpTo 6 (fun r => r.1 ≤ nbits && word r.2 3 = 0) (fun r => (r.1 + 16, eshup6 r.2)) (0, x)
    if nbits < r.1 then r
    else
      let r := whileUpTo 16 (fun r => word r.2 3 &&& 0xff00 = 0) (fun r => (r.1 + 8, eshup8 r.2)) r
      let body (r : Int × Sig) : Int × Sig := (r.1 + 1, eshup1 r.2)
      -- the count is looked at after a round
      if word r.2 3 &&& 0x8000 = 0 then
        whileUpTo 16 (fun r => r.1 ≤ nbits && word r.2 3 &&& 0x8000 = 0) body (body r)
      else r

end Significands

section Rounding

/-- The values of `rndprc`, without 113, for which the significand has too few words. -/
inductive Precision where
  | nbits | p64 | p56 | p53 | p32 | p24
  deriving DecidableEq

/-- What the rounding precision sets: the words `rw` and `re`, and masks for them. -/
structure RoundMasks where
  rw : Nat
  rmsk : Word
  rmbit : Word
  re : Nat
  rebit : Word

def roundMasks : Precision → RoundMasks
  | .nbits => ⟨8, 0xffff, 0x8000, 7, 1⟩
  | .p64 => ⟨7, 0xffff, 0x8000, 6, 1⟩
  | .p56 => ⟨6, 0xff, 0x80, 6, 0x100⟩
  | .p53 => ⟨6, 0x7ff, 0x400, 6, 0x800⟩
  | .p32 => ⟨5, 0xffff, 0x8000, 4, 1⟩
  | .p24 => ⟨4, 0xff, 0x80, 4, 0x100⟩

def RoundMasks.rbit (m : RoundMasks) : Sig :=
  ⟨(List.replicate 7 0).set (m.re - 2) m.rebit, by rw [List.length_set, List.length_replicate]⟩

/-- `rndprc`, and the masks that are kept as long as it is `rlast`; at first there are none. -/
structure RoundControl where
  rndprc : Precision
  rlast : Option Precision
  masks : RoundMasks
  cached : ∀ p, rlast = some p → masks = roundMasks p

def RoundControl.initial : RoundControl := ⟨.nbits, none, ⟨0, 0, 0, 0, 0⟩, fun _ h => nomatch h⟩

/-- Set up the rounding parameters if the control register changed. -/
def RoundControl.setUp (c : RoundControl) : RoundControl :=
  if some c.rndprc ≠ c.rlast then
    ⟨c.rndprc, some c.rndprc, roundMasks c.rndprc, fun _ hp => congrArg roundMasks (Option.some.inj hp)⟩
  else c

def RoundControl.withPrecision (c : RoundControl) (p : Precision) : RoundControl := { c with rndprc := p }

/-- Clear out all bits below the rounding bit, remembering in `r` if any were nonzero. -/
def clearBelow (m : RoundMasks) (full : Bool) (s : Sig) : Word × Sig :=
  let r := word s m.rw &&& m.rmsk
  let below := s.toList.drop (m.rw - 1)
  (if full then r else below.foldl (fun r x => if x ≠ 0 then r ||| 1 else r) r,
    ⟨(s.toList.set (m.rw - 2) (word s m.rw &&& ~~~m.rmsk)).take (m.rw - 1) ++ below.map fun x => if full then x else 0,
      by
        rw [List.length_append, List.length_take, List.length_set, List.length_map, List.length_drop, s.toList_length]
        omega⟩)

def roundOff (m : RoundMasks) (full lost subflg : Bool) (s : Sig) : Sig :=
  let (r, s) := clearBelow m full s
  if r &&& m.rmbit = 0 then s
  else if r = m.rmbit ∧ if lost then subflg = true else word s m.re &&& m.rebit = 0 then s
  else eaddm m.rbit s

/-- The rounding of a normalized number, or of a denormal that has been shifted down to the exponent zero. -/
def roundSig (c : RoundControl) (lost subflg : Bool) (exp : Int) (s : Sig) : Sig × Int :=
  let full := c.rndprc = .nbits
  -- shift down 1 temporarily if there is an implied most significant bit and the number is denormal
  let implied : Bool := exp ≤ 0 && !full
  let lost := lost || implied && word s 8 &&& 1 ≠ 0
  let s := if implied then eshdn1 s else s
  let s := roundOff c.masks full lost subflg s
  let s := if implied then eshup1 s else s
  if word s 2 ≠ 0 then (eshdn1 s, exp + 1) else (s, exp)

def ecleazs (x : Exploded) : Exploded := ⟨x.sign, 0, zeros 7⟩

/-- The part of `emdnorm` after `mdfin`. -/
def roundFinish (sign : Word) (s : Sig) (exp : Int) : Exploded :=
  if 32767 ≤ exp then ⟨sign, 32767, zeros 7⟩
  else
    ⟨sign, if exp < 0 then 0 else BitVec.ofInt 16 exp,
      ⟨s.toList.dropLast ++ [0], by rw [List.length_append, List.length_dropLast, s.toList_length]; rfl⟩⟩

/-- `emdnorm`: normalize and round off. -/
def emdnorm (c : RoundControl) (s : Exploded) (lost subflg : Bool) (exp : Int) (rcntrl : Nat) :
    Exploded × RoundControl :=
  let (j, sig) := enormlz s.sig
  let exp := exp - j
  if nbits < j ∧ exp < 32767 then (ecleazs s, c)
  else if exp < 0 ∧ exp ≤ -nbits - 1 then (ecleazs s, c)
  else
    let (i, sig) := if exp < 0 then eshift sig exp else (false, sig)
    if rcntrl = 0 then (roundFinish s.sign sig exp, c)
    else
      let c := c.setUp
      let (sig, exp) := roundSig c (lost || i) subflg exp sig
      (roundFinish s.sign sig exp, c)

end Rounding

section External

def eclear : EType := ⟨zeros 5, 0⟩

def eneg (x : EType) : EType := { x with top := x.top ^^^ 0x8000 }

def eisneg (x : EType) : Bool := x.top &&& 0x8000 ≠ 0

def eisnan (x : EType) : Bool := x.top &&& 0x7fff = 0x7fff && x.sig.toList.any (· ≠ 0)

def eisinf (x : EType) : Bool := !eisnan x && x.top &&& 0x7fff = 0x7fff

/-- The infinity with the sign of `x`. -/
def einfin (x : EType) : EType := ⟨zeros 5, x.top ||| 32767⟩

def enan (sign : Bool) : EType := ⟨0xc000 ::ᵥ zeros 4, (if sign then 0x8000 else 0) ||| 0x7fff⟩

/-- Move in an e-type number. For a NaN a word before the number is read too, which is taken to be zero here. -/
def emovi (a : EType) : Exploded :=
  let sign := if a.top &&& 0x8000 ≠ 0 then 0xffff else 0
  let exp := a.top &&& 0x7fff
  if exp = 0x7fff ∧ ¬ eisnan a then ⟨sign, exp, zeros 7⟩
  else ⟨sign, exp, 0 ::ᵥ List.Vector.snoc a.sig 0⟩

def eiisnan (x : Exploded) : Bool := x.exp &&& 0x7fff = 0x7fff && x.sig.tail.toList.any (· ≠ 0)

def eiisneg (x : Exploded) : Bool := x.sign ≠ 0

def emovo (a : Exploded) : EType :=
  let b : EType := ⟨⟨a.sig.toList.tail.dropLast, by
    rw [List.length_dropLast, List.length_tail, a.sig.toList_length]⟩, if a.sign ≠ 0 then a.exp ||| 0x8000 else a.exp⟩
  if a.exp = 0x7fff then if eiisnan a then enan (eiisneg a) else einfin b
  else b

/-- Move an exploded number; the low guard word is cleared. -/
def emovz (a : Exploded) : Exploded :=
  { a with sig := ⟨a.sig.toList.dropLast ++ [0], by
    rw [List.length_append, List.length_dropLast, a.sig.toList_length]; rfl⟩ }

/-- Are the words from `x[E]` to `x[NI-2]` zero? -/
def blank (x : Exploded) : Bool := x.exp = 0 && x.sig.toList.dropLast.all (· = 0)

def ezero : EType := ⟨zeros 5, 0⟩

def eone : EType := ⟨0x8000 ::ᵥ zeros 4, 0x3fff⟩

/-- `ecmp`: 1, 0 or -1, or -2 if either is a NaN. -/
def ecmp (a b : EType) : Int :=
  if eisnan a || eisnan b then -2
  else
    let ai := emovi a
    let bi := emovi b
    if ai.sign ≠ bi.sign then
      if blank ai && blank bi then 0 else if ai.sign = 0 then 1 else -1
    else
      let msign := if ai.sign = 0 then 1 else -1
      msign * compareWords (ai.exp :: ai.sig.toList.dropLast) (bi.exp :: bi.sig.toList.dropLast)

end External

section Arithmetic

variable (c : RoundControl)

/-- The end of `eadd1`, with the larger number in `bi`. -/
def addSigs (lost : Bool) (ai bi : Exploded) : EType × RoundControl :=
  let r :=
    if ai.sign = bi.sign then emdnorm c { bi with sig := eaddm ai.sig bi.sig } lost false bi.exp.toNat 64
    else emdnorm c { bi with sig := esubm ai.sig bi.sig } lost true bi.exp.toNat 64
  (emovo r.1, r.2)

/-- The doubling of `eadd1`. -/
def double (bi : Exploded) : EType :=
  if bi.exp = 0 ∧ word bi.sig 3 &&& 0x8000 = 0 then emovo { bi with sig := eshup1 bi.sig }
  else if blank bi then emovo bi
  else if 0x7fff ≤ bi.exp.toNat + 1 then einfin (if bi.sign ≠ 0 then eneg eclear else eclear)
  else emovo { bi with exp := bi.exp + 1 }

/-- `eadd1`: arithmetic common to both addition and subtraction. -/
def eadd1 (subflg : Bool) (a b : EType) : EType × RoundControl :=
  if eisinf a then (if subflg then eneg a else a, c)
  else if eisinf b then (b, c)
  else
    let ai := emovi a
    let bi := emovi b
    let ai := if subflg then { ai with sign := ~~~ai.sign } else ai
    let lt : Int := ai.exp.toNat - bi.exp.toNat
    let (ai, bi, lt) := if 0 < lt then (emovz bi, emovz ai, -lt) else (ai, bi, lt)
    if lt ≠ 0 then
      if lt < -nbits - 1 then (emovo bi, c)
      else
        let (lost, sig) := eshift ai.sig lt
        addSigs c lost { ai with sig := sig } bi
    else
      let i := ecmpm ai.sig bi.sig
      if i = 0 then if ai.sign ≠ bi.sign then (eclear, c) else (double bi, c)
      else if 0 < i then addSigs c false (emovz bi) (emovz ai)
      else addSigs c false ai bi

/-- `esub`: `B - A`. -/
def esub (a b : EType) : EType × RoundControl :=
  if eisnan a then (a, c)
  else if eisnan b then (b, c)
  else if eisinf a && eisinf b && eisneg a = eisneg b then (enan false, c)
  else eadd1 c true a b

/-- `eadd`: `A + B`. -/
def eadd (a b : EType) : EType × RoundControl :=
  if eisnan a then (a, c)
  else if eisnan b then (b, c)
  else if eisinf a && eisinf b && eisneg a ≠ eisneg b then (enan false, c)
  else eadd1 c false a b

/-- The code after `divsign` and `mulsign`. -/
def setSign (sign : Bool) (x : EType) : EType :=
  { x with top := if sign then x.top ||| 0x8000 else x.top &&& ~~~0x8000 }

/-- A number whose exponent is zero is normalized first; there is none if it is zero. -/
def normalizeTiny (x : Exploded) : Option (Exploded × Int) :=
  if x.exp = 0 then
    if blank x then none
    else
      let (k, sig) := enormlz x.sig
      some ({ x with sig := sig }, x.exp.toNat - k)
  else some (x, x.exp.toNat)

/-- `ediv`: `B / A`. The words of `old` are those that the result replaces. -/
def ediv (a b old : EType) : EType × RoundControl :=
  let sign := eisneg a ^^ eisneg b
  if eisnan a then (a, c)
  else if eisnan b then (b, c)
  else if ecmp a ezero = 0 ∧ ecmp b ezero = 0 ∨ eisinf a ∧ eisinf b then (enan sign, c)
  else if eisinf b then (setSign sign (einfin old), c)
  else if eisinf a then (setSign sign eclear, c)
  else
    match normalizeTiny (emovi b) with
    | none => (setSign sign eclear, c)
    | some (bi, ltb) =>
      match normalizeTiny (emovi a) with
      | none => (setSign sign (einfin old), c)
      | some (ai, lta) =>
        let (i, sig) := edivm ai.sig bi.sig
        let r := emdnorm c { bi with sig := sig } i false (ltb - lta + exone) 64
        (setSign sign (emovo r.1), r.2)

/-- `emul`: `A * B`. -/
def emul (a b old : EType) : EType × RoundControl :=
  let sign := eisneg a ^^ eisneg b
  if eisnan a then (a, c)
  else if eisnan b then (b, c)
  else if eisinf a ∧ ecmp b ezero = 0 ∨ eisinf b ∧ ecmp a ezero = 0 then (enan sign, c)
  else if eisinf a ∨ eisinf b then (setSign sign (einfin old), c)
  else
    match normalizeTiny (emovi a) with
    | none => (setSign sign eclear, c)
    | some (ai, lta) =>
      match normalizeTiny (emovi b) with
      | none => (setSign sign eclear, c)
      | some (bi, ltb) =>
        let (j, sig) := emulm ai.sig bi.sig
        let r := emdnorm c { bi with sig := sig } j false (lta + ltb - (exone - 1)) 64
        (setSign sign (emovo r.1), r.2)

end Arithmetic

end Z80Gcc.Emulator
