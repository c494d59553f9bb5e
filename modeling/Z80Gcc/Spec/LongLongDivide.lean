import Z80Gcc.Spec.LongLong

/-! The 64-bit division of libgcc2.c, with the macros of longlong.h for a machine without an instruction for it. What the macros or
C leave undefined is `none`. -/

namespace Z80Gcc.LongLong

section Macros

/-- One of the two halves of `__udiv_qrnnd_c`: a half digit of the quotient, with the digit `x` taken in. -/
def udivQrnndHalf (d n x : BitVec 32) : BitVec 32 × BitVec 32 :=
  let d1 := llHighpart d
  let d0 := llLowpart d
  let r := n % d1
  let q := n / d1
  let m := q * d0
  let r := r * 0x10000 ||| x
  if r < m then
    let q := q - 1
    let r := r + d
    -- without a carry out of the addition
    if r ≥ d ∧ r < m then (q - 1, r + d - m) else (q, r - m)
  else (q, r - m)

def udivQrnndC (n1 n0 d : BitVec 32) : BitVec 32 × BitVec 32 :=
  let s1 := udivQrnndHalf d n1 (llHighpart n0)
  let s0 := udivQrnndHalf d s1.2 (llLowpart n0)
  (s1.1 * 0x10000 ||| s0.1, s0.2)

/-- `udiv_qrnnd` with `UDIV_NEEDS_NORMALIZATION`: the denominator has its top bit set and is above the high numerator. -/
def udivQrnnd (n1 n0 d : BitVec 32) : Option (BitVec 32 × BitVec 32) :=
  if d.msb ∧ n1 < d then some (udivQrnndC n1 n0 d) else none

def clzTab : List Nat :=
  [0, 1, 2, 2, 3, 3, 3, 3, 4, 4, 4, 4, 4, 4, 4, 4, 5, 5, 5, 5, 5, 5, 5, 5, 5, 5, 5, 5, 5, 5, 5, 5,
   6, 6, 6, 6, 6, 6, 6, 6, 6, 6, 6, 6, 6, 6, 6, 6, 6, 6, 6, 6, 6, 6, 6, 6, 6, 6, 6, 6, 6, 6, 6, 6,
   7, 7, 7, 7, 7, 7, 7, 7, 7, 7, 7, 7, 7, 7, 7, 7, 7, 7, 7, 7, 7, 7, 7, 7, 7, 7, 7, 7, 7, 7, 7, 7,
   7, 7, 7, 7, 7, 7, 7, 7, 7, 7, 7, 7, 7, 7, 7, 7, 7, 7, 7, 7, 7, 7, 7, 7, 7, 7, 7, 7, 7, 7, 7, 7,
   8, 8, 8, 8, 8, 8, 8, 8, 8, 8, 8, 8, 8, 8, 8, 8, 8, 8, 8, 8, 8, 8, 8, 8, 8, 8, 8, 8, 8, 8, 8, 8,
   8, 8, 8, 8, 8, 8, 8, 8, 8, 8, 8, 8, 8, 8, 8, 8, 8, 8, 8, 8, 8, 8, 8, 8, 8, 8, 8, 8, 8, 8, 8, 8,
   8, 8, 8, 8, 8, 8, 8, 8, 8, 8, 8, 8, 8, 8, 8, 8, 8, 8, 8, 8, 8, 8, 8, 8, 8, 8, 8, 8, 8, 8, 8, 8,
   8, 8, 8, 8, 8, 8, 8, 8, 8, 8, 8, 8, 8, 8, 8, 8, 8, 8, 8, 8, 8, 8, 8, 8, 8, 8, 8, 8, 8, 8, 8, 8]

def countLeadingZeros (x : BitVec 32) : BitVec 32 :=
  let a : BitVec 32 :=
    if x < (1 : BitVec 32) <<< (2 * 8) then (if x < (1 : BitVec 32) <<< 8 then 0 else 8)
    else (if x < (1 : BitVec 32) <<< (3 * 8) then 2 * 8 else 3 * 8)
  32 - (BitVec.ofNat 32 (clzTab.getD (x >>> a.toNat).toNat 0) + a)

def shl (x count : BitVec 32) : Option (BitVec 32) := if count < 32 then some (x <<< count.toNat) else none
def shr (x count : BitVec 32) : Option (BitVec 32) := if count < 32 then some (x >>> count.toNat) else none

end Macros

section Divide

/-- The top bit of the denominator is brought up, and the numerator shifted as far. -/
def normalizeShort (bm n1 n0 d0 : BitVec 32) : Option (BitVec 32 × BitVec 32 × BitVec 32) :=
  if bm ≠ 0 then do
    let d0' ← shl d0 bm
    let n1' ← shl n1 bm
    let carry ← shr n0 (32 - bm)
    let n0' ← shl n0 bm
    some (d0', n1' ||| carry, n0')
  else some (d0, n1, n0)

/-- `0q = nn / 0D`: the quotient has one word. -/
def divShortQuotient (n1 n0 d0 : BitVec 32) : Option (BitVec 64 × BitVec 64) :=
  let bm := countLeadingZeros d0
  (normalizeShort bm n1 n0 d0).bind fun s =>
    (udivQrnnd s.2.1 s.2.2 s.1).bind fun q0 =>
      (shr q0.2 bm).map fun low => (DIunion.ll ⟨0, q0.1⟩, DIunion.ll ⟨0, low⟩)

/-- The same with the first digit of the quotient: it is 1 when the denominator has its top bit. -/
def firstDigit (bm n1 n0 d0 : BitVec 32) : Option (BitVec 32 × BitVec 32 × BitVec 32 × BitVec 32) :=
  if bm = 0 then some (d0, 1, n1 - d0, n0)
  else do
    let b := 32 - bm
    let d0' ← shl d0 bm
    let n2 ← shr n1 b
    let n1' ← shl n1 bm
    let carry ← shr n0 b
    let n0' ← shl n0 bm
    let q1 ← udivQrnnd n2 (n1' ||| carry) d0'
    some (d0', q1.1, q1.2, n0')

/-- `qq = NN / 0d`: the quotient has two words. -/
def divShortDivisor (n1 n0 d0 : BitVec 32) : Option (BitVec 64 × BitVec 64) :=
  let bm := countLeadingZeros d0
  (firstDigit bm n1 n0 d0).bind fun s =>
    (udivQrnnd s.2.2.1 s.2.2.2 s.1).bind fun q0 =>
      (shr q0.2 bm).map fun low => (DIunion.ll ⟨s.2.1, q0.1⟩, DIunion.ll ⟨0, low⟩)

/-- `0q = NN / dd`: the divisor has two words. -/
def divLongDivisor (n1 n0 d1 d0 : BitVec 32) : Option (BitVec 64 × BitVec 64) :=
  let bm := countLeadingZeros d1
  if bm = 0 then
    if n1 > d1 ∨ n0 ≥ d0 then some (DIunion.ll ⟨0, 1⟩, (subDdmmss ⟨n1, n0⟩ ⟨d1, d0⟩).ll)
    else some (DIunion.ll ⟨0, 0⟩, DIunion.ll ⟨n1, n0⟩)
  else do
    let b := 32 - bm
    let d1' ← shl d1 bm
    let dcarry ← shr d0 b
    let d0' ← shl d0 bm
    let n2 ← shr n1 b
    let n1' ← shl n1 bm
    let ncarry ← shr n0 b
    let n0' ← shl n0 bm
    let d : DIunion := ⟨d1' ||| dcarry, d0'⟩
    let q0 ← udivQrnnd n2 (n1' ||| ncarry) d.high
    let m := umulPpmm q0.1 d.low
    let s := if m.high > q0.2 ∨ m.high = q0.2 ∧ m.low > n0' then (q0.1 - 1, subDdmmss m d) else (q0.1, m)
    let r := subDdmmss ⟨q0.2, n0'⟩ s.2
    let low1 ← shl r.high b
    let low0 ← shr r.low bm
    let high ← shr r.high bm
    return (DIunion.ll ⟨0, s.1⟩, DIunion.ll ⟨high, low1 ||| low0⟩)

/-- `__udivmoddi4`: the quotient, and what is stored at `rp` if that is not 0. -/
def udivmoddi4 (n d : BitVec 64) : Option (BitVec 64 × BitVec 64) :=
  let nn := DIunion.ofLl n
  let dd := DIunion.ofLl d
  if dd.high = 0 then
    if dd.low > nn.high then divShortQuotient nn.high nn.low dd.low
    -- `d0 = 1 / d0`
    else if dd.low = 0 then none
    else divShortDivisor nn.high nn.low dd.low
  else if dd.high > nn.high then some (DIunion.ll ⟨0, 0⟩, DIunion.ll ⟨nn.high, nn.low⟩)
  else divLongDivisor nn.high nn.low dd.high dd.low

def divdi3 (u v : BitVec 64) : Option (BitVec 64) :=
  let cu := (DIunion.ofLl u).high.slt 0
  let cv := (DIunion.ofLl v).high.slt 0
  let u := if cu then negdi2 u else u
  let v := if cv then negdi2 v else v
  (udivmoddi4 u v).map fun w => if cu != cv then negdi2 w.1 else w.1

def moddi3 (u v : BitVec 64) : Option (BitVec 64) :=
  let cu := (DIunion.ofLl u).high.slt 0
  let cv := (DIunion.ofLl v).high.slt 0
  let u := if cu then negdi2 u else u
  let v := if cv then negdi2 v else v
  (udivmoddi4 u v).map fun w => if cu then negdi2 w.2 else w.2

end Divide

end Z80Gcc.LongLong
