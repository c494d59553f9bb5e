import Mathlib.Data.BitVec

/-! The 64-bit routines of libgcc2.c and the macros of longlong.h, for an `int` and a `word_type` of 16 bits. -/

namespace Z80Gcc.LongLong

/-- `DIunion`: a `DItype` and its two words. -/
structure DIunion where
  high : BitVec 32
  low : BitVec 32
  deriving DecidableEq, Repr

namespace DIunion

def ll (w : DIunion) : BitVec 64 := w.high ++ w.low
def ofLl (u : BitVec 64) : DIunion := ⟨(u >>> 32).setWidth 32, u.setWidth 32⟩

end DIunion

section Macros

def llLowpart (t : BitVec 32) : BitVec 32 := t % 0x10000
def llHighpart (t : BitVec 32) : BitVec 32 := t / 0x10000

def umulPpmm (u v : BitVec 32) : DIunion :=
  let x0 := llLowpart u * llLowpart v
  let x1 := llLowpart u * llHighpart v
  let x2 := llHighpart u * llLowpart v
  let x3 := llHighpart u * llHighpart v
  let x1 := x1 + llHighpart x0
  let x1 := x1 + x2
  let x3 := if x1 < x2 then x3 + 0x10000 else x3
  ⟨x3 + llHighpart x1, llLowpart x1 * 0x10000 + llLowpart x0⟩

def umulsidi3 (u v : BitVec 32) : BitVec 64 := (umulPpmm u v).ll

def subDdmmss (a b : DIunion) : DIunion :=
  let x := a.low - b.low
  ⟨a.high - b.high - if x > a.low then 1 else 0, x⟩

end Macros

section Routines

def negdi2 (u : BitVec 64) : BitVec 64 :=
  let uu := DIunion.ofLl u
  let low := -uu.low
  DIunion.ll ⟨-uu.high - if low > 0 then 1 else 0, low⟩

/-- `__lshrdi3`; the count and its complement `bm` are words of 16 bits. -/
def lshrdi3 (u : BitVec 64) (b : BitVec 16) : BitVec 64 :=
  if b = 0 then u
  else
    let uu := DIunion.ofLl u
    let bm : BitVec 16 := 32 - b
    if bm.sle 0 then DIunion.ll ⟨0, uu.high >>> (-bm).toNat⟩
    else
      let carries := uu.high <<< bm.toNat
      DIunion.ll ⟨uu.high >>> b.toNat, uu.low >>> b.toNat ||| carries⟩

def ashldi3 (u : BitVec 64) (b : BitVec 16) : BitVec 64 :=
  if b = 0 then u
  else
    let uu := DIunion.ofLl u
    let bm : BitVec 16 := 32 - b
    if bm.sle 0 then DIunion.ll ⟨uu.low <<< (-bm).toNat, 0⟩
    else
      let carries := uu.low >>> bm.toNat
      DIunion.ll ⟨uu.high <<< b.toNat ||| carries, uu.low <<< b.toNat⟩

def ashrdi3 (u : BitVec 64) (b : BitVec 16) : BitVec 64 :=
  if b = 0 then u
  else
    let uu := DIunion.ofLl u
    let bm : BitVec 16 := 32 - b
    if bm.sle 0 then DIunion.ll ⟨uu.high.sshiftRight (32 - 1), uu.high.sshiftRight (-bm).toNat⟩
    else
      let carries := uu.high <<< bm.toNat
      DIunion.ll ⟨uu.high.sshiftRight b.toNat, uu.low >>> b.toNat ||| carries⟩

/-- One plus the index of the lowest set bit, 0 if there is none. -/
def firstSet {w : Nat} (x : BitVec w) : Nat :=
  match (List.range w).find? (fun i => x.getLsbD i) with
  | some i => i + 1
  | none => 0

/-- `ffs` takes an `int`. -/
def ffs (x : BitVec 16) : BitVec 16 := BitVec.ofNat 16 (firstSet x)

/-- `__ffsdi2`: the words are converted to `int` for the calls. -/
def ffsdi2 (u : BitVec 64) : BitVec 64 :=
  let uu := DIunion.ofLl u
  let low := (ffs (uu.low.setWidth 16)).signExtend 32
  if low ≠ 0 then DIunion.ll ⟨0, low⟩
  else
    let low := (ffs (uu.high.setWidth 16)).signExtend 32
    if low ≠ 0 then DIunion.ll ⟨0, low + 32⟩
    else DIunion.ll ⟨0, low⟩

def muldi3 (u v : BitVec 64) : BitVec 64 :=
  let uu := DIunion.ofLl u
  let vv := DIunion.ofLl v
  let w := DIunion.ofLl (umulsidi3 uu.low vv.low)
  DIunion.ll { w with high := w.high + (uu.low * vv.high + uu.high * vv.low) }

def cmpdi2 (a b : BitVec 64) : BitVec 16 :=
  let au := DIunion.ofLl a
  let bu := DIunion.ofLl b
  if au.high.slt bu.high then 0
  else if bu.high.slt au.high then 2
  else if au.low.ult bu.low then 0
  else if bu.low.ult au.low then 2
  else 1

def ucmpdi2 (a b : BitVec 64) : BitVec 16 :=
  let au := DIunion.ofLl a
  let bu := DIunion.ofLl b
  if au.high.ult bu.high then 0
  else if bu.high.ult au.high then 2
  else if au.low.ult bu.low then 0
  else if bu.low.ult au.low then 2
  else 1

end Routines

/-- 0, 1 or 2 for less, equal and greater. -/
def order (a b : Int) : BitVec 16 := if a < b then 0 else if a = b then 1 else 2

/-- What the routines are for. -/
structure RoutinesRight (u v : BitVec 64) (b : BitVec 16) : Prop where
  mul : muldi3 u v = u * v
  neg : negdi2 u = -u
  lshr : lshrdi3 u b = u >>> b.toNat
  ashl : ashldi3 u b = u <<< b.toNat
  ashr : ashrdi3 u b = u.sshiftRight b.toNat
  ffs : ffsdi2 u = BitVec.ofNat 64 (firstSet u)
  cmp : cmpdi2 u v = order u.toInt v.toInt
  ucmp : ucmpdi2 u v = order u.toNat v.toNat

end Z80Gcc.LongLong
