import Mathlib.Data.Int.Basic

/-! Can two memory references meet (alias.c)? All expressions are addresses and have one mode. A result
`none` is a division by zero, or a chain of registers that is followed too far. -/

namespace Z80Gcc.MemrefConflict

abbrev Symbol := Nat

inductive Addr where
  | reg (regno : Nat)
  | symbolRef (s : Symbol)
  | constInt (n : Int)
  | const (x : Addr)
  | plus (x y : Addr)
  | mult (x y : Addr)
  | and (x y : Addr)
  deriving DecidableEq

/-- `CONSTANT_P`. -/
def Addr.isConstant : Addr → Bool
  | .symbolRef _ | .constInt _ | .const _ => true
  | _ => false

def Addr.isAnd : Addr → Bool
  | .and _ _ => true
  | _ => false

/-- What has been found out about registers. A register without a known value is its own known value. -/
structure AliasInfo where
  /-- `reg_known_value`. -/
  known : Nat → Option Addr
  /-- `alias_invariant`. -/
  invariant : Nat → Option Addr

/-- `plus_constant_wide`; `all` is `all_constant`. -/
def plusConstantLoop (all : Bool) : Addr → Int → Addr
  | .constInt n, c => .constInt (n + c)
  | .const x, c => plusConstantLoop true x c
  | .symbolRef s, c => if c = 0 then .symbolRef s else .const (.plus (.symbolRef s) (.constInt c))
  | .plus x (.constInt n), c => plusConstantLoop all x (c + n)
  | .plus x y, c =>
    let sum :=
      if x.isConstant then .plus (if c = 0 then x else plusConstantLoop false x c) y
      else if y.isConstant then .plus x (if c = 0 then y else plusConstantLoop false y c)
      else if c = 0 then .plus x y else .plus (.plus x y) (.constInt c)
    if all then .const sum else sum
  | x, c =>
    let sum := if c = 0 then x else .plus x (.constInt c)
    if all then .const sum else sum

def plusConstant (x : Addr) (c : Int) : Addr := if c = 0 then x else plusConstantLoop false x c

/-- `canon_rtx` with the values that the registers are replaced by. -/
def canonWith (value : Nat → Option Addr) : Addr → Option Addr
  | .reg r => value r
  | .plus x y => do
    let x' ← canonWith value x
    let y' ← canonWith value y
    if x' = x ∧ y' = y then return .plus x y
    else
      match x', y' with
      | .constInt n, _ => return plusConstant y' n
      | _, .constInt n => return plusConstant x' n
      | _, _ => return .plus x' y'
  | x => some x

def canonRtx (info : AliasInfo) : Nat → Addr → Option Addr
  | 0 => canonWith fun _ => none
  | fuel + 1 => canonWith fun r =>
    match info.known r with
    | none => some (.reg r)
    | some x => canonRtx info fuel x

def bothEqual (equal : Addr → Addr → Option Bool) (x y x' y' : Addr) : Option Bool := do
  if ← equal x y then equal x' y' else return false

/-- The operands of a commutative operation match in some order. -/
def equalInSomeOrder (equal : Addr → Addr → Option Bool) (x₀ x₁ y₀ y₁ : Addr) : Option Bool := do
  if ← bothEqual equal x₀ y₀ x₁ y₁ then return true else bothEqual equal x₀ y₁ x₁ y₀

/-- Canonical expressions are compared, their operands by `equal`. -/
def equalOperands (equal : Addr → Addr → Option Bool) : Addr → Addr → Option Bool
  | .reg r, .reg r' => some (decide (r = r'))
  | .symbolRef s, .symbolRef s' => some (decide (s = s'))
  | .constInt n, .constInt n' => some (decide (n = n'))
  | .const x, .const y => equal x y
  | .plus x₀ x₁, .plus y₀ y₁ => equalInSomeOrder equal x₀ x₁ y₀ y₁
  | .mult x₀ x₁, .mult y₀ y₁ => equalInSomeOrder equal x₀ x₁ y₀ y₁
  | .and x₀ x₁, .and y₀ y₁ => equalInSomeOrder equal x₀ x₁ y₀ y₁
  | _, _ => some false

def rtxEqualForMemrefP (info : AliasInfo) : Nat → Addr → Addr → Option Bool
  | 0, _, _ => none
  | fuel + 1, x, y => do
    equalOperands (rtxEqualForMemrefP info fuel) (← canonRtx info (fuel + 1) x)
      (← canonRtx info (fuel + 1) y)

/-- The offset is smaller than the extent of the reference that comes first. -/
def overlaps (xsize ysize c : Int) : Bool :=
  (decide (0 ≤ c) && decide (c < xsize)) || (decide (c < 0) && decide (0 < ysize + c))

/-- What becomes of the sizes and the offset when both addresses have a factor `k`. -/
abbrev Divide := Int → Int → Int → Int → Option (Int × Int × Int)

def truncatingDivision : Divide := fun k xsize ysize c =>
  if k = 0 then none else some (xsize.tdiv k, ysize.tdiv k, c.tdiv k)

/-- The arguments of `memrefs_conflict_p`. -/
abbrev Conflict := Int → Addr → Int → Addr → Int → Option Bool

section Branches

variable (canon : Addr → Option Addr) (equal : Addr → Addr → Option Bool) (conflict : Conflict)

def sumsConflict (xsize : Int) (x₀ x₁ : Addr) (ysize : Int) (y₀ y₁ : Addr) (c : Int) : Option Bool := do
  if ← equal x₁ y₁ then conflict xsize x₀ ysize y₀ c
  else if ← equal x₀ y₀ then conflict xsize x₁ ysize y₁ c
  else
    match x₁, y₁ with
    | .constInt m, .constInt n => conflict xsize x₀ ysize y₀ (c - m + n)
    | .constInt m, _ => conflict xsize x₀ ysize (.plus y₀ y₁) (c - m)
    | _, .constInt n => conflict xsize (.plus x₀ x₁) ysize y₀ (c + n)
    | _, _ => return true

def productsConflict (divide : Divide) (xsize : Int) (x₀ x₁ : Addr) (ysize : Int) (y₀ y₁ : Addr)
    (c : Int) : Option Bool := do
  let x₁ ← canon x₁
  let y₁ ← canon y₁
  if !(← equal x₁ y₁) then return true
  let x₀ ← canon x₀
  let y₀ ← canon y₀
  if ← equal x₀ y₀ then
    return decide (xsize = 0) || decide (ysize = 0) || overlaps xsize ysize c
  match x₁ with
  | .constInt k => do
    let (xsize, ysize, c) ← divide k xsize ysize c
    conflict xsize x₀ ysize y₀ c
  | _ => return true

/-- An access through an AND has a size that is not known, unless the other one is as large. Then there are
the constants. -/
def othersConflict : Conflict := fun xsize x ysize y c =>
  match x, y with
  | .and x₀ (.constInt mask), y =>
    conflict (if y.isAnd || decide (ysize < -mask) then -1 else xsize) x₀ ysize y c
  | x, .and y₀ (.constInt mask) =>
    conflict xsize x (if x.isAnd || decide (xsize < -mask) then -1 else ysize) y₀ c
  | .constInt m, .constInt n =>
    some (decide (xsize ≤ 0) || decide (ysize ≤ 0) || overlaps xsize ysize (c + (n - m)))
  | .const x, .const y => do conflict xsize (← canon x) ysize (← canon y) c
  | .const x, y => do conflict xsize (← canon x) ysize y c
  | x, .const y => if x.isConstant then do conflict xsize x ysize (← canon y) c else some true
  | x, y =>
    if x.isConstant && y.isConstant then do
      return decide (xsize < 0) || decide (ysize < 0) ||
        ((← equal x y) && (decide (xsize = 0) || decide (ysize = 0) || overlaps xsize ysize c))
    else some true

/-- Are two registers known not to be equal? -/
def registersConflict (info : AliasInfo) (xsize : Int) (rx : Nat) (ysize : Int) (ry : Nat) (c : Int) :
    Option Bool := do
  if info.invariant rx = none ∧ info.invariant ry = none then return true
  conflict xsize ((info.invariant rx).getD (.reg rx)) ysize ((info.invariant ry).getD (.reg ry)) c

/-- Addresses that are not equal. -/
def unequalConflict (divide : Divide) (info : AliasInfo) : Conflict := fun xsize x ysize y c =>
  match x, y with
  | .plus x₀ x₁, .plus y₀ y₁ => sumsConflict equal conflict xsize x₀ x₁ ysize y₀ y₁ c
  | .plus x₀ (.constInt m), y => conflict xsize x₀ ysize y (c - m)
  | .plus x₀ x₁, y => othersConflict canon equal conflict xsize (.plus x₀ x₁) ysize y c
  | x, .plus y₀ (.constInt n) => conflict xsize x ysize y₀ (c + n)
  | _, .plus _ _ => some true
  | .mult x₀ x₁, .mult y₀ y₁ => productsConflict canon equal conflict divide xsize x₀ x₁ ysize y₀ y₁ c
  | .reg rx, .reg ry => registersConflict conflict info xsize rx ysize ry c
  | x, y => othersConflict canon equal conflict xsize x ysize y c

end Branches

/-- `memrefs_conflict_p`, for a way to divide the sizes and the offset. -/
def memrefsConflictWith (divide : Divide) (info : AliasInfo) : Nat → Conflict
  | 0, _, _, _, _, _ => none
  | fuel + 1, xsize, x, ysize, y, c => do
    let x ← canonRtx info (fuel + 1) x
    let y ← canonRtx info (fuel + 1) y
    if ← rtxEqualForMemrefP info (fuel + 1) x y then
      return decide (xsize ≤ 0) || decide (ysize ≤ 0) || overlaps xsize ysize c
    else
      unequalConflict (canonRtx info (fuel + 1)) (rtxEqualForMemrefP info (fuel + 1))
        (memrefsConflictWith divide info fuel) divide info xsize x ysize y c

def memrefsConflictP : AliasInfo → Nat → Int → Addr → Int → Addr → Int → Option Bool :=
  memrefsConflictWith truncatingDivision

end Z80Gcc.MemrefConflict
