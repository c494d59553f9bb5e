import Z80Gcc.Spec.DoubleInt

/-! The operation that `simplify_shift_const` (combine.c) keeps outside of a shift, and how `merge_outer_ops`
joins another one with it. -/

namespace Z80Gcc

inductive OuterCode where
  | nil | set | neg | plus | ior | xor | and
  deriving DecidableEq

/-- The value of `a` under an operation with a constant; `SET` is the constant. -/
def OuterCode.apply {n : Nat} (op : OuterCode) (c a : BitVec n) : BitVec n :=
  match op with
  | nil => a
  | set => c
  | neg => -a
  | plus => a + c
  | ior => a ||| c
  | xor => a ^^^ c
  | and => a &&& c

/-- `GET_MODE_MASK` of a mode of `width` bits. -/
def Host.modeMask (h : Host) (width : Nat) : BitVec h.bits :=
  if width ≥ h.bits then BitVec.allOnes h.bits else (1 : BitVec h.bits) <<< width - 1

/-- `*pop0`, `*pconst0` and `*pcomp_p`. -/
structure OuterOp (h : Host) where
  op : OuterCode
  const : BitVec h.bits
  comp : Bool
  deriving DecidableEq

namespace OuterOp

variable {h : Host}

/-- Both operations have the code `op`. -/
def mergeSame (op : OuterCode) (const0 const1 : BitVec h.bits) : OuterCode × BitVec h.bits :=
  match op with
  | .and => (.and, const0 &&& const1)
  | .ior => (.ior, const0 ||| const1)
  | .xor => (.xor, const0 ^^^ const1)
  | .plus => (.plus, const0 + const1)
  | .neg => (.nil, const0)
  | op => (op, const0)

/-- "The remaining six cases". The new `op0`, and what has been stored through the pointers; the local `const0`
keeps its value. -/
def mergeMixed (s : OuterOp h) (op1 : OuterCode) (const0 : BitVec h.bits) : OuterCode × OuterOp h :=
  match s.op with
  | .ior => if op1 = .and then (.set, s) else (.ior, s)
  | .xor => if op1 = .and then (.and, { s with comp := true }) else (.and, { s with const := ~~~const0 })
  | .and => if op1 = .ior then (.set, s) else (.and, { s with comp := true })
  | op => (op, s)

def checkNoOp (mask : BitVec h.bits) (op0 : OuterCode) (const0 : BitVec h.bits) : OuterCode :=
  if const0 = 0 ∧ (op0 = .ior ∨ op0 = .xor ∨ op0 = .plus) then .nil
  else if const0 = 0 ∧ op0 = .and then .set
  else if const0 = mask ∧ op0 = .and then .nil
  else op0

/-- "If this would be an entire word for the target, but is not for the host, then sign-extend". -/
def signExtendWord (bitsPerWord width : Nat) (const0 : BitVec h.bits) : BitVec h.bits :=
  if bitsPerWord < h.bits ∧ bitsPerWord = width ∧ const0 &&& (1 : BitVec h.bits) <<< (width - 1) ≠ 0 then
    const0 ||| BitVec.allOnes h.bits <<< width
  else const0

/-- The end of `merge_outer_ops`: `*pop0` and `*pconst0` are stored. -/
def store (s : OuterOp h) (bitsPerWord width : Nat) (op0 : OuterCode) (const0 : BitVec h.bits) : OuterOp h :=
  let const0 := const0 &&& h.modeMask width
  { s with
    op := checkNoOp (h.modeMask width) op0 const0
    const := signExtendWord bitsPerWord width const0 }

/-- "If OP0 is an AND, clear unimportant bits in CONST1". -/
def clearUnimportant (op0 : OuterCode) (const0 const1 : BitVec h.bits) : BitVec h.bits :=
  if op0 = .and then const1 &&& const0 else const1

/-- `merge_outer_ops`: what it returns, and what the pointers point to then. -/
def merge (s : OuterOp h) (op1 : OuterCode) (const1 : BitVec h.bits) (bitsPerWord width : Nat) :
    Bool × OuterOp h :=
  let op0 := s.op
  let const0 := s.const &&& h.modeMask width
  let const1 := clearUnimportant op0 const0 (const1 &&& h.modeMask width)
  if op1 = .nil ∨ op0 = .set then (true, s)
  else if op0 = .nil then (true, s.store bitsPerWord width op1 const1)
  else if op0 = op1 then
    let m := mergeSame op0 const0 const1
    (true, s.store bitsPerWord width m.1 m.2)
  else if op0 = .plus ∨ op1 = .plus ∨ op0 = .neg ∨ op1 = .neg then (false, s)
  else if const0 ≠ const1 then (false, s)
  else
    let m := s.mergeMixed op1 const0
    (true, m.2.store bitsPerWord width m.1 const0)

/-- The value of `a` under the operation. -/
def value (s : OuterOp h) (a : BitVec h.bits) : BitVec h.bits := s.op.apply s.const a

/-- Does a call set `*pcomp_p`? -/
def setsComp (s : OuterOp h) (op1 : OuterCode) (const1 : BitVec h.bits) (bitsPerWord width : Nat) : Bool :=
  (merge { s with comp := false } op1 const1 bitsPerWord width).2.comp

/-- The call is right: the result has the value of `op1` and then of the operation there was, and a call that
fails changes nothing. -/
structure MergeRight (s : OuterOp h) (op1 : OuterCode) (const1 : BitVec h.bits) (bitsPerWord width : Nat) :
    Prop where
  value : (s.merge op1 const1 bitsPerWord width).1 = true → ∀ a : BitVec h.bits,
    ((s.merge op1 const1 bitsPerWord width).2.value
      (if s.setsComp op1 const1 bitsPerWord width then ~~~a else a)).setWidth width =
      (s.value (op1.apply const1 a)).setWidth width
  comp : (s.merge op1 const1 bitsPerWord width).2.comp = (s.comp || s.setsComp op1 const1 bitsPerWord width)
  unchanged : (s.merge op1 const1 bitsPerWord width).1 = false → (s.merge op1 const1 bitsPerWord width).2 = s

end OuterOp

end Z80Gcc
