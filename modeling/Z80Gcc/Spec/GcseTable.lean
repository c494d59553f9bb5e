import Z80Gcc.Spec.Gcse

/-! What gcse.c reads from the insns of the blocks: the expressions that they compute, in a hash table that numbers
them, and the local properties of the blocks. The blocks are lists of their insns proper, without notes and labels;
the cuid of an insn is its place in its block. -/

namespace Z80Gcc.Gcse

open SimpleBitmap FlowGraph Lcm

abbrev MachineMode := Nat

def blkMode : MachineMode := 30

inductive RtxCode where
  | plus | mult | and | ior | xor | ne | eq
  | call | unspecVolatile | asmOperands | parallel
  | other (code : Nat)
  deriving DecidableEq

inductive ConstCode where
  | const | constDouble | symbolRef | labelRef | addrVec | addrDiffVec
  deriving DecidableEq

inductive AutoCode where
  | preDec | preInc | postDec | postInc
  deriving DecidableEq

inductive PartCode where
  | zeroExtract | signExtract | strictLowPart
  deriving DecidableEq

mutual

/-- `name` stands for what a constant is, and `fields` for the operands that are no expressions: numbers, strings, and
the lengths of vectors. -/
inductive Rtx where
  | reg (mode : MachineMode) (regno : Nat)
  | subreg (mode : MachineMode) (word : Nat) (x : Rtx)
  | part (code : PartCode) (mode : MachineMode) (x : Rtx) (xs : Operands)
  | mem (mode : MachineMode) (volatil : Bool) (aliasSet : Nat) (addr : Rtx)
  | constInt (value : Int)
  | constant (code : ConstCode) (mode : MachineMode) (name : Nat)
  | pc
  | cc0
  | auto (code : AutoCode) (mode : MachineMode) (x : Rtx)
  | op (code : RtxCode) (mode : MachineMode) (volatil : Bool) (fields : List Int) (xs : Operands)

inductive Operands where
  | nil
  | cons (x : Rtx) (xs : Operands)

end

/-- `GET_MODE`. -/
def Rtx.mode : Rtx → MachineMode
  | .reg mode _ => mode
  | .subreg mode _ _ => mode
  | .part _ mode _ _ => mode
  | .mem mode _ _ _ => mode
  | .constant _ mode _ => mode
  | .auto _ mode _ => mode
  | .op _ mode _ _ _ => mode
  | .constInt _ => 0
  | .pc => 0
  | .cc0 => 0

inductive InsnCode where
  | insn | jumpInsn | callInsn
  deriving DecidableEq

inductive Effect where
  | set (dest src : Rtx)
  | clobber (x : Rtx)
  | call (x : Rtx)
  | other (x : Rtx)

inductive Pattern where
  | single (x : Effect)
  | parallel (xs : List Effect)

/-- The destination and the source of a pattern that is a SET. -/
def Pattern.set? : Pattern → Option (Rtx × Rtx)
  | .single (.set dest src) => some (dest, src)
  | _ => none

/-- `libcall` and `retval` say that the insn has a note `REG_LIBCALL` or `REG_RETVAL`. -/
structure Insn where
  code : InsnCode
  pattern : Pattern
  constCallP : Bool
  libcall : Bool
  retval : Bool

/-- What gcse.c asks the target. -/
structure Target where
  firstPseudoRegister : Nat
  canCopyP : MachineMode → Bool
  /-- The hard registers that a call clobbers. -/
  callClobbers : Nat → Bool
  pushOperand : Rtx → Bool

abbrev Program (m : Nat) := Fin (m + 1) → List Insn

section Stores

variable (t : Target)

/-- The destination that `note_stores` passes on. -/
def noteDest : Rtx → Rtx
  | .subreg mode word x =>
    match x with
    | .reg mode' regno =>
      if t.firstPseudoRegister ≤ regno then .reg mode' regno else .subreg mode word (.reg mode' regno)
    | x => noteDest x
  | .part _ _ x _ => noteDest x
  | x => x

/-- `SET_DEST` of an element of a destination that is a PARALLEL: an EXPR_LIST has the register as its first operand. -/
def elementDest : Rtx → List Rtx
  | .op _ _ _ _ (.cons x _) => [x]
  | _ => []

def elementDests : Operands → List Rtx
  | .nil => []
  | .cons x xs => elementDests xs ++ elementDest x

/-- A PARALLEL of BLKmode stands for its elements. -/
def blockDests : Rtx → List Rtx
  | .op code mode volatil fields xs =>
    if code = .parallel ∧ mode = blkMode then elementDests xs else [.op code mode volatil fields xs]
  | x => [x]

/-- The destinations in a pattern that `note_stores` goes to. -/
def Effect.stores : Effect → List Rtx
  | .set dest _ => blockDests (noteDest t dest)
  | .clobber x => blockDests (noteDest t x)
  | _ => []

def noteStores : Pattern → List Rtx
  | .single x => x.stores t
  | .parallel xs => xs.reverse.flatMap (Effect.stores t)

/-- The register that is recorded as set when `note_stores` comes with a destination. -/
def recordedReg : Rtx → Option Nat
  | .reg _ regno => some regno
  | .subreg _ _ (.reg _ regno) => some regno
  | _ => none

/-- Whether memory is recorded as set; pushes clobber nothing. -/
def recordedMem : Rtx → Bool
  | .mem mode volatil aliasSet addr => !t.pushOperand (.mem mode volatil aliasSet addr)
  | .subreg _ _ (.mem mode volatil aliasSet addr) => !t.pushOperand (.mem mode volatil aliasSet addr)
  | _ => false

/-- The registers that an insn sets, those that a call clobbers first. -/
def regsSet (insn : Insn) : List Nat :=
  (if insn.code = .callInsn then (List.range t.firstPseudoRegister).filter t.callClobbers else []) ++
    (noteStores t insn.pattern).filterMap recordedReg

def memSet (insn : Insn) : Bool :=
  (decide (insn.code = .callInsn) && !insn.constCallP) || (noteStores t insn.pattern).any (recordedMem t)

end Stores

/-- Where in a block each register and memory are first and last set, and whether they are set. -/
structure SetInfo where
  regFirstSet : Nat → Option Nat
  regLastSet : Nat → Option Nat
  regSetInBlock : Nat → Bool
  memFirstSet : Option Nat
  memLastSet : Option Nat
  memSetInBlock : Bool

def recordLastRegSetInfo (cuid : Nat) (s : SetInfo) (regno : Nat) : SetInfo :=
  { s with
    regFirstSet :=
      if s.regFirstSet regno = none then Function.update s.regFirstSet regno (some cuid) else s.regFirstSet
    regLastSet := Function.update s.regLastSet regno (some cuid)
    regSetInBlock := Function.update s.regSetInBlock regno true }

def recordLastMemSetInfo (cuid : Nat) (s : SetInfo) : SetInfo :=
  { s with
    memFirstSet := if s.memFirstSet = none then some cuid else s.memFirstSet
    memLastSet := some cuid
    memSetInBlock := true }

/-- An insn with its cuid in the first pass over a block. -/
def recordInsn (t : Target) (s : SetInfo) (insn : Insn × Nat) : SetInfo :=
  let s := (regsSet t insn.1).foldl (recordLastRegSetInfo insn.2) s
  if memSet t insn.1 then recordLastMemSetInfo insn.2 s else s

def setInfo (t : Target) (insns : List Insn) : SetInfo :=
  insns.zipIdx.foldl (recordInsn t) ⟨fun _ => none, fun _ => none, fun _ => false, none, none, false⟩

section Expressions

mutual

def oprsUnchangedP (s : SetInfo) (cuid : Nat) (availP : Bool) : Rtx → Bool
  | .reg _ regno =>
    if availP then (s.regLastSet regno).all fun last => decide (last < cuid)
    else (s.regFirstSet regno).all fun first => decide (cuid ≤ first)
  | .mem _ _ _ addr =>
    (if availP then s.memLastSet.all fun last => decide (last < cuid)
      else s.memFirstSet.all fun first => decide (cuid ≤ first)) && oprsUnchangedP s cuid availP addr
  | .auto _ _ _ => false
  | .pc => true
  | .cc0 => true
  | .constInt _ => true
  | .constant _ _ _ => true
  | .subreg _ _ x => oprsUnchangedP s cuid availP x
  | .part _ _ x xs => oprsUnchangedP s cuid availP x && operandsUnchanged s cuid availP xs
  | .op _ _ _ _ xs => operandsUnchanged s cuid availP xs

def operandsUnchanged (s : SetInfo) (cuid : Nat) (availP : Bool) : Operands → Bool
  | .nil => true
  | .cons x xs => oprsUnchangedP s cuid availP x && operandsUnchanged s cuid availP xs

end

mutual

/-- What `hash_expr` stores in its `do_not_record_p`. -/
def doNotRecord : Rtx → Bool
  | .reg _ _ => false
  | .constInt _ => false
  | .constant _ _ _ => false
  | .mem _ volatil _ addr => volatil || doNotRecord addr
  | .auto _ _ _ => true
  | .pc => true
  | .cc0 => true
  | .subreg _ _ x => doNotRecord x
  | .part _ _ x xs => doNotRecord x || operandsNotRecorded xs
  | .op code _ volatil _ xs =>
    code == .call || code == .unspecVolatile || (code == .asmOperands && volatil) || operandsNotRecorded xs

def operandsNotRecorded : Operands → Bool
  | .nil => false
  | .cons x xs => doNotRecord x || operandsNotRecorded xs

end

def commutative : RtxCode → Bool
  | .plus | .mult | .and | .ior | .xor | .ne | .eq => true
  | _ => false

mutual

def exprEquivP : Rtx → Rtx → Bool
  | .reg mode regno, .reg mode' regno' => mode == mode' && regno == regno'
  | .subreg mode word x, .subreg mode' word' y => mode == mode' && word == word' && exprEquivP x y
  | .part code mode x xs, .part code' mode' y ys =>
    code == code' && mode == mode' && operandsEquiv xs ys && exprEquivP x y
  | .mem mode _ aliasSet x, .mem mode' _ aliasSet' y =>
    mode == mode' && aliasSet == aliasSet' && exprEquivP x y
  | .constInt value, .constInt value' => value == value'
  | .constant code mode name, .constant code' mode' name' => code == code' && mode == mode' && name == name'
  | .pc, .pc => true
  | .cc0, .cc0 => true
  | .auto code mode x, .auto code' mode' y => code == code' && mode == mode' && exprEquivP x y
  | .op code mode _ fields xs, .op code' mode' _ fields' ys =>
    code == code' && mode == mode' && fields == fields' &&
      (operandsEquiv xs ys || (commutative code && operandsSwapped xs ys))
  | _, _ => false

def operandsEquiv : Operands → Operands → Bool
  | .nil, .nil => true
  | .cons x xs, .cons y ys => operandsEquiv xs ys && exprEquivP x y
  | _, _ => false

/-- The other order of the operands of a commutative operation. -/
def operandsSwapped : Operands → Operands → Bool
  | .cons x (.cons x' .nil), .cons y (.cons y' .nil) => exprEquivP x y' && exprEquivP x' y
  | _, _ => false

end

def wantToGcseP : Rtx → Bool
  | .reg _ _ => false
  | .subreg _ _ _ => false
  | .constInt _ => false
  | .constant code _ _ => code != .constDouble
  | .op code _ _ _ _ => code != .call
  | _ => true

end Expressions

section Table

variable {m w : Nat}

structure Occr (m : Nat) where
  bb : Fin (m + 1)
  cuid : Nat

/-- An entry of the table; its `bitmap_index` is its place. -/
structure Expr (m : Nat) where
  expr : Rtx
  hash : Nat
  anticOccr : List (Occr m)
  availOccr : List (Occr m)

def recordAntic (o : Occr m) : List (Occr m) → List (Occr m)
  | [] => [o]
  | occr :: rest => if occr.bb = o.bb then occr :: rest else occr :: recordAntic o rest

def recordAvail (o : Occr m) : List (Occr m) → List (Occr m)
  | [] => [o]
  | occr :: rest => if occr.bb = o.bb then o :: rest else occr :: recordAvail o rest

def Expr.record (o : Occr m) (anticP availP : Bool) (curExpr : Expr m) : Expr m :=
  { curExpr with
    anticOccr := if anticP then recordAntic o curExpr.anticOccr else curExpr.anticOccr
    availOccr := if availP then recordAvail o curExpr.availOccr else curExpr.availOccr }

/-- The search for an expression among those with its hash value, and the entry for it. -/
def insertExpr (x : Rtx) (hash : Nat) (o : Occr m) (anticP availP : Bool) : List (Expr m) → List (Expr m)
  | [] => [Expr.record o anticP availP ⟨x, hash, [], []⟩]
  | curExpr :: rest =>
    if curExpr.hash = hash ∧ exprEquivP curExpr.expr x = true then
      curExpr.record o anticP availP :: rest
    else
      curExpr :: insertExpr x hash o anticP availP rest

/-- `hash_expr` gives any value, from an expression and a mode. -/
def insertExprInTable (hashExpr : Rtx → MachineMode → Nat) (x : Rtx) (mode : MachineMode) (o : Occr m)
    (anticP availP : Bool) (table : List (Expr m)) : List (Expr m) :=
  if doNotRecord x then table else insertExpr x (hashExpr x mode) o anticP availP table

variable (t : Target) (hashExpr : Rtx → MachineMode → Nat)

/-- Without `optimize_size`, for the expression hash table. -/
def hashScanSet (s : SetInfo) (o : Occr m) (dest src : Rtx) (table : List (Expr m)) : List (Expr m) :=
  match dest with
  | .reg mode regno =>
    if t.firstPseudoRegister ≤ regno ∧ t.canCopyP mode = true ∧ wantToGcseP src = true then
      insertExprInTable hashExpr src mode o (oprsUnchangedP s o.cuid false src) (oprsUnchangedP s o.cuid true src)
        table
    else
      table
  | _ => table

def hashScanInsn (s : SetInfo) (o : Occr m) (insn : Insn) (inLibcallBlock : Bool) (table : List (Expr m)) :
    List (Expr m) :=
  (insn.pattern.set?).elim table fun set =>
    if inLibcallBlock then table else hashScanSet t hashExpr s o set.1 set.2 table

/-- An insn with its cuid in the second pass: the table, and `in_libcall_block`. -/
def scanInsn (s : SetInfo) (bb : Fin (m + 1)) (state : List (Expr m) × Bool) (insn : Insn × Nat) :
    List (Expr m) × Bool :=
  let inLibcallBlock := if insn.1.libcall then true else if insn.1.retval then false else state.2
  (hashScanInsn t hashExpr s ⟨bb, insn.2⟩ insn.1 inLibcallBlock state.1, inLibcallBlock)

def scanBlock (prog : Program m) (table : List (Expr m)) (bb : Fin (m + 1)) : List (Expr m) :=
  ((prog bb).zipIdx.foldl (scanInsn t hashExpr (setInfo t (prog bb)) bb) (table, false)).1

def computeExprHashTable (prog : Program m) : List (Expr m) :=
  (List.finRange (m + 1)).foldl (scanBlock t hashExpr prog) []

def regSetTable (prog : Program m) (regno : Nat) : List (Fin (m + 1)) :=
  (List.finRange (m + 1)).flatMap fun bb =>
    ((prog bb).filter fun insn => ((noteStores t insn.pattern).filterMap recordedReg).contains regno).map fun _ => bb

mutual

/-- Whether `compute_transp` resets the bit of an expression in a block. -/
def altered (prog : Program m) (bb : Fin (m + 1)) : Rtx → Bool
  | .reg _ regno =>
    if regno < t.firstPseudoRegister then (setInfo t (prog bb)).regSetInBlock regno
    else (regSetTable t prog regno).contains bb
  | .mem _ _ _ addr => (setInfo t (prog bb)).memSetInBlock || altered prog bb addr
  | .pc => false
  | .cc0 => false
  | .constInt _ => false
  | .constant _ _ _ => false
  | .auto _ _ x => altered prog bb x
  | .subreg _ _ x => altered prog bb x
  | .part _ _ x xs => altered prog bb x || operandsAltered prog bb xs
  | .op _ _ _ _ xs => operandsAltered prog bb xs

def operandsAltered (prog : Program m) (bb : Fin (m + 1)) : Operands → Bool
  | .nil => false
  | .cons x xs => altered prog bb x || operandsAltered prog bb xs

end

/-- For the expressions: `SET_P` is zero. -/
def computeTransp {nExprs : Nat} (prog : Program m) (x : Rtx) (indx : Nat) (bmap : Vec m w nExprs) :
    Vec m w nExprs :=
  fun bb => if altered t prog bb x then resetBit (bmap bb) indx else bmap bb

/-- The bit of an expression set in the blocks of its occurrences. -/
def setOccr {nExprs : Nat} (occr : List (Occr m)) (indx : Nat) (bmap : Vec m w nExprs) : Vec m w nExprs :=
  occr.foldl (fun bmap o => Function.update bmap o.bb (setBit (bmap o.bb) indx)) bmap

/-- `transp`, `comp` and `antloc`. -/
structure Props (m w nExprs : Nat) where
  transp : Vec m w nExprs
  comp : Vec m w nExprs
  antloc : Vec m w nExprs

def localExpr {nExprs : Nat} (prog : Program m) (p : Props m w nExprs) (e : Expr m × Nat) : Props m w nExprs where
  transp := computeTransp t prog e.1.expr e.2 p.transp
  antloc := setOccr e.1.anticOccr e.2 p.antloc
  comp := setOccr e.1.availOccr e.2 p.comp

def computeLocalProperties (prog : Program m) (table : List (Expr m)) : Props m w table.length :=
  table.zipIdx.foldl (localExpr t prog) ⟨fun _ => sbitmapOnes, fun _ => sbitmapZero, fun _ => sbitmapZero⟩

end Table

end Z80Gcc.Gcse
