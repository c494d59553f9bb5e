import Z80Gcc.Spec.GcseTable

/-! One pass of the elimination of partial redundancies over the insns of a function, and what insns do. -/

namespace Z80Gcc.Gcse

open SimpleBitmap FlowGraph Lcm

section Pass

variable {m w : Nat} (t : Target) (prog : Program m) (table : List (Expr m))

/-- The local properties with what `validate_change` says. -/
def localOf (validateChange : Fin (m + 1) → Nat → Bool) : Local m w table.length where
  transp := (computeLocalProperties t prog table).transp
  comp := (computeLocalProperties t prog table).comp
  antloc := (computeLocalProperties t prog table).antloc
  sameInsn bb i := (table[i]?).any fun e => e.anticOccr.any fun o => e.availOccr.any fun o' =>
    decide (o.bb = bb) && decide (o'.bb = bb) && decide (o.cuid = o'.cuid)
  validateChange := validateChange

variable (p : Local m w table.length) (sPreds : Fin (m + 1) → List (BlockRef (m + 1)))
  (redundant optimal : Vec m w table.length) (genReg : Nat → Nat) (insertPos : Fin (m + 1) → Nat)

/-- The expression whose occurrence an insn is that was deleted. -/
def deletedAt (bb : Fin (m + 1)) (cuid : Nat) : Option Nat :=
  (List.range table.length).find? fun i =>
    ((table[i]?).any fun e => e.anticOccr.any fun o => decide (o.bb = bb) && decide (o.cuid = cuid)) &&
      preDelete p redundant optimal bb i

/-- `GET_MODE (SET_DEST (set))` of an occurrence. -/
def destMode (o : Occr m) : MachineMode :=
  (((prog o.bb)[o.cuid]?).bind fun insn => insn.pattern.set?).elim 0 fun set => set.1.mode

/-- `gen_reg_rtx` in the mode of the first destination that needs it. -/
def reachingReg (i : Nat) : Rtx :=
  .reg (((table[i]?).bind fun e => e.anticOccr.find? fun o => testBit (toDelete redundant optimal o.bb) i).elim 0
    (destMode prog)) (genReg i)

def setInsn (dest src : Rtx) : Insn := ⟨.insn, .single (.set dest src), false, false, false⟩

/-- `validate_change` of a source. -/
def replaceSrc (insn : Insn) (src : Rtx) : Insn :=
  (insn.pattern.set?).elim insn fun set => { insn with pattern := .single (.set set.1 src) }

def gcseInsn (bb : Fin (m + 1)) (insn : Insn × Nat) : Insn :=
  (deletedAt table p redundant optimal bb insn.2).elim insn.1
    fun i => replaceSrc insn.1 (reachingReg prog table redundant optimal genReg i)

def insertedInsns (bb : Fin (m + 1)) : List Insn :=
  ((List.range table.length).filter fun i => preInsert p sPreds redundant optimal bb i == some true).filterMap
    fun i => (table[i]?).map fun e => setInsn (reachingReg prog table redundant optimal genReg i) e.expr

def copyInsns (bb : Fin (m + 1)) (insn : Insn × Nat) : List Insn :=
  ((List.range table.length).filter fun i => preInsertCopies p sPreds redundant optimal bb i == some true &&
    (table[i]?).any fun e => e.availOccr.any fun o => decide (o.bb = bb) && decide (o.cuid = insn.2)).filterMap
      fun i => (insn.1.pattern.set?).map fun set =>
        setInsn (reachingReg prog table redundant optimal genReg i) set.1

/-- An insn of the function before the pass, and what stands for it after. -/
def gcsePlace (bb : Fin (m + 1)) (insn : Insn × Nat) : List Insn :=
  (if insn.2 = insertPos bb then insertedInsns prog table p sPreds redundant optimal genReg bb else []) ++
    gcseInsn prog table p redundant optimal genReg bb insn ::
      copyInsns prog table p sPreds redundant optimal genReg bb insn

/-- The blocks after the pass. `insert_pos` is the place in each block that `insert_insn_end_bb` finds. -/
def preGcse : Program m := fun bb =>
  ((prog bb).zipIdx.flatMap (gcsePlace prog table p sPreds redundant optimal genReg insertPos bb)) ++
    if (prog bb).length ≤ insertPos bb then insertedInsns prog table p sPreds redundant optimal genReg bb else []

/-- `validate_change` says of each block and expression whether the insn in `antic_occr` may become a copy; `junk` is
what `alloc_pre_mem` gives. -/
def onePreGcsePass (hashExpr : Rtx → MachineMode → Nat) (validateChange : Fin (m + 1) → Nat → Bool)
    (succ : Fin (m + 1) → List (BlockRef (m + 1))) (junk : ∀ nExprs, Junk m w nExprs) (genReg : Nat → Nat)
    (insertPos : Fin (m + 1) → Nat) (fuel : Nat) (prog : Program m) : Option (Program m) :=
  let table := computeExprHashTable t hashExpr prog
  let p : Local m w table.length := localOf t prog table validateChange
  let l := computePredsSuccs succ entryEdges
  if 0 < table.length then
    (preLcm fuel (junk table.length) l p.transp p.antloc).map fun r =>
      preGcse prog table p l.sPreds r.1 r.2 genReg insertPos
  else
    some prog

end Pass

section Meaning

variable {V M : Type}

structure State (V M : Type) where
  regs : Nat → V
  mem : M
  cc0 : V
  pc : V

structure Interp (V M : Type) where
  constInt : Int → V
  constant : ConstCode → MachineMode → Nat → V
  subreg : MachineMode → Nat → V → V
  part : PartCode → MachineMode → V → List V → V
  load : MachineMode → Nat → V → M → V
  auto : AutoCode → MachineMode → V → V
  op : RtxCode → MachineMode → List Int → List V → V
  op_comm : ∀ code mode fields a b, commutative code = true → op code mode fields [a, b] = op code mode fields [b, a]

mutual

def Interp.eval (d : Interp V M) (st : State V M) : Rtx → V
  | .reg _ regno => st.regs regno
  | .subreg mode word x => d.subreg mode word (d.eval st x)
  | .part code mode x xs => d.part code mode (d.eval st x) (d.evals st xs)
  | .mem mode _ aliasSet addr => d.load mode aliasSet (d.eval st addr) st.mem
  | .constInt value => d.constInt value
  | .constant code mode name => d.constant code mode name
  | .pc => st.pc
  | .cc0 => st.cc0
  | .auto code mode x => d.auto code mode (d.eval st x)
  | .op code mode _ fields xs => d.op code mode fields (d.evals st xs)

def Interp.evals (d : Interp V M) (st : State V M) : Operands → List V
  | .nil => []
  | .cons x xs => d.eval st x :: d.evals st xs

end

mutual

def Rtx.regnos : Rtx → List Nat
  | .reg _ regno => [regno]
  | .subreg _ _ x => x.regnos
  | .part _ _ x xs => x.regnos ++ xs.regnos
  | .mem _ _ _ addr => addr.regnos
  | .auto _ _ x => x.regnos
  | .op _ _ _ _ xs => xs.regnos
  | .constInt _ => []
  | .constant _ _ _ => []
  | .pc => []
  | .cc0 => []

def Operands.regnos : Operands → List Nat
  | .nil => []
  | .cons x xs => x.regnos ++ xs.regnos

end

def Effect.regnos : Effect → List Nat
  | .set dest src => dest.regnos ++ src.regnos
  | .clobber x => x.regnos
  | .call x => x.regnos
  | .other x => x.regnos

def Pattern.regnos : Pattern → List Nat
  | .single x => x.regnos
  | .parallel xs => xs.flatMap Effect.regnos

/-- States that differ only in registers from `n` on. -/
structure Agree (n : Nat) (st st' : State V M) : Prop where
  regs : ∀ regno < n, st.regs regno = st'.regs regno
  mem : st.mem = st'.mem
  cc0 : st.cc0 = st'.cc0
  pc : st.pc = st'.pc

/-- What insns do, as far as gcse.c relies on it: a SET of a pseudo register whose source can be recorded sets it to the
value of the source; an insn changes no register and no memory that it is not recorded to set, and it depends on no
pseudo register that is not in its pattern. -/
structure Machine (t : Target) (V M : Type) extends Interp V M where
  exec : Insn → State V M → State V M
  set_eq : ∀ insn mode regno src st, insn.pattern = .single (.set (.reg mode regno) src) →
    t.firstPseudoRegister ≤ regno → doNotRecord src = false →
      exec insn st = { st with regs := Function.update st.regs regno (toInterp.eval st src) }
  frame_reg : ∀ insn st regno, regno ∉ regsSet t insn → (exec insn st).regs regno = st.regs regno
  frame_mem : ∀ insn st, memSet t insn = false → (exec insn st).mem = st.mem
  exec_agree : ∀ insn n st st', t.firstPseudoRegister ≤ n → (∀ regno ∈ insn.pattern.regnos, regno < n) →
    Agree n st st' → Agree n (exec insn st) (exec insn st')

variable {t : Target} {m : Nat}

def Machine.execInsns (μ : Machine t V M) (insns : List Insn) (st : State V M) : State V M :=
  insns.foldl (fun st insn => μ.exec insn st) st

/-- The first `k` blocks of a way. -/
def Machine.run (μ : Machine t V M) (prog : Program m) (path : Nat → Fin (m + 1)) (k : Nat) (st : State V M) :
    State V M :=
  (List.range k).foldl (fun st j => μ.execInsns (prog (path j)) st) st

end Meaning

end Z80Gcc.Gcse
