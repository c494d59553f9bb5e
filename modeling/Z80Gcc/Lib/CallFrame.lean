import Mathlib.Data.List.Induction
import Mathlib.Logic.Function.Basic

/-! The call frame instructions of DWARF and the row that they come to. -/

namespace CallFrame

/-- The instructions, over labels, registers, offsets and ways to save a register. -/
inductive Instr (L R O S : Type) where
  | advance (label : L)
  | defCfa (reg : R) (offset : O)
  | defCfaRegister (reg : R)
  | defCfaOffset (offset : O)
  | save (reg : R) (rule : S)
  /-- An extension that changes no rule. -/
  | extension

/-- A row of the table: a place, the rule for the frame address, and those for the registers. -/
structure Row (L R O S : Type) where
  loc : Option L
  cfa : Option (R × O)
  saved : R → Option S

variable {L R O S : Type} [DecidableEq R]

def Row.step (row : Row L R O S) : Instr L R O S → Row L R O S
  | .advance label => { row with loc := some label }
  | .defCfa reg offset => { row with cfa := some (reg, offset) }
  | .defCfaRegister reg => { row with cfa := row.cfa.map fun p => (reg, p.2) }
  | .defCfaOffset offset => { row with cfa := row.cfa.map fun p => (p.1, offset) }
  | .save reg rule => { row with saved := Function.update row.saved reg (some rule) }
  | .extension => row

def Row.initial : Row L R O S := ⟨none, none, fun _ => none⟩

def run (l : List (Instr L R O S)) : Row L R O S := l.foldl Row.step Row.initial

theorem run_append_singleton (l : List (Instr L R O S)) (i : Instr L R O S) :
    run (l ++ [i]) = (run l).step i := by
  rw [run, List.foldl_append]
  rfl

/-- The instructions that say nothing about the frame address. -/
def Instr.keepsCfa : Instr L R O S → Bool
  | .advance _ | .save .. | .extension => true
  | .defCfa .. | .defCfaRegister _ | .defCfaOffset _ => false

def Instr.isAdvance : Instr L R O S → Bool
  | .advance _ => true
  | _ => false

theorem Row.step_cfa {row : Row L R O S} {i : Instr L R O S} (hi : i.keepsCfa = true) :
    (row.step i).cfa = row.cfa := by
  cases i with
  | advance | save | extension => rfl
  | defCfa | defCfaRegister | defCfaOffset => cases hi

theorem Row.step_loc {row : Row L R O S} {i : Instr L R O S} (hi : i.isAdvance = false) :
    (row.step i).loc = row.loc := by
  cases i with
  | advance => cases hi
  | save | extension | defCfa | defCfaRegister | defCfaOffset => rfl

/-- A place is reached in the last part of a list that goes to one. -/
theorem run_append_loc {l l' : List (Instr L R O S)} {label : L} (h : (run l').loc = some label) :
    (run (l ++ l')).loc = some label := by
  induction l' using List.reverseRecOn generalizing label with
  | nil => cases h
  | append_singleton l' i ih =>
    rw [run_append_singleton] at h
    rw [← List.append_assoc, run_append_singleton]
    cases hi : i.isAdvance with
    | false =>
      rw [Row.step_loc hi] at h ⊢
      exact ih h
    | true =>
      cases i with
      | advance => exact h
      | save | extension | defCfa | defCfaRegister | defCfaOffset => cases hi

end CallFrame
