import Z80Gcc.Spec.Dwarf

/-! The `.debug_line` section: the sizes that are written in front, and the table behind them (dwarf2out.c). -/

namespace Z80Gcc.Dwarf

/-- A `dw_line_info_entry`. -/
structure LineInfo (w : Nat) where
  fileNum : BitVec w
  lineNum : BitVec w
  deriving DecidableEq, Repr

/-- A `dw_separate_line_info_entry`. -/
structure SeparateLineInfo (w : Nat) extends LineInfo w where
  function : BitVec w
  deriving DecidableEq, Repr

/-- `line_info_table` and `file_table` from their index 1, and `separate_line_info_table`. A file name is given
by its characters. -/
structure LineTables (w : Nat) where
  lineInfo : List (LineInfo w)
  separateLineInfo : List (SeparateLineInfo w)
  files : List (List UInt8)

/-- `DWARF_LINE_BASE`, `DWARF_LINE_OPCODE_BASE` and `DWARF_LINE_RANGE`. -/
def lineBase : Int := -10
def lineOpcodeBase : Nat := 10
def lineRange : Nat := 254 - lineOpcodeBase + 1

section Prolog

variable {w : Nat} (tables : LineTables w)

/-- `size_of_line_prolog`. -/
def LineTables.sizeOfProlog : Nat :=
  5 + (lineOpcodeBase - 1) + 1 +
    (tables.files.map fun f => f.length + 1 + sizeOfUleb128 0 + sizeOfUleb128 0 + sizeOfUleb128 0).sum + 1

def standardOpArgs (opc : Nat) : Nat :=
  match opc with
  | 2 | 3 | 4 | 5 | 9 => 1
  | _ => 0

/-- An entry of the file name table, with its directory, time and length. -/
def outputFile (f : List UInt8) : List Item :=
  [.ascii (f ++ [0]), .byte (outputUleb128 0), .byte (outputUleb128 0), .byte (outputUleb128 0)]

/-- What is written between the length of the prolog and the first instruction. -/
def LineTables.outputProlog : List Item :=
  [data1 4, data1 1, .byte [(256 + lineBase).toNat], .byte [lineRange], .byte [lineOpcodeBase]] ++
    (List.range' 1 (lineOpcodeBase - 1)).map (fun opc => data1 (standardOpArgs opc)) ++ [data1 0] ++
    tables.files.flatMap outputFile ++ [data1 0]

end Prolog

section Rows

variable {w : Nat} (t : Target)

def sizeOfSetAddress : Nat := 1 + sizeOfUleb128 (1 + t.ptrSize) + 1 + t.ptrSize

/-- `DW_LNE_set_address`. -/
def outputSetAddress (label : String) : List Item :=
  [data1 0, .byte (outputUleb128 (1 + t.ptrSize)), data1 2, t.addr label]

/-- `DW_LNE_end_sequence`. -/
def sizeOfEndSequence : Nat := 1 + sizeOfUleb128 1 + 1

def outputEndSequence : List Item := [data1 0, .byte (outputUleb128 1), data1 1]

/-- `line_offset` and `line_delta`. -/
def lineOffset (line current : BitVec w) : BitVec w := line - current
def lineDelta (line current : BitVec w) : BitVec w := lineOffset line current - BitVec.ofInt w lineBase

def isSpecial (line current : BitVec w) : Prop :=
  0 ≤ (lineDelta line current).toInt ∧ (lineDelta line current).toInt < lineRange - 1

instance (line current : BitVec w) : Decidable (isSpecial line current) := by
  unfold isSpecial
  infer_instance

/-- What `size_of_line_info` counts for an entry. -/
def sizeOfRow (e : LineInfo w) (file line : BitVec w) : Nat :=
  sizeOfSetAddress t + (if e.fileNum ≠ file then 1 + sizeOfUleb128 e.fileNum.toNat else 0) +
    if e.lineNum ≠ line then
      if isSpecial e.lineNum line then 1 else 1 + sizeOfSleb128 (lineOffset e.lineNum line).toInt + 1
    else 0

/-- What `output_line_info` writes for an entry. -/
def outputRow (label : String) (e : LineInfo w) (file line : BitVec w) : List Item :=
  outputSetAddress t label ++
    (if e.fileNum ≠ file then [data1 4, .byte (outputUleb128 e.fileNum.toNat)] else []) ++
    if e.lineNum ≠ line then
      if isSpecial e.lineNum line then [data1 (lineOpcodeBase + (lineDelta e.lineNum line).toNat)]
      else [data1 3, .byte (outputSleb128 (lineOffset e.lineNum line).toInt), data1 1]
    else [data1 1] -- "We still need to start a new row"

/-- The loops over `line_info_table`, with `current_file` and `current_line`. -/
def sizeOfLines (file line : BitVec w) : List (LineInfo w) → Nat
  | [] => 0
  | e :: es =>
    if e.lineNum = line ∧ e.fileNum = file then sizeOfLines file line es
    else sizeOfRow t e file line + sizeOfLines e.fileNum e.lineNum es

def outputLines (index : Nat) (file line : BitVec w) : List (LineInfo w) → List Item
  | [] => []
  | e :: es =>
    if e.lineNum = line ∧ e.fileNum = file then outputLines (index + 1) file line es
    else outputRow t s!"LM{index}" e file line ++ outputLines (index + 1) e.fileNum e.lineNum es

def functionDone (function : BitVec w) : List (SeparateLineInfo w) → Prop
  | [] => True
  | e :: _ => e.function ≠ function

instance (function : BitVec w) (es : List (SeparateLineInfo w)) : Decidable (functionDone function es) := by
  cases es <;> (unfold functionDone; infer_instance)

/-- The loops over `separate_line_info_table`. -/
def sizeOfSeparateLines (file line function : BitVec w) : List (SeparateLineInfo w) → Nat
  | [] => 0
  | e :: es =>
    (if e.lineNum = line ∧ e.fileNum = file ∧ e.function = function then 0
      else sizeOfRow t e.toLineInfo file line) +
    if functionDone e.function es then
      sizeOfSetAddress t + sizeOfEndSequence + sizeOfSeparateLines 1 1 e.function es
    else sizeOfSeparateLines e.fileNum e.lineNum e.function es

def outputSeparateLines (index : Nat) (file line function : BitVec w) : List (SeparateLineInfo w) → List Item
  | [] => []
  | e :: es =>
    (if e.lineNum = line ∧ e.fileNum = file ∧ e.function = function then []
      else outputRow t s!"LSM{index}" e.toLineInfo file line) ++
    if functionDone e.function es then
      outputSetAddress t s!"LFE{e.function.toNat}" ++ outputEndSequence ++
        outputSeparateLines (index + 1) 1 1 e.function es
    else outputSeparateLines (index + 1) e.fileNum e.lineNum e.function es

end Rows

section Table

variable {w : Nat} (t : Target) (tables : LineTables w)

/-- `size_of_line_info`. -/
def LineTables.size : Nat :=
  2 + t.offsetSize + tables.sizeOfProlog + sizeOfLines t 1 1 tables.lineInfo + sizeOfSetAddress t +
    sizeOfEndSequence + sizeOfSeparateLines t 1 1 0 tables.separateLineInfo

/-- What `output_line_info` writes after the length. -/
def LineTables.outputRest : List Item :=
  [data2 2, t.data tables.sizeOfProlog] ++ tables.outputProlog ++ outputLines t 1 1 1 tables.lineInfo ++
    outputSetAddress t "Letext0" ++ outputEndSequence ++ outputSeparateLines t 0 1 1 0 tables.separateLineInfo

/-- `output_line_info`. -/
def LineTables.output : List Item := t.data (tables.size t) :: tables.outputRest t

end Table

end Z80Gcc.Dwarf
