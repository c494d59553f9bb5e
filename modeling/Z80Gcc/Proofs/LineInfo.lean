import Z80Gcc.Proofs.DebugInfo
import Z80Gcc.Spec.LineInfo

/-! The sizes of the line table against what is written. A row that keeps its line takes a byte that is not
counted, and an address on the Z80 two. -/

namespace Z80Gcc.Dwarf

section Prolog

variable {w : Nat}

theorem bytes_outputFile (f : List UInt8) :
    bytes (outputFile f) = f.length + 1 + sizeOfUleb128 0 + sizeOfUleb128 0 + sizeOfUleb128 0 := by
  simp only [outputFile, bytes_cons, bytes_nil, Item.bytes, outputUleb128_length, List.length_append,
    List.length_singleton]
  omega

theorem bytes_flatMap {α : Type} (f : α → List Item) (l : List α) :
    bytes (l.flatMap f) = (l.map fun a => bytes (f a)).sum := by
  induction l with
  | nil => rfl
  | cons a l ih => rw [List.flatMap_cons, bytes_append, ih, List.map_cons, List.sum_cons]

theorem bytes_outputProlog (tables : LineTables w) : bytes tables.outputProlog = tables.sizeOfProlog := by
  have hops : bytes ((List.range' 1 (lineOpcodeBase - 1)).map fun opc => data1 (standardOpArgs opc)) = 9 := rfl
  have hfiles : bytes (tables.files.flatMap outputFile) =
      (tables.files.map fun f => f.length + 1 + sizeOfUleb128 0 + sizeOfUleb128 0 + sizeOfUleb128 0).sum := by
    rw [bytes_flatMap]
    simp only [bytes_outputFile]
  rw [LineTables.outputProlog, bytes_append, bytes_append, bytes_append, bytes_append, hops, hfiles,
    LineTables.sizeOfProlog]
  simp only [bytes_cons, bytes_nil, Item.bytes, data1, List.length_singleton, lineOpcodeBase]

end Prolog

section Rows

variable {w : Nat} {t : Target} {file line function : BitVec w}

theorem bytes_outputSetAddress (label : String) :
    bytes (outputSetAddress t label) + t.ptrSize = sizeOfSetAddress t + t.unalignedWordAsmOp.size := by
  simp only [outputSetAddress, sizeOfSetAddress, bytes_cons, bytes_nil, Item.bytes, data1, Target.addr,
    outputUleb128_length, List.length_singleton]
  omega

theorem bytes_outputEndSequence : bytes outputEndSequence = sizeOfEndSequence := by
  simp only [outputEndSequence, sizeOfEndSequence, bytes_cons, bytes_nil, Item.bytes, data1,
    outputUleb128_length, List.length_singleton]
  omega

/-- The byte that starts a new row on the same line is not counted. -/
theorem bytes_outputRow (label : String) (e : LineInfo w) :
    bytes (outputRow t label e file line) + t.ptrSize =
      sizeOfRow t e file line + t.unalignedWordAsmOp.size + if e.lineNum = line then 1 else 0 := by
  have haddr := @bytes_outputSetAddress t label
  have hfile : bytes (if e.fileNum ≠ file then [data1 4, .byte (outputUleb128 e.fileNum.toNat)] else []) =
      if e.fileNum ≠ file then 1 + sizeOfUleb128 e.fileNum.toNat else 0 := by
    split
    · simp only [bytes_cons, bytes_nil, Item.bytes, data1, outputUleb128_length, List.length_singleton]
      omega
    · rfl
  have hnew : bytes (if isSpecial e.lineNum line then [data1 (lineOpcodeBase + (lineDelta e.lineNum line).toNat)]
      else [data1 3, .byte (outputSleb128 (lineOffset e.lineNum line).toInt), data1 1]) =
      if isSpecial e.lineNum line then 1 else 1 + sizeOfSleb128 (lineOffset e.lineNum line).toInt + 1 := by
    split
    · rfl
    · simp only [bytes_cons, bytes_nil, Item.bytes, data1, outputSleb128_length, List.length_singleton]
      omega
  rw [outputRow, sizeOfRow, bytes_append, bytes_append, hfile]
  by_cases hline : e.lineNum = line
  · rw [if_neg (not_not.2 hline), if_neg (not_not.2 hline), if_pos hline]
    simp only [bytes_cons, bytes_nil, Item.bytes, data1, List.length_singleton]
    omega
  · rw [if_pos hline, if_pos hline, if_neg hline, hnew]
    omega

/-- Every entry that differs from the one before it has another line. -/
def LinesMove (file line : BitVec w) : List (LineInfo w) → Prop
  | [] => True
  | e :: es => (e.lineNum = line → e.fileNum = file) ∧ LinesMove e.fileNum e.lineNum es

def SeparateLinesMove (file line function : BitVec w) : List (SeparateLineInfo w) → Prop
  | [] => True
  | e :: es =>
    (e.lineNum = line → e.fileNum = file ∧ e.function = function) ∧
      if functionDone e.function es then SeparateLinesMove 1 1 e.function es
      else SeparateLinesMove e.fileNum e.lineNum e.function es

/-- Where an address takes at least the size of a pointer, no less is written than counted. -/
theorem sizeOfLines_le (hptr : t.ptrSize ≤ t.unalignedWordAsmOp.size) (es : List (LineInfo w)) (index : Nat) :
    sizeOfLines t file line es ≤ bytes (outputLines t index file line es) := by
  induction es generalizing file line index with
  | nil => exact le_refl _
  | cons e es ih =>
    rw [sizeOfLines, outputLines]
    split
    · exact ih _
    · have hrow := @bytes_outputRow w t file line s!"LM{index}" e
      have hrest := @ih e.fileNum e.lineNum (index + 1)
      rw [bytes_append]
      omega

theorem bytes_outputLines_iff (hptr : t.ptrSize = t.unalignedWordAsmOp.size) (es : List (LineInfo w)) (index : Nat) :
    bytes (outputLines t index file line es) = sizeOfLines t file line es ↔ LinesMove file line es := by
  induction es generalizing file line index with
  | nil => exact iff_of_true rfl trivial
  | cons e es ih =>
    rw [sizeOfLines, outputLines, LinesMove]
    split
    · next hsame =>
      rw [hsame.1, hsame.2, ih, and_iff_right fun _ => rfl]
    · next hother =>
      have hrow := @bytes_outputRow w t file line s!"LM{index}" e
      have hle := @sizeOfLines_le w t e.fileNum e.lineNum hptr.le es (index + 1)
      rw [bytes_append, ← ih (index + 1)]
      by_cases hline : e.lineNum = line
      · rw [if_pos hline] at hrow
        refine iff_of_false (by omega) fun h => hother ⟨hline, h.1 hline⟩
      · rw [if_neg hline] at hrow
        rw [and_iff_right fun h => absurd h hline]
        omega

theorem sizeOfSeparateLines_le (hptr : t.ptrSize ≤ t.unalignedWordAsmOp.size) (es : List (SeparateLineInfo w))
    (index : Nat) :
    sizeOfSeparateLines t file line function es ≤ bytes (outputSeparateLines t index file line function es) := by
  induction es generalizing file line function index with
  | nil => exact le_refl _
  | cons e es ih =>
    have hrow := @bytes_outputRow w t file line s!"LSM{index}" e.toLineInfo
    have haddr := @bytes_outputSetAddress t s!"LFE{e.function.toNat}"
    have hend := bytes_outputEndSequence
    have hdone := @ih 1 1 e.function (index + 1)
    have hmore := @ih e.fileNum e.lineNum e.function (index + 1)
    rw [sizeOfSeparateLines, outputSeparateLines, bytes_append]
    refine Nat.add_le_add ?_ ?_
    · split
      · exact le_refl _
      · omega
    · split
      · rw [bytes_append, bytes_append]
        omega
      · exact hmore

theorem bytes_outputSeparateLines_iff (hptr : t.ptrSize = t.unalignedWordAsmOp.size) (es : List (SeparateLineInfo w))
    (index : Nat) :
    bytes (outputSeparateLines t index file line function es) = sizeOfSeparateLines t file line function es ↔
      SeparateLinesMove file line function es := by
  induction es generalizing file line function index with
  | nil => exact iff_of_true rfl trivial
  | cons e es ih =>
    have hrow := @bytes_outputRow w t file line s!"LSM{index}" e.toLineInfo
    have haddr := @bytes_outputSetAddress t s!"LFE{e.function.toNat}"
    have hend := bytes_outputEndSequence
    obtain ⟨rest, hrest⟩ : ∃ rest, rest = if functionDone e.function es then
        outputSetAddress t s!"LFE{e.function.toNat}" ++ outputEndSequence ++
          outputSeparateLines t (index + 1) 1 1 e.function es
      else outputSeparateLines t (index + 1) e.fileNum e.lineNum e.function es := ⟨_, rfl⟩
    obtain ⟨size, hsize⟩ : ∃ size, size = if functionDone e.function es then
        sizeOfSetAddress t + sizeOfEndSequence + sizeOfSeparateLines t 1 1 e.function es
      else sizeOfSeparateLines t e.fileNum e.lineNum e.function es := ⟨_, rfl⟩
    have hle : size ≤ bytes rest ∧ (bytes rest = size ↔
        if functionDone e.function es then SeparateLinesMove 1 1 e.function es
        else SeparateLinesMove e.fileNum e.lineNum e.function es) := by
      rw [hrest, hsize]
      split
      · have hdone := @sizeOfSeparateLines_le w t 1 1 e.function hptr.le es (index + 1)
        rw [bytes_append, bytes_append, ← ih (index + 1)]
        omega
      · exact ⟨sizeOfSeparateLines_le hptr.le es _, ih _⟩
    rw [sizeOfSeparateLines, outputSeparateLines, ← hrest, ← hsize, SeparateLinesMove, ← hle.2, bytes_append]
    split
    · next hsame =>
      rw [and_iff_right fun _ => hsame.2, bytes_nil]
      omega
    · next hother =>
      by_cases hline : e.lineNum = line
      · rw [if_pos hline] at hrow
        refine iff_of_false (by omega) fun h => hother ⟨hline, h.1 hline⟩
      · rw [if_neg hline] at hrow
        rw [and_iff_right fun h => absurd h hline]
        omega

end Rows

section Results

variable {w : Nat}

/-- A target whose pointers are the words they are written as. -/
def fourByteTarget : Target := ⟨4, 4⟩

/-- The prolog is as long as it says. The table never is on the Z80, where an address is counted as two bytes
and written as four; with pointers of four bytes it is just when every row has another line. -/
theorem line_info_sizes (tables : LineTables w) :
    bytes tables.outputProlog = tables.sizeOfProlog ∧
      bytes (tables.outputRest z80Target) ≠ tables.size z80Target ∧
      (bytes (tables.outputRest fourByteTarget) = tables.size fourByteTarget ↔
        LinesMove 1 1 tables.lineInfo ∧ SeparateLinesMove 1 1 0 tables.separateLineInfo) := by
  have hprolog := bytes_outputProlog tables
  have hend := bytes_outputEndSequence
  have hbytes : ∀ t : Target, t.unalignedOffsetAsmOp.size = 4 → bytes (tables.outputRest t) =
      2 + 4 + tables.sizeOfProlog + bytes (outputLines t 1 1 1 tables.lineInfo) +
        bytes (outputSetAddress t "Letext0") + sizeOfEndSequence +
        bytes (outputSeparateLines t 0 1 1 0 tables.separateLineInfo) := by
    intro t ht
    have hshort : AsmOp.short.size = 2 := rfl
    simp only [LineTables.outputRest, bytes_append, hprolog, hend, bytes_cons, bytes_nil, Item.bytes, data2,
      Target.data, ht, hshort]
  refine ⟨hprolog, ?_, ?_⟩
  · have hlines := @sizeOfLines_le w z80Target 1 1 (by decide) tables.lineInfo 1
    have hseparate := @sizeOfSeparateLines_le w z80Target 1 1 0 (by decide) tables.separateLineInfo 0
    have haddr := @bytes_outputSetAddress z80Target "Letext0"
    have hword : z80Target.unalignedWordAsmOp.size = 4 ∧ z80Target.ptrSize = 2 ∧ z80Target.offsetSize = 4 := by
      decide
    rw [hbytes _ rfl, LineTables.size]
    omega
  · have hlines := @sizeOfLines_le w fourByteTarget 1 1 (by decide) tables.lineInfo 1
    have hseparate := @sizeOfSeparateLines_le w fourByteTarget 1 1 0 (by decide) tables.separateLineInfo 0
    have haddr := @bytes_outputSetAddress fourByteTarget "Letext0"
    have hword : fourByteTarget.unalignedWordAsmOp.size = 4 ∧ fourByteTarget.ptrSize = 4 ∧
        fourByteTarget.offsetSize = 4 := by decide
    rw [← bytes_outputLines_iff (t := fourByteTarget) (by decide) _ 1,
      ← bytes_outputSeparateLines_iff (t := fourByteTarget) (by decide) _ 0, hbytes _ rfl, LineTables.size]
    omega

/-- One row, at line 2 of the file `a.c`: 43 bytes are counted and 47 written. -/
theorem line_info_size_wrong :
    ¬∀ tables : LineTables 32, bytes (tables.outputRest z80Target) = tables.size z80Target ∧
      bytes tables.outputProlog = tables.sizeOfProlog := by
  intro h
  exact absurd (h ⟨[⟨1, 2⟩], [], [[97, 46, 99]]⟩).1 (by decide +kernel)

end Results

end Z80Gcc.Dwarf
