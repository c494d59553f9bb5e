import Z80Gcc.Lib.BitMemory
import Z80Gcc.Spec.DoubleInt

/-! Storing and extracting bit-fields of a structure in memory (expmed.c), with the parameters of
z80.h: `BITS_PER_WORD` 16, `BYTES_BIG_ENDIAN` 0, `WORDS_BIG_ENDIAN` 0, `SLOW_UNALIGNED_ACCESS` 0,
`SLOW_BYTE_ACCESS` 0, and no `insv`, `extv` or `extzv` pattern. `none` is a call of `abort`, or a
recursion that does not end. -/

namespace Z80Gcc.BitField

open Z80Gcc.BitMemory

variable {h : Host}

inductive Mode where
  | qi | hi | si | di | ti | oi
  deriving DecidableEq

namespace Mode

/-- `GET_MODE_SIZE`. -/
def size : Mode → Nat
  | qi => 1
  | hi => 2
  | si => 4
  | di => 8
  | ti => 16
  | oi => 32

/-- `GET_MODE_BITSIZE`. -/
def bits (m : Mode) : Nat := 8 * m.size

def all : List Mode := [qi, hi, si, di, ti, oi]

end Mode

abbrev bitsPerWord : Nat := 16

abbrev unitsPerWord : Nat := 2

def wordMode : Mode := .hi

abbrev biggestAlignment : Nat := 8

/-- `GET_MODE_ALIGNMENT`. -/
def modeAlignment (m : Mode) : Nat := min biggestAlignment (max 1 m.bits)

/-- `mode_for_size` of the integer modes; `none` is `BLKmode`. -/
def modeForSize (size : Nat) : Option Mode := Mode.all.find? fun m => m.bits = size

/-- `get_best_mode`; `none` is `VOIDmode`. -/
def getBestMode (bitsize bitpos align : Nat) (largest : Mode) : Option Mode :=
  -- the narrowest mode that contains the bit field
  match Mode.all.find? fun m => bitpos % m.bits + bitsize ≤ m.bits with
  | none => none
  | some m => if align < min m.bits biggestAlignment ∨ largest.bits < m.bits then none else some m

/-- The expressions that are built. A register stands for the value that it has. -/
inductive Rtx where
  | reg (m : Mode) (x : BitVec m.bits)
  | mem (m : Mode) (addr : BitVec 16)
  | const (m : Mode) {w : Nat} (low high : BitVec w)
  | convert (m : Mode) (unsignedp : Bool) (e : Rtx)
  | lshift (m : Mode) (e : Rtx) (n : Nat)
  | rshift (m : Mode) (unsignedp : Bool) (e : Rtx) (n : Nat)
  | and (m : Mode) (e₁ e₂ : Rtx)
  | ior (m : Mode) (e₁ e₂ : Rtx)
  | subword (e : Rtx) (i : Nat)
  | setSubword (e : Rtx) (i : Nat) (part : Rtx)

namespace Rtx

/-- `GET_MODE`. -/
def mode : Rtx → Mode
  | reg m _ | mem m _ | const m _ _ | convert m _ _ | lshift m _ _ | rshift m _ _ _ | and m _ _
  | ior m _ _ => m
  | subword _ _ => wordMode
  | setSubword e _ _ => e.mode

def extend (unsignedp : Bool) {w : Nat} (w' : Nat) (x : BitVec w) : BitVec w' :=
  if unsignedp then x.setWidth w' else x.signExtend w'

def eval (mm : Memory 16) : (e : Rtx) → BitVec e.mode.bits
  | reg _ x => x
  | mem m addr => load mm addr m.bits
  | const m low high => (high ++ low).signExtend m.bits
  | convert m unsignedp e => extend unsignedp m.bits (e.eval mm)
  | lshift m e n => (e.eval mm).setWidth m.bits <<< n
  | rshift m unsignedp e n =>
    if unsignedp then (e.eval mm).setWidth m.bits >>> n
    else ((e.eval mm).setWidth m.bits).sshiftRight n
  | and m e₁ e₂ => (e₁.eval mm).setWidth m.bits &&& (e₂.eval mm).setWidth m.bits
  | ior m e₁ e₂ => (e₁.eval mm).setWidth m.bits ||| (e₂.eval mm).setWidth m.bits
  | subword e i => (e.eval mm).extractLsb' (bitsPerWord * i) wordMode.bits
  | setSubword e i part =>
    let x := e.eval mm
    let y := part.eval mm
    ofBits (fun k =>
      if bitsPerWord * i ≤ k ∧ k < bitsPerWord * (i + 1) then y.getLsbD (k - bitsPerWord * i)
      else x.getLsbD k) _

end Rtx

section Masks

variable (h)

def maskRtx (m : Mode) (bitpos bitsize : Nat) (complement : Bool) : Rtx :=
  let ones : BitVec h.bits := BitVec.allOnes h.bits
  let masklow := if bitpos < h.bits then ones <<< bitpos else 0
  let masklow :=
    if bitpos + bitsize < h.bits then masklow &&& ones >>> (h.bits - bitpos - bitsize) else masklow
  let maskhigh := if bitpos ≤ h.bits then ones else ones <<< (bitpos - h.bits)
  let maskhigh :=
    if h.bits < bitpos + bitsize then maskhigh &&& ones >>> (2 * h.bits - bitpos - bitsize) else 0
  if complement then .const m (~~~masklow) (~~~maskhigh) else .const m masklow maskhigh

end Masks

def lshiftValue (m : Mode) (value : BitVec h.bits) (bitpos bitsize : Nat) : Rtx :=
  let v := if bitsize < h.bits then value &&& ~~~(BitVec.allOnes h.bits <<< bitsize) else value
  if bitpos < h.bits then
    .const m (v <<< bitpos) (if 0 < bitpos then v >>> (h.bits - bitpos) else 0)
  else .const m (0 : BitVec h.bits) (v <<< (bitpos - h.bits))

/-- What a field is extracted from: memory at an address, or a register. -/
inductive Operand where
  | mem (base : BitVec 16)
  | reg (e : Rtx)

/-- The position of a field in the unit of `total_bits` bits that contains it: the bit position,
and the offset of the unit in bytes. -/
def renormalise (totalBits offset bitpos : Nat) : Nat × Nat :=
  let bytes := totalBits / 8
  let (offset, bitpos) :=
    if totalBits ≤ bitpos then
      (offset + bitpos / totalBits * bytes, bitpos - bitpos / totalBits * bytes * 8)
    else (offset, bitpos)
  (bitpos + offset % bytes * 8, offset - offset % bytes)

/-- `extract_fixed_bit_field` once its operand contains the field. -/
def extractFrom (h : Host) (tmode : Mode) (op0 : Rtx) (bitsize bitpos : Nat) (unsignedp : Bool) :
    Rtx :=
  let mode := op0.mode
  if unsignedp then
    let op0 := if bitpos ≠ 0 then .rshift mode true op0 bitpos else op0
    let op0 := if mode ≠ tmode then .convert tmode true op0 else op0
    if mode.bits ≠ bitpos + bitsize then .and op0.mode op0 (maskRtx h op0.mode 0 bitsize false)
    else op0
  else
    -- the narrowest mode that contains the field
    let (mode, op0) := match Mode.all.find? fun m => bitsize + bitpos ≤ m.bits with
      | some mode => (mode, Rtx.convert mode false op0)
      | none => (mode, op0)
    let op0 :=
      if mode.bits ≠ bitsize + bitpos then .lshift mode op0 (mode.bits - (bitsize + bitpos))
      else op0
    .rshift mode false op0 (mode.bits - bitsize)

/-- The loop of `extract_split_bit_field`; `fixed` is `extract_fixed_bit_field`. -/
def extractParts (fixed : Operand → Nat → Nat → Nat → Option Rtx) (op0 : Operand)
    (bitsize bitpos unit : Nat) : Nat → Nat → Option Rtx → Option (Option Rtx)
  | 0, bitsdone, result => if bitsdone < bitsize then none else some result
  | fuel + 1, bitsdone, result =>
    if bitsdone < bitsize then do
      let offset := (bitpos + bitsdone) / unit
      let thispos := (bitpos + bitsdone) % unit
      let thissize := min (min (bitsize - bitsdone) bitsPerWord) (unit - thispos)
      let (word, offset) : Operand × Nat := match op0 with
        | .mem base => (.mem base, offset)
        | .reg e => (.reg (.subword e offset), 0)
      let part ← fixed word (offset * unit / 8) thissize thispos
      let part := if bitsdone ≠ 0 then Rtx.lshift wordMode part bitsdone else part
      let result : Rtx := match result with
        | none => part
        | some result => .ior wordMode part result
      extractParts fixed op0 bitsize bitpos unit fuel (bitsdone + thissize) (some result)
    else some result

def extractSplitBitField (fixed : Operand → Nat → Nat → Nat → Option Rtx) (op0 : Operand)
    (bitsize bitpos : Nat) (unsignedp : Bool) (align : Nat) : Option Rtx := do
  let unit := match op0 with
    | .reg _ => bitsPerWord
    | .mem _ => min (align * 8) bitsPerWord
  let result ← (← extractParts fixed op0 bitsize bitpos unit bitsize 0 none)
  if unsignedp then return result
  else
    return .rshift wordMode false (.lshift wordMode result (bitsPerWord - bitsize))
      (bitsPerWord - bitsize)

def extractFixedBitField (h : Host) : Nat → Mode → Operand → Nat → Nat → Nat → Bool → Nat →
    Option Rtx
  | 0, _, _, _, _, _, _, _ => none
  | fuel + 1, tmode, op0, offset, bitsize, bitpos, unsignedp, align =>
    let split := extractSplitBitField fun op0 offset bitsize bitpos =>
      extractFixedBitField h fuel wordMode op0 offset bitsize bitpos true align
    match op0 with
    | .reg e =>
      if bitsPerWord < bitsize + bitpos then split (.reg e) bitsize bitpos unsignedp align
      else some (extractFrom h tmode e bitsize bitpos unsignedp)
    | .mem base =>
      match getBestMode bitsize (bitpos + offset * 8) (align * 8) wordMode with
      | none => split (.mem base) bitsize (bitpos + offset * 8) unsignedp align
      | some mode =>
        let (bitpos, offset) := renormalise mode.bits offset bitpos
        some (extractFrom h tmode (.mem mode (offsetBy base offset)) bitsize bitpos unsignedp)

def moveWords (piece : Nat → Option Rtx) (target : Rtx) : Nat → Option Rtx
  | 0 => some target
  | n + 1 => do return (← moveWords piece target n).setSubword n (← piece n)

/-- The words of a register from `nwords` on are zeroed. -/
def zeroWords (target : Rtx) (nwords : Nat) : Nat → Rtx
  | 0 => target
  | n + 1 =>
    (zeroWords target nwords n).setSubword (nwords + n) (.const wordMode (0 : BitVec 16) 0)

/-- `extract_bit_field` of a structure in memory at `base`, which has the mode `strMode` or
`BLKmode`, without a target; a new register has an arbitrary content. -/
def extractBitField (h : Host) (fresh : (m : Mode) → BitVec m.bits) :
    Nat → Option Mode → BitVec 16 → Nat → Nat → Bool → Mode → Option Mode → Nat → Option Rtx
  | 0, _, _, _, _, _, _, _, _ => none
  | fuel + 1, strMode, base, bitsize, bitnum, unsignedp, mode, tmode, align =>
    let offset := bitnum / 8
    let bitpos := bitnum % 8
    let tmode := tmode.getD mode
    if bitsPerWord ≤ bitsize ∧ bitsize = mode.bits ∧ bitpos % bitsPerWord = 0 ∨
        (modeForSize bitsize).isSome ∧ bitpos = 0 then do
      let mode1 ← modeForSize bitsize
      let op0 := .mem mode1 (if mode1 ≠ strMode then offsetBy base offset else base)
      return if mode1 ≠ mode then .convert tmode unsignedp op0 else op0
    else if bitsPerWord < bitsize then do
      let nwords := (bitsize + (bitsPerWord - 1)) / bitsPerWord
      let piece i := extractBitField h fresh fuel strMode base
        (min bitsPerWord (bitsize - i * bitsPerWord)) (bitnum + i * bitsPerWord) true mode
        (some wordMode) align
      let target ← moveWords piece (.reg mode (fresh mode)) nwords
      if unsignedp then return zeroWords target nwords (mode.size / unitsPerWord - nwords)
      else
        return .rshift mode false (.lshift mode target (mode.bits - bitsize)) (mode.bits - bitsize)
    else do
      let target ← extractFixedBitField h fuel tmode (.mem base) offset bitsize bitpos unsignedp align
      return if target.mode ≠ tmode ∧ target.mode ≠ mode then .convert tmode unsignedp target
        else target

/-- What is stored: a constant, or a register or memory. -/
inductive Value (h : Host) where
  | constInt (v : BitVec h.bits)
  | constDouble (low high : BitVec h.bits)
  | rtx (e : Rtx)

namespace Value

/-- `GET_MODE`; `none` is `VOIDmode`. -/
def mode : Value h → Option Mode
  | constInt _ | constDouble _ _ => none
  | rtx e => some e.mode

/-- The words above those of a `CONST_INT`. -/
def signWord (v : BitVec h.bits) : BitVec h.bits := if v.msb then BitVec.allOnes h.bits else 0

/-- The value in a mode, extended with zeros where it is narrower (`gen_lowpart`, or
`convert_to_mode`). -/
def inMode (m : Mode) : Value h → Rtx
  | constInt v => .const m v (signWord v)
  | constDouble low high => .const m low high
  | rtx e => .convert m true e

/-- A word of a constant: the bits above it are clear, or copies of its sign bit. -/
def constSubword (low high : BitVec h.bits) (i : Nat) : BitVec h.bits :=
  let ratio := h.bits / bitsPerWord
  let val := if i / ratio = 0 then low else high
  let val := val.sshiftRight (i % ratio * bitsPerWord)
  let signs := BitVec.allOnes h.bits <<< (bitsPerWord - 1)
  let val := if val &&& signs ≠ signs then val &&& (1#h.bits <<< bitsPerWord - 1) else val
  if val.getLsbD (bitsPerWord - 1) then val ||| BitVec.allOnes h.bits <<< bitsPerWord else val

/-- `operand_subword_force`, with the mode for a constant. -/
def operandSubword (value : Value h) (i : Nat) (mode : Option Mode) : Option (Value h) := do
  let mode ← value.mode.or mode
  if mode.size < unitsPerWord then none
  else if mode.size < (i + 1) * unitsPerWord then return constInt 0
  else if mode = wordMode then return value
  else
    match value with
    | rtx (.mem _ addr) => return rtx (.mem wordMode (offsetBy addr (i * unitsPerWord)))
    | rtx e => return rtx (.subword e i)
    | constInt v => return constInt (constSubword v (signWord v) i)
    | constDouble low high => return constInt (constSubword low high i)

/-- `gen_lowpart_common (word_mode, value)` of a constant that is not a `CONST_INT`. -/
def lowWord : Value h → Value h
  | constDouble low _ =>
    constInt ((low <<< (h.bits - bitsPerWord)).sshiftRight (h.bits - bitsPerWord))
  | value => value

end Value

/-- `emit_move_insn` to memory. -/
structure Store where
  mode : Mode
  addr : BitVec 16
  src : Rtx

def Store.exec (mm : Memory 16) (s : Store) : Memory 16 :=
  write mm s.addr ((s.src.eval mm).setWidth s.mode.bits)

/-- The code that is emitted. -/
def run (code : List Store) (mm : Memory 16) : Memory 16 := code.foldl Store.exec mm

/-- The value in place in the unit that contains the field, and whether it is all zeros or all
ones. -/
def placeValue (mode : Mode) (bitsize bitpos : Nat) : Value h → Rtx × Bool × Bool
  | .constInt v =>
    let ones := 1#h.bits <<< bitsize - 1
    let w := if bitsize < h.bits then v &&& ones else v
    (lshiftValue mode v bitpos bitsize, w = 0,
      (bitsize < h.bits ∧ w = ones) ∨ (bitsize = h.bits ∧ w = BitVec.allOnes h.bits))
  | value =>
    let mustAnd := value.mode.elim 0 Mode.bits ≠ bitsize ∧ bitpos + bitsize ≠ mode.bits
    let e := value.inMode mode
    let e := if mustAnd then .and mode e (maskRtx h mode 0 bitsize false) else e
    (if 0 < bitpos then .lshift mode e bitpos else e, false, false)

/-- `store_fixed_bit_field` once the unit at `addr` contains the field. -/
def storeInto (mode : Mode) (addr : BitVec 16) (bitsize bitpos : Nat) (value : Value h) : Store :=
  let (value, allZero, allOne) := placeValue mode bitsize bitpos value
  let op0 := Rtx.mem mode addr
  let temp := if allOne then op0 else .and mode op0 (maskRtx h mode bitpos bitsize true)
  ⟨mode, addr, if allZero then temp else .ior mode temp value⟩

/-- The next bits of a value that `store_split_bit_field` stores. -/
def Value.part (fuel : Nat) (value : Value h) (bitsdone thissize : Nat) : Option (Value h) :=
  match value with
  | .constInt v => some (.constInt (v >>> bitsdone &&& (1#h.bits <<< thissize - 1)))
  | .rtx (.mem m addr) => (extractFixedBitField h fuel wordMode (.mem addr) 0 thissize bitsdone true
    (modeAlignment m / 8)).map .rtx
  | .rtx e => (extractFixedBitField h fuel wordMode (.reg e) 0 thissize bitsdone true
    (modeAlignment e.mode / 8)).map .rtx
  | .constDouble _ _ => none

/-- The loop of `store_split_bit_field`; `fixed` is `store_fixed_bit_field`. -/
def storeParts (fixed : Nat → Nat → Nat → Value h → Option (List Store))
    (part : Nat → Nat → Option (Value h)) (bitsize bitpos unit : Nat) :
    Nat → Nat → Option (List Store)
  | 0, bitsdone => if bitsdone < bitsize then none else some []
  | fuel + 1, bitsdone =>
    if bitsdone < bitsize then do
      let offset := (bitpos + bitsdone) / unit
      let thispos := (bitpos + bitsdone) % unit
      let thissize := min (min (bitsize - bitsdone) bitsPerWord) (unit - thispos)
      let part' ← part bitsdone thissize
      let code ← fixed (offset * unit / 8) thissize thispos part'
      return code ++ (← storeParts fixed part bitsize bitpos unit fuel (bitsdone + thissize))
    else some []

/-- `store_fixed_bit_field` of a field in memory, and `store_split_bit_field`. -/
def storeFixedBitField : Nat → BitVec 16 → Nat → Nat → Nat → Value h → Option (List Store)
  | 0, _, _, _, _, _ => none
  | fuel + 1, base, offset, bitsize, bitpos, value =>
    -- not SLOW_UNALIGNED_ACCESS
    let structAlign := biggestAlignment / 8
    match getBestMode bitsize (bitpos + offset * 8) (structAlign * 8) wordMode with
    | none =>
      let unit := min (structAlign * 8) bitsPerWord
      let value := value.lowWord
      storeParts (storeFixedBitField fuel base) (value.part fuel) bitsize (bitpos + offset * 8) unit
        bitsize 0
    | some mode =>
      let (bitpos, offset) := renormalise mode.bits offset bitpos
      some [storeInto mode (offsetBy base offset) bitsize bitpos value]

def storeWords (piece : Nat → Option (List Store)) : Nat → Option (List Store)
  | 0 => some []
  | n + 1 => do return (← storeWords piece n) ++ (← piece n)

/-- `store_bit_field` to a structure in memory at `base`, which has the mode `strMode` or
`BLKmode`. -/
def storeBitField : Nat → Option Mode → BitVec 16 → Nat → Nat → Option Mode → Value h →
    Option (List Store)
  | 0, _, _, _, _, _, _ => none
  | fuel + 1, strMode, base, bitsize, bitnum, fieldmode, value =>
    let offset := bitnum / 8
    let bitpos := bitnum % 8
    if unitsPerWord ≤ fieldmode.elim 0 Mode.size ∧ bitpos = 0 ∧
        bitsize = fieldmode.elim 0 Mode.bits then do
      let fieldmode ← fieldmode
      -- emit_move_insn checks the mode of the value
      if value.mode = none ∨ value.mode = some fieldmode then
        return [⟨fieldmode, if strMode ≠ fieldmode then offsetBy base offset else base,
          value.inMode fieldmode⟩]
      else none
    else if bitsPerWord < bitsize then do
      let nwords := (bitsize + (bitsPerWord - 1)) / bitsPerWord
      let fieldmode := modeForSize (nwords * bitsPerWord)
      storeWords (fun i => do
        let word ← value.operandSubword i fieldmode
        storeBitField fuel strMode base (min bitsPerWord (bitsize - i * bitsPerWord))
          (bitnum + i * bitsPerWord) (some wordMode) word) nwords
    else storeFixedBitField fuel base offset bitsize bitpos value

end Z80Gcc.BitField
