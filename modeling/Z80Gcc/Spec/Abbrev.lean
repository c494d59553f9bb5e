import Z80Gcc.Lib.Leb128
import Z80Gcc.Spec.Dwarf

/-! The abbreviations of the DIEs: the table that is built and the section `.debug_abbrev` (dwarf2out.c). -/

namespace Z80Gcc.Dwarf

/-- The forms of `enum dwarf_form` that are used. -/
inductive Form where
  | addr | block2 | data2 | data4 | data8 | string | block1 | data1 | flag | ref4 | ref8
  deriving DecidableEq, Repr

def Form.code : Form → Nat
  | addr => 0x01 | block2 => 0x03 | data2 => 0x05 | data4 => 0x06 | data8 => 0x07 | string => 0x08
  | block1 => 0x0a | data1 => 0x0b | flag => 0x0c | ref4 => 0x13 | ref8 => 0x14

/-- `DW_FORM_data` and `DW_FORM_ref`. -/
def Target.formData (t : Target) : Form := if t.offsetSize = 8 then .data8 else .data4
def Target.formRef (t : Target) : Form := if t.offsetSize = 8 then .ref8 else .ref4

/-- `value_format`; `none` is `abort ()`. -/
def Value.format (t : Target) : Value → Option Form
  | addr _ => some .addr
  | loc locs =>
    match constantSize (sizeOfLocs t locs) with
    | 1 => some .block1
    | 2 => some .block2
    | _ => none
  | const _ => some .data4
  | unsignedConst v _ =>
    match constantSize v.toNat with
    | 1 => some .data1
    | 2 => some .data2
    | 4 => some .data4
    | 8 => some .data8
    | _ => none
  | longLong _ _ => some .block1
  | float _ => some .block1
  | flag _ => some .flag
  | dieRef _ => some t.formRef
  | fdeRef _ => some t.formData
  | lblId _ => some .addr
  | lblOffset _ => some t.formData
  | str _ => some .string

/-- A DIE of `abbrev_die_table`, as far as it is looked at. -/
structure AbbrevDie where
  tag : Nat
  hasChildren : Bool
  attrs : List Attr
  deriving DecidableEq, Repr

section Build

variable (t : Target)

def matchAttrs : List Attr → List Attr → Option Bool
  | [], [] => some true
  | a :: as, d :: ds =>
    if a.name ≠ d.name then some false
    else
      (a.value.format t).bind fun fa => (d.value.format t).bind fun fd =>
        if fa ≠ fd then some false else matchAttrs as ds
  | _, _ => some false

/-- The first abbreviation that a DIE can take, from `id` on, or the one after the last. -/
def findAbbrev (die : AbbrevDie) : Nat → List AbbrevDie → Option Nat
  | id, [] => some id
  | id, a :: table =>
    if a.tag = die.tag ∧ a.hasChildren = die.hasChildren then
      (matchAttrs t a.attrs die.attrs).bind fun same => if same then some id else findAbbrev die (id + 1) table
    else findAbbrev die (id + 1) table

/-- The abbreviation number of a DIE; the table grows when there is none for it. -/
def addAbbrev (table : List AbbrevDie) (die : AbbrevDie) : Option (Nat × List AbbrevDie) :=
  (findAbbrev t die 1 table).map fun id => (id, if table.length + 1 ≤ id then table ++ [die] else table)

/-- `build_abbrev_table` on a list of siblings. The table is given without its unused first entry. -/
def buildAbbrevTable : Dies → List AbbrevDie → Option (Dies × List AbbrevDie)
  | .nil, table => some (.nil, table)
  | .cons die child sib, table =>
    (addAbbrev t table ⟨die.tag, !child.isNil, die.attrs⟩).bind fun p =>
      (buildAbbrevTable child p.2).bind fun q =>
        (buildAbbrevTable sib q.2).map fun r => (.cons { die with dieAbbrev := p.1 } q.1 r.1, r.2)

end Build

section Output

variable (t : Target)

def outputAbbrevAttrs : List Attr → Option (List Nat)
  | [] => some [0, 0]
  | a :: as =>
    (a.value.format t).bind fun form =>
      (outputAbbrevAttrs as).map fun rest => outputUleb128 a.name ++ (outputUleb128 form.code ++ rest)

/-- `output_abbrev_section`, from the abbreviation `id` on. -/
def outputAbbrevs : Nat → List AbbrevDie → Option (List Nat)
  | _, [] => some [0]
  | id, a :: table =>
    (outputAbbrevAttrs t a.attrs).bind fun attrs =>
      (outputAbbrevs (id + 1) table).map fun rest =>
        outputUleb128 id ++ (outputUleb128 a.tag ++ ((if a.hasChildren then 1 else 0) :: (attrs ++ rest)))

def outputAbbrevSection (table : List AbbrevDie) : Option (List Nat) := outputAbbrevs t 1 table

end Output

section Read

/-- An entry as a reader finds it, with the codes of the forms. -/
structure AbbrevEntry where
  code : Nat
  tag : Nat
  hasChildren : Bool
  pairs : List (Nat × Nat)

/-- The pairs of an attribute and a form, up to a pair of zeros. -/
inductive ReadPairs : List Nat → List (Nat × Nat) → List Nat → Prop
  | done {bs bs₁ rest} (hname : Leb128.decodeUnsigned bs = some (0, bs₁))
      (hform : Leb128.decodeUnsigned bs₁ = some (0, rest)) : ReadPairs bs [] rest
  | pair {bs bs₁ bs₂ name form pairs rest} (hname : Leb128.decodeUnsigned bs = some (name, bs₁))
      (hform : Leb128.decodeUnsigned bs₁ = some (form, bs₂)) (hpair : (name, form) ≠ (0, 0))
      (hrest : ReadPairs bs₂ pairs rest) : ReadPairs bs ((name, form) :: pairs) rest

inductive ReadAbbrevs : List Nat → List AbbrevEntry → Prop
  | done {bs rest} (hcode : Leb128.decodeUnsigned bs = some (0, rest)) : ReadAbbrevs bs []
  | entry {bs bs₁ bs₂ rest : List Nat} {e : AbbrevEntry} {entries} (hcode : Leb128.decodeUnsigned bs = some (e.code, bs₁))
      (hpos : e.code ≠ 0) (htag : Leb128.decodeUnsigned bs₁ = some (e.tag, (if e.hasChildren then 1 else 0) :: bs₂))
      (hpairs : ReadPairs bs₂ e.pairs rest) (hrest : ReadAbbrevs rest entries) : ReadAbbrevs bs (e :: entries)

/-- A value that takes just what its form says; an address takes the size that the header gives. -/
def Form.Reads (t : Target) (items : List Item) : Form → Prop
  | addr => bytes items = t.ptrSize
  | data1 | flag => bytes items = 1
  | data2 => bytes items = 2
  | data4 | ref4 => bytes items = 4
  | data8 | ref8 => bytes items = 8
  | string => ∃ chars, items = [.ascii (chars ++ [0])] ∧ 0 ∉ chars
  | block1 => ∃ n rest, items = .byte [n] :: rest ∧ n < 2 ^ 8 ∧ bytes rest = n
  | block2 => ∃ (n : Nat) (rest : List Item), items = .number .short n :: rest ∧ n < 2 ^ 16 ∧ bytes rest = n

end Read

section Describe

variable (t : Target)

/-- The pairs that a reader needs for a list of attributes. -/
def attrPairs : List Attr → Option (List (Nat × Nat))
  | [] => some []
  | a :: as => (a.value.format t).bind fun form => (attrPairs as).map ((a.name, form.code) :: ·)

/-- The DIEs as they are written, with their offsets. -/
def sizedDies (dies : Dies) : Dies := (calcDieSizes t dies t.headerSize).1

/-- The section says how every DIE of the tree is written. -/
structure AbbrevsDescribe (table : List AbbrevDie) (tree : Dies) : Prop where
  section_read : ∃ bs entries, outputAbbrevSection t table = some bs ∧ ReadAbbrevs bs entries ∧
    (entries.map (·.code)).Nodup ∧ ∀ n ∈ tree.nodes, ∃ e ∈ entries, e.code = n.1.dieAbbrev ∧ e.tag = n.1.tag ∧
      e.hasChildren = !n.2.isNil ∧ attrPairs t n.1.attrs = some e.pairs
  shared : ∀ n ∈ tree.nodes, ∀ m ∈ tree.nodes, n.1.dieAbbrev = m.1.dieAbbrev →
    n.1.tag = m.1.tag ∧ n.2.isNil = m.2.isNil ∧ attrPairs t n.1.attrs = attrPairs t m.1.attrs
  written : ∀ n ∈ tree.nodes, ∀ a ∈ n.1.attrs, ∃ form items, a.value.format t = some form ∧
    a.output t tree n.1 n.2 = some items ∧ form.Reads t items

end Describe

end Z80Gcc.Dwarf
