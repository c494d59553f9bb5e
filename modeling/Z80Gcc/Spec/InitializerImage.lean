import Z80Gcc.Lib.Placement
import Z80Gcc.Spec.Initializer

/-! What a static initialiser says: the elements of a constructor at the positions of their fields and
indexes. A `RANGE_EXPR` is a shorthand for many elements, one for each index in the range (tree.def);
with `byIndex` false its elements are taken to stand where the elements before them end. -/

namespace Z80Gcc.Initializer

open Z80Gcc.BitField Z80Gcc.Placement

variable {h : Host}

/-- Bit `k` of some bytes. -/
def imageBit (bytes : List Byte) (k : Nat) : Bool := (bytes.getD (k / 8) 0).getLsbD (k % 8)

/-- Equal elements that stand behind each other, in bits, the end of the last one, and the fields that
follow. -/
structure Place where
  pos : Nat
  width : Nat
  count : Nat
  next : Nat
  fields : List FieldDecl

/-- The place of an element, with the end of the one before it. -/
def place (byIndex : Bool) (type : Aggregate) (purpose : Option Purpose) (fields : List FieldDecl)
    (next : Nat) : Place :=
  match type with
  | .array minIndex eltSize =>
    let width := 8 * eltSize
    match purpose with
    | some (.range lo hi) =>
      let pos := if byIndex then width * (lo - minIndex).toNat else next
      let count := (hi - lo + 1).toNat
      ⟨pos, width, count, if count = 0 then next else pos + width * count, fields⟩
    | some (.index i) =>
      let pos := width * (i - minIndex).toNat
      ⟨pos, width, 1, pos + width, fields⟩
    | _ => ⟨next, width, 1, next + width, fields⟩
  | _ =>
    match fieldsFrom purpose fields with
    | [] => ⟨next, 0, 0, next, []⟩
    | decl :: chain => ⟨decl.bitpos, decl.size, 1, decl.bitpos + decl.size, chain⟩

def Place.items (p : Place) (bit : Nat → Bool) : List Item := copies p.width bit p.pos p.count

/-- The bytes that an element of a given width takes. -/
def Place.bytes (p : Place) : Nat := (p.width + 7) / 8

mutual

/-- Bit `k` of an object of `size` bytes that has a constant as its value. -/
def Constant.bit (byIndex : Bool) : Constant h → Nat → Nat → Bool
  | .missing, _, _ => false
  | .integer low high, size, k => ((high ++ low).signExtend (8 * size)).getLsbD k
  | .other bytes, _, k => imageBit bytes k
  | .complex re im, size, k =>
    if k < 8 * (size / 2) then re.bit byIndex (size / 2) k
    else if k < 8 * (size / 2 * 2) then im.bit byIndex (size / 2) (k - 8 * (size / 2))
    else false
  | .string chars, size, k => decide (k < 8 * size) && imageBit chars k
  | .constructor type elts, _, k => image (elts.items byIndex type type.fields 0) k

/-- The elements of a constructor, from the one for the first of some fields, and behind a position. -/
def Elements.items (byIndex : Bool) : Elements h → Aggregate → List FieldDecl → Nat → List Item
  | .nil, _, _, _ => []
  | .cons purpose _ val rest, type, fields, next =>
    let p := place byIndex type purpose fields next
    p.items (val.bit byIndex p.bytes) ++ rest.items byIndex type p.fields p.next

end

/-- An element is for a field or an index of the type. A bit-field takes at most 32 bits, and other
members take whole bytes. -/
def ElementFits (type : Aggregate) (purpose : Option Purpose) (typeSize : Nat) (val : Constant h)
    (fields : List FieldDecl) : Prop :=
  match type with
  | .array minIndex eltSize =>
    match purpose with
    | some (.range lo _) => minIndex ≤ lo
    | some (.index i) => minIndex ≤ i ∧ typeSize = eltSize ∧ val ≠ .missing
    | _ => False
  | _ =>
    match fieldsFrom purpose fields with
    | [] => False
    | decl :: _ =>
      if decl.bitField then 0 < decl.size ∧ decl.size ≤ 32 ∧ val.intCst.isSome
      else decl.bitpos % 8 = 0 ∧ decl.size % 8 = 0

/-- Whether the value of an element is output by `output_constant`. -/
def isBitField (type : Aggregate) (purpose : Option Purpose) (fields : List FieldDecl) : Bool :=
  match type with
  | .array _ _ => false
  | _ => (fieldsFrom purpose fields).head?.elim false FieldDecl.bitField

mutual

/-- A constant of a type of `size` bytes, with the elements of constructors in increasing position. -/
def Constant.WellFormed : Constant h → Nat → Prop
  | .missing, _ => True
  | .integer _ _, size => size ≠ 0 → ∃ m : Mode, m.size = size ∧ m.bits ≤ 2 * h.bits
  | .other bytes, size => bytes.length = size
  | .complex re im, size => re.WellFormed (size / 2) ∧ im.WellFormed (size / 2)
  | .string _, _ => True
  | .constructor type elts, size =>
    elts.WellFormed type type.fields ∧ Increasing 0 (elts.items true type type.fields 0) ∧
      endOf 0 (elts.items true type type.fields 0) ≤ 8 * size

def Elements.WellFormed : Elements h → Aggregate → List FieldDecl → Prop
  | .nil, _, _ => True
  | .cons purpose typeSize val rest, type, fields =>
    let p := place true type purpose fields 0
    ElementFits type purpose typeSize val fields ∧
      (isBitField type purpose fields = false → val.WellFormed p.bytes) ∧
      rest.WellFormed type p.fields

end

mutual

/-- Every index range starts where the elements before it end, or its value is all zeros. -/
def Constant.InPlace : Constant h → Nat → Prop
  | .complex re im, size => re.InPlace (size / 2) ∧ im.InPlace (size / 2)
  | .constructor type elts, _ => elts.InPlace type type.fields 0
  | _, _ => True

def Elements.InPlace : Elements h → Aggregate → List FieldDecl → Nat → Prop
  | .nil, _, _, _ => True
  | .cons purpose _ val rest, type, fields, next =>
    let p := place false type purpose fields next
    (p.count = 0 ∨ p.pos = (place true type purpose fields next).pos ∧ val.InPlace p.bytes ∨
      ∀ j < p.width, val.bit true p.bytes j = false) ∧ rest.InPlace type p.fields p.next

end

end Z80Gcc.Initializer
