import Mathlib.Data.Nat.Digits.Defs
import Mathlib.Tactic.IntervalCases
import Mathlib.Tactic.LinearCombination
import Mathlib.Tactic.Zify
import Z80Gcc.Lib.WrapInt
import Z80Gcc.Proofs.CppNumber
import Z80Gcc.Spec.LexNumber

/-! The lexer gives an integer constant its value and its type. What is lost is the diagnostic for a value whose
excess stays in the lower one of the two spare parts. -/

namespace Z80Gcc.LexNumber

open Cpp (isLong isUnsigned Spelled digitsValue digitOf IsBase)

variable {h : Host}

section Parts

def partsValue (parts : List (BitVec 32)) : Nat := Nat.ofDigits 256 (parts.map BitVec.toNat)

theorem partsValue_cons (x : BitVec 32) (parts : List (BitVec 32)) :
    partsValue (x :: parts) = x.toNat + 256 * partsValue parts := by
  unfold partsValue
  rw [List.map_cons, Nat.ofDigits_cons]

def Bytes (parts : List (BitVec 32)) : Prop := ∀ x ∈ parts, x.toNat < 256

theorem Bytes.value_lt {parts : List (BitVec 32)} (hparts : Bytes parts) :
    partsValue parts < 256 ^ parts.length := by
  induction parts with
  | nil => exact Nat.one_pos
  | cons x parts ih =>
    obtain ⟨hx, hparts⟩ := List.forall_mem_cons.1 hparts
    have hrest := ih hparts
    rw [partsValue_cons, List.length_cons, Nat.pow_succ]
    omega

/-- One part: the byte that stays, and what is carried. -/
theorem part_spec {base carry x : BitVec 32} (hbase : base.toNat ≤ 16) (hcarry : carry.toNat ≤ 16)
    (hx : x.toNat < 256) :
    ((x * base + carry) &&& 255).toNat < 256 ∧ ((x * base + carry).sshiftRight 8).toNat ≤ 16 ∧
      ((x * base + carry) &&& 255).toNat + 256 * ((x * base + carry).sshiftRight 8).toNat =
        x.toNat * base.toNat + carry.toNat := by
  have hmul : x.toNat * base.toNat ≤ 255 * 16 := Nat.mul_le_mul (by omega) hbase
  have hy : (x * base + carry).toNat = x.toNat * base.toNat + carry.toNat := by
    rw [BitVec.toNat_add, BitVec.toNat_mul, Nat.mod_add_mod, Nat.mod_eq_of_lt (by omega)]
  have hmsb : (x * base + carry).msb = false := BitVec.msb_eq_false_iff_two_mul_lt.2 (by rw [hy]; omega)
  have hlow : ((x * base + carry) &&& 255).toNat = (x * base + carry).toNat % 256 :=
    (BitVec.toNat_and _ _).trans (Nat.and_two_pow_sub_one_eq_mod _ 8)
  have hhigh : ((x * base + carry).sshiftRight 8).toNat = (x * base + carry).toNat / 256 := by
    rw [BitVec.sshiftRight_eq_of_msb_false hmsb, BitVec.toNat_ushiftRight, Nat.shiftRight_eq_div_pow]
  rw [hlow, hhigh, hy]
  omega

/-- The loop over the parts multiplies by the base and adds. -/
theorem multiplyParts_spec {base : BitVec 32} (hbase : base.toNat ≤ 16) {parts : List (BitVec 32)}
    (hparts : Bytes parts) {carry : BitVec 32} (hcarry : carry.toNat ≤ 16) :
    Bytes (multiplyParts base carry parts).1 ∧ (multiplyParts base carry parts).1.length = parts.length ∧
      (multiplyParts base carry parts).2.toNat ≤ 16 ∧
      partsValue (multiplyParts base carry parts).1 + 256 ^ parts.length * (multiplyParts base carry parts).2.toNat =
        partsValue parts * base.toNat + carry.toNat := by
  induction parts generalizing carry with
  | nil => exact ⟨hparts, rfl, hcarry, by simp [multiplyParts, partsValue]⟩
  | cons x parts ih =>
    obtain ⟨hx, hparts⟩ := List.forall_mem_cons.1 hparts
    obtain ⟨hbyte, hnext, hpart⟩ := part_spec hbase hcarry hx
    obtain ⟨hrest, hlength, hlast, hvalue⟩ := ih hparts hnext
    refine ⟨List.forall_mem_cons.2 ⟨hbyte, hrest⟩, congrArg (· + 1) hlength, hlast, ?_⟩
    simp only [multiplyParts, partsValue_cons, List.length_cons, Nat.pow_succ]
    zify at hvalue hpart ⊢
    linear_combination 256 * hvalue + hpart

end Parts

section Scanning

variable {base : Nat} {digits letters rest : List Char}

/-- What the loop has found out about the digits so far; `m` parts lie below the topmost one. -/
structure Scan.Holds (m base : Nat) (s : Scan) (digits : List Char) : Prop where
  length : s.parts.length = m
  bytes : Bytes s.parts
  value : partsValue s.parts = digitsValue base digits % 256 ^ m
  overflow : s.overflow = decide (256 ^ m ≤ digitsValue base digits)
  top : digitsValue base digits < 256 ^ m → s.top = 0
  silent : s.diags = []

theorem Scan.Holds.start (m numdigits : Nat) :
    Scan.Holds m base ⟨List.replicate m 0, 0, false, 0, numdigits, []⟩ [] where
  length := List.length_replicate
  bytes := by
    intro x hx
    obtain ⟨-, rfl⟩ := List.mem_replicate.1 hx
    decide
  value := by
    have hzero : partsValue (List.replicate m 0) = 0 := by
      induction m with
      | zero => rfl
      | succ m ih => rw [List.replicate_succ, partsValue_cons, ih]; rfl
    exact hzero.trans (Nat.zero_mod _).symm
  overflow := (decide_eq_false (by simp [digitsValue])).symm
  top := fun _ => rfl
  silent := rfl

theorem Scan.Holds.add {m : Nat} (hbase : IsBase base) {s : Scan} (hs : s.Holds m base digits) {c : Char} {d : Nat}
    (hc : digitOf base c = some d) : (s.add base d).Holds m base (digits ++ [c]) := by
  have hd : d < 16 := by
    have := Cpp.digitOf_lt hc
    omega
  have hb : (BitVec.ofNat 32 base).toNat = base := by
    obtain rfl | rfl | rfl := hbase <;> rfl
  have hb16 : (BitVec.ofNat 32 base).toNat ≤ 16 := by
    obtain rfl | rfl | rfl := hbase <;> decide
  have hdn : (BitVec.ofNat 32 d).toNat = d := by
    rw [BitVec.toNat_ofNat, Nat.mod_eq_of_lt (by omega)]
  have hd16 : (BitVec.ofNat 32 d).toNat ≤ 16 := by
    rw [hdn]
    omega
  obtain ⟨hbytes, hlength, hcarry, hvalue⟩ := multiplyParts_spec hb16 hs.bytes hd16
  rw [hb, hdn, hs.length, hs.value] at hvalue
  have hnew : digitsValue base (digits ++ [c]) = digitsValue base digits * base + d := by
    rw [Cpp.digitsValue_concat, hc, Option.getD_some]
  have hgrows : digitsValue base digits ≤ digitsValue base (digits ++ [c]) := by
    rw [hnew]
    obtain rfl | rfl | rfl := hbase <;> omega
  have hsmall := hbytes.value_lt
  rw [hlength, hs.length] at hsmall
  -- the topmost part is zero until the number reaches it
  have htop : digitsValue base digits < 256 ^ m →
      ((s.add base d).top = 0 ↔ digitsValue base (digits ++ [c]) < 256 ^ m) := by
    intro hlt
    have heq : (s.add base d).top = (multiplyParts (BitVec.ofNat 32 base) (BitVec.ofNat 32 d) s.parts).2 := by
      change s.top * _ + _ = _
      rw [hs.top hlt, zero_mul, zero_add]
    rw [Nat.mod_eq_of_lt hlt, ← hnew] at hvalue
    have hzero : (0 : BitVec 32).toNat = 0 := rfl
    rw [heq, ← BitVec.toNat_inj, hzero, ← hvalue]
    constructor
    · intro hzero
      rw [hzero]
      simpa using hsmall
    · intro hless
      by_contra hne
      have hmul := Nat.mul_le_mul_left (256 ^ m) (Nat.one_le_iff_ne_zero.2 hne)
      omega
  refine ⟨hlength.trans hs.length, hbytes, ?_, ?_, fun hlt => (htop (by omega)).2 hlt, hs.silent⟩
  · change partsValue (multiplyParts _ _ s.parts).1 = _
    rw [← Nat.mod_eq_of_lt hsmall, ← Nat.add_mul_mod_self_left _ (256 ^ m), hvalue, hnew, Nat.add_mod,
      Nat.mod_mul_mod, ← Nat.add_mod]
  · change (s.overflow || (s.add base d).top != 0) = _
    rw [hs.overflow]
    obtain hlt | hge := Nat.lt_or_ge (digitsValue base digits) (256 ^ m)
    · rw [decide_eq_false (by omega), Bool.false_or, Bool.eq_iff_iff, bne_iff_ne, Ne, htop hlt, decide_eq_true_iff,
        Nat.not_lt]
    · rw [decide_eq_true hge, decide_eq_true (by omega), Bool.true_or]

theorem digitOf_range {c : Char} {d : Nat} (hc : digitOf base c = some d) :
    48 ≤ c.toNat ∧ c.toNat ≤ 57 ∨ base = 16 ∧ (97 ≤ c.toNat ∧ c.toNat ≤ 102 ∨ 65 ≤ c.toNat ∧ c.toNat ≤ 70) := by
  simp only [digitOf, Cpp.char_le] at hc
  have h0 : '0'.toNat = 48 := rfl
  have h9 : '9'.toNat = 57 := rfl
  have ha : 'a'.toNat = 97 := rfl
  have hf : 'f'.toNat = 102 := rfl
  have hA : 'A'.toNat = 65 := rfl
  have hF : 'F'.toNat = 70 := rfl
  split_ifs at hc <;> omega

theorem classify_digit (hbase : IsBase base) {c : Char} {d : Nat} (hc : digitOf base c = some d) :
    classify base c = .digit d := by
  have hrange := digitOf_range hc
  have hchar : c = Char.ofNat c.toNat := (Char.ofNat_toNat c).symm
  generalize c.toNat = n at hrange hchar
  subst hchar
  obtain ⟨hlo, hhi⟩ | ⟨rfl, ⟨hlo, hhi⟩ | ⟨hlo, hhi⟩⟩ := hrange
  · obtain rfl | rfl | rfl := hbase <;> interval_cases n <;> exact Option.some.inj hc ▸ rfl
  · interval_cases n <;> exact Option.some.inj hc ▸ rfl
  · interval_cases n <;> exact Option.some.inj hc ▸ rfl

theorem isDigit_of_digitOf {c : Char} {d : Nat} (hbase : base ≠ 16) (hc : digitOf base c = some d) :
    c.isDigit = true ∧ ¬(c = 'x' ∨ c = 'X') := by
  have hrange := (digitOf_range hc).resolve_right fun hhex => hbase hhex.1
  have hchar : c = Char.ofNat c.toNat := (Char.ofNat_toNat c).symm
  generalize c.toNat = n at hrange hchar
  subst hchar
  obtain ⟨hlo, hhi⟩ := hrange
  interval_cases n <;> exact ⟨rfl, by decide⟩

theorem classify_letter {c : Char} (hc : isLong c ∨ isUnsigned c) : classify base c = .stop := by
  obtain rfl | rfl | rfl | rfl := Cpp.isLong_or_isUnsigned hc <;> rfl

/-- What ends a number. -/
def Ends (rest : List Char) : Prop := ∀ c ∈ rest.head?, isAlnum c = false ∧ c ≠ '.'

theorem scanDigits_append {m : Nat} (hbase : IsBase base) (hdigits : ∀ c ∈ digits, (digitOf base c).isSome)
    {before p : List Char} {s : Scan} (hs : s.Holds m base before) :
    ∃ s' : Scan, s'.Holds m base (before ++ digits) ∧ scanDigits base (digits ++ p) s = scanDigits base p s' := by
  induction digits generalizing before s with
  | nil => exact ⟨s, by rwa [List.append_nil], rfl⟩
  | cons c digits ih =>
    rw [List.forall_mem_cons] at hdigits
    obtain ⟨d, hd⟩ := Option.isSome_iff_exists.1 hdigits.1
    obtain ⟨s', hs', heq⟩ := ih hdigits.2 (hs.add hbase hd)
    refine ⟨s', by rwa [List.append_assoc] at hs', ?_⟩
    rw [List.cons_append, scanDigits, classify_digit hbase hd]
    exact heq

/-- The letters of a suffix, or what ends the number, end the loop. -/
theorem scanDigits_stop (hletters : ∀ c ∈ letters, isLong c ∨ isUnsigned c) (hrest : Ends rest) (s : Scan) :
    scanDigits base (letters ++ rest) s = some (letters ++ rest, s) := by
  cases letters with
  | nil =>
    cases rest with
    | nil => rfl
    | cons c rest =>
      obtain ⟨halnum, hpoint⟩ := hrest c rfl
      have hstop : classify base c = .stop := by
        unfold classify
        rw [if_neg hpoint, halnum]
        rfl
      rw [List.nil_append, scanDigits, hstop]
  | cons c letters => rw [List.cons_append, scanDigits, classify_letter (hletters c List.mem_cons_self)]

/-- What the loop over the letters has found out so far. -/
structure Suffix.Holds (s : Suffix) (letters : List Char) : Prop where
  specUnsigned : s.specUnsigned = decide (0 < letters.countP isUnsigned)
  specLong : s.specLong = decide (0 < letters.countP isLong)
  specLongLong : s.specLongLong = decide (1 < letters.countP isLong)
  quiet : LexDiag.outOfRange ∉ s.diags

theorem Suffix.Holds.addUnsigned {s : Suffix} (hs : s.Holds letters) {c : Char} (hc : isUnsigned c = true)
    (hlong : isLong c = false) : s.addUnsigned.Holds (letters ++ [c]) where
  specUnsigned := by simp [Suffix.addUnsigned, List.countP_append, hc]
  specLong := by simp [Suffix.addUnsigned, List.countP_append, hlong, hs.specLong]
  specLongLong := by simp [Suffix.addUnsigned, List.countP_append, hlong, hs.specLongLong]
  quiet := by
    unfold Suffix.addUnsigned
    split_ifs
    · simpa using hs.quiet
    · simpa using hs.quiet

theorem Suffix.Holds.addLong (opts : LexOptions) {s : Suffix} (hs : s.Holds letters) {c : Char}
    (hc : isLong c = true) (hunsigned : isUnsigned c = false) : (s.addLong opts).Holds (letters ++ [c]) := by
  have hcount : (letters ++ [c]).countP isLong = letters.countP isLong + 1 := by
    simp [List.countP_append, hc]
  have hsame : (letters ++ [c]).countP isUnsigned = letters.countP isUnsigned := by
    simp [List.countP_append, hunsigned]
  unfold Suffix.addLong
  by_cases hlong : s.specLong = true
  · rw [if_pos hlong]
    have hpos := hs.specLong
    rw [hlong] at hpos
    have hpos := of_decide_eq_true hpos.symm
    refine ⟨by rw [hsame]; exact hs.specUnsigned, ?_, ?_, ?_⟩
    · rw [hcount]
      exact hlong.trans (decide_eq_true (by omega)).symm
    · rw [hcount]
      exact (decide_eq_true (by omega)).symm
    · dsimp only
      split_ifs <;> simpa using hs.quiet
  · rw [if_neg hlong]
    have hzero := hs.specLong
    rw [Bool.eq_false_iff.2 hlong] at hzero
    have hzero := of_decide_eq_false hzero.symm
    refine ⟨by rw [hsame]; exact hs.specUnsigned, ?_, ?_, hs.quiet⟩
    · rw [hcount]
      exact (decide_eq_true (by omega)).symm
    · rw [hcount, hs.specLongLong]
      exact decide_eq_decide.2 (by omega)

theorem not_letter_of_not_alnum {c : Char} (hc : isAlnum c = false) :
    isUnsigned c = false ∧ isLong c = false ∧ isImaginary c = false := by
  refine ⟨?_, ?_, ?_⟩
  · by_contra hletter
    have hfour := Cpp.isLong_or_isUnsigned (.inr (by simpa using hletter))
    obtain rfl | rfl | rfl | rfl := hfour <;> exact absurd hc (by decide)
  · by_contra hletter
    have hfour := Cpp.isLong_or_isUnsigned (.inl (by simpa using hletter))
    obtain rfl | rfl | rfl | rfl := hfour <;> exact absurd hc (by decide)
  · by_contra hletter
    have himaginary : isImaginary c = true := by simpa using hletter
    have hfour : ((c = 'i' ∨ c = 'I') ∨ c = 'j') ∨ c = 'J' := by simpa [isImaginary] using himaginary
    obtain ((rfl | rfl) | rfl) | rfl := hfour <;> exact absurd hc (by decide)

theorem scanSuffix_append (opts : LexOptions) (hletters : ∀ c ∈ letters, isLong c ∨ isUnsigned c) (hrest : Ends rest)
    {before : List Char} {s : Suffix} (hs : s.Holds before) :
    ∃ s' : Suffix, s'.Holds (before ++ letters) ∧ scanSuffix opts (letters ++ rest) s = some (rest, s') := by
  induction letters generalizing before s with
  | nil =>
    refine ⟨s, by rwa [List.append_nil], ?_⟩
    cases rest with
    | nil => rfl
    | cons c rest =>
      obtain ⟨hunsigned, hlong, himaginary⟩ := not_letter_of_not_alnum (hrest c rfl).1
      simp [scanSuffix, hunsigned, hlong, himaginary]
  | cons c letters ih =>
    rw [List.forall_mem_cons] at hletters
    obtain ⟨hc, hletters⟩ := hletters
    have hboth : isLong c = true → isUnsigned c = false := Cpp.not_isLong_and_isUnsigned
    rw [List.cons_append, scanSuffix]
    by_cases hunsigned : isUnsigned c = true
    · have hlong : isLong c = false := by
        by_contra hlong
        rw [hboth (by simpa using hlong)] at hunsigned
        exact absurd hunsigned (by decide)
      obtain ⟨s', hs', heq⟩ := ih hletters (hs.addUnsigned hunsigned hlong)
      refine ⟨s', by rwa [List.append_assoc] at hs', ?_⟩
      rw [if_pos hunsigned, heq]
    · have hlong : isLong c = true := hc.resolve_right hunsigned
      obtain ⟨s', hs', heq⟩ := ih hletters (hs.addLong opts hlong (hboth hlong))
      refine ⟨s', by rwa [List.append_assoc] at hs', ?_⟩
      rw [if_neg hunsigned, if_pos hlong, heq]

/-- Where the digits start, and in which base: a lone 0 counts as decimal. -/
theorem numberStart_spelled {token : List Char} (h : Spelled token base digits letters)
    (hhex : base = 16 → digits ≠ []) (hrest : Ends rest) :
    ∃ base' numdigits, numberStart (token ++ rest) = (base', digits ++ (letters ++ rest), numdigits) ∧ IsBase base' ∧
      (base' = base ∨ digits = [] ∧ base = 8) := by
  obtain ⟨⟨start, hprefix, rfl⟩, hdigits, hletters, hdecimal⟩ := h
  cases hprefix with
  | hex hx =>
    refine ⟨16, 0, ?_, .inl rfl, .inl rfl⟩
    simp [numberStart, hx]
  | octal =>
    cases digits with
    | cons c tail =>
      obtain ⟨d, hd, -⟩ := hdigits c List.mem_cons_self
      obtain ⟨hdigit, hx⟩ := isDigit_of_digitOf (by decide) hd
      refine ⟨8, 1, ?_, .inr (.inl rfl), .inl rfl⟩
      simp [numberStart, hx, hdigit]
    | nil =>
      refine ⟨10, 1, ?_, .inr (.inr rfl), .inr ⟨rfl, rfl⟩⟩
      cases letters with
      | cons c tail =>
        obtain rfl | rfl | rfl | rfl := Cpp.isLong_or_isUnsigned (hletters c List.mem_cons_self) <;> rfl
      | nil =>
        cases rest with
        | nil => rfl
        | cons c rest =>
          obtain ⟨halnum, -⟩ := hrest c rfl
          have hx : ¬(c = 'x' ∨ c = 'X') := by
            rintro (rfl | rfl) <;> exact absurd halnum (by decide)
          have hdigit : c.isDigit = false := by
            unfold isAlnum Char.isAlphanum at halnum
            exact (Bool.or_eq_false_iff.1 halnum).2
          simp [numberStart, hx, hdigit]
  | decimal =>
    obtain ⟨c, tail, rfl, hc⟩ := hdecimal rfl
    refine ⟨10, 0, ?_, .inr (.inr rfl), .inl rfl⟩
    unfold numberStart
    split
    · next heq => exact absurd (List.cons.inj heq).1 hc
    · next heq => exact absurd (List.cons.inj heq).1 hc
    · simp

end Scanning

section Words

variable {parts : List (BitVec 32)}

theorem partsValue_append (xs ys : List (BitVec 32)) :
    partsValue (xs ++ ys) = partsValue xs + 256 ^ xs.length * partsValue ys := by
  unfold partsValue
  rw [List.map_append, Nat.ofDigits_append, List.length_map]

theorem toNat_byte {x : BitVec 32} (hx : x.toNat < 256) {i : Nat} (hi : i * 8 + 8 ≤ h.bits) :
    (x.signExtend h.bits <<< (i * 8)).toNat = 2 ^ (i * 8) * x.toNat := by
  have hmsb : x.msb = false := BitVec.msb_eq_false_iff_two_mul_lt.2 (by omega)
  have hwide := Nat.pow_le_pow_right (n := 2) (by decide) h.wide
  have hlt : 2 ^ (i * 8) * x.toNat < 2 ^ h.bits := by
    refine lt_of_lt_of_le (Nat.mul_lt_mul_of_pos_left hx (Nat.two_pow_pos _)) ?_
    have hpow : 2 ^ (i * 8) * 256 = 2 ^ (i * 8 + 8) := (Nat.pow_add 2 (i * 8) 8).symm
    rw [hpow]
    exact Nat.pow_le_pow_right (by decide) hi
  have hsmall : x.toNat % 2 ^ h.bits = x.toNat := Nat.mod_eq_of_lt (by omega)
  rw [BitVec.toNat_shiftLeft, BitVec.signExtend_eq_setWidth_of_msb_false hmsb, BitVec.toNat_setWidth, hsmall,
    Nat.shiftLeft_eq, Nat.mul_comm, Nat.mod_eq_of_lt hlt]

theorem wordOfParts_fold (hparts : Bytes parts) (start : Nat) {k : Nat} (hk : k * 8 ≤ h.bits)
    (hlength : start + k ≤ parts.length) :
    ((List.range k).foldl (fun word i => word ||| (parts.getD (i + start) 0).signExtend h.bits <<< (i * 8))
      (0 : BitVec h.bits)).toNat = partsValue ((parts.drop start).take k) := by
  induction k with
  | zero => simp [partsValue]
  | succ k ih =>
    have hprev := ih (by omega) (by omega)
    have hget : start + k < parts.length := by omega
    have htake : (parts.drop start).take (k + 1) = (parts.drop start).take k ++ [parts[start + k]] := by
      rw [List.take_add_one, List.getElem?_drop, List.getElem?_eq_getElem hget]
      rfl
    have hgetD : parts.getD (k + start) 0 = parts[start + k] := by
      rw [List.getD_eq_getElem?_getD, Nat.add_comm, List.getElem?_eq_getElem hget, Option.getD_some]
    have hbyte := hparts _ (List.getElem_mem hget)
    have hbytes : Bytes ((parts.drop start).take k) := fun x hx =>
      hparts x (List.mem_of_mem_drop (List.mem_of_mem_take hx))
    have hlen : ((parts.drop start).take k).length = k := by
      rw [List.length_take, List.length_drop]
      omega
    have hlt := hbytes.value_lt
    rw [hlen] at hlt
    have hpow : 256 ^ k = 2 ^ (k * 8) := by rw [Nat.mul_comm, Nat.pow_mul]
    rw [List.range_succ, List.foldl_append, List.foldl_cons, List.foldl_nil, BitVec.toNat_or, hprev, hgetD,
      toNat_byte hbyte (by omega), htake, partsValue_append, hlen, hpow, Nat.or_comm,
      ← Nat.two_pow_add_eq_or_of_lt (by rw [← hpow]; exact hlt), Nat.add_comm]
    rw [partsValue_cons]
    rfl

theorem wordsOfParts_toNat (hbits : 8 ∣ h.bits) {base : Nat} {s : Scan} {digits : List Char}
    (hs : s.Holds (lowParts h) base digits) :
    (wordsOfParts h s.parts).toNat = digitsValue base digits % 2 ^ (2 * h.bits) := by
  obtain ⟨k, hk⟩ := hbits
  have hdiv : h.bits / 8 = k := by omega
  have hlength : s.parts.length = k * 2 + 1 := by rw [hs.length, lowParts, hdiv]
  have hlow : (wordOfParts h s.parts 0).toNat = partsValue (s.parts.take k) := by
    unfold wordOfParts
    rw [hdiv]
    exact wordOfParts_fold hs.bytes 0 (by omega) (by omega)
  have hhigh : (wordOfParts h s.parts (h.bits / 8)).toNat = partsValue ((s.parts.drop k).take k) := by
    unfold wordOfParts
    rw [hdiv]
    exact wordOfParts_fold hs.bytes k (by omega) (by omega)
  have hpow : 2 ^ h.bits = 256 ^ k := by rw [hk, Nat.pow_mul]
  have hpow2 : 2 ^ (2 * h.bits) = 256 ^ k * 256 ^ k := by rw [Nat.two_mul, Nat.pow_add, hpow]
  have hlowlt := (wordOfParts h s.parts 0).isLt
  have hhighlt := (wordOfParts h s.parts (h.bits / 8)).isLt
  -- the number is the two words and the spare part above them
  have hsplit : partsValue s.parts = partsValue (s.parts.take k) + 256 ^ k * partsValue ((s.parts.drop k).take k) +
      256 ^ k * 256 ^ k * partsValue ((s.parts.drop k).drop k) := by
    conv_lhs => rw [← List.take_append_drop k s.parts, ← List.take_append_drop k (s.parts.drop k)]
    rw [partsValue_append, partsValue_append, List.length_take, List.length_take, List.length_drop,
      Nat.min_eq_left (by omega), Nat.min_eq_left (by omega)]
    ring
  have hmod : digitsValue base digits % (256 ^ k * 256 ^ k) = partsValue s.parts % (256 ^ k * 256 ^ k) := by
    have hdvd : 256 ^ k * 256 ^ k ∣ 256 ^ lowParts h := by
      rw [← Nat.pow_add, lowParts, hdiv]
      exact Nat.pow_dvd_pow 256 (by omega)
    rw [hs.value, Nat.mod_mod_of_dvd _ hdvd]
  rw [hpow2, hmod, hsplit, Nat.add_mul_mod_self_left]
  rw [hpow, hlow] at hlowlt
  rw [hpow, hhigh] at hhighlt
  have hsum : partsValue (s.parts.take k) + 256 ^ k * partsValue ((s.parts.drop k).take k) < 256 ^ k * 256 ^ k := by
    have hmul := Nat.mul_le_mul_left (256 ^ k) (Nat.succ_le_of_lt hhighlt)
    rw [Nat.mul_succ] at hmul
    omega
  rw [Nat.mod_eq_of_lt hsum]
  unfold DoubleInt.toNat wordsOfParts
  dsimp only
  rw [hlow, hhigh, hpow, Nat.mul_comm, Nat.add_comm]

end Words

section Types

variable {v : Nat} {node : TypeNode}

theorem two_words (h : Host) : 2 ^ (2 * h.bits) = 2 * 2 ^ (2 * h.bits - 1) ∧ 2 ^ 63 ≤ 2 ^ (2 * h.bits - 1) := by
  have hwide := h.wide
  have hexp : 2 * h.bits = 2 * h.bits - 1 + 1 := by omega
  refine ⟨?_, Nat.pow_le_pow_right (by decide) (by omega)⟩
  conv_lhs => rw [hexp]
  exact Nat.pow_succ'

theorem bmod_words (hv : v < 2 ^ (2 * h.bits)) :
    (v < 2 ^ (2 * h.bits - 1) → (v : Int).bmod (2 ^ (2 * h.bits)) = v) ∧
      (2 ^ (2 * h.bits - 1) ≤ v → (v : Int).bmod (2 ^ (2 * h.bits)) < 0) := by
  obtain ⟨hhalf, -⟩ := two_words h
  have hcast : ((2 ^ (2 * h.bits) : Nat) : Int) = 2 ^ (2 * h.bits) := by push_cast; rfl
  refine ⟨fun hlt => WrapInt.bmod_eq_self_iff.2 (by omega), fun hge => ?_⟩
  have hdvd : (2 : Int) ^ (2 * h.bits) ∣ v - (v - 2 ^ (2 * h.bits)) := ⟨1, by ring⟩
  have hsame := WrapInt.wrap_eq_of_dvd (u := false) hdvd
  have hself : ((v : Int) - 2 ^ (2 * h.bits)).bmod (2 ^ (2 * h.bits)) = v - 2 ^ (2 * h.bits) :=
    WrapInt.bmod_eq_self_iff.2 (by omega)
  rw [WrapInt.wrap_false, WrapInt.wrap_false, hself] at hsame
  rw [hsame]
  omega

theorem fits_iff (hv : v < 2 ^ (2 * h.bits)) (node' : TypeNode)
    (hsign : (node'.type : IntegerType h).unsignedp = true ∨ v < 2 ^ (2 * h.bits - 1)) :
    (⟨node', v⟩ : Literal).fits h node = true ↔ v ≤ maxOf node := by
  obtain ⟨hhalf, hsize⟩ := two_words h
  have hcast : ((2 ^ (2 * h.bits) : Nat) : Int) = 2 ^ (2 * h.bits) := by push_cast; rfl
  obtain ⟨hsmall, hlarge⟩ := bmod_words (h := h) hv
  have hvmod : (v : Int) % 2 ^ (2 * h.bits) = v := Int.emod_eq_of_lt (Int.natCast_nonneg v) (by omega)
  have hmod : ∀ m : Nat, m < 2 ^ 32 → (m : Int) % 2 ^ (2 * h.bits) = m := fun m hm =>
    Int.emod_eq_of_lt (Int.natCast_nonneg m) (by omega)
  have hbmod : ∀ m : Int, -2 ^ 31 ≤ m → m < 2 ^ 31 → m.bmod (2 ^ (2 * h.bits)) = m := fun m hlo hhi =>
    WrapInt.bmod_eq_self_iff.2 (by omega)
  -- a type of `n` bits whose largest value is `m`
  have hunsigned : ∀ n m : Nat, m < 2 ^ 32 → (CaseStmt.intFitsType ⟨(node'.type : IntegerType h), v, false⟩
      ⟨n, true, 0, some m⟩ = true ↔ v ≤ m) := by
    intro n m hm
    have hthird :
        (decide ((v : Int).bmod (2 ^ (2 * h.bits)) < 0) && !(node'.type : IntegerType h).unsignedp) = false := by
      obtain hup | hlt := hsign
      · rw [hup]
        exact Bool.and_false _
      · rw [hsmall hlt, decide_eq_false (by omega)]
        exact Bool.false_and _
    unfold CaseStmt.intFitsType IntegerType.intCstLtUnsigned
    dsimp only
    rw [if_pos rfl, hthird, Option.any_some, hmod m hm, hvmod, Int.zero_emod,
      decide_eq_false (by omega : ¬(v : Int) < 0)]
    simp only [Bool.not_false, Bool.and_true, Bool.not_eq_true', decide_eq_false_iff_not]
    omega
  have hsigned : ∀ n m : Nat, m < 2 ^ 31 → (CaseStmt.intFitsType ⟨(node'.type : IntegerType h), v, false⟩
      ⟨n, false, -m - 1, some m⟩ = true ↔ v ≤ m) := by
    intro n m hm
    unfold CaseStmt.intFitsType IntegerType.intCstLt
    dsimp only
    rw [if_neg Bool.false_ne_true, Option.any_some, hbmod m (by omega) (by omega), hbmod (-m - 1) (by omega) (by omega)]
    obtain hlt | hge := Nat.lt_or_ge v (2 ^ (2 * h.bits - 1))
    · rw [hsmall hlt, decide_eq_false (by omega : ¬(v : Int) < -m - 1), decide_eq_false (by omega : ¬(v : Int) < 0)]
      simp only [Bool.not_false, Bool.and_true, Bool.false_and, Bool.not_eq_true', decide_eq_false_iff_not]
      omega
    · have hup := hsign.resolve_right (by omega)
      rw [hup, decide_eq_true (hlarge hge)]
      simp only [Bool.and_true, Bool.not_true, Bool.and_false]
      exact iff_of_false Bool.false_ne_true (by omega)
  cases node with
  | integer => exact hsigned 16 (2 ^ 15 - 1) (by decide)
  | unsigned => exact hunsigned 16 (2 ^ 16 - 1) (by decide)
  | longInteger => exact hsigned 32 (2 ^ 31 - 1) (by decide)
  | longUnsigned => exact hunsigned 32 (2 ^ 32 - 1) (by decide)
  | longLongInteger => exact hsigned 32 (2 ^ 31 - 1) (by decide)
  | longLongUnsigned => exact hunsigned 32 (2 ^ 32 - 1) (by decide)

/-- With the sizes of the target, the first type of the standard's list that holds the value is the ANSI type. -/
theorem ansiType_spec (base : Nat) {suffix : Suffix} {letters : List Char} (hs : suffix.Holds letters)
    (hv : v < 2 ^ (2 * h.bits)) :
    (∀ node, (cOrder base letters).find? (fun t => v ≤ maxOf t) = some node →
      ansiType h base suffix ⟨.longLongUnsigned, v⟩ = node) ∧
    (v ≤ maxOf (ansiType h base suffix ⟨.longLongUnsigned, v⟩) ∨
      ((ansiType h base suffix ⟨.longLongUnsigned, v⟩).type : IntegerType h).unsignedp = true ∧ 2 ^ 32 ≤ v) := by
  have hfits : ∀ node, (⟨.longLongUnsigned, v⟩ : Literal).fits h node = decide (v ≤ maxOf node) := by
    intro node
    rw [Bool.eq_iff_iff, decide_eq_true_iff]
    exact fits_iff hv _ (.inl rfl)
  have hcons : ∀ (t : TypeNode) (ts : List TypeNode), (t :: ts).find? (fun t => v ≤ maxOf t) =
      if v ≤ maxOf t then some t else ts.find? (fun t => v ≤ maxOf t) := by
    intro t ts
    rw [List.find?_cons]
    split_ifs with ht
    · rw [decide_eq_true ht]
    · rw [decide_eq_false ht]
  unfold ansiType
  simp only [hfits]
  rw [hs.specUnsigned, hs.specLong, hs.specLongLong]
  unfold cOrder
  generalize letters.countP isUnsigned = u
  generalize letters.countP isLong = l
  constructor
  · intro node hfind
    obtain _ | u := u <;> obtain _ | _ | l := l
    · by_cases hb : base = 10
      · simp only [hb, if_true, hcons] at hfind
        split_ifs at hfind <;> cases hfind <;> simp [*]
      · simp only [hb, if_false, hcons] at hfind
        split_ifs at hfind <;> cases hfind <;> simp [*]
    · simp only [hcons] at hfind
      split_ifs at hfind <;> cases hfind <;> simp [*]
    · simp at hfind
    · simp only [hcons] at hfind
      split_ifs at hfind <;> cases hfind <;> simp [*]
    · simp only [hcons] at hfind
      split_ifs at hfind with hle
      · cases hfind
        simp [*]
      · cases hfind
    · simp at hfind
  · have htest : ∀ (b : Bool) node, (b && decide (v ≤ maxOf node)) = true → v ≤ maxOf node := fun b node hb =>
      of_decide_eq_true (Bool.and_eq_true_iff.1 hb).2
    split_ifs with hint hunsigned hlong hlongUnsigned hlongLong
    · exact .inl (htest _ _ hint)
    · exact .inl (htest _ _ hunsigned)
    · exact .inl (htest _ _ hlong)
    · exact .inl (htest _ _ hlongUnsigned)
    · exact .inl (htest _ _ hlongLong)
    · obtain hlt | hge := Nat.lt_or_ge v (2 ^ 32)
      · exact .inl (Nat.le_sub_one_of_lt hlt)
      · exact .inr ⟨rfl, hge⟩

/-- Without `-traditional` the constant is the two words, and is reported when the parts overflow or no type holds
them. -/
theorem finishInteger_spec (hbits : 8 ∣ h.bits) {opts : LexOptions} (hansi : opts.flagTraditional = false)
    (base' : Nat) {base : Nat} {s : Scan} {digits : List Char} (hs : s.Holds (lowParts h) base digits) {suffix : Suffix}
    {letters : List Char} (hsuffix : suffix.Holds letters)
    (hv : v = digitsValue base digits % 2 ^ (2 * h.bits)) :
    (finishInteger h opts base' s suffix).1 = ⟨ansiType h base' suffix ⟨.longLongUnsigned, v⟩, v⟩ ∧
      (LexDiag.outOfRange ∈ (finishInteger h opts base' s suffix).2 ↔
        256 ^ lowParts h ≤ digitsValue base digits ∨ 2 ^ 32 ≤ v) := by
  have hvlt : v < 2 ^ (2 * h.bits) := hv ▸ Nat.mod_lt _ (Nat.two_pow_pos _)
  have hwords : (wordsOfParts h s.parts).toNat = v := by rw [wordsOfParts_toNat hbits hs, hv]
  obtain ⟨-, hheld⟩ := ansiType_spec base' hsuffix hvlt
  unfold finishInteger
  simp only [hansi, hwords, Bool.false_eq_true, if_false, Bool.false_and]
  generalize ansiType h base' suffix ⟨.longLongUnsigned, v⟩ = node at hheld ⊢
  refine ⟨trivial, ?_⟩
  -- no type is wider than `long`
  have hnarrow : ¬ (TypeNode.longInteger.type : IntegerType h).precision < (node.type : IntegerType h).precision := by
    cases node <;> simp [TypeNode.type]
  have hmax : maxOf node < 2 ^ 32 := by
    cases node <;> decide
  have hfits : (⟨node, v⟩ : Literal).fits h node = decide (v < 2 ^ 32) := by
    have hsmall := two_words h
    rw [Bool.eq_iff_iff, decide_eq_true_iff]
    obtain hle | ⟨hunsigned, hge⟩ := hheld
    · rw [fits_iff hvlt node (.inr (by omega))]
      omega
    · rw [fits_iff hvlt node (.inl hunsigned)]
      omega
  have hwarning : ∀ traditional ansi, LexDiag.outOfRange ≠ traditionalWarning h traditional ansi := by
    intro traditional ansi
    unfold traditionalWarning
    split_ifs <;> decide
  rw [hs.overflow, hfits, decide_eq_false hnarrow]
  simp [hwarning]
  omega

end Types

section Literals

variable {opts : LexOptions} {token digits letters rest : List Char} {base : Nat}

theorem cOrder_zero (base base' : Nat) (letters : List Char) :
    (cOrder base letters).find? (fun t => 0 ≤ maxOf t) = (cOrder base' letters).find? (fun t => 0 ≤ maxOf t) := by
  unfold cOrder
  split
  · split_ifs <;> rfl
  all_goals rfl

theorem cOrder_plain (hv : v ≤ maxOf .integer) :
    (cOrder base []).find? (fun t => v ≤ maxOf t) = some .integer := by
  have horder : cOrder base [] = if base = 10 then [.integer, .longInteger, .longUnsigned]
      else [.integer, .unsigned, .longInteger, .longUnsigned] := rfl
  rw [horder]
  split_ifs
  · exact List.find?_cons_of_pos (decide_eq_true hv)
  · exact List.find?_cons_of_pos (decide_eq_true hv)

theorem isAlnum_of_spelled (h : Spelled token base digits letters) (hbase : base ≠ 16) {c : Char}
    (hc : c ∈ digits ++ letters) : isAlnum c = true := by
  obtain hdigit | hletter := List.mem_append.1 hc
  · obtain ⟨d, hd, -⟩ := h.digits_lt c hdigit
    unfold isAlnum Char.isAlphanum
    rw [(isDigit_of_digitOf hbase hd).1, Bool.or_true]
  · obtain rfl | rfl | rfl | rfl := Cpp.isLong_or_isUnsigned (h.letters_suffix c hletter) <;> rfl

theorem shortcut_spelled (h : Spelled token base digits letters) {c : Char} {p : List Char}
    (hc : c = '0' ∨ c = '1') (htoken : token ++ rest = c :: p) (hp : ∀ e ∈ p.head?, isAlnum e = false) :
    p = rest ∧ letters = [] ∧ digitsValue base digits = if c = '0' then 0 else 1 := by
  have halnum := fun hbase e => isAlnum_of_spelled h hbase (c := e)
  -- nothing of the token is left for `p`
  have hnil : ∀ l : List Char, (∀ e ∈ l, isAlnum e = true) → l ++ rest = p → l = [] := by
    intro l hl heq
    cases l with
    | nil => rfl
    | cons e l =>
      have hfalse := hp e (by rw [← heq]; rfl)
      rw [hl e List.mem_cons_self] at hfalse
      exact absurd hfalse (by decide)
  obtain ⟨⟨start, hprefix, rfl⟩, hdigits, hletters, hdecimal⟩ := h
  cases hprefix with
  | hex hx =>
    obtain ⟨-, rfl⟩ := List.cons.inj htoken
    have hfalse := hp _ rfl
    obtain rfl | rfl := hx <;> exact absurd hfalse (by decide)
  | octal =>
    obtain ⟨rfl, hrest⟩ := List.cons.inj htoken
    obtain ⟨rfl, rfl⟩ := List.append_eq_nil_iff.1 (hnil _ (halnum (by decide)) hrest)
    exact ⟨hrest.symm, rfl, rfl⟩
  | decimal =>
    obtain ⟨e, tail, rfl, he⟩ := hdecimal rfl
    obtain ⟨rfl, hrest⟩ := List.cons.inj htoken
    have htail : ∀ a ∈ tail ++ letters, isAlnum a = true := fun a ha =>
      halnum (by decide) a (List.mem_cons_of_mem e ha)
    obtain ⟨rfl, rfl⟩ := List.append_eq_nil_iff.1 (hnil _ htail hrest)
    obtain rfl := hc.resolve_left he
    exact ⟨hrest.symm, rfl, rfl⟩

theorem lexNumber_spelled (hbits : 8 ∣ h.bits) (hansi : opts.flagTraditional = false)
    (htoken : Spelled token base digits letters) (hhex : base = 16 → digits ≠ []) (hrest : Ends rest)
    (hv : v = digitsValue base digits % 2 ^ (2 * h.bits)) :
    ∃ node diags, lexNumber h opts (token ++ rest) = some (⟨node, v⟩, diags, rest) ∧
      (LexDiag.outOfRange ∈ diags ↔ 256 ^ lowParts h ≤ digitsValue base digits ∨ 2 ^ 32 ≤ v) ∧
      ∀ node', (cOrder base letters).find? (fun t => v ≤ maxOf t) = some node' → node = node' := by
  by_cases hshort : ((token ++ rest).head? = some '0' ∨ (token ++ rest).head? = some '1') ∧
    !((token ++ rest).tail.head?.any fun c => isAlnum c || c = '.')
  · obtain ⟨hhead, hnext⟩ := id hshort
    cases heq : token ++ rest with
    | nil =>
      rw [heq] at hhead
      exact absurd hhead (by simp)
    | cons c p =>
      have hc : c = '0' ∨ c = '1' := by
        rwa [heq, List.head?_cons, Option.some_inj, Option.some_inj] at hhead
      have hp : ∀ e ∈ p.head?, isAlnum e = false := by
        intro e he
        rw [heq, List.tail_cons, Option.mem_def.1 he, Option.any_some, Bool.not_eq_true'] at hnext
        exact (Bool.or_eq_false_iff.1 hnext).1
      obtain ⟨rfl, rfl, hdigit⟩ := shortcut_spelled htoken hc heq hp
      have hle : digitsValue base digits ≤ 1 := by
        rw [hdigit]
        split_ifs <;> decide
      have hsmall := two_words h
      have hpow : 0 < 256 ^ (lowParts h - 1) := Nat.pow_pos (by decide)
      have hparts : 256 ^ lowParts h = 256 ^ (lowParts h - 1) * 256 := (Nat.pow_succ ..).symm
      rw [Nat.mod_eq_of_lt (by omega)] at hv
      refine ⟨.integer, [], ?_, iff_of_false List.not_mem_nil (by omega), ?_⟩
      · unfold lexNumber
        rw [← heq, if_pos hshort, heq, hv, hdigit]
        obtain rfl | rfl := hc <;> rfl
      · intro node' hfind
        have hfirst : v ≤ maxOf .integer := by
          rw [hv]
          exact hle.trans (by decide)
        rw [cOrder_plain hfirst] at hfind
        exact Option.some.inj hfind
  · obtain ⟨base', numdigits, hstart, hbase, hsame⟩ := numberStart_spelled htoken hhex hrest
    have hvalue : digitsValue base' digits = digitsValue base digits := by
      obtain rfl | ⟨rfl, -⟩ := hsame
      · rfl
      · rfl
    have hdigits : ∀ c ∈ digits, (digitOf base' c).isSome := by
      intro c hc
      obtain rfl | ⟨rfl, -⟩ := hsame
      · obtain ⟨d, hd, -⟩ := htoken.digits_lt c hc
        rw [hd]
        rfl
      · exact absurd hc List.not_mem_nil
    obtain ⟨s, hs, hscan⟩ := scanDigits_append (p := letters ++ rest) hbase hdigits
      (Scan.Holds.start (lowParts h) numdigits)
    have hnone : Suffix.Holds ⟨false, false, false, []⟩ [] := ⟨rfl, rfl, rfl, List.not_mem_nil⟩
    obtain ⟨suffix, hsuffix, hletters⟩ := scanSuffix_append opts htoken.letters_suffix hrest hnone
    rw [List.nil_append] at hs hsuffix
    obtain ⟨hconst, hrange⟩ := finishInteger_spec hbits hansi base' hs hsuffix (hvalue ▸ hv)
    rw [hvalue] at hrange
    have hlex : lexNumber h opts (token ++ rest) = some ((finishInteger h opts base' s suffix).1,
        s.diags ++ (if s.numdigits = 0 then [.noDigits] else []) ++
          (if base' ≤ s.largestDigit then [.beyondRadix] else []) ++ suffix.diags ++
          (finishInteger h opts base' s suffix).2 ++
          (if missingSpace opts ((token ++ rest).take ((token ++ rest).length - rest.length)).getLast? rest
            then [.missingSpace] else []), rest) := by
      unfold lexNumber
      rw [if_neg hshort, hstart]
      dsimp only
      rw [hscan, scanDigits_stop htoken.letters_suffix hrest]
      dsimp only
      rw [hletters]
    rw [hconst] at hlex
    refine ⟨_, _, hlex, ?_, ?_⟩
    · rw [← hrange]
      simp [hs.silent, hsuffix.quiet]
    · intro node' hfind
      refine (ansiType_spec base' hsuffix (hv ▸ Nat.mod_lt _ (Nat.two_pow_pos _))).1 node' ?_
      obtain rfl | ⟨rfl, rfl⟩ := hsame
      · exact hfind
      · have hzero : v = 0 := by
          rw [hv]
          exact Nat.zero_mod _
        rw [hzero] at hfind ⊢
        rw [cOrder_zero base' 8]
        exact hfind

/-- A constant is right but when the part above its two words is not zero, the overflow part is, and the words
happen to fit. -/
theorem literalRight_iff (hbits : 8 ∣ h.bits) (hansi : opts.flagTraditional = false)
    (htoken : Spelled token base digits letters) (hhex : base = 16 → digits ≠ []) (hrest : Ends rest) :
    LiteralRight h opts token rest base digits letters ↔
      ¬ (2 ^ (2 * h.bits) ≤ digitsValue base digits ∧ digitsValue base digits < 2 ^ (2 * h.bits + 8) ∧
        digitsValue base digits % 2 ^ (2 * h.bits) < 2 ^ 32) := by
  obtain ⟨node, diags, hlex, hrange, htyped⟩ := lexNumber_spelled (v := _) hbits hansi htoken hhex hrest rfl
  have hparts : 256 ^ lowParts h = 2 ^ (2 * h.bits + 8) := by
    obtain ⟨k, hk⟩ := hbits
    have hexp : 2 * h.bits + 8 = 8 * lowParts h := by
      unfold lowParts
      omega
    rw [hexp, Nat.pow_mul]
  have hsmall := two_words h
  rw [hparts] at hrange
  constructor
  · rintro ⟨-, -, hdiagnosed⟩ ⟨htwo, hlt, hfit⟩
    obtain ⟨c, diags', hlex', hmem⟩ := hdiagnosed htwo
    rw [hlex] at hlex'
    cases hlex'
    have := hrange.1 hmem
    omega
  · intro hnot
    have hexact : digitsValue base digits < 2 ^ (2 * h.bits) →
        digitsValue base digits % 2 ^ (2 * h.bits) = digitsValue base digits := Nat.mod_eq_of_lt
    refine ⟨?_, ?_, ?_⟩
    · intro node' hfind
      have hle : digitsValue base digits ≤ maxOf node' := by
        have hfits := List.find?_some hfind
        exact of_decide_eq_true hfits
      have hmax : maxOf node' < 2 ^ 32 := by
        cases node' <;> decide
      rw [hexact (by omega)] at hlex htyped
      obtain rfl := htyped node' hfind
      exact ⟨diags, hlex⟩
    · intro hlt
      rw [hexact hlt] at hlex
      exact ⟨node, diags, hlex⟩
    · intro htwo
      exact ⟨_, diags, hlex, hrange.2 (by omega)⟩

def defaultOptions : LexOptions := ⟨false, false, true, false, false⟩

theorem ends_semicolon : Ends [';'] := by
  intro c hc
  obtain rfl := Option.some.inj hc
  decide

theorem spelled_decimal (c : Char) (tail : List Char) (hc : c ≠ '0')
    (hdigits : (c :: tail).all (fun e => (digitOf 10 e).any (· < 10)) = true) : Spelled (c :: tail) 10 (c :: tail) [] where
  token_eq := ⟨[], .decimal, by rw [List.nil_append, List.append_nil]⟩
  digits_lt := by
    intro e he
    obtain ⟨d, hd, hlt⟩ := (Option.any_eq_true _ _).1 (List.all_eq_true.1 hdigits e he)
    exact ⟨d, hd, of_decide_eq_true hlt⟩
  letters_suffix := fun _ he => absurd he List.not_mem_nil
  decimal := fun _ => ⟨c, tail, rfl, hc⟩

/-- 40000 is too large for an `int`. -/
theorem literalRight_iff_long :
    LiteralRight host32 defaultOptions "40000".toList [';'] 10 "40000".toList [] :=
  (literalRight_iff (by decide) rfl (spelled_decimal '4' _ (by decide) (by decide)) (by decide) ends_semicolon).2
    (by decide)

/-- 2 to the 64th is 0, of type `int`, and nothing is said about it. -/
theorem literalRight_fails :
    ∃ token digits, Spelled token 10 digits [] ∧
      lexNumber host32 defaultOptions (token ++ [';']) = some (⟨.integer, 0⟩, [], [';']) ∧
      ¬ LiteralRight host32 defaultOptions token [';'] 10 digits [] := by
  have hlex : lexNumber host32 defaultOptions ("18446744073709551616".toList ++ [';']) =
      some (⟨.integer, 0⟩, [], [';']) := by decide +kernel
  refine ⟨"18446744073709551616".toList, "18446744073709551616".toList,
    spelled_decimal '1' _ (by decide) (by decide), hlex, fun hright => ?_⟩
  obtain ⟨c, diags, hlex', hmem⟩ := hright.diagnosed (by decide)
  rw [hlex] at hlex'
  cases hlex'
  exact absurd hmem List.not_mem_nil

end Literals

end Z80Gcc.LexNumber
