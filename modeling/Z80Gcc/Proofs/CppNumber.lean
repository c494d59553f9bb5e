import Z80Gcc.Spec.CppNumber
import Mathlib.Tactic.Ring

/-! `parse_number` computes the value of an integer constant, and finds out when it does not fit. Some spellings that are no
constants go through. -/

namespace Z80Gcc.Cpp

section Digits

variable {w base : Nat}

/-- What the loop has found out about the digits so far. -/
structure Scan.Holds (base : Nat) (s : Scan w) (digits : List Char) : Prop where
  value : s.n.toNat = digitsValue base digits % 2 ^ w
  overflow : s.overflow = decide (2 ^ w ≤ digitsValue base digits)
  largest : 0 < base → (s.largestDigit < base ↔ ∀ c ∈ digits, (digitOf base c).getD 0 < base)

def IsBase (base : Nat) : Prop := base = 16 ∨ base = 8 ∨ base = 10

theorem char_le (a b : Char) : a ≤ b ↔ a.toNat ≤ b.toNat := UInt32.le_iff_toNat_le

theorem digitOf_lt {c : Char} {d : Nat} (h : digitOf base c = some d) : d < 10 ∨ base = 16 ∧ d < 16 := by
  simp only [digitOf, char_le] at h
  have h0 : '0'.toNat = 48 := rfl
  have h9 : '9'.toNat = 57 := rfl
  have ha : 'a'.toNat = 97 := rfl
  have hf : 'f'.toNat = 102 := rfl
  have hA : 'A'.toNat = 65 := rfl
  have hF : 'F'.toNat = 70 := rfl
  split at h
  · cases h
    omega
  split at h
  · cases h
    omega
  split at h
  · cases h
    omega
  · cases h

theorem overflow_iff (hw : 8 ≤ w) (hbase : IsBase base) {n d : Nat} (hd : d < 10 ∨ base = 16 ∧ d < 16) :
    (2 ^ w - 1) / base < n ∨ (n * base + d) % 2 ^ w < n ↔ 2 ^ w ≤ n * base + d := by
  have hpow : 2 ^ 8 ≤ 2 ^ w := Nat.pow_le_pow_right (by decide) hw
  generalize 2 ^ w = m at *
  by_cases hfit : n * base + d < m
  · rw [Nat.mod_eq_of_lt hfit]
    obtain rfl | rfl | rfl := hbase <;> omega
  by_cases hlarge : (m - 1) / base < n
  · exact iff_of_true (.inl hlarge) (Nat.le_of_not_lt hfit)
  have hmod : (n * base + d) % m = n * base + d - m := by
    rw [Nat.mod_eq_sub_mod (Nat.le_of_not_lt hfit), Nat.mod_eq_of_lt]
    obtain rfl | rfl | rfl := hbase <;> omega
  rw [hmod]
  obtain rfl | rfl | rfl := hbase <;> omega

theorem maxOverBase_toNat (hw : 8 ≤ w) (hbase : IsBase base) : (maxOverBase w base).toNat = (2 ^ w - 1) / base := by
  have hpow : 2 ^ 8 ≤ 2 ^ w := Nat.pow_le_pow_right (by decide) hw
  rw [maxOverBase, BitVec.toNat_udiv, BitVec.toNat_allOnes, BitVec.toNat_ofNat, Nat.mod_eq_of_lt]
  obtain rfl | rfl | rfl := hbase <;> omega

theorem digitsValue_concat (digits : List Char) (c : Char) :
    digitsValue base (digits ++ [c]) = digitsValue base digits * base + (digitOf base c).getD 0 := by
  rw [digitsValue, digitsValue, List.foldl_append]
  rfl

theorem Scan.Holds.start : (Scan.start : Scan w).Holds base [] where
  value := (Nat.zero_mod _).symm
  overflow := (decide_eq_false (by simp [digitsValue])).symm
  largest := fun hpos => iff_of_true hpos (by simp)

theorem Scan.Holds.add (hw : 8 ≤ w) (hbase : IsBase base) {s : Scan w} {digits : List Char} (hs : s.Holds base digits)
    {c : Char} {d : Nat} (hc : digitOf base c = some d) : (s.add base d).Holds base (digits ++ [c]) := by
  have hpow : 2 ^ 8 ≤ 2 ^ w := Nat.pow_le_pow_right (by decide) hw
  have hd := digitOf_lt hc
  have hnat : (s.add base d).n.toNat = (s.n.toNat * base + d) % 2 ^ w := by
    rw [Scan.add, BitVec.toNat_add, BitVec.toNat_mul, BitVec.toNat_ofNat, BitVec.toNat_ofNat, Nat.mul_mod_mod, ← Nat.add_mod]
  have hvalue : digitsValue base (digits ++ [c]) = digitsValue base digits * base + d := by
    rw [digitsValue_concat, hc, Option.getD_some]
  refine ⟨?_, ?_, fun hpos => ?_⟩
  · rw [hnat, hvalue, hs.value, Nat.add_mod, Nat.mod_mul_mod, ← Nat.add_mod]
  · have htest : (s.add base d).overflow = true ↔ s.overflow = true ∨ 2 ^ w ≤ s.n.toNat * base + d := by
      rw [← overflow_iff hw hbase hd, ← hnat, ← maxOverBase_toNat hw hbase]
      simp [Scan.add, BitVec.lt_def]
    rw [hvalue, Bool.eq_iff_iff, htest, hs.overflow, decide_eq_true_iff, decide_eq_true_iff]
    by_cases hover : 2 ^ w ≤ digitsValue base digits
    · have hmul : digitsValue base digits * 1 ≤ digitsValue base digits * base :=
        Nat.mul_le_mul_left _ (by obtain rfl | rfl | rfl := hbase <;> decide)
      exact iff_of_true (.inl hover) (by omega)
    · rw [hs.value, Nat.mod_eq_of_lt (Nat.lt_of_not_le hover)]
      exact or_iff_right hover
  · have hlargest : (s.add base d).largestDigit < base ↔ s.largestDigit < base ∧ d < base := by
      simp only [Scan.add]
      split <;> omega
    rw [hlargest, hs.largest hpos, List.forall_mem_append, List.forall_mem_singleton, hc, Option.getD_some]

/-- The loop over the digits, up to a character that is none. -/
theorem scanDigits_append (hw : 8 ≤ w) (hbase : IsBase base) {digits : List Char} (hdigits : ∀ c ∈ digits, (digitOf base c).isSome)
    {before p : List Char} {s : Scan w} (hs : s.Holds base before) :
    ∃ s' : Scan w, s'.Holds base (before ++ digits) ∧ scanDigits base (digits ++ p) s = scanDigits base p s' := by
  induction digits generalizing before s with
  | nil => exact ⟨s, by rwa [List.append_nil], rfl⟩
  | cons c digits ih =>
    rw [List.forall_mem_cons] at hdigits
    obtain ⟨d, hd⟩ := Option.isSome_iff_exists.1 hdigits.1
    obtain ⟨s', hs', heq⟩ := ih hdigits.2 (hs.add hw hbase hd)
    refine ⟨s', by rwa [List.append_assoc] at hs', ?_⟩
    rw [List.cons_append, scanDigits, hd]
    exact heq

end Digits

section Spelling

variable {w base : Nat} {digits letters p : List Char}

theorem isLong_or_isUnsigned {c : Char} (h : isLong c ∨ isUnsigned c) : c = 'l' ∨ c = 'L' ∨ c = 'u' ∨ c = 'U' := by
  simpa [isLong, isUnsigned, or_assoc] using h

theorem digitOf_letter {c : Char} (h : isLong c ∨ isUnsigned c) : digitOf base c = none := by
  obtain rfl | rfl | rfl | rfl := isLong_or_isUnsigned h <;> simp [digitOf]

theorem letter_ne_point {c : Char} (h : isLong c ∨ isUnsigned c) : c ≠ '.' := by
  obtain rfl | rfl | rfl | rfl := isLong_or_isUnsigned h <;> decide

theorem not_isLong_and_isUnsigned {c : Char} (h : isLong c = true) : isUnsigned c = false := by
  simp only [isLong, Bool.or_eq_true, decide_eq_true_eq] at h
  obtain rfl | rfl := h <;> rfl

theorem scanSuffix_append (hletters : ∀ c ∈ letters, isLong c ∨ isUnsigned c) (s : Suffix) :
    scanSuffix (letters ++ p) s =
      scanSuffix p ⟨s.specLong + letters.countP isLong, s.unsignedp + BitVec.ofNat 8 (letters.countP isUnsigned)⟩ := by
  induction letters generalizing s with
  | nil => simp
  | cons c letters ih =>
    rw [List.forall_mem_cons] at hletters
    rw [List.cons_append, scanSuffix, List.countP_cons, List.countP_cons]
    obtain hc | hc := hletters.1
    · rw [if_pos hc, ih hletters.2, hc, not_isLong_and_isUnsigned hc]
      simp only [if_true, Bool.false_eq_true, if_false, Nat.add_zero]
      rw [Nat.add_assoc, Nat.add_comm 1]
    · have hlong : isLong c = false := by
        by_contra h
        rw [not_isLong_and_isUnsigned (by simpa using h)] at hc
        cases hc
      rw [hlong, if_neg (by simp), if_pos hc, ih hletters.2, hc]
      simp only [if_true, Bool.false_eq_true, if_false, Nat.add_zero]
      rw [BitVec.add_assoc, Nat.add_comm _ 1, BitVec.ofNat_add]
      rfl

/-- What is behind the prefix is digits and then letters. -/
structure Plain (base : Nat) (p digits letters : List Char) : Prop where
  eq : p = digits ++ letters
  digits_some : ∀ c ∈ digits, (digitOf base c).isSome
  letters_suffix : ∀ c ∈ letters, isLong c ∨ isUnsigned c

theorem Plain.takeWhile (h : Plain base p digits letters) : p.takeWhile (fun c => (digitOf base c).isSome) = digits := by
  rw [h.eq, List.takeWhile_append_of_pos h.digits_some]
  cases letters with
  | nil => exact List.append_nil _
  | cons c letters =>
    rw [List.takeWhile_cons, digitOf_letter (h.letters_suffix c List.mem_cons_self)]
    exact List.append_nil _

theorem Plain.unique {digits' letters' : List Char} (h : Plain base p digits letters) (h' : Plain base p digits' letters') :
    digits = digits' ∧ letters = letters' := by
  have hdigits : digits = digits' := h.takeWhile.symm.trans h'.takeWhile
  subst hdigits
  exact ⟨rfl, List.append_cancel_left (h.eq.symm.trans h'.eq)⟩

theorem parseNumber_plain (hw : 8 ≤ w) (c89 charSigned : Bool) {token : List Char} (hstart : numberBase token = (base, p))
    (hbase : IsBase base) (h : Plain base p digits letters) :
    ∃ s : Scan w, s.Holds base digits ∧ parseNumber w c89 charSigned token =
      if maxLong c89 < letters.countP isLong then (.error, [.tooManyL])
      else if 1 < charValue charSigned (BitVec.ofNat 8 (letters.countP isUnsigned)) then (.error, [.tooManyU])
      else finishNumber base s (BitVec.ofNat 8 (letters.countP isUnsigned)) := by
  obtain ⟨s, hs, hscan⟩ := scanDigits_append (p := letters) hw hbase h.digits_some Scan.Holds.start
  have hstop : scanDigits base letters s = some (letters, s) := by
    cases letters with
    | nil => rfl
    | cons c letters =>
      have hc := h.letters_suffix c List.mem_cons_self
      rw [scanDigits, digitOf_letter hc]
      exact if_neg (letter_ne_point hc)
  have hsuffix : scanSuffix letters ⟨0, 0⟩ = ([], ⟨letters.countP isLong, BitVec.ofNat 8 (letters.countP isUnsigned)⟩) := by
    have happend := scanSuffix_append (p := []) h.letters_suffix ⟨0, 0⟩
    rw [List.append_nil] at happend
    rw [happend]
    simp [scanSuffix]
  refine ⟨s, hs, ?_⟩
  rw [parseNumber, hstart]
  dsimp only
  rw [h.eq, hscan, hstop]
  dsimp only
  rw [hsuffix]
  rfl

theorem scanDigits_rest {s s' : Scan w} (h : scanDigits base p s = some (letters, s')) :
    ∃ digits, p = digits ++ letters ∧ ∀ c ∈ digits, (digitOf base c).isSome := by
  induction p generalizing s with
  | nil =>
    cases h
    exact ⟨[], rfl, by simp⟩
  | cons c p ih =>
    rw [scanDigits] at h
    split at h
    · next d hd =>
      obtain ⟨digits, rfl, hdigits⟩ := ih h
      exact ⟨c :: digits, rfl, List.forall_mem_cons.2 ⟨hd ▸ rfl, hdigits⟩⟩
    · split at h
      · cases h
      · cases h
        exact ⟨[], rfl, by simp⟩

theorem scanSuffix_rest {s : Suffix} (h : (scanSuffix letters s).1 = []) : ∀ c ∈ letters, isLong c ∨ isUnsigned c := by
  induction letters generalizing s with
  | nil => simp
  | cons c letters ih =>
    rw [scanSuffix] at h
    rw [List.forall_mem_cons]
    split at h
    · next hc => exact ⟨.inl hc, ih h⟩
    · split at h
      · next hc => exact ⟨.inr hc, ih h⟩
      · cases h

theorem parseNumber_not_plain (c89 charSigned : Bool) {token : List Char} (hstart : numberBase token = (base, p))
    (h : ∀ digits letters, ¬ Plain base p digits letters) : Rejected (parseNumber w c89 charSigned token).2 := by
  rw [parseNumber, hstart]
  dsimp only
  split
  · exact ⟨.float, List.mem_singleton_self _, .inl rfl⟩
  · next letters s hscan =>
    obtain ⟨digits, heq, hdigits⟩ := scanDigits_rest hscan
    rw [if_pos]
    · exact ⟨.invalid, List.mem_singleton_self _, .inl rfl⟩
    · exact fun hend => h digits letters ⟨heq, hdigits, scanSuffix_rest hend⟩

theorem Spelled.plain {token : List Char} (h : Spelled token base digits letters) : Plain base (digits ++ letters) digits letters where
  eq := rfl
  digits_some := fun c hc => by
    obtain ⟨d, hd, -⟩ := h.digits_lt c hc
    rw [hd]
    rfl
  letters_suffix := h.letters_suffix

theorem Plain.ne_x (h : Plain base p digits letters) {c : Char} (hc : c ∈ p) : ¬ (c = 'x' ∨ c = 'X') := by
  intro hx
  rw [h.eq, List.mem_append] at hc
  obtain hc | hc := hc
  · have hsome := h.digits_some c hc
    obtain rfl | rfl := hx <;> simp [digitOf] at hsome
  · have hletter := isLong_or_isUnsigned (h.letters_suffix c hc)
    obtain rfl | rfl := hx <;> simp at hletter

theorem numberBase_octal (h : Plain 8 p digits letters) : numberBase ('0' :: p) = (8, p) := by
  match p, h with
  | [], _ => rfl
  | [c], _ => rfl
  | c :: d :: p, h => exact if_neg (h.ne_x List.mem_cons_self)

theorem numberBase_decimal {c : Char} (hc : c ≠ '0') : numberBase (c :: p) = (10, c :: p) := by
  unfold numberBase
  split
  · next heq => exact absurd (List.cons.inj heq).1 hc
  · next heq => exact absurd (List.cons.inj heq).1 hc
  · rfl

theorem Spelled.found {token : List Char} (h : Spelled token base digits letters) :
    numberBase token = (base, digits ++ letters) ∨
      (∃ x, (x = 'x' ∨ x = 'X') ∧ token = ['0', x]) ∧ base = 16 ∧ digits = [] ∧ letters = [] := by
  have hplain := h.plain
  obtain ⟨start, hstart, rfl⟩ := h.token_eq
  cases hstart with
  | hex hx =>
    cases hrest : digits ++ letters with
    | nil =>
      obtain ⟨rfl, rfl⟩ := List.append_eq_nil_iff.1 hrest
      exact .inr ⟨⟨_, hx, rfl⟩, rfl, rfl, rfl⟩
    | cons d p => exact .inl (if_pos hx)
  | octal => exact .inl (numberBase_octal hplain)
  | decimal =>
    obtain ⟨c, rest, rfl, hc⟩ := h.decimal rfl
    exact .inl (numberBase_decimal hc)

/-- `0x` alone is read as an octal number, and so is an error. -/
theorem hex_alone_not_plain {x : Char} (hx : x = 'x' ∨ x = 'X') : numberBase ['0', x] = (8, [x]) ∧
    ∀ digits letters, ¬ Plain 8 [x] digits letters :=
  ⟨rfl, fun _ _ h => h.ne_x (List.mem_singleton_self x) hx⟩

theorem numberBase_isBase {token : List Char} (hstart : numberBase token = (base, p)) : IsBase base := by
  unfold numberBase at hstart
  split at hstart
  · split at hstart <;> cases hstart
    · exact .inl rfl
    · exact .inr (.inl rfl)
  · cases hstart
    exact .inr (.inl rfl)
  · cases hstart
    exact .inr (.inr rfl)

theorem numberBase_hex {token : List Char} (hstart : numberBase token = (16, p)) : p ≠ [] := by
  unfold numberBase at hstart
  split at hstart
  · split at hstart <;> cases hstart
    exact List.cons_ne_nil _ _
  · cases hstart
  · cases hstart

/-- What is read as digits of the base and letters is spelled so. -/
theorem numberBase_spelled {token : List Char} (htoken : IsNumberToken token) (hstart : numberBase token = (base, p))
    (h : Plain base p digits letters) (hlt : ∀ c ∈ digits, (digitOf base c).getD 0 < base) : Spelled token base digits letters := by
  have hdigits : ∀ c ∈ digits, ∃ d, digitOf base c = some d ∧ d < base := by
    intro c hc
    obtain ⟨d, hd⟩ := Option.isSome_iff_exists.1 (h.digits_some c hc)
    exact ⟨d, hd, by simpa [hd] using hlt c hc⟩
  unfold numberBase at hstart
  split at hstart
  · split at hstart
    · next hx =>
      cases hstart
      exact ⟨⟨_, .hex hx, congrArg _ (congrArg _ h.eq)⟩, hdigits, h.letters_suffix, by simp⟩
    · cases hstart
      exact ⟨⟨_, .octal, congrArg _ h.eq⟩, hdigits, h.letters_suffix, by simp⟩
  · cases hstart
    exact ⟨⟨_, .octal, congrArg _ h.eq⟩, hdigits, h.letters_suffix, by simp⟩
  · next hnot =>
    cases hstart
    refine ⟨⟨_, .decimal, h.eq⟩, hdigits, h.letters_suffix, fun _ => ?_⟩
    cases digits with
    | nil =>
      -- the token would start with a letter
      cases letters with
      | nil =>
        rw [h.eq] at htoken
        exact htoken.elim
      | cons c letters =>
        rw [h.eq] at htoken
        have hletter := h.letters_suffix c List.mem_cons_self
        have hnone : digitOf 10 c = none := digitOf_letter hletter
        obtain hdigit | hpoint := htoken
        · rw [digitOf, if_pos hdigit] at hnone
          cases hnone
        · exact absurd hpoint (letter_ne_point hletter)
    | cons c rest =>
      refine ⟨c, rest, rfl, ?_⟩
      intro hc
      subst hc
      exact hnot _ h.eq

end Spelling

section Constants

variable {c89 : Bool} {letters : List Char}

theorem IsSuffix.counts (h : IsSuffix c89 letters) : letters.countP isLong ≤ maxLong c89 ∧ letters.countP isUnsigned ≤ 1 := by
  obtain ⟨l, hl, u, hu, h⟩ := h
  have hlong : ∀ c89, ∀ l ∈ longSuffixes c89, l.countP isLong ≤ maxLong c89 ∧ l.countP isUnsigned = 0 := by decide
  have hunsigned : ∀ u ∈ unsignedSuffixes, u.countP isLong = 0 ∧ u.countP isUnsigned ≤ 1 := by decide
  have hl := hlong c89 l hl
  have hu := hunsigned u hu
  obtain rfl | rfl := h
  · rw [List.countP_append, List.countP_append]
    omega
  · rw [List.countP_append, List.countP_append]
    omega

/-- The count of the u in a `char` is right when there is one at most. -/
theorem charValue_of_le_one (charSigned : Bool) {k : Nat} (hk : k ≤ 1) : charValue charSigned (BitVec.ofNat 8 k) = k := by
  obtain rfl | rfl : k = 0 ∨ k = 1 := by omega
  · cases charSigned <;> rfl
  · cases charSigned <;> rfl

theorem unsignedp_ne_zero_iff (h : letters.countP isUnsigned ≤ 1) :
    BitVec.ofNat 8 (letters.countP isUnsigned) ≠ 0 ↔ ∃ c ∈ letters, isUnsigned c := by
  rw [← List.countP_pos_iff]
  obtain hk | hk : letters.countP isUnsigned = 0 ∨ letters.countP isUnsigned = 1 := by omega
  · rw [hk]
    decide
  · rw [hk]
    decide

end Constants

section Results

variable {w base : Nat} {digits letters token : List Char} {c89 charSigned : Bool}

/-- The end of `parse_number` after the digits of a constant. -/
theorem finishNumber_constant {s : Scan w} (hs : s.Holds base digits) (hlargest : s.largestDigit < base)
    (unsignedp : BitVec 8) :
    ¬ Rejected (finishNumber base s unsignedp).2 ∧
    (.outOfRange ∈ (finishNumber base s unsignedp).2 ↔ 2 ^ w ≤ digitsValue base digits) ∧
    (digitsValue base digits < 2 ^ w → ∃ u : BitVec 8,
      (finishNumber base s unsignedp).1 = .int (BitVec.ofNat w (digitsValue base digits)) u ∧
        (u ≠ 0 ↔ unsignedp ≠ 0 ∨ 2 ^ (w - 1) ≤ digitsValue base digits)) := by
  rw [finishNumber, if_neg (Nat.not_le_of_lt hlargest), hs.overflow]
  by_cases hover : 2 ^ w ≤ digitsValue base digits
  · rw [if_pos (decide_eq_true hover)]
    refine ⟨?_, iff_of_true (by simp) hover, fun hlt => absurd hover (Nat.not_le_of_lt hlt)⟩
    intro hrej
    obtain ⟨d, hd, hbad⟩ := hrej
    obtain rfl : d = .outOfRange := by simpa using hd
    simp [NumberDiag.severity] at hbad
  have hlt : digitsValue base digits < 2 ^ w := Nat.lt_of_not_le hover
  have hn : s.n = BitVec.ofNat w (digitsValue base digits) := by
    apply BitVec.eq_of_toNat_eq
    rw [hs.value, BitVec.toNat_ofNat]
  have hmsb : s.n.msb = true ↔ 2 ^ (w - 1) ≤ digitsValue base digits := by
    rw [BitVec.msb_eq_decide, decide_eq_true_iff, hs.value, Nat.mod_eq_of_lt hlt]
  rw [if_neg (by simpa using hover)]
  by_cases hlarge : s.n.msb ∧ unsignedp = 0
  · rw [if_pos hlarge]
    refine ⟨?_, iff_of_false (by simp) hover, fun _ => ⟨1, by rw [hn], iff_of_true (by decide) (.inr (hmsb.1 hlarge.1))⟩⟩
    intro hrej
    obtain ⟨d, hd, hbad⟩ := hrej
    obtain ⟨-, rfl⟩ : base = 10 ∧ d = .soLarge := by simpa using hd
    simp [NumberDiag.severity] at hbad
  · rw [if_neg hlarge]
    refine ⟨by simp [Rejected], iff_of_false (by simp) hover, fun _ => ⟨unsignedp, by rw [hn], ?_⟩⟩
    rw [← hmsb]
    by_cases hzero : unsignedp = 0
    · exact iff_of_false (not_not.2 hzero) fun h => h.elim (· hzero) fun h => hlarge ⟨h, hzero⟩
    · exact iff_of_true hzero (.inl hzero)

theorem IsConstant.plain {value : Nat} {unsigned : Prop} {p : List Char} (hstart : numberBase token = (base, p))
    (h : IsConstant c89 token value unsigned) : ∃ digits letters, Plain base p digits letters ∧ Spelled token base digits letters ∧
      (base = 16 → digits ≠ []) ∧ IsSuffix c89 letters ∧ value = digitsValue base digits ∧
        (unsigned ↔ ∃ c ∈ letters, isUnsigned c) := by
  obtain ⟨base', digits, letters, hspelled, hdigit, hsuffix, hvalue, hunsigned⟩ := h
  obtain hfound | ⟨-, hbase, hnone, -⟩ := hspelled.found
  · rw [hfound] at hstart
    cases hstart
    exact ⟨digits, letters, hspelled.plain, hspelled, hdigit, hsuffix, hvalue, hunsigned⟩
  · exact absurd hnone (hdigit hbase)

/-- What is not digits and letters is rejected, and is no constant. -/
theorem right_of_not_plain {p : List Char} (hstart : numberBase token = (base, p)) (h : ∀ digits letters, ¬ Plain base p digits letters) :
    NumberRight c89 token (parseNumber w c89 charSigned token) := by
  have hnot (value : Nat) (unsigned : Prop) : ¬ IsConstant c89 token value unsigned := fun hconst => by
    obtain ⟨digits, letters, hplain, -⟩ := hconst.plain hstart
    exact h digits letters hplain
  exact ⟨fun v u hc => absurd hc (hnot v u), fun v u hc => absurd hc (hnot v u), fun v u hc => absurd hc (hnot v u),
    fun _ => parseNumber_not_plain c89 charSigned hstart h⟩

theorem regular_of_not_plain {p : List Char} (hstart : numberBase token = (base, p)) (h : ∀ digits letters, ¬ Plain base p digits letters) :
    RegularSpelling c89 charSigned token := by
  intro base' digits letters hspelled _ _
  obtain hfound | ⟨-, -, rfl, rfl⟩ := hspelled.found
  · rw [hfound] at hstart
    cases hstart
    exact absurd hspelled.plain (h digits letters)
  · refine ⟨fun _ _ => rfl, [], ?_, [], List.mem_cons_self, .inl rfl⟩
    cases c89 <;> exact List.mem_cons_self

/-- What is spelled so is spelled so in one way only. -/
theorem Plain.spelled_iff {p : List Char} (hstart : numberBase token = (base, p)) (h : Plain base p digits letters)
    {base' : Nat} {digits' letters' : List Char} (hspelled : Spelled token base' digits' letters') :
    base' = base ∧ digits' = digits ∧ letters' = letters := by
  obtain hfound | ⟨⟨x, hx, rfl⟩, -⟩ := hspelled.found
  · rw [hfound] at hstart
    cases hstart
    exact ⟨rfl, hspelled.plain.unique h⟩
  · rw [(hex_alone_not_plain hx).1] at hstart
    cases hstart
    exact absurd h ((hex_alone_not_plain hx).2 digits letters)

/-- `parse_number` is right but for spellings with as many letters as it lets through, and a hexadecimal prefix without a digit or
letters in an order that is no suffix. -/
theorem parse_number_right_iff (hw : 8 ≤ w) (htoken : IsNumberToken token) :
    NumberRight c89 token (parseNumber w c89 charSigned token) ↔ RegularSpelling c89 charSigned token := by
  obtain ⟨⟨base, p⟩, hstart⟩ : ∃ r, numberBase token = r := ⟨_, rfl⟩
  have hbase := numberBase_isBase hstart
  by_cases hplain : ∃ digits letters, Plain base p digits letters
  case neg =>
    have hnot : ∀ digits letters, ¬ Plain base p digits letters := fun digits letters h => hplain ⟨digits, letters, h⟩
    exact iff_of_true (right_of_not_plain hstart hnot) (regular_of_not_plain hstart hnot)
  obtain ⟨digits, letters, hplain⟩ := hplain
  obtain ⟨s, hs, hparse⟩ := parseNumber_plain hw c89 charSigned hstart hbase hplain
  -- a rejected spelling that is not regular in its letters or digits
  have hreject (hrej : Rejected (parseNumber w c89 charSigned token).2)
      (hbad : Spelled token base digits letters → letters.countP isLong ≤ maxLong c89 →
        ¬ charValue charSigned (BitVec.ofNat 8 (letters.countP isUnsigned)) ≤ 1) :
      NumberRight c89 token (parseNumber w c89 charSigned token) ↔ RegularSpelling c89 charSigned token := by
    refine iff_of_true ?_ ?_
    · have hnot (value : Nat) (unsigned : Prop) : ¬ IsConstant c89 token value unsigned := by
        intro hconst
        obtain ⟨digits', letters', hplain', hspelled, -, hsuffix, -⟩ := hconst.plain hstart
        obtain ⟨rfl, rfl⟩ := hplain.unique hplain'
        refine hbad hspelled hsuffix.counts.1 ?_
        rw [charValue_of_le_one charSigned hsuffix.counts.2]
        exact_mod_cast hsuffix.counts.2
      exact ⟨fun v u hc => absurd hc (hnot v u), fun v u hc => absurd hc (hnot v u), fun v u hc => absurd hc (hnot v u),
        fun _ => hrej⟩
    · intro base' digits' letters' hspelled hlong hunsigned
      obtain ⟨rfl, rfl, rfl⟩ := hplain.spelled_iff hstart hspelled
      exact absurd hunsigned (hbad hspelled hlong)
  by_cases hlong : maxLong c89 < letters.countP isLong
  · rw [if_pos hlong] at hparse
    refine hreject ?_ fun _ hle => absurd hlong (Nat.not_lt_of_le hle)
    rw [hparse]
    exact ⟨.tooManyL, List.mem_singleton_self _, .inl rfl⟩
  rw [if_neg hlong] at hparse
  by_cases hunsigned : 1 < charValue charSigned (BitVec.ofNat 8 (letters.countP isUnsigned))
  · rw [if_pos hunsigned] at hparse
    refine hreject ?_ fun _ _ => Int.not_le_of_gt hunsigned
    rw [hparse]
    exact ⟨.tooManyU, List.mem_singleton_self _, .inl rfl⟩
  rw [if_neg hunsigned] at hparse
  have hpos : 0 < base := by
    obtain rfl | rfl | rfl := hbase <;> decide
  by_cases hlargest : s.largestDigit < base
  case neg =>
    refine hreject ?_ fun hspelled => absurd ((hs.largest hpos).2 fun c hc => ?_) hlargest
    · rw [hparse]
      refine ⟨.beyondRadix, ?_, .inr rfl⟩
      rw [finishNumber, if_pos (Nat.le_of_not_lt hlargest)]
      split
      · simp
      split <;> simp
    · obtain ⟨d, hd, hlt⟩ := hspelled.digits_lt c hc
      rwa [hd]
  have hspelled := numberBase_spelled htoken hstart hplain ((hs.largest hpos).1 hlargest)
  obtain ⟨haccept, hrange, hvalue⟩ := finishNumber_constant hs hlargest (BitVec.ofNat 8 (letters.countP isUnsigned))
  rw [← hparse] at haccept hrange hvalue
  constructor
  · intro hright base' digits' letters' hspelled' _ _
    obtain ⟨rfl, rfl, rfl⟩ := hplain.spelled_iff hstart hspelled'
    by_contra hirregular
    refine haccept (hright.rejects fun hconst => hirregular ?_)
    obtain ⟨value, unsigned, hconst⟩ := hconst
    obtain ⟨digits', letters', hplain', -, hdigit, hsuffix, -⟩ := hconst.plain hstart
    obtain ⟨rfl, rfl⟩ := hplain.unique hplain'
    exact ⟨fun h16 hnil => absurd hnil (hdigit h16), hsuffix⟩
  · intro hregular
    obtain ⟨hdigit, hsuffix⟩ := hregular base digits letters hspelled (Nat.le_of_not_lt hlong) (Int.not_lt.1 hunsigned)
    have hdigit' : base = 16 → digits ≠ [] := by
      intro h16 hnil
      subst h16
      refine numberBase_hex hstart ?_
      rw [hplain.eq, hdigit rfl hnil, hnil]
      rfl
    have hread {value : Nat} {unsigned : Prop} (hconst : IsConstant c89 token value unsigned) :
        value = digitsValue base digits ∧ (unsigned ↔ ∃ c ∈ letters, isUnsigned c) := by
      obtain ⟨digits', letters', hplain', -, -, -, hconst⟩ := hconst.plain hstart
      obtain ⟨rfl, rfl⟩ := hplain.unique hplain'
      exact hconst
    refine ⟨fun _ _ _ => haccept, fun value unsigned hconst => ?_, fun value unsigned hconst hlt => ?_, fun hnone => ?_⟩
    · rw [(hread hconst).1]
      exact hrange
    · obtain ⟨rfl, hu⟩ := hread hconst
      rw [hu, ← unsignedp_ne_zero_iff hsuffix.counts.2]
      exact hvalue hlt
    · exact absurd ⟨_, _, base, digits, letters, hspelled, hdigit', hsuffix, rfl, Iff.rfl⟩ hnone

/-- The letters of `0x7fffffffffffffffUL` are a suffix of the standard. -/
theorem regularSpelling_max : RegularSpelling false true "0x7fffffffffffffffUL".toList := by
  intro base digits letters hspelled _ _
  obtain hfound | ⟨⟨x, -, hx⟩, -⟩ := hspelled.found
  · obtain ⟨rfl, hp⟩ : base = 16 ∧ digits ++ letters = "7fffffffffffffffUL".toList := by
      have hbase : numberBase "0x7fffffffffffffffUL".toList = (16, "7fffffffffffffffUL".toList) := by decide
      rw [hbase] at hfound
      exact ⟨(Prod.mk.inj hfound).1.symm, (Prod.mk.inj hfound).2.symm⟩
    have hdigits : ("7fffffffffffffff".toList.all fun c => (digitOf 16 c).isSome) = true := by decide
    have hletters : Plain 16 "7fffffffffffffffUL".toList "7fffffffffffffff".toList ['U', 'L'] :=
      ⟨by decide, List.all_eq_true.1 hdigits, by simp [isLong, isUnsigned]⟩
    have hplain := hspelled.plain
    rw [hp] at hplain
    obtain ⟨rfl, rfl⟩ := hplain.unique hletters
    exact ⟨fun _ h => absurd h (by decide), by unfold IsSuffix; decide⟩
  · exact absurd hx (by simp)

theorem parse_number_right_max : NumberRight false "0x7fffffffffffffffUL".toList
    (parseNumber 64 false true "0x7fffffffffffffffUL".toList) := by
  have hiff : NumberRight false "0x7fffffffffffffffUL".toList
      (parseNumber 64 false true "0x7fffffffffffffffUL".toList) ↔
        RegularSpelling false true "0x7fffffffffffffffUL".toList :=
    parse_number_right_iff (by decide) (.inl (by decide))
  exact hiff.2 regularSpelling_max

/-- `0xu` has no digit, and is taken as an unsigned 0. -/
theorem parse_number_wrong_no_digit : parseNumber 64 false true ['0', 'x', 'u'] = (.int 0 1, []) ∧
    ¬ NumberRight false ['0', 'x', 'u'] (parseNumber 64 false true ['0', 'x', 'u']) := by
  have hparse : parseNumber 64 false true ['0', 'x', 'u'] = (.int 0 1, []) := by decide +kernel
  refine ⟨hparse, fun h => ?_⟩
  have hreject : Rejected (parseNumber 64 false true ['0', 'x', 'u']).2 := by
    refine h.rejects fun hconst => ?_
    obtain ⟨value, unsigned, hconst⟩ := hconst
    obtain ⟨digits, letters, hplain, -, hdigit, -⟩ := hconst.plain (p := ['u']) rfl
    have hletter : Plain 16 ['u'] [] ['u'] := ⟨rfl, by simp, by simp [isUnsigned]⟩
    exact hdigit rfl (hplain.unique hletter).1
  rw [hparse] at hreject
  obtain ⟨d, hd, -⟩ := hreject
  cases hd

end Results

end Z80Gcc.Cpp
