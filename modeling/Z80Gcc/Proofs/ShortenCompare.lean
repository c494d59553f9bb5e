import Z80Gcc.Proofs.RangeTest
import Z80Gcc.Spec.ShortenCompare

/-! A comparison that is shortened keeps its value but where an operand is extended in two ways, first to its own type
and then to the common type. -/

namespace Z80Gcc.Shorten

open WrapInt DoubleInt

variable {h : Host}

section Numbers

variable {m n : Nat} {u : Bool} {v : Int}

theorem two_pow_half (hn : 1 ≤ n) : (2 : Int) ^ n = 2 * 2 ^ (n - 1) := by
  rw [← pow_succ']
  congr 1
  omega

/-- A signed number as an unsigned one of at least as many bits. -/
theorem wrap_true_of_signed (hle : n ≤ m) (hv : wrap false n v = v) :
    0 ≤ v ∧ wrap true m v = v ∨ v < 0 ∧ wrap true m v = v + 2 ^ m := by
  have hpow := two_pow_le hle
  rw [wrap_false, bmod_eq_self_iff] at hv
  rw [wrap_true]
  obtain hneg | hpos := Int.lt_or_le v 0
  · refine .inr ⟨hneg, ?_⟩
    rw [← Int.add_emod_right]
    exact emod_eq_self_iff.2 (by omega)
  · exact .inl ⟨hpos, emod_eq_self_iff.2 (by omega)⟩

theorem wrap_of_unsigned (hlt : n < m) (hv : wrap true n v = v) (w : Bool) : wrap w m v = v := by
  cases w with
  | true => exact wrap_eq_self_mono hlt.le hv
  | false => exact bmod_eq_self_of_emod hlt hv

theorem wrap_false_of_unsigned (hn : 1 ≤ n) (hv : wrap true n v = v) :
    0 ≤ wrap false n v ∧ wrap false n v = v ∨ wrap false n v < 0 ∧ wrap false n v = v - 2 ^ n := by
  have hpow := two_pow_half hn
  have hdef : wrap false n v = if v % ((2 ^ n : Nat) : Int) < (((2 ^ n : Nat) : Int) + 1) / 2
      then v % ((2 ^ n : Nat) : Int) else v % ((2 ^ n : Nat) : Int) - ((2 ^ n : Nat) : Int) := Int.bmod_def v _
  have hrange := hv
  rw [wrap_true] at hv
  rw [wrap_true, emod_eq_self_iff] at hrange
  push_cast at hdef
  rw [hv] at hdef
  rw [hdef]
  split_ifs <;> omega

/-- Signed numbers are in one order as unsigned numbers, whatever their size. -/
theorem holds_unsigned {k : Nat} (code : CompareCode) (hm : n ≤ m) (hk : n ≤ k) {a b : Int} (ha : wrap false n a = a)
    (hb : wrap false n b = b) :
    code.holds (wrap true m a) (wrap true m b) = code.holds (wrap true k a) (wrap true k b) := by
  have hpowm := two_pow_le hm
  have hpowk := two_pow_le hk
  have ham := wrap_true_of_signed hm ha
  have hbm := wrap_true_of_signed hm hb
  have hak := wrap_true_of_signed hk ha
  have hbk := wrap_true_of_signed hk hb
  rw [wrap_false, bmod_eq_self_iff] at ha hb
  rw [Bool.eq_iff_iff]
  cases code <;> simp only [CompareCode.holds, decide_eq_true_eq] <;> omega

/-- A constant beyond the signed numbers of `n` bits tests the sign, and so do the smallest and the largest of them. -/
theorem holds_extreme (code : CompareCode) (hn : 1 ≤ n) (hlt : n < m) {v k : Int} (hv : wrap false n v = v)
    (hk : wrap false m k = k) :
    (code = .ltExpr ∨ code = .geExpr → k ≤ -2 ^ (n - 1) ∨ 2 ^ (n - 1) - 1 < k →
      code.holds (wrap true n v) (wrap true n (-2 ^ (n - 1))) = code.holds (wrap true m v) (wrap true m k)) ∧
    (code = .leExpr ∨ code = .gtExpr → k < -2 ^ (n - 1) ∨ 2 ^ (n - 1) - 1 ≤ k →
      code.holds (wrap true n v) (wrap true n (2 ^ (n - 1) - 1)) = code.holds (wrap true m v) (wrap true m k)) := by
  have hpow := two_pow_half hn
  have hpow' := two_pow_half (hn.trans hlt.le)
  have hpow'' := two_pow_le (Nat.le_sub_one_of_lt hlt)
  have hpos : (0 : Int) < 2 ^ (n - 1) := by positivity
  have hmin : wrap false n (-2 ^ (n - 1)) = -2 ^ (n - 1) := bmod_eq_self_iff.2 (by omega)
  have hmax : wrap false n (2 ^ (n - 1) - 1) = 2 ^ (n - 1) - 1 := bmod_eq_self_iff.2 (by omega)
  have hvn := wrap_true_of_signed (le_refl n) hv
  have hvm := wrap_true_of_signed hlt.le hv
  have hkm := wrap_true_of_signed (le_refl m) hk
  have hminn := wrap_true_of_signed (le_refl n) hmin
  have hmaxn := wrap_true_of_signed (le_refl n) hmax
  rw [wrap_false, bmod_eq_self_iff] at hv hk
  constructor
  · rintro (rfl | rfl) hout <;> rw [Bool.eq_iff_iff] <;>
      simp only [CompareCode.holds, decide_eq_true_eq] <;> omega
  · rintro (rfl | rfl) hout <;> rw [Bool.eq_iff_iff] <;>
      simp only [CompareCode.holds, decide_eq_true_eq] <;> omega

end Numbers

section Types

variable {t : IntType h} {v : Int}

theorem keep_keep (t : IntType h) (v : Int) : keep t (keep t v) = keep t v := wrap_wrap

theorem keep_of_dvd {a b : Int} (hdvd : (2 : Int) ^ t.precision ∣ a - b) : keep t a = keep t b := wrap_eq_of_dvd hdvd

theorem signedOrUnsignedType_eq (ht : t.precision ∈ standardSizes) (u : Bool) :
    signedOrUnsignedType u t = { t with unsigned := u } := by
  unfold signedOrUnsignedType
  split_ifs with hsame
  · rw [← hsame]
  · rfl

theorem typeWithSign_eq (ht : Standard t) (u : Bool) : typeWithSign u t = { t with unsigned := u } := by
  unfold typeWithSign
  split_ifs with hdouble
  · rfl
  · refine signedOrUnsignedType_eq ?_ u
    unfold Standard at ht
    unfold standardSizes
    simp only [List.mem_cons, List.not_mem_nil, or_false] at ht ⊢
    omega

/-- A type that is narrower than another one is none of the doublewords. -/
theorem standardSizes_of_lt {t' : IntType h} (ht : Standard t) (ht' : Standard t')
    (hlt : t.precision < t'.precision) : t.precision ∈ standardSizes := by
  unfold Standard at ht ht'
  unfold standardSizes
  simp only [List.mem_cons, List.not_mem_nil, or_false] at ht ht' ⊢
  omega

theorem value_bound (t : IntType h) (v : Int) : (bound t v).value = keep t v := value_represent_ofInt t v

end Types

section Operands

variable {op : Operand h} {t : IntType h} {x : Int}

theorem Tree.eval_value {t : Tree h} (ht : t.Wf) (hx : t.Value x) : t.type.Value (t.eval x) := by
  cases t with
  | leaf type constant sideEffects => exact hx
  | component type field bitField sideEffects =>
    obtain ⟨-, -, hsign, hle⟩ := ht
    unfold IntType.Value
    change wrap type.unsigned type.precision x = x
    rw [← hsign]
    exact wrap_eq_self_mono hle hx
  | nop type op => exact keep_keep type _

theorem Operand.eval_value (hop : op.Wf) (hx : op.Value x) : keep op.type (op.eval x) = op.eval x := by
  cases op with
  | cst c => exact hop.2.wrap_value
  | tree t => exact Tree.eval_value hop hx

/-- A constant or a bound, converted where its type is another one. -/
theorem value_converted {c : IntCst h} (hc : keep c.type c.value = c.value) (t : IntType h) {t' : IntType h}
    (htype : c.type = t') :
    (if t' = t then c else foldConvert t c).value = keep t c.value ∧
      (if t' = t then c else foldConvert t c).type = t := by
  split_ifs with hsame
  · rw [← hsame, ← htype]
    exact ⟨hc.symm, rfl⟩
  · exact ⟨value_foldConvert t c, rfl⟩

theorem Operand.eval_convert (hself : keep op.type (op.eval x) = op.eval x) (t : IntType h) :
    (op.convert t).eval x = keep t (op.eval x) := by
  cases op with
  | cst c =>
    change (if c.type = t then Operand.cst c else .cst (foldConvert t c)).eval x = keep t c.value
    rw [← (value_converted hself t rfl).1]
    split_ifs <;> rfl
  | tree e =>
    change (if e.type = t then Operand.tree e else .tree (.nop t e)).eval x = keep t (e.eval x)
    split_ifs with htype
    · rw [← htype]
      exact hself.symm
    · rfl

theorem Operand.eval_convert_cst {c : IntCst h} (hc : keep c.type c.value = c.value) (t : IntType h) (x : Int) :
    ((Operand.cst c).convert t).eval x = keep t c.value :=
  @Operand.eval_convert h (.cst c) x hc t

theorem Operand.type_convert (op : Operand h) (t : IntType h) : (op.convert t).type = t := by
  cases op with
  | cst c =>
    change (if c.type = t then Operand.cst c else .cst (foldConvert t c)).type = t
    split_ifs with htype
    · exact htype
    · rfl
  | tree e =>
    change (if e.type = t then Operand.tree e else .tree (.nop t e)).type = t
    split_ifs with htype
    · exact htype
    · rfl

theorem Operand.eval_convert_convert (hself : keep op.type (op.eval x) = op.eval x) (t t' : IntType h) :
    ((op.convert t).convert t').eval x = keep t' (keep t (op.eval x)) := by
  have hconvert := Operand.eval_convert hself t
  rw [Operand.eval_convert, hconvert]
  rw [Operand.type_convert, hconvert, keep_keep]

end Operands

section Narrower

/-- What the loop of `get_narrower` has found so far about an expression. -/
structure Stripped (t : Tree h) (uns first : Bool) (win : Tree h) : Prop where
  wf : win.Wf
  value : ∀ x, t.Value x → win.Value x
  le : win.type.precision ≤ t.type.precision
  eval : first = false → ∀ x, t.Value x → t.eval x = keep t.type (wrap uns win.type.precision (win.eval x))
  same : first = true → win = t

/-- The conversion at the outside of what is left is stripped. -/
theorem Stripped.step {t op : Tree h} {type : IntType h} {uns first : Bool}
    (hs : Stripped t uns first (.nop type op)) (hle : op.type.precision ≤ type.precision)
    (huns : first = false → op.type.precision < type.precision → uns = op.type.unsigned) :
    Stripped t (if first then op.type.unsigned else uns) false op where
  wf := hs.wf.2
  value := hs.value
  le := hle.trans hs.le
  eval := by
    intro _ x hx
    have hop : wrap op.type.unsigned op.type.precision (op.eval x) = op.eval x :=
      Tree.eval_value hs.wf.2 (hs.value x hx)
    cases first with
    | true =>
      obtain rfl := hs.same rfl
      rw [if_pos rfl, hop]
      rfl
    | false =>
      have heval := hs.eval rfl x hx
      rw [heval, if_neg Bool.false_ne_true]
      congr 1
      change wrap uns type.precision (wrap type.unsigned type.precision (op.eval x)) = _
      rw [wrap_eq_of_dvd dvd_wrap_sub]
      obtain hlt | heq := Nat.lt_or_eq_of_le hle
      · rw [huns rfl hlt, hop]
        exact wrap_eq_self_mono hle hop
      · rw [heq]
  same := fun hfalse => absurd hfalse Bool.false_ne_true

theorem strip_spec {t op : Tree h} {uns first : Bool} (hs : Stripped t uns first op) :
    let r := op.strip uns first op
    Stripped t r.2.1 r.2.2.1 r.2.2.2 ∧ r.1.Wf ∧ (r.1 = r.2.2.2 ∨ r.2.2.1 = false ∧ r.2.1 ≠ r.1.type.unsigned) := by
  induction op generalizing uns first with
  | leaf type constant sideEffects => exact ⟨hs, hs.wf, .inl rfl⟩
  | component type field bitField sideEffects => exact ⟨hs, hs.wf, .inl rfl⟩
  | nop type op ih =>
    unfold Tree.strip
    by_cases htrunc : type.precision < op.type.precision
    · rw [if_pos htrunc]
      exact ⟨hs, hs.wf, .inl rfl⟩
    rw [if_neg htrunc]
    by_cases hext : op.type.precision < type.precision
    · rw [if_pos hext]
      cases first with
      | true => exact ih (hs.step hext.le fun hfalse => absurd hfalse (by decide))
      | false =>
        rw [if_neg Bool.false_ne_true]
        by_cases huns : uns = op.type.unsigned
        · rw [if_neg (not_not_intro huns)]
          exact ih (hs.step hext.le fun _ _ => huns)
        · rw [if_pos huns]
          exact ⟨hs, hs.wf.2, .inr ⟨rfl, huns⟩⟩
    · rw [if_neg hext]
      exact ih (hs.step (by omega) fun _ hlt => absurd hlt hext)

/-- The value of an expression is what is left of it, extended as `get_narrower` says. -/
theorem getNarrower_spec {t : Tree h} (ht : t.Wf) :
    let r := t.getNarrower
    r.1.Wf ∧ (∀ x, t.Value x → r.1.Value x) ∧ r.1.type.precision ≤ t.type.precision ∧
      (r.1 = t ∨ ∀ x, t.Value x → t.eval x = keep t.type (wrap r.2 r.1.type.precision (r.1.eval x))) := by
  have hstart : Stripped t false true t :=
    ⟨ht, fun _ hx => hx, le_refl _, fun hfalse => absurd hfalse (by decide), fun _ => rfl⟩
  obtain ⟨hs, hwf, hop⟩ := strip_spec hstart
  unfold Tree.getNarrower
  generalize t.strip false true t = r at hs hwf hop
  obtain ⟨op, uns, first, win⟩ := r
  dsimp only at hs hwf hop ⊢
  have hwin : win.Wf ∧ (∀ x, t.Value x → win.Value x) ∧ win.type.precision ≤ t.type.precision ∧
      (win = t ∨ ∀ x, t.Value x → t.eval x = keep t.type (wrap uns win.type.precision (win.eval x))) := by
    refine ⟨hs.wf, hs.value, hs.le, ?_⟩
    cases first with
    | true => exact .inl (hs.same rfl)
    | false => exact .inr (hs.eval rfl)
  cases op with
  | leaf type constant sideEffects => exact hwin
  | nop type op => exact hwin
  | component type field bitField sideEffects =>
    by_cases hfield : field.precision < type.precision ∧ !bitField ∧ (first ∨ uns = field.unsigned)
    · obtain ⟨-, hstandard, hsign, -⟩ := hwf
      obtain ⟨hlt, hbits, huns⟩ := id hfield
      -- the field is what the loop ended with
      have hlast : Tree.component type field bitField sideEffects = win := by
        refine hop.resolve_right fun ⟨hfirst, hne⟩ => ?_
        rw [hfirst] at huns
        exact hne ((huns.resolve_left Bool.false_ne_true).trans hsign)
      subst hlast
      have hbits : bitField = false := by simpa using hbits
      dsimp only
      rw [if_pos hfield]
      refine ⟨⟨hstandard hbits, hstandard, rfl, le_refl _⟩, hs.value, hlt.le.trans hs.le, .inr fun x hx => ?_⟩
      have hself : wrap field.unsigned field.precision x = x := hs.value x hx
      change t.eval x = keep t.type (wrap (if first then field.unsigned else uns) field.precision x)
      cases first with
      | true =>
        obtain rfl := hs.same rfl
        rw [if_pos rfl, hself]
        exact (Tree.eval_value hs.wf hx).symm
      | false =>
        rw [if_neg Bool.false_ne_true, huns.resolve_left Bool.false_ne_true, hself]
        have heval := hs.eval rfl x hx
        rw [huns.resolve_left Bool.false_ne_true] at heval
        rw [heval]
        exact congrArg _ (wrap_eq_self_mono hlt.le hself)
    · dsimp only
      rw [if_neg hfield]
      exact hwin

end Narrower

section Primop

variable {op : Operand h} {restype : IntType h} {x : Int}

/-- The value of an operand by what `get_narrower` leaves of it. -/
theorem primop_spec (hop : op.Wf) (restype : IntType h) :
    let r := primop op restype
    r.1.Wf ∧ (∀ x, op.Value x → r.1.Value x) ∧ r.1.type.precision ≤ op.type.precision ∧
      ∀ x, op.Value x → op.eval x = keep op.type (wrap r.2 r.1.type.precision (r.1.eval x)) := by
  have hself : ∀ uns x, op.Value x → op.eval x = keep op.type (wrap uns op.type.precision (op.eval x)) := by
    intro uns x hx
    unfold keep
    rw [wrap_eq_of_dvd dvd_wrap_sub]
    exact (Operand.eval_value hop hx).symm
  cases op with
  | cst c => exact ⟨hop, fun _ hx => hx, le_refl _, hself _⟩
  | tree t =>
    obtain ⟨hwf, hvalue, hle, heval⟩ := getNarrower_spec hop
    refine ⟨hwf, hvalue, hle, ?_⟩
    unfold primop Operand.getNarrower
    dsimp only
    split_ifs with hsame
    · rw [← hsame.1]
      exact hself _
    · obtain heq | heval := heval
      · rw [heq]
        exact hself _
      · exact heval

theorem standard_of_wf (hop : op.Wf) : Standard op.type := by
  cases op with
  | cst c => exact hop.1
  | tree t =>
    cases t with
    | leaf type constant sideEffects => exact hop
    | component type field bitField sideEffects => exact hop.1
    | nop type op => exact hop.1

/-- `get_narrower` loses nothing but of operands that are extended in two ways. -/
theorem narrowValue_of_once (hop : op.Wf) (hle : op.type.precision ≤ restype.precision)
    (hre : ¬ Reextended op restype) (hx : op.Value x) :
    narrowValue op restype x = keep restype (op.eval x) := by
  obtain ⟨-, -, hprec, heval⟩ := primop_spec hop restype
  have hown : (primop op restype).1 = op → op.type.precision < restype.precision →
      (primop op restype).2 = op.type.unsigned := by
    intro hsame hlt
    have htype : op.type ≠ restype := fun heq => absurd hlt (by rw [heq]; exact Nat.lt_irrefl _)
    exact if_pos ⟨hsame.symm, htype⟩
  unfold Reextended at hre
  unfold narrowValue
  dsimp only at hprec heval ⊢
  rw [heval x hx]
  generalize (primop op restype).2 = uns at heval hre hown ⊢
  generalize (primop op restype).1 = r at hprec heval hre hown ⊢
  have hv : wrap uns r.type.precision (wrap uns r.type.precision (r.eval x)) =
      wrap uns r.type.precision (r.eval x) := wrap_wrap
  generalize wrap uns r.type.precision (r.eval x) = v at hv ⊢
  obtain hlt | heq := Nat.lt_or_eq_of_le hle
  · have hkeep : keep op.type v = v := by
      by_cases hsign : uns = op.type.unsigned
      · rw [hsign] at hv
        exact wrap_eq_self_mono hprec hv
      · have hne : r ≠ op := fun hsame => hsign (hown hsame hlt)
        -- an unsigned number is the same in a wider signed type
        have hwider : ¬ (uns = true → r.type.precision = op.type.precision) := fun hall =>
          hre ⟨hne, hlt, hsign, hall⟩
        obtain ⟨huns, hprec'⟩ := Classical.not_imp.1 hwider
        rw [huns] at hv
        exact wrap_of_unsigned (by omega) hv _
    rw [hkeep]
  · refine (keep_of_dvd ?_).symm
    rw [← heq]
    exact dvd_wrap_sub

/-- Of an operand that was sign-extended to an unsigned type. -/
theorem keep_signExtended {t : IntType h} {n : Nat} {v : Int} (hn : 1 ≤ n) (hle : n ≤ t.precision)
    (hlt : t.precision < restype.precision) (ht : t.unsigned = true) (hv : wrap false n v = v) :
    keep restype v = keep restype (keep t v) + if 2 ^ (n - 1) ≤ keep t v then
      if restype.unsigned = true then 2 ^ restype.precision - 2 ^ t.precision else -2 ^ t.precision else 0 := by
  have hhalf := two_pow_half hn
  have hpow := two_pow_le hle
  have hown := wrap_true_of_signed hle hv
  have hcommon := wrap_true_of_signed (hle.trans hlt.le) hv
  have hself : wrap true t.precision (wrap true t.precision v) = wrap true t.precision v := wrap_wrap
  have hkept := fun u => wrap_of_unsigned hlt hself u
  have hrange := hv
  rw [wrap_false, bmod_eq_self_iff] at hrange
  unfold keep
  rw [ht, hkept]
  cases restype.unsigned with
  | true =>
    rw [if_pos rfl]
    split_ifs <;> omega
  | false =>
    rw [if_neg Bool.false_ne_true, wrap_eq_self_mono (hle.trans hlt.le) hv]
    split_ifs <;> omega

theorem keep_zeroExtended {t : IntType h} {v : Int} (hlt : t.precision < restype.precision)
    (ht : t.unsigned = false) (hv : wrap true t.precision v = v) :
    keep restype v = keep restype (keep t v) + if keep t v < 0 then
      if restype.unsigned = true then -(2 ^ restype.precision - 2 ^ t.precision) else 2 ^ t.precision else 0 := by
  have hown := wrap_false_of_unsigned t.pos hv
  have hself : wrap false t.precision (wrap false t.precision v) = wrap false t.precision v := wrap_wrap
  have hcommon := wrap_true_of_signed hlt.le hself
  have hkept := wrap_eq_self_mono hlt.le hself
  unfold keep
  rw [ht, wrap_of_unsigned hlt hv]
  cases restype.unsigned with
  | true =>
    rw [if_pos rfl]
    split_ifs <;> omega
  | false =>
    rw [if_neg Bool.false_ne_true, hkept]
    split_ifs <;> omega

theorem narrowValue_eq (hop : op.Wf) (hle : op.type.precision ≤ restype.precision) (hx : op.Value x) :
    narrowValue op restype x = keep restype (op.eval x) + misreading op restype x := by
  by_cases hre : Reextended op restype
  · obtain ⟨hwf, -, hprec, heval⟩ := primop_spec hop restype
    have hmisread : Misread op restype x ↔
        if op.type.unsigned then 2 ^ ((primop op restype).1.type.precision - 1) ≤ op.eval x else op.eval x < 0 :=
      and_iff_right hre
    obtain ⟨-, hlt, hsign, hsame⟩ := hre
    unfold misreading narrowValue
    simp only [hmisread]
    rw [heval x hx]
    generalize (primop op restype).2 = uns at hsign hsame ⊢
    generalize (primop op restype).1 = r at hwf hprec hsame ⊢
    have hv : wrap uns r.type.precision (wrap uns r.type.precision (r.eval x)) =
        wrap uns r.type.precision (r.eval x) := wrap_wrap
    generalize wrap uns r.type.precision (r.eval x) = v at hv ⊢
    cases uns with
    | false =>
      have hown : op.type.unsigned = true := by simpa using hsign.symm
      rw [keep_signExtended r.type.pos hprec hlt hown hv, hown]
      simp only [if_true]
      cases restype.unsigned <;> simp
    | true =>
      have hown : op.type.unsigned = false := by simpa using hsign.symm
      rw [hsame rfl] at hv
      rw [keep_zeroExtended hlt hown hv, hown]
      simp only [Bool.false_eq_true, if_false]
      cases restype.unsigned <;> simp
  · rw [narrowValue_of_once hop hle hre hx, misreading, if_neg fun hmisread => hre hmisread.1, add_zero]

end Primop

section Constant

variable {code : CompareCode} {op : Operand h} {restype : IntType h} {x : Int}

/-- Where the constant lies, when the bounds are values of its type. -/
theorem flagsOf_eq {k minval maxval : IntCst h} {t : IntType h} (hk : k.type = t) (hmin : minval.type = t)
    (hmax : maxval.type = t) : flagsOf t.unsigned k minval maxval =
      ⟨decide (k.value < minval.value), decide (k.value < maxval.value), decide (minval.value < k.value),
        decide (maxval.value < k.value)⟩ := by
  unfold flagsOf
  rw [less_eq, less_eq, less_eq, less_eq]
  unfold IntCst.value
  rw [hk, hmin, hmax]

/-- What a fixed result says, and what is known of the constant when there is none. -/
theorem Flags.val_spec (code : CompareCode) {f : Flags} {m M k : Int}
    (hf : f = ⟨decide (k < m), decide (k < M), decide (m < k), decide (M < k)⟩) :
    (∀ b, f.val code = some b → ∀ v, m ≤ v → v ≤ M → code.holds v k = b) ∧
      (f.val code = none → m ≤ k ∧ k ≤ M) := by
  subst hf
  constructor
  · intro b hb v hlo hhi
    cases code <;> simp only [Flags.val] at hb <;> split_ifs at hb <;> cases hb <;>
      simp_all [CompareCode.holds] <;> omega
  · intro hnone
    cases code <;> simp only [Flags.val] at hnone <;> split_ifs at hnone <;> simp_all <;> omega

/-- Where the constant lies, when an inequality has a fixed result. -/
theorem Flags.val_outside (code : CompareCode) (b : Bool) {f : Flags} {m M k : Int}
    (hf : f = ⟨decide (k < m), decide (k < M), decide (m < k), decide (M < k)⟩) (hval : f.val code = some b) :
    (code = .ltExpr ∨ code = .geExpr → k ≤ m ∨ M < k) ∧ (code = .leExpr ∨ code = .gtExpr → k < m ∨ M ≤ k) := by
  subst hf
  cases code <;> simp only [Flags.val] at hval <;> split_ifs at hval <;> simp_all

theorem value_compare (swapped : Bool) (code : CompareCode) (op0 op1 : Operand h) (x0 x1 : Int) :
    (Outcome.compare swapped code op0 op1).value x0 x1 =
      code.holds (op0.eval (if swapped then x1 else x0)) (op1.eval (if swapped then x0 else x1)) := by
  cases swapped <;> rfl

theorem minValue_value (t : IntType h) : keep t t.minValue = t.minValue :=
  (t.value_iff _).2 ⟨le_refl _, t.min_le_max⟩

theorem maxValue_value (t : IntType h) : keep t t.maxValue = t.maxValue :=
  (t.value_iff _).2 ⟨t.min_le_max, le_refl _⟩

/-- A bound of a type, and what it becomes in a type that has its value. -/
theorem value_convertBound {T R : IntType h} {v : Int} (hT : keep T v = v) (hR : keep R v = v) :
    keep (bound T v).type (bound T v).value = (bound T v).value ∧ (bound T v).value = v ∧
      (if T = R then bound T v else foldConvert R (bound T v)).value = v ∧
      (if T = R then bound T v else foldConvert R (bound T v)).type = R := by
  have hbv : (bound T v).value = v := (value_bound T v).trans hT
  have hself : keep (bound T v).type (bound T v).value = (bound T v).value := by
    rw [hbv]
    exact hT
  obtain ⟨hval, htype⟩ := value_converted hself R (rfl : (bound T v).type = T)
  refine ⟨hself, hbv, hval.trans ?_, htype⟩
  rw [hbv, hR]

/-- The comparison with a constant when the operand is extended as the common type asks. -/
theorem compareConstant_plain {uns swapped : Bool} {k : IntCst h} {x0 x1 : Int} (hop : op.Wf) (hk : k.Valid)
    (hsize : op.type.precision ∈ standardSizes) (hlt : op.type.precision < restype.precision)
    (hplain : restype.unsigned = false ∨ uns = true) (hx : op.Value (if swapped then x1 else x0)) :
    (compareConstant swapped code op uns k restype).1.value x0 x1 =
      code.holds (keep restype (wrap uns op.type.precision (op.eval (if swapped then x1 else x0))))
        (keep restype k.value) := by
  have hreversed : (restype.unsigned && !uns) = false := by
    obtain hsigned | huns := hplain
    · rw [hsigned, Bool.false_and]
    · rw [huns, Bool.not_true, Bool.and_false]
  have hcompare : (restype.unsigned && uns) = restype.unsigned := by
    obtain hsigned | huns := hplain
    · rw [hsigned, Bool.false_and]
    · rw [huns, Bool.and_true]
  -- the values of the narrower type are values of the common type
  have hwide : ∀ v, wrap uns op.type.precision v = v → keep restype v = v := by
    intro v hv
    cases uns with
    | true => exact wrap_of_unsigned hlt hv _
    | false =>
      unfold keep
      rw [hplain.resolve_right Bool.false_ne_true]
      exact wrap_eq_self_mono hlt.le hv
  unfold compareConstant
  dsimp only
  rw [hreversed, hcompare, signedOrUnsignedType_eq hsize]
  simp only [Bool.false_eq_true, if_false, Bool.false_and]
  generalize hT : ({ op.type with unsigned := uns } : IntType h) = T
  have hkeep : ∀ v, keep T v = wrap uns op.type.precision v := by
    rw [← hT]
    exact fun _ => rfl
  obtain ⟨hkval, hktype⟩ := value_converted hk.wrap_value restype rfl
  generalize (if k.type = restype then k else foldConvert restype k) = k' at hkval hktype ⊢
  have hbound : ∀ v, keep T v = v → keep restype v = v := fun v hv => hwide v ((hkeep v).symm.trans hv)
  obtain ⟨-, -, hminval, hmintype⟩ := value_convertBound (minValue_value T) (hbound _ (minValue_value T))
  obtain ⟨-, -, hmaxval, hmaxtype⟩ := value_convertBound (maxValue_value T) (hbound _ (maxValue_value T))
  have hflags := flagsOf_eq hktype hmintype hmaxtype
  rw [hminval, hmaxval, hkval] at hflags
  obtain ⟨hfixed, hinside⟩ := Flags.val_spec code hflags
  have hrange := (T.value_iff _).1 (keep_keep T (op.eval (if swapped then x1 else x0)))
  rw [hkeep] at hrange
  rw [hwide _ wrap_wrap]
  generalize (flagsOf restype.unsigned k' _ _).val code = val at hfixed hinside ⊢
  cases val with
  | some b => exact (hfixed b rfl _ hrange.1 hrange.2).symm
  | none =>
    have hin := (T.value_iff _).2 (hinside rfl)
    have hk' : keep k'.type k'.value = k'.value := by
      rw [hktype, hkval, keep_keep]
    have hself : keep T (keep restype k.value) = keep restype k.value := hin
    dsimp only
    rw [value_compare, Operand.eval_convert (Operand.eval_value hop hx), hkeep, Operand.eval_convert_cst hk', hkval,
      hself]

/-- The comparison with a constant when a sign-extended operand is compared in an unsigned type. -/
theorem compareConstant_reversed {swapped : Bool} {k : IntCst h} {x0 x1 : Int} (hop : op.Wf) (hk : k.Valid)
    (hsize : op.type.precision ∈ standardSizes) (hrestype : Standard restype)
    (hlt : op.type.precision < restype.precision) (hunsigned : restype.unsigned = true)
    (hx : op.Value (if swapped then x1 else x0)) :
    (compareConstant swapped code op false k restype).1.value x0 x1 =
      code.holds (keep restype (wrap false op.type.precision (op.eval (if swapped then x1 else x0))))
        (keep restype k.value) := by
  have hpos := op.type.pos
  unfold compareConstant
  dsimp only
  rw [hunsigned, signedOrUnsignedType_eq hsize, typeWithSign_eq hrestype]
  simp only [Bool.not_false, Bool.and_true, Bool.and_false, if_true, Bool.true_and]
  generalize hT : ({ op.type with unsigned := false } : IntType h) = T
  generalize hR : ({ restype with unsigned := false } : IntType h) = R
  have hTp : T.precision = op.type.precision := by rw [← hT]
  have hTu : T.unsigned = false := by rw [← hT]
  have hRp : R.precision = restype.precision := by rw [← hR]
  have hRu : R.unsigned = false := by rw [← hR]
  have hkeepT : ∀ v, keep T v = wrap false op.type.precision v := by
    intro v
    unfold keep
    rw [hTp, hTu]
  have hkeepR : ∀ v, keep R v = wrap false restype.precision v := by
    intro v
    unfold keep
    rw [hRp, hRu]
  have hkeep : ∀ v, keep restype v = wrap true restype.precision v := by
    intro v
    unfold keep
    rw [hunsigned]
  have hmin : T.minValue = -2 ^ (op.type.precision - 1) := by
    unfold IntType.minValue
    rw [hTu, hTp, if_neg Bool.false_ne_true]
  have hmax : T.maxValue = 2 ^ (op.type.precision - 1) - 1 := by
    unfold IntType.maxValue
    rw [hTu, hTp, if_neg Bool.false_ne_true]
  -- the type in which the comparison is made
  have htype : typeWithSign true T = { op.type with unsigned := true } := by
    unfold typeWithSign
    rw [signedOrUnsignedType_eq (by rw [hTp]; exact hsize), ← hT]
    split_ifs <;> rfl
  have hkeepU : ∀ v, keep (typeWithSign true T) v = wrap true op.type.precision v := by
    rw [htype]
    exact fun _ => rfl
  obtain ⟨hkval, hktype⟩ := value_converted hk.wrap_value R rfl
  generalize (if k.type = R then k else foldConvert R k) = k' at hkval hktype ⊢
  have hbound : ∀ v, keep T v = v → keep R v = v := by
    intro v hv
    rw [hkeepT] at hv
    rw [hkeepR]
    exact wrap_eq_self_mono hlt.le hv
  obtain ⟨hminself, hminbound, hminval, hmintype⟩ :=
    value_convertBound (minValue_value T) (hbound _ (minValue_value T))
  obtain ⟨hmaxself, hmaxbound, hmaxval, hmaxtype⟩ :=
    value_convertBound (maxValue_value T) (hbound _ (maxValue_value T))
  have hflags := flagsOf_eq hktype hmintype hmaxtype
  rw [hminval, hmaxval, hkval, hRu] at hflags
  obtain ⟨hfixed, hinside⟩ := Flags.val_spec code hflags
  have hrange := (T.value_iff _).1 (keep_keep T (op.eval (if swapped then x1 else x0)))
  have houtside := fun b => Flags.val_outside code b hflags
  generalize (flagsOf false k' _ _).val code = val at hfixed hinside houtside ⊢
  have hKself : wrap false restype.precision (keep R k.value) = keep R k.value := by
    rw [← hkeepR]
    exact keep_keep R _
  have hK : keep restype k.value = wrap true restype.precision (keep R k.value) := by
    rw [hkeep, hkeepR]
    exact (wrap_eq_of_dvd dvd_wrap_sub).symm
  rw [hK, hkeep]
  generalize keep R k.value = K at hkval hfixed hinside houtside hKself ⊢
  have hself : wrap false op.type.precision (keep T (op.eval (if swapped then x1 else x0))) =
      keep T (op.eval (if swapped then x1 else x0)) := by
    rw [← hkeepT]
    exact keep_keep T _
  have hX : wrap true op.type.precision (op.eval (if swapped then x1 else x0)) =
      wrap true op.type.precision (keep T (op.eval (if swapped then x1 else x0))) :=
    (wrap_eq_of_dvd (by rw [hkeepT]; exact dvd_wrap_sub)).symm
  rw [← hkeepT]
  generalize keep T (op.eval (if swapped then x1 else x0)) = X at hrange hself hX ⊢
  have hcompare : ∀ c : IntCst h, keep c.type c.value = c.value →
      (Outcome.compare swapped code (op.convert (typeWithSign true T))
        ((Operand.cst c).convert (typeWithSign true T))).value x0 x1 =
        code.holds (wrap true op.type.precision X) (wrap true op.type.precision c.value) := by
    intro c hc
    rw [value_compare, Operand.eval_convert (Operand.eval_value hop hx), Operand.eval_convert_cst hc, hkeepU, hkeepU,
      hX]
  have hextreme := holds_extreme code hpos hlt hself hKself
  rw [← hmin, ← hmax] at hextreme
  cases val with
  | none =>
    have hk' : keep k'.type k'.value = k'.value := by
      rw [hktype, hkval, hkeepR]
      exact hKself
    have hin : wrap false op.type.precision K = K := by
      rw [← hkeepT]
      exact (T.value_iff _).2 (hinside rfl)
    simp only [Option.isSome_none, Bool.false_eq_true, if_false, ite_self]
    rw [hcompare k' hk', hkval]
    exact holds_unsigned code (le_refl _) hlt.le hself hin
  | some b =>
    have hfix := hfixed b rfl X hrange.1 hrange.2
    obtain ⟨hlow, hhigh⟩ := houtside b rfl
    have hXm := wrap_true_of_signed hlt.le hself
    have hKm := wrap_true_of_signed (le_refl restype.precision) hKself
    have hXr : wrap false restype.precision X = X := wrap_eq_self_mono hlt.le hself
    rw [wrap_false, bmod_eq_self_iff] at hXr hKself
    have hinj : wrap true restype.precision X = wrap true restype.precision K ↔ X = K := by
      omega
    have hlowest := hcompare (bound T T.minValue) hminself
    have hhighest := hcompare (bound T T.maxValue) hmaxself
    rw [hminbound] at hlowest
    rw [hmaxbound] at hhighest
    cases code with
    | eqExpr =>
      change b = decide (wrap true restype.precision X = wrap true restype.precision K)
      rw [← hfix]
      exact decide_eq_decide.2 hinj.symm
    | neExpr =>
      change b = decide (wrap true restype.precision X ≠ wrap true restype.precision K)
      rw [← hfix]
      exact decide_eq_decide.2 hinj.not.symm
    | ltExpr => exact hlowest.trans (hextreme.1 (.inl rfl) (hlow (.inl rfl)))
    | geExpr => exact hlowest.trans (hextreme.1 (.inr rfl) (hlow (.inr rfl)))
    | leExpr => exact hhighest.trans (hextreme.2 (.inl rfl) (hhigh (.inl rfl)))
    | gtExpr => exact hhighest.trans (hextreme.2 (.inr rfl) (hhigh (.inr rfl)))

end Constant

section Compare

variable {op0 op1 : Operand h} {restype : IntType h} {x0 x1 : Int} {swapped : Bool}

/-- The comparison in a narrower type, when both operands are extended in one way. -/
theorem compareBoth_value {uns : Bool} (code : CompareCode) (hop0 : op0.Wf) (hop1 : op1.Wf)
    (hrestype : Standard restype)
    (hlt0 : op0.type.precision < restype.precision) (hlt1 : op1.type.precision < restype.precision)
    (hx0 : op0.Value (if swapped then x1 else x0)) (hx1 : op1.Value (if swapped then x0 else x1)) :
    let type := signedOrUnsignedType (uns || restype.unsigned) (commonType op0.type op1.type)
    (Outcome.compare swapped code ((op0.convert (signedOrUnsignedType uns op0.type)).convert type)
      ((op1.convert (signedOrUnsignedType uns op1.type)).convert type)).value x0 x1 =
      code.holds (keep restype (wrap uns op0.type.precision (op0.eval (if swapped then x1 else x0))))
        (keep restype (wrap uns op1.type.precision (op1.eval (if swapped then x0 else x1)))) := by
  have hsize0 := standardSizes_of_lt (standard_of_wf hop0) hrestype hlt0
  have hsize1 := standardSizes_of_lt (standard_of_wf hop1) hrestype hlt1
  have hcommon : (commonType op0.type op1.type).precision = max op0.type.precision op1.type.precision := by
    unfold commonType
    split_ifs <;> omega
  have hsize : (commonType op0.type op1.type).precision ∈ standardSizes := by
    rw [hcommon]
    obtain hle | hle := Nat.le_total op0.type.precision op1.type.precision
    · rwa [Nat.max_eq_right hle]
    · rwa [Nat.max_eq_left hle]
  have hlt : (commonType op0.type op1.type).precision < restype.precision := by omega
  have hle0 : op0.type.precision ≤ (commonType op0.type op1.type).precision := by omega
  have hle1 : op1.type.precision ≤ (commonType op0.type op1.type).precision := by omega
  dsimp only
  rw [value_compare, Operand.eval_convert_convert (Operand.eval_value hop0 hx0),
    Operand.eval_convert_convert (Operand.eval_value hop1 hx1), signedOrUnsignedType_eq hsize0,
    signedOrUnsignedType_eq hsize1, signedOrUnsignedType_eq hsize]
  unfold keep
  dsimp only
  generalize (commonType op0.type op1.type).precision = m at hlt hle0 hle1
  have hv0 : wrap uns op0.type.precision (wrap uns op0.type.precision (op0.eval (if swapped then x1 else x0))) =
    wrap uns op0.type.precision (op0.eval (if swapped then x1 else x0)) := wrap_wrap
  have hv1 : wrap uns op1.type.precision (wrap uns op1.type.precision (op1.eval (if swapped then x0 else x1))) =
    wrap uns op1.type.precision (op1.eval (if swapped then x0 else x1)) := wrap_wrap
  generalize wrap uns op0.type.precision (op0.eval (if swapped then x1 else x0)) = v0 at hv0
  generalize wrap uns op1.type.precision (op1.eval (if swapped then x0 else x1)) = v1 at hv1
  cases uns with
  | true =>
    rw [Bool.true_or, wrap_eq_self_mono hle0 hv0, wrap_eq_self_mono hle1 hv1, wrap_of_unsigned hlt0 hv0,
      wrap_of_unsigned hlt1 hv1]
  | false =>
    have hm0 := wrap_eq_self_mono hle0 hv0
    have hm1 := wrap_eq_self_mono hle1 hv1
    rw [Bool.false_or]
    cases restype.unsigned with
    | true => exact holds_unsigned code (le_refl m) hlt.le hm0 hm1
    | false => rw [hm0, hm1, wrap_eq_self_mono hlt0.le hv0, wrap_eq_self_mono hlt1.le hv1]

theorem compareNominal_value (extraWarnings : Bool) (code : CompareCode) (hop0 : op0.Wf) (hop1 : op1.Wf)
    (hx0 : op0.Value (if swapped then x1 else x0)) (hx1 : op1.Value (if swapped then x0 else x1)) :
    (compareNominal extraWarnings swapped code op0 op1 restype).1.value x0 x1 =
      code.holds (keep restype (op0.eval (if swapped then x1 else x0)))
        (keep restype (op1.eval (if swapped then x0 else x1))) := by
  have hnominal : (Outcome.compare swapped code (op0.convert restype) (op1.convert restype)).value x0 x1 =
      code.holds (keep restype (op0.eval (if swapped then x1 else x0)))
        (keep restype (op1.eval (if swapped then x0 else x1))) := by
    rw [value_compare, Operand.eval_convert (Operand.eval_value hop0 hx0),
      Operand.eval_convert (Operand.eval_value hop1 hx1)]
  unfold compareNominal
  dsimp only
  by_cases hzero : (op1.integerZerop && restype.unsigned) = true
  · rw [if_pos hzero]
    obtain ⟨hcst, hunsigned⟩ := Bool.and_eq_true_iff.1 hzero
    have hkeep : ∀ v, keep restype v = v % 2 ^ restype.precision := by
      intro v
      unfold keep
      rw [hunsigned, wrap_true]
    have hvalue : ∀ x, keep restype (op1.eval x) = 0 := by
      cases op1 with
      | tree t => exact absurd hcst Bool.false_ne_true
      | cst c =>
        have hwords : c.words = ⟨0, 0⟩ := of_decide_eq_true (Bool.and_eq_true_iff.1 hcst).2
        have hc : c.value = 0 := value_of_zero c hwords
        intro x
        rw [hkeep]
        change c.value % _ = 0
        rw [hc, Int.zero_emod]
    have hnonneg : ∀ v, 0 ≤ keep restype v := by
      intro v
      rw [hkeep]
      exact Int.emod_nonneg _ (by positivity)
    rw [hvalue] at hnominal ⊢
    have hpos := hnonneg (op0.eval (if swapped then x1 else x0))
    cases code with
    | geExpr => exact (decide_eq_true hpos).symm
    | ltExpr => exact (decide_eq_false (not_lt.2 hpos)).symm
    | eqExpr | neExpr | leExpr | gtExpr => exact hnominal
  · rw [if_neg hzero]
    exact hnominal

theorem not_reextended_cst (c : IntCst h) (restype : IntType h) : ¬ Reextended (.cst c) restype :=
  fun hre => hre.1 rfl

theorem primop_eq_cst {op : Operand h} {k : IntCst h} (hk : (primop op restype).1 = .cst k) : op = .cst k := by
  cases op with
  | cst c => exact hk
  | tree t => cases hk

/-- The comparison, with a constant as its second operand if there is one. -/
theorem compareOrdered_value (extraWarnings swapped : Bool) (code : CompareCode) (hop0 : op0.Wf) (hop1 : op1.Wf)
    (hrestype : Standard restype) (hle1 : op1.type.precision ≤ restype.precision)
    (hx0 : op0.Value (if swapped then x1 else x0)) (hx1 : op1.Value (if swapped then x0 else x1)) :
    let value := (compareOrdered extraWarnings swapped code op0 op1 restype).1.value x0 x1
    (Shortens op0 op1 restype → value =
      code.holds (narrowValue op0 restype (if swapped then x1 else x0))
        (narrowValue op1 restype (if swapped then x0 else x1))) ∧
    (¬ Shortens op0 op1 restype → value =
      code.holds (keep restype (op0.eval (if swapped then x1 else x0)))
        (keep restype (op1.eval (if swapped then x0 else x1)))) := by
  obtain ⟨hwf0, hvalue0, -, -⟩ := primop_spec hop0 restype
  obtain ⟨hwf1, hvalue1, -, -⟩ := primop_spec hop1 restype
  have hv0 := hvalue0 _ hx0
  have hv1 := hvalue1 _ hx1
  have hnominal : (compareNominal extraWarnings swapped code op0 op1 restype).1.value x0 x1 =
      code.holds (keep restype (op0.eval (if swapped then x1 else x0)))
        (keep restype (op1.eval (if swapped then x0 else x1))) :=
    compareNominal_value extraWarnings code hop0 hop1 hx0 hx1
  have hcst : ∀ k, op1 = .cst k → narrowValue op1 restype (if swapped then x0 else x1) = keep restype k.value := by
    rintro k rfl
    exact narrowValue_of_once hop1 hle1 (not_reextended_cst k restype) trivial
  have hconstant : ∀ k, (primop op1 restype).1 = .cst k → op1 = .cst k := fun k => primop_eq_cst
  unfold narrowValue at hcst ⊢
  unfold compareOrdered Shortens
  dsimp only at hwf0 hwf1 hv0 hv1 hcst ⊢
  generalize (primop op0 restype).1 = r0 at hwf0 hv0 ⊢
  generalize (primop op0 restype).2 = uns0
  generalize (primop op1 restype).1 = r1 at hwf1 hv1 hcst hconstant ⊢
  generalize (primop op1 restype).2 = uns1 at hcst ⊢
  cases r1 with
  | cst k =>
    obtain rfl := hconstant k rfl
    rw [hcst k rfl]
    dsimp only
    by_cases hlt : r0.type.precision < restype.precision
    · rw [if_pos hlt]
      have hsize := standardSizes_of_lt (standard_of_wf hwf0) hrestype hlt
      refine ⟨fun _ => ?_, fun hnot => absurd ⟨hlt, .inl rfl⟩ hnot⟩
      by_cases hplain : restype.unsigned = false ∨ uns0 = true
      · exact compareConstant_plain hwf0 hop1.2 hsize hlt hplain hv0
      · obtain ⟨hunsigned, huns⟩ := not_or.1 hplain
        rw [Bool.not_eq_true] at huns
        rw [huns]
        exact compareConstant_reversed hwf0 hop1.2 hsize hrestype hlt (by simpa using hunsigned) hv0
    · rw [if_neg hlt, if_neg fun hboth => hlt hboth.2.1]
      exact ⟨fun hshort => absurd hshort.1 hlt, fun _ => hnominal⟩
  | tree t =>
    dsimp only
    by_cases hboth : uns0 = uns1 ∧ r0.type.precision < restype.precision ∧
        (Operand.tree t).type.precision < restype.precision
    · rw [if_pos hboth]
      obtain ⟨rfl, hlt0, hlt1⟩ := hboth
      refine ⟨fun _ => ?_, fun hnot => absurd ⟨hlt0, .inr ⟨rfl, hlt1⟩⟩ hnot⟩
      exact compareBoth_value code hwf0 hwf1 hrestype hlt0 hlt1 hv0 hv1
    · rw [if_neg hboth]
      refine ⟨fun ⟨hlt0, hor⟩ => ?_, fun _ => hnominal⟩
      obtain ⟨huns, hlt1⟩ := hor.resolve_left Bool.false_ne_true
      exact absurd ⟨huns, hlt0, hlt1⟩ hboth

theorem swapCode_holds (code : CompareCode) (a b : Int) : (swapCode code).holds b a = code.holds a b := by
  cases code <;> simp only [swapCode, CompareCode.holds, eq_comm, ne_comm]

theorem holds_add_iff (code : CompareCode) (a b e0 e1 : Int) :
    code.holds (a + e0) (b + e1) = code.holds a b ↔ OrderKept code (a - b) (e0 - e1) := by
  rw [Bool.eq_iff_iff]
  cases code <;> simp only [CompareCode.holds, OrderKept, decide_eq_true_eq] <;> omega

theorem commonType_spec (t1 t2 : IntType h) :
    t1.precision ≤ (commonType t1 t2).precision ∧ t2.precision ≤ (commonType t1 t2).precision ∧
      (commonType t1 t2 = t1 ∨ commonType t1 t2 = t2) := by
  unfold commonType
  split_ifs with hgt hlt hunsigned
  · exact ⟨le_refl _, hgt.le, .inl rfl⟩
  · exact ⟨hlt.le, le_refl _, .inr rfl⟩
  · exact ⟨le_refl _, not_lt.1 hlt, .inl rfl⟩
  · exact ⟨not_lt.1 hgt, le_refl _, .inr rfl⟩

/-- What a comparison is, before and after its operands change places. -/
theorem shortenCompare_value (extraWarnings : Bool) (code : CompareCode) (hop0 : op0.Wf) (hop1 : op1.Wf)
    (hx0 : op0.Value x0) (hx1 : op1.Value x1) :
    let restype := commonType op0.type op1.type
    let shortened := if swaps op0 op1 restype then Shortens op1 op0 restype else Shortens op0 op1 restype
    let value := (shortenCompare extraWarnings code op0 op1 restype).1.value x0 x1
    (shortened → value = code.holds (narrowValue op0 restype x0) (narrowValue op1 restype x1)) ∧
    (¬ shortened → value = code.holds (keep restype (op0.eval x0)) (keep restype (op1.eval x1))) := by
  obtain ⟨hle0, hle1, hcommon⟩ := commonType_spec op0.type op1.type
  have hrestype : Standard (commonType op0.type op1.type) := by
    obtain heq | heq := hcommon
    · rw [heq]
      exact standard_of_wf hop0
    · rw [heq]
      exact standard_of_wf hop1
  unfold shortenCompare
  dsimp only
  generalize commonType op0.type op1.type = restype at *
  cases swaps op0 op1 restype with
  | false => exact compareOrdered_value extraWarnings false code hop0 hop1 hrestype hle1 hx0 hx1
  | true =>
    have hordered := compareOrdered_value extraWarnings true (swapCode code) hop1 hop0 hrestype hle0 hx1 hx0
    simp only [if_true, swapCode_holds] at hordered ⊢
    exact hordered

end Compare

section Main

variable {op0 op1 : Operand h}

/-- A comparison keeps its value just when it is not shortened, or when what is taken wrong of the operands does
not change the result of its code. -/
theorem shortenRight_iff (hop0 : op0.Wf) (hop1 : op1.Wf) (extraWarnings : Bool) (code : CompareCode) {x0 x1 : Int}
    (hx0 : op0.Value x0) (hx1 : op1.Value x1) :
    ShortenRight extraWarnings code op0 op1 x0 x1 ↔
      (Shortened op0 op1 → OrderKept code
        (keep (commonType op0.type op1.type) (op0.eval x0) - keep (commonType op0.type op1.type) (op1.eval x1))
        (misreading op0 (commonType op0.type op1.type) x0 - misreading op1 (commonType op0.type op1.type) x1)) := by
  obtain ⟨hle0, hle1, -⟩ := commonType_spec op0.type op1.type
  obtain ⟨hshortened, hnominal⟩ := shortenCompare_value extraWarnings code hop0 hop1 hx0 hx1
  rw [narrowValue_eq hop0 hle0 hx0, narrowValue_eq hop1 hle1 hx1] at hshortened
  rw [← holds_add_iff]
  unfold ShortenRight
  dsimp only
  by_cases hshort : Shortened op0 op1
  · rw [hshortened hshort]
    exact ⟨fun heq _ => heq, fun himp => himp hshort⟩
  · exact iff_of_true (hnominal hshort) fun h => absurd h hshort

theorem char_pos : 1 ≤ 8 := by decide

theorem char_fits : 8 ≤ 2 * host32.bits := by decide

theorem int_pos : 1 ≤ 16 := by decide

theorem int_fits : 16 ≤ 2 * host32.bits := by decide

theorem long_pos : 1 ≤ 32 := by decide

theorem long_fits : 32 ≤ 2 * host32.bits := by decide

def signedChar : IntType host32 := ⟨8, false, char_pos, char_fits⟩

def unsignedInt : IntType host32 := ⟨16, true, int_pos, int_fits⟩

def longInt : IntType host32 := ⟨32, false, long_pos, long_fits⟩

def unsignedLong : IntType host32 := ⟨32, true, long_pos, long_fits⟩

/-- -1 made `unsigned` is 65535, and misread as -1; it is found to be greater than `100L` in the common type
`unsigned long`, as it should be. -/
theorem shortenRight_iff_char :
    ShortenRight false .gtExpr (.tree (.nop unsignedInt (.leaf signedChar false false)))
      (.cst ⟨unsignedLong, ⟨100, 0⟩, false, false⟩) (-1) 0 := by
  have hop0 : (Operand.tree (.nop unsignedInt (.leaf signedChar false false))).Wf := by
    refine ⟨?_, ?_⟩
    · change unsignedInt.precision ∈ [8, 16, 32, 64]
      decide
    · change signedChar.precision ∈ [8, 16, 32, 64]
      decide
  have hop1 : (Operand.cst (⟨unsignedLong, ⟨100, 0⟩, false, false⟩ : IntCst host32)).Wf := by
    refine ⟨?_, by unfold IntCst.Valid; decide +kernel⟩
    change unsignedLong.precision ∈ [8, 16, 32, 64]
    decide
  have hread : signedChar.Value (-1) := by
    unfold IntType.Value
    decide +kernel
  refine (shortenRight_iff hop0 hop1 false .gtExpr hread trivial).2 fun _ => ?_
  unfold OrderKept
  decide +kernel

/-- A `signed char` that was made `unsigned`, which is 65535 for -1, is found to be different from `65535L`. -/
theorem shortenRight_fails : signedChar.Value (-1) ∧
    ¬ ShortenRight false .eqExpr (.tree (.nop unsignedInt (.leaf signedChar false false)))
      (.cst ⟨longInt, ⟨65535, 0⟩, false, false⟩) (-1) 0 := by
  constructor
  · unfold IntType.Value
    decide +kernel
  · unfold ShortenRight
    decide +kernel

end Main

end Z80Gcc.Shorten
