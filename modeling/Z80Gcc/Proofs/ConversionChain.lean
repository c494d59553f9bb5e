import Z80Gcc.Spec.ConversionChain

/-! A folded conversion has the value of the conversion: each rule for two conversions in a row keeps it. -/

namespace Z80Gcc.Conversion

open WrapInt DoubleInt

variable {h : Host}

section Extend

variable {inside inter final : IntegerType} {v : Int}

/-- What a conversion to fewer bits keeps does not depend on the others. -/
theorem extend_extend_of_le (hle : final.precision ≤ inter.precision) : final.extend (inter.extend v) = final.extend v :=
  wrap_eq_of_dvd ((pow_dvd_pow 2 hle).trans dvd_wrap_sub)

/-- A wider type of the same signedness has all the values. -/
theorem extend_eq_self_of_le (hv : inside.extend v = v) (huns : inter.unsignedp = inside.unsignedp)
    (hle : inside.precision ≤ inter.precision) : inter.extend v = v := by
  unfold IntegerType.extend at hv ⊢
  rw [huns]
  exact wrap_eq_self_mono hle hv

/-- A wider signed type has all the values of an unsigned one. -/
theorem extend_eq_self_of_lt (hv : inside.extend v = v) (hinside : inside.unsignedp = true) (hinter : inter.unsignedp = false)
    (hlt : inside.precision < inter.precision) : inter.extend v = v := by
  unfold IntegerType.extend at hv ⊢
  rw [hinside, wrap_true] at hv
  rw [hinter, wrap_false]
  exact bmod_eq_self_of_emod hlt hv

theorem neitherNeeded_right (hrule : neitherNeeded inside inter final = true) (hv : inside.extend v = v) :
    final.extend (inter.extend v) = v := by
  unfold neitherNeeded at hrule
  rw [Bool.and_eq_true, decide_eq_true_iff, decide_eq_true_iff] at hrule
  obtain ⟨rfl, hle⟩ := hrule
  rw [extend_extend_of_le hle, hv]

theorem widensFirst_right (hrule : widensFirst inside inter final = true) (hv : inside.extend v = v) :
    inter.extend v = v := by
  unfold widensFirst at hrule
  rw [Bool.and_eq_true, Bool.and_eq_true, decide_eq_true_iff, beq_iff_eq] at hrule
  obtain ⟨⟨hle, huns⟩, -⟩ := hrule
  exact extend_eq_self_of_le hv huns hle

theorem zeroExtendsFirst_right (hrule : zeroExtendsFirst inside inter final = true) (hv : inside.extend v = v) :
    inter.extend v = v := by
  unfold zeroExtendsFirst at hrule
  rw [Bool.and_eq_true, Bool.and_eq_true, Bool.and_eq_true, decide_eq_true_iff, Bool.not_eq_true'] at hrule
  obtain ⟨⟨hlt, -⟩, hinside, hinter⟩ := hrule
  exact extend_eq_self_of_lt hv hinside hinter hlt

/-- Either the last conversion is to no more bits than the one between, or that one only adds bits, in the sense of the
first type. -/
theorem notBothNeeded_right (hrule : notBothNeeded inside inter final = true) (hv : inside.extend v = v) :
    final.extend (inter.extend v) = final.extend v := by
  unfold notBothNeeded at hrule
  rw [Bool.and_eq_true, Bool.and_eq_true, Bool.and_eq_true, Bool.or_eq_true, decide_eq_true_iff, decide_eq_true_iff,
    Bool.not_eq_true', Bool.and_eq_false_iff, bne_eq_false_iff_eq, decide_eq_false_iff_not] at hrule
  obtain ⟨⟨⟨hwider, hsign⟩, -⟩, -⟩ := hrule
  obtain hle | hlt := le_or_gt final.precision inter.precision
  · exact extend_extend_of_le hle
  · have huns := hsign.resolve_right (not_not_intro hlt)
    have hgt : inside.precision < inter.precision := hwider.resolve_right (by omega)
    rw [extend_eq_self_of_le hv huns hgt.le]

end Extend

namespace Tree

theorem extend_value (x : Tree h) : x.type.extend x.value = x.value := by
  induction x with
  | integerCst c => exact c.valid
  | other type v => exact wrap_wrap
  | nonLvalue x ih => exact ih
  | conversion code type x ih => exact wrap_wrap

/-- A conversion to the type that an expression has does nothing. -/
theorem value_stripTypeNops (x : Tree h) : x.stripTypeNops.value = x.value := by
  induction x with
  | integerCst c => rfl
  | other type v => rfl
  | nonLvalue x ih => exact ih
  | conversion code type x ih =>
    unfold stripTypeNops
    by_cases htype : type = x.type
    · rw [if_pos htype, ih]
      change x.value = type.extend x.value
      rw [htype, extend_value]
    · rw [if_neg htype]

end Tree

section Fold

theorem foldConvert_value (t : Tree h) (type : IntegerType) (c : IntegerCst h)
    (ht : t.value = type.extend (c.words.value c.type.unsignedp)) :
    (foldConvert t type c).value = type.extend (c.words.value c.type.unsignedp) := by
  unfold foldConvert
  split_ifs with hfit
  · -- the words stand for the value of the constant, in either sense
    have hwords := (ofInt_value c.type.unsignedp c.words).symm
    exact value_forceFit (type.toIntType hfit) hwords _
  · exact ht

theorem foldConstant_value (code : ConversionCode) (final : IntegerType) (arg0 : Tree h) :
    (foldConstant code final arg0).value = final.extend arg0.value := by
  have hstrip := arg0.value_stripTypeNops
  unfold foldConstant
  cases hstripped : arg0.stripTypeNops with
  | integerCst c =>
    rw [hstripped] at hstrip
    change c.words.value c.type.unsignedp = arg0.value at hstrip
    have ht : (Tree.conversion code final arg0).value = final.extend (c.words.value c.type.unsignedp) := by
      rw [hstrip]
      rfl
    exact (foldConvert_value _ final c ht).trans (by rw [hstrip])
  | other _ _ => rfl
  | nonLvalue _ => rfl
  | conversion _ _ _ => rfl

theorem fold_value (code : ConversionCode) (final : IntegerType) (arg0 : Tree h) :
    (fold code final arg0).value = final.extend arg0.value := by
  induction arg0 generalizing code with
  | integerCst c =>
    unfold fold
    split_ifs with htype
    · exact htype ▸ (Tree.extend_value _).symm
    · exact foldConstant_value code final _
  | other type v =>
    unfold fold
    split_ifs with htype
    · exact htype ▸ (Tree.extend_value _).symm
    · exact foldConstant_value code final _
  | nonLvalue x ih =>
    unfold fold
    split_ifs with htype
    · exact htype ▸ (Tree.extend_value _).symm
    · exact foldConstant_value code final _
  | conversion code' inter x ih =>
    have hv := x.extend_value
    have hchain : (Tree.conversion code' inter x).value = inter.extend x.value := rfl
    unfold fold
    by_cases htype : (Tree.conversion code' inter x).type = final
    · rw [if_pos htype]
      exact htype ▸ (Tree.extend_value _).symm
    rw [if_neg htype]
    dsimp only
    split_ifs with hneither hwidens hzero hboth
    · rw [hchain, neitherNeeded_right hneither hv]
    · rw [ih, hchain, widensFirst_right hwidens hv]
    · rw [ih, hchain, zeroExtendsFirst_right hzero hv]
    · rw [ih, hchain, notBothNeeded_right hboth hv]
    · exact foldConstant_value code final _

/-- Two conversions in a row, whichever of them are kept. -/
theorem fold_chain (code code' : ConversionCode) (inter final : IntegerType) (x : Tree h) :
    (fold code final (.conversion code' inter x)).value = final.extend (inter.extend x.value) := by
  rw [fold_value]
  rfl

end Fold

end Z80Gcc.Conversion
