import Z80Gcc.Lib.Adder
import Z80Gcc.Proofs.QuotientDigits

/-! `add_double`, `neg_double` and `mul_double` compute sums, negatives and products of two-word
numbers. -/

namespace Z80Gcc

open Z80Gcc.Adder

namespace Host

variable (h : Host)

theorem bits_pos : 0 < h.bits := Nat.lt_of_lt_of_le (by decide) h.wide

section Multiply

/-- One turn of the outer loop adds a multiple of the second factor. -/
theorem mulRow_eq {a : Nat} (ha : a < h.base) {bs : List Nat} (hbs : ∀ b ∈ bs, b < h.base)
    {ps : List Nat} (hps : ∀ p ∈ ps, p < h.base) (hlen : ps.length = bs.length) (zs : List Nat)
    {carry : Nat} (hc : carry < h.base) :
    ∃ r, h.mulRow a bs (ps ++ 0 :: zs) carry = r ++ zs ∧ r.length = bs.length + 1 ∧
      (∀ x ∈ r, x < h.base) ∧
      Nat.ofDigits h.base r = Nat.ofDigits h.base ps + a * Nat.ofDigits h.base bs + carry := by
  induction bs generalizing ps carry with
  | nil =>
    obtain rfl := List.length_eq_zero_iff.1 hlen
    exact ⟨[carry], rfl, rfl, by simpa using hc, by simp⟩
  | cons b bs ih =>
    rcases ps with _ | ⟨p, ps⟩
    · simp at hlen
    have hb := hbs b List.mem_cons_self
    have hp := hps p List.mem_cons_self
    have hfit := h.digit_mul_le ha hb
    have hw : h.word (h.word (carry + h.word (a * b)) + p) = carry + a * b + p := by
      rw [h.word_of_lt (x := a * b) (by omega), h.word_of_lt (x := carry + a * b) (by omega),
        h.word_of_lt (by omega)]
    obtain ⟨r, hr, hrlen, hrlt, hval⟩ := ih (fun y hy => hbs y (List.mem_cons_of_mem b hy))
      (fun y hy => hps y (List.mem_cons_of_mem p hy)) (Nat.succ.inj hlen)
      (h.highpart_lt (x := carry + a * b + p) (by omega))
    refine ⟨h.lowpart (carry + a * b + p) :: r, ?_, by simp [hrlen], ?_, ?_⟩
    · rw [List.cons_append, mulRow, hw, hr]
      rfl
    · intro x hx
      rcases List.mem_cons.1 hx with rfl | hx
      · exact h.lowpart_lt _
      · exact hrlt x hx
    · have hsplit := h.digit_of_split (carry + a * b + p)
      rw [Nat.ofDigits_cons, Nat.ofDigits_cons, Nat.ofDigits_cons, hval]
      linear_combination hsplit

theorem mulRows_eq {as bs : List Nat} (has : ∀ a ∈ as, a < h.base) (hbs : ∀ b ∈ bs, b < h.base)
    {ps : List Nat} (hps : ∀ p ∈ ps, p < h.base) (hlen : ps.length = bs.length) :
    (h.mulRows as bs (ps ++ List.replicate as.length 0)).length = as.length + bs.length ∧
      (∀ x ∈ h.mulRows as bs (ps ++ List.replicate as.length 0), x < h.base) ∧
      Nat.ofDigits h.base (h.mulRows as bs (ps ++ List.replicate as.length 0)) =
        Nat.ofDigits h.base ps + Nat.ofDigits h.base as * Nat.ofDigits h.base bs := by
  induction as generalizing ps with
  | nil => simpa [mulRows, hlen] using hps
  | cons a as ih =>
    obtain ⟨r, hr, hrlen, hrlt, hval⟩ := h.mulRow_eq (has a List.mem_cons_self) hbs hps hlen
      (List.replicate as.length 0) h.base_pos
    rcases r with _ | ⟨p, r⟩
    · simp at hrlen
    obtain ⟨hlen', hlt', hval'⟩ := ih (fun y hy => has y (List.mem_cons_of_mem a hy))
      (fun y hy => hrlt y (List.mem_cons_of_mem p hy)) (Nat.succ.inj hrlen)
    rw [List.length_cons, List.replicate_succ, mulRows, hr, List.cons_append]
    refine ⟨by rw [List.length_cons, hlen']; omega, ?_, ?_⟩
    · intro x hx
      rcases List.mem_cons.1 hx with rfl | hx
      · exact hrlt x List.mem_cons_self
      · exact hlt' x hx
    · rw [Nat.ofDigits_cons] at hval
      rw [Nat.ofDigits_cons, Nat.ofDigits_cons, hval']
      linear_combination hval

end Multiply

end Host

namespace DoubleInt

variable {h : Host}

theorem bv_toNat (x : DoubleInt h) : x.bv.toNat = x.toNat := by
  rw [bv, toNat_append, Nat.mul_comm]
  rfl

theorem toNat_div (x : DoubleInt h) : x.toNat / 2 ^ h.bits = x.high.toNat := by
  rw [toNat, Nat.mul_comm, Nat.mul_add_div (Nat.two_pow_pos _), Nat.div_eq_of_lt x.low.isLt,
    Nat.add_zero]

theorem toNat_mod (x : DoubleInt h) : x.toNat % 2 ^ h.bits = x.low.toNat := by
  rw [toNat, Nat.mul_comm, Nat.mul_add_mod, Nat.mod_eq_of_lt x.low.isLt]

theorem bv_inj {x y : DoubleInt h} : x.bv = y.bv ↔ x = y := by
  refine ⟨fun heq => ?_, fun heq => heq ▸ rfl⟩
  have hnat := congrArg BitVec.toNat heq
  rw [bv_toNat, bv_toNat] at hnat
  ext1
  · apply BitVec.eq_of_toNat_eq
    rw [← toNat_mod, hnat, toNat_mod]
  · apply BitVec.eq_of_toNat_eq
    rw [← toNat_div, hnat, toNat_div]

theorem bv_mk (high low : BitVec h.bits) : bv ⟨low, high⟩ = high ++ low := rfl

theorem bv_eq_zero_iff (x : DoubleInt h) : x.bv = 0 ↔ x.high = 0 ∧ x.low = 0 := by
  have hzero : (⟨0, 0⟩ : DoubleInt h).bv = 0 := by
    rw [bv_mk]
    simp
  rw [← hzero, bv_inj, DoubleInt.ext_iff, and_comm]

theorem bv_neg_one : (⟨-1, -1⟩ : DoubleInt h).bv = -1 := by
  rw [bv_mk, show (-1 : BitVec h.bits) = BitVec.allOnes h.bits from BitVec.neg_one_eq_allOnes,
    show (-1 : BitVec (h.bits + h.bits)) = BitVec.allOnes _ from BitVec.neg_one_eq_allOnes]
  apply BitVec.eq_of_getLsbD_eq
  intro i hi
  rw [BitVec.getLsbD_append, BitVec.getLsbD_allOnes, BitVec.getLsbD_allOnes, BitVec.getLsbD_allOnes]
  by_cases hlt : i < h.bits
  · simp [hlt, hi]
  · simp [hlt, hi, show i - h.bits < h.bits by omega]

theorem bv_one : (⟨1, 0⟩ : DoubleInt h).bv = 1 := by
  have hone : (1 : BitVec h.bits).toNat = 1 := BitVec.toNat_one h.bits_pos
  apply BitVec.eq_of_toNat_eq
  rw [bv_toNat, toNat, hone]
  have := BitVec.toNat_one (show 0 < h.bits + h.bits by have := h.bits_pos; omega)
  simpa using this.symm

theorem bv_eq_neg_one_iff (x : DoubleInt h) : x.bv = -1 ↔ x.low &&& x.high = -1 := by
  rw [← bv_neg_one, bv_inj, DoubleInt.ext_iff]
  rw [show (-1 : BitVec h.bits) = BitVec.allOnes h.bits from BitVec.neg_one_eq_allOnes,
    BitVec.and_eq_allOnes_iff]

/-- The sign of the two words is the sign of the upper one. -/
theorem msb_bv (x : DoubleInt h) : x.bv.msb = x.high.msb := by
  rw [bv, BitVec.msb_append]
  have := h.bits_pos
  simp [show h.bits ≠ 0 by omega]

section Arith

theorem add_ult_left {w : Nat} (x y : BitVec w) : (x + y).ult x = (adcFlags x y false).c := by
  have hx := x.isLt
  have hy := y.isLt
  simp only [BitVec.ult, adcFlags, BitVec.toNat_add, Bool.toNat_false, Nat.add_zero,
    decide_eq_decide]
  rcases Nat.lt_or_ge (x.toNat + y.toNat) (2 ^ w) with hlt | hge
  · rw [Nat.mod_eq_of_lt hlt]
    omega
  · rw [Nat.mod_eq_sub_mod hge, Nat.mod_eq_of_lt (by omega)]
    omega

theorem bv_addDouble (x y : DoubleInt h) : (x.addDouble y).1.bv = x.bv + y.bv := by
  rw [bv, bv, bv, ← adc_append _ _ _ _ h.bits_pos, ← add_ult_left]
  rfl

theorem bv_negDouble (x : DoubleInt h) : x.negDouble.1.bv = -x.bv := by
  have hsub : -x.bv = sbc 0 x.high ((0 : BitVec h.bits).ult x.low) ++ (0 - x.low) := by
    rw [← sbcFlags_c, sbc_append _ _ _ _ h.bits_pos, bv]
    simp
  rw [hsub, negDouble]
  split
  · next hlow =>
    have hult : (0 : BitVec h.bits).ult 0 = false := by
      rw [BitVec.ult, decide_eq_false_iff_not]
      omega
    rw [hlow, hult]
    simp [bv, sbc]
  · next hlow =>
    have hult : (0 : BitVec h.bits).ult x.low = true := by
      rw [BitVec.ult, decide_eq_true_eq]
      exact Nat.pos_of_ne_zero fun h0 => hlow (BitVec.eq_of_toNat_eq h0)
    rw [hult]
    simp [bv, sbc, BitVec.neg_eq_not_add]

/-- The two loops of `mul_double` leave the eight digits of the product. -/
theorem mulRows_digits (x y : DoubleInt h) :
    (h.mulRows x.digits y.digits (List.replicate 8 0)).length = 8 ∧
      (∀ d ∈ h.mulRows x.digits y.digits (List.replicate 8 0), d < h.base) ∧
      Nat.ofDigits h.base (h.mulRows x.digits y.digits (List.replicate 8 0)) =
        x.toNat * y.toNat := by
  have hzeros : ∀ p ∈ List.replicate 4 0, p < h.base := by
    intro p hp
    rw [List.eq_of_mem_replicate hp]
    exact h.base_pos
  obtain ⟨hlen, hlt, hval⟩ := h.mulRows_eq x.digits_lt y.digits_lt hzeros rfl
  rw [show List.replicate 4 0 ++ List.replicate x.digits.length 0 = List.replicate 8 0 from rfl]
    at hlen hlt hval
  rw [ofDigits_digits, ofDigits_digits, Nat.ofDigits_replicate_zero, Nat.zero_add] at hval
  exact ⟨hlen, hlt, hval⟩

theorem base_pow_four (h : Host) : h.base ^ 4 = 2 ^ (h.bits + h.bits) := by
  rw [Nat.pow_add, ← h.base_sq]
  ring

theorem bv_mulDouble (x y : DoubleInt h) : (x.mulDouble y).1.bv = x.bv * y.bv := by
  obtain ⟨hlen, hlt, hval⟩ := mulRows_digits x y
  apply BitVec.eq_of_toNat_eq
  rw [bv_toNat, BitVec.toNat_mul, bv_toNat, bv_toNat, ← base_pow_four, ← hval]
  exact toNat_ofDigits_mod (by rw [hlen]; exact Nat.le_add_right 4 4) hlt

end Arith

end DoubleInt

end Z80Gcc
