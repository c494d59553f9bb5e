import Z80Gcc.Lib.StickyBit
import Z80Gcc.Proofs.ETypeArith

/-! `eadd1` stores the sum of two finite numbers, rounded, but where it loses the last bit to a carry. -/

namespace Z80Gcc.Emulator

open WordList BinaryFloat

section Parts

/-- A finite number that has been moved in. -/
structure MovedIn (a : Exploded) (neg : Bool) (exp sig : Nat) : Prop where
  sign_eq : a.sign = if neg then 0xffff else 0
  exp_eq : a.exp.toNat = exp
  sig_eq : sigValue a.sig = sig * 2 ^ 16
  exp_lt : exp < 0x7fff
  sig_lt : sig < 2 ^ 80
  normal : exp ≠ 0 → 2 ^ 79 ≤ sig

variable {a b : Exploded} {s t : Bool} {e m f n : Nat}

theorem blank_iff (a : Exploded) : blank a = true ↔ a.exp.toNat = 0 ∧ sigValue a.sig / 2 ^ 16 = 0 := by
  obtain ⟨w, mid, l, hlist, hmid, hvalue⟩ := sig_words a.sig
  have hl := l.isLt
  have hzero : value (a.sig.toList.dropLast) = sigValue a.sig / 2 ^ 16 := by
    rw [hlist, ← List.cons_append, List.dropLast_concat, value_cons, hmid, ← Nat.pow_mul]
    omega
  unfold blank
  rw [Bool.and_eq_true, decide_eq_true_iff, ← BitVec.toNat_inj, ← hzero, value_eq_zero_iff, List.all_eq_true]
  simp

theorem movedIn_emovi {x : EType} (hx : x.WellFormed) (hfin : x.exponent ≠ 0x7fff) :
    MovedIn (emovi x) (eisneg x) x.exponent x.significand := by
  have hparts := explodes_emovi hfin
  have hlt := exponent_lt x
  refine ⟨?_, hparts.exp, hparts.sig, by omega, significand_lt x, ?_⟩
  · have hnan : ¬ (x.top &&& 0x7fff = 0x7fff ∧ ¬ eisnan x = true) := fun h =>
      hfin ((exponent_eq_iff x 0x7fff (by decide)).1 h.1)
    unfold emovi eisneg
    dsimp only
    rw [if_neg hnan]
    exact if_congr decide_eq_true_iff.symm rfl rfl
  · unfold EType.WellFormed at hx
    rwa [if_neg hfin] at hx

theorem MovedIn.sign_ne_zero (h : MovedIn a s e m) : decide (a.sign ≠ 0) = s := by
  rw [h.sign_eq]
  cases s <;> decide

theorem MovedIn.sign_eq_iff (ha : MovedIn a s e m) (hb : MovedIn b t f n) : a.sign = b.sign ↔ s = t := by
  rw [ha.sign_eq, hb.sign_eq]
  cases s <;> cases t <;> decide

theorem MovedIn.complement (h : MovedIn a s e m) : MovedIn { a with sign := ~~~a.sign } (!s) e m := by
  refine ⟨?_, h.exp_eq, h.sig_eq, h.exp_lt, h.sig_lt, h.normal⟩
  dsimp only
  rw [h.sign_eq]
  cases s <;> rfl

theorem MovedIn.emovz (h : MovedIn a s e m) : emovz a = a := by
  refine emovz_eq ?_
  rw [h.sig_eq, Nat.mul_mod_left]

theorem MovedIn.emovo (h : MovedIn a s e m) : emovo a = encode s e m := by
  have hexp := h.exp_eq
  have hlt := h.exp_lt
  rw [emovo_encode (m := m) (by omega) (by rw [h.sig_eq]; exact Nat.mul_div_left m (by decide)) h.sig_lt, h.sign_ne_zero, hexp]

end Parts

section Sums

/-- The sum of two numbers of smallest denormals, rounded. -/
def sumOf (s : Bool) (m : Nat) (t : Bool) (n : Nat) : EType :=
  if s = t then ofBits s (roundMagnitude 79 (m + n) 1)
  else if n < m then ofBits s (roundMagnitude 79 (m - n) 1)
  else if m < n then ofBits t (roundMagnitude 79 (n - m) 1)
  else ofBits false 0

variable {s t : Bool} {m n : Nat}

theorem sumOf_comm (s t : Bool) (m n : Nat) : sumOf s m t n = sumOf t n s m := by
  unfold sumOf
  by_cases hst : s = t
  · subst hst
    rw [if_pos rfl, if_pos rfl, Nat.add_comm]
  · rw [if_neg hst, if_neg (Ne.symm hst)]
    by_cases hlt : n < m
    · rw [if_pos hlt, if_neg (by omega), if_pos hlt]
    · rw [if_neg hlt]
      by_cases hgt : m < n
      · rw [if_pos hgt, if_pos hgt]
      · rw [if_neg hgt, if_neg hgt, if_neg hlt]

theorem unitsInOne_eq {n : Nat} (hn : exone.toNat + 79 = n) : unitsInOne = 2 ^ n := by
  rw [← hn]
  rfl

theorem roundMagnitude_units {k : Nat} (hk : 0 < k) : roundMagnitude 79 (m * k * k) (k * k) = roundMagnitude 79 m 1 := by
  have hscale := roundMagnitude_scale (t := 79) (n := m) (d := 1) (k := k * k) Nat.one_pos (Nat.mul_pos hk hk)
  rwa [← Nat.mul_assoc, Nat.one_mul] at hscale

theorem stores_add (x : EType) :
    Stores x ((Number.finite s m unitsInOne).add (.finite t n unitsInOne)) ↔ x = sumOf s m t n := by
  have hU : 0 < unitsInOne := Nat.two_pow_pos _
  have hmul (a b : Nat) : b * unitsInOne < a * unitsInOne ↔ b < a := Nat.mul_lt_mul_right hU
  have hzero : roundMagnitude 79 (0 * unitsInOne) (unitsInOne * unitsInOne) = 0 := by
    refine roundMagnitude_of_small ?_
    rw [Nat.zero_mul]
    exact Nat.mul_pos hU hU
  unfold Number.add sumOf
  dsimp only
  simp only [hmul, ← Nat.add_mul, ← Nat.sub_mul]
  by_cases hst : s = t
  · rw [if_pos hst, if_pos hst]
    unfold Stores
    dsimp only
    rw [roundMagnitude_units hU]
  · rw [if_neg hst, if_neg hst]
    by_cases hlt : n < m
    · rw [if_pos hlt, if_pos hlt]
      unfold Stores
      dsimp only
      rw [roundMagnitude_units hU]
    · rw [if_neg hlt, if_neg hlt]
      by_cases hgt : m < n
      · rw [if_pos hgt, if_pos hgt]
        unfold Stores
        dsimp only
        rw [roundMagnitude_units hU]
      · rw [if_neg hgt, if_neg hgt]
        unfold Stores
        dsimp only
        rw [hzero]

end Sums

section Align

variable {es S eb B k : Nat}

/-- The smaller number in units of the larger one: the quotient is in the register, the rest has been lost. -/
theorem aligned (he : es + k = eb) :
    S * 2 ^ es * 2 ^ 16 = S * 2 ^ 16 / 2 ^ k * (1 * 2 ^ eb) + S * 2 ^ 16 % 2 ^ k * 2 ^ es ∧
      S * 2 ^ 16 % 2 ^ k * 2 ^ es < 1 * 2 ^ eb := by
  have hsplit := Nat.div_add_mod (S * 2 ^ 16) (2 ^ k)
  have hmod := Nat.mod_lt (S * 2 ^ 16) (Nat.two_pow_pos k)
  have hpow : 1 * 2 ^ eb = 2 ^ k * 2 ^ es := by rw [Nat.one_mul, ← he, Nat.pow_add, Nat.mul_comm]
  rw [hpow]
  refine ⟨?_, Nat.mul_lt_mul_of_pos_right hmod (Nat.two_pow_pos es)⟩
  calc S * 2 ^ es * 2 ^ 16 = S * 2 ^ 16 * 2 ^ es := by ring
    _ = (2 ^ k * (S * 2 ^ 16 / 2 ^ k) + S * 2 ^ 16 % 2 ^ k) * 2 ^ es := by rw [hsplit]
    _ = _ := by ring

theorem covers_sum (he : es + k = eb) :
    Covers (S * 2 ^ 16 / 2 ^ k + B * 2 ^ 16) (S * 2 ^ 16 % 2 ^ k ≠ 0) false ((S * 2 ^ es + B * 2 ^ eb) * 2 ^ 16)
      (1 * 2 ^ eb) 0 := by
  obtain ⟨hsmall, hrest⟩ := aligned (S := S) he
  have hbig : B * 2 ^ eb * 2 ^ 16 = B * 2 ^ 16 * (1 * 2 ^ eb) := by ring
  refine ⟨one_dvd _, ?_⟩
  rw [Nat.add_mul, hsmall, hbig, Nat.add_mul]
  by_cases hlost : S * 2 ^ 16 % 2 ^ k = 0
  · rw [decide_eq_false (not_not_intro hlost), if_neg Bool.false_ne_true, hlost]
    omega
  · have hpos : 0 < S * 2 ^ 16 % 2 ^ k * 2 ^ es := Nat.mul_pos (Nat.pos_of_ne_zero hlost) (Nat.two_pow_pos es)
    rw [decide_eq_true hlost, if_pos rfl, if_neg Bool.false_ne_true]
    omega

theorem covers_difference (he : es + k = eb) (hle : S * 2 ^ 16 / 2 ^ k < B * 2 ^ 16) :
    Covers (B * 2 ^ 16 - S * 2 ^ 16 / 2 ^ k) (S * 2 ^ 16 % 2 ^ k ≠ 0) true ((B * 2 ^ eb - S * 2 ^ es) * 2 ^ 16)
      (1 * 2 ^ eb) 0 := by
  obtain ⟨hsmall, hrest⟩ := aligned (S := S) he
  have hbig : B * 2 ^ eb * 2 ^ 16 = B * 2 ^ 16 * (1 * 2 ^ eb) := by ring
  have hmul : (S * 2 ^ 16 / 2 ^ k + 1) * (1 * 2 ^ eb) ≤ B * 2 ^ 16 * (1 * 2 ^ eb) := Nat.mul_le_mul_right _ hle
  rw [Nat.succ_mul] at hmul
  refine ⟨one_dvd _, ?_⟩
  rw [Nat.sub_mul, hsmall, hbig, Nat.sub_mul]
  by_cases hlost : S * 2 ^ 16 % 2 ^ k = 0
  · rw [decide_eq_false (not_not_intro hlost), if_neg Bool.false_ne_true, hlost]
    omega
  · have hpos : 0 < S * 2 ^ 16 % 2 ^ k * 2 ^ es := Nat.mul_pos (Nat.pos_of_ne_zero hlost) (Nat.two_pow_pos es)
    rw [decide_eq_true hlost, if_pos rfl, if_pos rfl]
    omega

end Align

section Ordered

def addOrdered (c : RoundControl) (small big : Exploded) (lt : Int) : EType × RoundControl :=
  if lt ≠ 0 then
    if lt < -nbits - 1 then (emovo big, c)
    else
      let (lost, sig) := eshift small.sig lt
      addSigs c lost { small with sig := sig } big
  else
    let i := ecmpm small.sig big.sig
    if i = 0 then if small.sign ≠ big.sign then (eclear, c) else (double big, c)
    else if 0 < i then addSigs c false (emovz big) (emovz small)
    else addSigs c false small big

def LosesBit (es S eb B : Nat) : Prop :=
  es + 16 ≤ eb ∧ eb + 1 < 0x7fff ∧ S % 2 ^ (eb - es) = 2 ^ (eb - es - 16) ∧ 2 ^ 80 ≤ B + S / 2 ^ (eb - es) ∧
    (B + S / 2 ^ (eb - es)) % 4 = 1

variable {c : RoundControl} {a b : Exploded} {lost s t : Bool} {es S eb B k n : Nat}

theorem addSigs_same (hc : c.rndprc = .nbits) (hb : MovedIn b t eb B) (hsign : a.sign = b.sign)
    (h : Covers (sigValue a.sig + sigValue b.sig) lost false (n * 2 ^ 16) (1 * 2 ^ eb) 0)
    (hlow : 2 ^ 15 ≤ sigValue a.sig + sigValue b.sig) (hhigh : sigValue a.sig + sigValue b.sig < 2 ^ 97)
    (hlost : lost = true → 2 ^ 94 ≤ sigValue a.sig + sigValue b.sig) :
    (addSigs c lost a b).1 = ofBits t (roundMagnitude 79 n 1) ↔
      ¬ (2 ^ 96 ≤ sigValue a.sig + sigValue b.sig ∧ lost = false ∧
        (sigValue a.sig + sigValue b.sig) % 2 ^ 18 = 2 ^ 16 + 1 ∧ eb + 1 < 0x7fff) := by
  have hsum : sigValue (eaddm a.sig b.sig) = sigValue a.sig + sigValue b.sig := by
    rw [eaddm_value]
    exact Nat.mod_eq_of_lt (by omega)
  have hneg := hb.sign_ne_zero
  unfold addSigs
  rw [if_pos hsign, hb.exp_eq]
  rw [← hsum] at h hlow hhigh hlost ⊢
  by_cases hcarry : 2 ^ 96 ≤ sigValue (eaddm a.sig b.sig)
  · have hright := carry_right_iff (s := { b with sig := eaddm a.sig b.sig }) hc Nat.one_pos h hcarry hhigh
    dsimp only at hright ⊢
    rw [hneg] at hright
    rw [hright, and_iff_right hcarry]
  · have hright := @emdnorm_number _ _ _ 0 _ _ _ { b with sig := eaddm a.sig b.sig } eb hc (Int.sub_zero _).symm
      Nat.one_pos h hlow (Nat.lt_of_not_le hcarry) hlost (fun hflag => absurd hflag Bool.false_ne_true)
    dsimp only at hright ⊢
    rw [hneg] at hright
    exact iff_of_true hright fun hbad => hcarry hbad.1

theorem addSigs_different (hc : c.rndprc = .nbits) (hb : MovedIn b t eb B) (hsign : ¬ a.sign = b.sign)
    (hle : sigValue a.sig ≤ sigValue b.sig)
    (h : Covers (sigValue b.sig - sigValue a.sig) lost true (n * 2 ^ 16) (1 * 2 ^ eb) 0)
    (hlow : 2 ^ 15 ≤ sigValue b.sig - sigValue a.sig) (hhigh : sigValue b.sig < 2 ^ 96)
    (hlost : lost = true → 2 ^ 94 ≤ sigValue b.sig - sigValue a.sig) :
    (addSigs c lost a b).1 = ofBits t (roundMagnitude 79 n 1) := by
  have hdiff := esubm_value a.sig b.sig hle
  have hneg := hb.sign_ne_zero
  unfold addSigs
  rw [if_neg hsign, hb.exp_eq]
  rw [← hdiff] at h hlow hlost
  have hright := @emdnorm_number _ _ _ 0 _ _ _ { b with sig := esubm a.sig b.sig } eb hc (Int.sub_zero _).symm
    Nat.one_pos h hlow (by rw [hdiff]; omega) hlost (fun _ => by omega)
  dsimp only at hright ⊢
  rw [hneg] at hright
  exact hright

/-- A number that is so much smaller that it is not looked at. -/
theorem emovo_far (hb : MovedIn b t eb B) (hfar : es + 82 ≤ eb) (hS : S < 2 ^ 80) :
    emovo b = sumOf s (S * 2 ^ es) t (B * 2 ^ eb) := by
  obtain ⟨k, hk⟩ : ∃ k, eb = es + 82 + k := ⟨eb - (es + 82), by omega⟩
  have hB := hb.normal (by omega)
  have hB80 := hb.sig_lt
  have hpow : 1 * 2 ^ eb = 2 ^ k * (2 ^ 82 * 2 ^ es) := by
    rw [hk, Nat.pow_add, Nat.pow_add]
    ring
  have hpos : 0 < 2 ^ es := Nat.two_pow_pos es
  have hunit : 2 ^ 82 * 2 ^ es ≤ 1 * 2 ^ eb := by
    rw [hpow]
    exact Nat.le_mul_of_pos_left _ (Nat.two_pow_pos k)
  have hsmall : S * 2 ^ es < 2 ^ 80 * 2 ^ es := Nat.mul_lt_mul_of_pos_right hS hpos
  have hbig : 2 ^ 79 * (1 * 2 ^ eb) ≤ B * (1 * 2 ^ eb) := Nat.mul_le_mul_right _ hB
  have hone : B * 2 ^ eb = B * (1 * 2 ^ eb) := by rw [Nat.one_mul]
  have henc : ofBits t (eb * 2 ^ 79 + B) = encode t eb B := ofBits_encode hb.exp_lt hB80 fun _ => hB
  have hsum := StickyBit.roundMagnitude_of_close (t := 79) (n := S * 2 ^ es + B * 2 ^ eb) (d := 1) (e := eb) Nat.one_pos hB
    hB80 (by omega) (by omega)
  have hdiff := StickyBit.roundMagnitude_of_close (t := 79) (n := B * 2 ^ eb - S * 2 ^ es) (d := 1) (e := eb) Nat.one_pos hB
    hB80 (by omega) (by omega)
  unfold sumOf
  rw [hb.emovo, hsum, hdiff, henc]
  by_cases hst : s = t
  · rw [if_pos hst, hst, henc]
  · rw [if_neg hst, if_neg (by omega), if_pos (by omega)]

theorem double_right (hb : MovedIn b t eb B) :
    double b = ofBits t (roundMagnitude 79 (B * 2 ^ eb + B * 2 ^ eb) 1) := by
  have hexp := hb.exp_eq
  have hsig := hb.sig_eq
  have hlt := hb.exp_lt
  have hB := hb.sig_lt
  have hzero : b.exp = 0 ↔ eb = 0 := by
    rw [← BitVec.toNat_inj, hexp]
    rfl
  have htop : word b.sig 3 &&& 0x8000 = 0 ↔ B < 2 ^ 79 := by
    rw [and_top_eq_zero_iff, toNat_word_three (by omega), hsig]
    omega
  have hblank : B ≠ 0 → blank b = false := by
    intro hne
    rw [Bool.eq_false_iff, Ne, blank_iff, hsig]
    omega
  unfold double
  by_cases htiny : b.exp = 0 ∧ word b.sig 3 &&& 0x8000 = 0
  · rw [if_pos htiny]
    rw [hzero, htop] at htiny
    obtain ⟨rfl, hsmall⟩ := htiny
    have hexact := @roundMagnitude_exact 0 (B + B) (by omega) (fun h => absurd rfl h) 1 Nat.one_pos
    have hbits : ofBits t (0 * 2 ^ 79 + (B + B)) = encode t 0 (B + B) := ofBits_encode (by decide) (by omega) (fun h => absurd rfl h)
    rw [Nat.mul_one, Nat.pow_zero, Nat.mul_one] at hexact
    rw [Nat.pow_zero, Nat.mul_one, hexact, hbits]
    have hshift := eshup1_value b.sig
    refine (emovo_encode (m := B + B) ?_ ?_ (by omega)).trans ?_
    · dsimp only
      omega
    · dsimp only
      omega
    · dsimp only
      rw [hb.sign_ne_zero, hexp]
  · rw [if_neg htiny]
    have hnormal : 2 ^ 79 ≤ B := by
      by_cases he : eb = 0
      · by_contra hsmall
        exact htiny ⟨hzero.2 he, htop.2 (by omega)⟩
      · exact hb.normal he
    have hexact := @roundMagnitude_exact (eb + 1) B hB (fun _ => hnormal) 1 Nat.one_pos
    have htwice : B * 2 ^ eb + B * 2 ^ eb = B * 2 ^ (eb + 1) * 1 := by ring
    rw [hblank (by omega), if_neg Bool.false_ne_true, hexp, htwice, hexact]
    by_cases hinf : 0x7fff ≤ eb + 1
    · rw [if_pos hinf, ofBits_infinity (by omega)]
      have hneg := hb.sign_ne_zero
      cases t with
      | true =>
        rw [if_pos (of_decide_eq_true hneg)]
        decide
      | false =>
        rw [if_neg (of_decide_eq_false hneg)]
        decide
    · have hsucc : (b.exp + 1).toNat = eb + 1 := by
        rw [BitVec.toNat_add, hexp]
        exact Nat.mod_eq_of_lt (by change eb + 1 < _; omega)
      rw [if_neg hinf, ofBits_encode (by omega) hB (fun _ => hnormal)]
      refine (emovo_encode (m := B) ?_ ?_ hB).trans ?_
      · dsimp only
        omega
      · dsimp only
        omega
      · dsimp only
        rw [hb.sign_ne_zero, hsucc]

/-- Numbers with the same exponent: nothing is shifted, and a carry loses a zero. -/
theorem addSigs_aligned (hc : c.rndprc = .nbits) (ha : MovedIn a s eb S) (hb : MovedIn b t eb B) (hlt : S < B) :
    (addSigs c false a b).1 = sumOf s (S * 2 ^ eb) t (B * 2 ^ eb) := by
  have hS := ha.sig_eq
  have hB := hb.sig_eq
  have hB80 := hb.sig_lt
  have hmul : S * 2 ^ eb < B * 2 ^ eb := Nat.mul_lt_mul_of_pos_right hlt (Nat.two_pow_pos eb)
  have hzero (x : Nat) : x / 2 ^ 0 = x ∧ x % 2 ^ 0 = 0 := ⟨Nat.div_one x, Nat.mod_one x⟩
  obtain ⟨hquot, hrest⟩ := hzero (S * 2 ^ 16)
  unfold sumOf
  by_cases hst : s = t
  · have hcov := covers_sum (S := S) (B := B) (Nat.add_zero eb)
    rw [hquot, hrest, ← hS, ← hB] at hcov
    rw [if_pos hst, hst]
    refine (addSigs_same hc hb ((ha.sign_eq_iff hb).2 hst) hcov (by omega) (by omega) (fun h => absurd h (by decide))).2 ?_
    rintro ⟨-, -, hmod, -⟩
    omega
  · have hcov := covers_difference (S := S) (B := B) (Nat.add_zero eb) (by rw [hquot]; omega)
    rw [hquot, hrest, ← hS, ← hB] at hcov
    rw [if_neg hst, if_neg (by omega), if_pos hmul]
    exact addSigs_different hc hb (mt (ha.sign_eq_iff hb).1 hst) (by omega) hcov (by omega) (by omega)
      (fun h => absurd h (by decide))

theorem addOrdered_equal (hc : c.rndprc = .nbits) (ha : MovedIn a s eb S) (hb : MovedIn b t eb B) :
    (addOrdered c a b 0).1 = sumOf s (S * 2 ^ eb) t (B * 2 ^ eb) := by
  have hsign := ha.sign_eq_iff hb
  have hcmp := ecmpm_cases a.sig b.sig
  rw [ha.sig_eq, hb.sig_eq] at hcmp
  unfold addOrdered
  rw [if_neg (not_not_intro rfl)]
  dsimp only
  obtain ⟨hcmp, hlt⟩ | ⟨hcmp, heq⟩ | ⟨hcmp, hlt⟩ := hcmp
  · rw [hcmp, if_neg (by decide), if_pos (by decide), ha.emovz, hb.emovz, sumOf_comm]
    exact addSigs_aligned hc hb ha (by omega)
  · obtain rfl : S = B := by omega
    have hself := lt_irrefl (S * 2 ^ eb)
    rw [hcmp, if_pos rfl]
    unfold sumOf
    by_cases hst : s = t
    · rw [if_neg (not_not_intro (hsign.2 hst)), if_pos hst, hst]
      exact double_right hb
    · have hzero : eclear = ofBits false 0 := by decide
      rw [if_pos (mt hsign.1 hst), if_neg hst, if_neg hself, if_neg hself]
      exact hzero
  · rw [hcmp, if_neg (by decide), if_neg (by decide)]
    exact addSigs_aligned hc ha hb (by omega)

/-- The register after the addition: its last bit is what is left of the smaller number. -/
theorem losesBit_iff (he : es + k = eb) :
    2 ^ 96 ≤ S * 2 ^ 16 / 2 ^ k + B * 2 ^ 16 ∧ S * 2 ^ 16 % 2 ^ k = 0 ∧
        (S * 2 ^ 16 / 2 ^ k + B * 2 ^ 16) % 2 ^ 18 = 2 ^ 16 + 1 ∧ eb + 1 < 0x7fff ↔ LosesBit es S eb B := by
  have hdist : eb - es = k := by omega
  unfold LosesBit
  rw [hdist]
  obtain hfew | hmany := Nat.lt_or_ge k 16
  · -- a zero is shifted into the last bit
    obtain ⟨j, hj⟩ := Nat.exists_eq_add_of_lt hfew
    have hquot : S * 2 ^ 16 / 2 ^ k = S * 2 ^ j * 2 := by
      have hpow : S * 2 ^ 16 = S * 2 ^ j * 2 * 2 ^ k := by
        rw [hj]
        ring
      rw [hpow]
      exact Nat.mul_div_left _ (Nat.two_pow_pos _)
    rw [hquot]
    refine iff_of_false ?_ ?_
    · rintro ⟨-, -, hmod, -⟩
      omega
    · rintro ⟨hle, -⟩
      omega
  · obtain ⟨j, rfl⟩ := Nat.exists_eq_add_of_le hmany
    have hpos : 0 < 2 ^ j := Nat.two_pow_pos j
    have hpow : 2 ^ (16 + j) = 2 ^ j * 2 ^ 16 := by rw [Nat.pow_add, Nat.mul_comm]
    have hmod := Nat.mod_lt S hpos
    have hlow : S % 2 ^ j + 2 ^ j * (S / 2 ^ j % 2 ^ 16) = 2 ^ j ↔ S % 2 ^ j = 0 ∧ S / 2 ^ j % 2 ^ 16 = 1 := by
      generalize S / 2 ^ j % 2 ^ 16 = w
      constructor
      · intro heq
        obtain _ | _ | w := w
        · omega
        · omega
        · have hexp : 2 ^ j * (w + 1 + 1) = 2 ^ j * w + 2 * 2 ^ j := by ring
          omega
      · rintro ⟨hzero, rfl⟩
        omega
    rw [hpow, Nat.mul_div_mul_right _ _ (by decide), Nat.mul_mod_mul_right, ← Nat.div_div_eq_div_mul, Nat.mod_mul,
      Nat.add_sub_cancel_left, hlow]
    generalize S / 2 ^ j = Q
    omega

theorem addOrdered_unequal (hc : c.rndprc = .nbits) (ha : MovedIn a s es S) (hb : MovedIn b t eb B) (hk : k ≠ 0)
    (he : es + k = eb) :
    (addOrdered c a b (-k)).1 = sumOf s (S * 2 ^ es) t (B * 2 ^ eb) ↔ ¬ (s = t ∧ LosesBit es S eb B) := by
  have hS := ha.sig_lt
  have hB := hb.sig_lt
  have hbnormal := hb.normal (by omega)
  have hdist : eb - es = k := by omega
  unfold addOrdered LosesBit
  rw [if_pos (by omega), hdist]
  by_cases hfar : 82 ≤ k
  · rw [if_pos (by unfold nbits; omega)]
    refine iff_of_true (emovo_far hb (by omega) hS) ?_
    rintro ⟨-, -, -, -, hcarry, -⟩
    have hpow : 2 ^ 82 ≤ 2 ^ k := Nat.pow_le_pow_right (by decide) hfar
    rw [Nat.div_eq_of_lt (by omega)] at hcarry
    omega
  · rw [if_neg (by unfold nbits; omega)]
    obtain ⟨hvalue, hlost⟩ := eshift_down a.sig k hk
    have hflag : (eshift a.sig (-k)).1 = decide (S * 2 ^ 16 % 2 ^ k ≠ 0) := by
      rw [Bool.eq_iff_iff, hlost, decide_eq_true_iff, ha.sig_eq]
    generalize eshift a.sig (-k) = shifted at *
    obtain ⟨lost, sig⟩ := shifted
    dsimp only at hvalue hflag ⊢
    rw [ha.sig_eq] at hvalue
    have hbsig := hb.sig_eq
    have hhalf : S * 2 ^ 16 / 2 ^ k ≤ S * 2 ^ 16 / 2 ^ 1 :=
      Nat.div_le_div_left (Nat.pow_le_pow_right (by decide) (Nat.one_le_iff_ne_zero.2 hk)) (by decide)
    have hiff := losesBit_iff (S := S) (B := B) he
    unfold LosesBit at hiff
    rw [hdist] at hiff
    by_cases hst : s = t
    · have hcov := covers_sum (S := S) (B := B) he
      rw [← hflag, ← hvalue, ← hbsig] at hcov
      have hright := addSigs_same (a := { a with sig := sig }) hc hb ((ha.sign_eq_iff hb).2 hst) hcov
        (by dsimp only; omega) (by dsimp only; omega) (fun _ => by dsimp only; omega)
      dsimp only at hright
      have hexact : lost = false ↔ S * 2 ^ 16 % 2 ^ k = 0 := by
        rw [hflag, decide_eq_false_iff_not, not_not]
      rw [hvalue, hbsig, hexact, hiff] at hright
      unfold sumOf
      rw [if_pos hst, and_iff_right hst, hst]
      exact hright
    · have hmul : S * 2 ^ es < B * 2 ^ eb := by
        have hpos : 0 < 2 ^ es := Nat.two_pow_pos es
        have hpow : B * 2 ^ eb = B * 2 ^ k * 2 ^ es := by
          rw [← he]
          ring
        have htwo : B * 2 ^ 1 ≤ B * 2 ^ k :=
          Nat.mul_le_mul_left _ (Nat.pow_le_pow_right (by decide) (Nat.one_le_iff_ne_zero.2 hk))
        rw [hpow]
        exact Nat.mul_lt_mul_of_pos_right (by omega) hpos
      have hcov := covers_difference (S := S) (B := B) he (by omega)
      rw [← hflag, ← hvalue, ← hbsig] at hcov
      have hlost' : lost = true → S * 2 ^ 16 / 2 ^ k ≤ S * 2 ^ 16 / 2 ^ 2 := by
        intro hlost'
        rw [hflag, decide_eq_true_iff] at hlost'
        obtain _ | _ | j := k
        · exact absurd rfl hk
        · omega
        · exact Nat.div_le_div_left (Nat.pow_le_pow_right (by decide) (Nat.le_add_left 2 j)) (by decide)
      refine iff_of_true ?_ fun hbad => hst hbad.1
      unfold sumOf
      rw [if_neg hst, if_neg (by omega), if_pos hmul]
      refine addSigs_different (a := { a with sig := sig }) hc hb (mt (ha.sign_eq_iff hb).1 hst) ?_ hcov ?_ (by omega) ?_
      · dsimp only
        omega
      · dsimp only
        omega
      · intro hflag'
        have hquarter := hlost' hflag'
        dsimp only
        omega

end Ordered

section Add

variable {c : RoundControl} {a b : EType}

theorem LosesBit.lt {es S eb B : Nat} (h : LosesBit es S eb B) : es < eb := by
  obtain ⟨hle, -⟩ := h
  omega

theorem eadd1_ordered (subflg : Bool) (hainf : eisinf a = false) (hbinf : eisinf b = false) :
    eadd1 c subflg a b =
      let ai := if subflg then { emovi a with sign := ~~~(emovi a).sign } else emovi a
      let bi := emovi b
      let lt : Int := ai.exp.toNat - bi.exp.toNat
      if 0 < lt then addOrdered c (emovz bi) (emovz ai) (-lt) else addOrdered c ai bi lt := by
  unfold eadd1
  rw [hainf, hbinf, if_neg Bool.false_ne_true, if_neg Bool.false_ne_true]
  dsimp only
  generalize (if subflg then { emovi a with sign := ~~~(emovi a).sign } else emovi a) = ai
  by_cases hlt : (0 : Int) < (ai.exp.toNat : Int) - (emovi b).exp.toNat
  · rw [if_pos hlt, if_pos hlt]
    rfl
  · rw [if_neg hlt, if_neg hlt]
    rfl

/-- `eadd1` is right but where the numbers, with the sign of `a` as it is added, have the same sign and lose a bit. -/
theorem eadd1_right_iff (hc : c.rndprc = .nbits) (subflg : Bool) (hainf : eisinf a = false) (hbinf : eisinf b = false)
    {s t : Bool} {ea A eb B : Nat} (ha : MovedIn (emovi a) s ea A) (hb : MovedIn (emovi b) t eb B) :
    (eadd1 c subflg a b).1 = sumOf (s ^^ subflg) (A * 2 ^ ea) t (B * 2 ^ eb) ↔
      ¬ ((s ^^ subflg) = t ∧ (LosesBit ea A eb B ∨ LosesBit eb B ea A)) := by
  have ha' : MovedIn (if subflg then { emovi a with sign := ~~~(emovi a).sign } else emovi a) (s ^^ subflg) ea A := by
    cases subflg with
    | true =>
      rw [if_pos rfl, Bool.xor_true]
      exact ha.complement
    | false =>
      rw [if_neg Bool.false_ne_true, Bool.xor_false]
      exact ha
  rw [eadd1_ordered subflg hainf hbinf]
  dsimp only
  generalize (if subflg then { emovi a with sign := ~~~(emovi a).sign } else emovi a) = ai at *
  generalize emovi b = bi at *
  generalize (s ^^ subflg) = s at *
  rw [ha'.exp_eq, hb.exp_eq]
  obtain hlt | rfl | hgt := Nat.lt_trichotomy ea eb
  · obtain ⟨k, rfl⟩ := Nat.exists_eq_add_of_lt hlt
    have hdist : (ea : Int) - (ea + k + 1 : Nat) = -(k + 1 : Nat) := by omega
    have hright := addOrdered_unequal hc ha' hb (Nat.succ_ne_zero k) rfl
    rw [hdist, if_neg (by omega)]
    refine hright.trans (not_congr (and_congr_right fun _ => (or_iff_left ?_).symm))
    intro hback
    exact absurd hback.lt (by omega)
  · rw [Int.sub_self, if_neg (lt_irrefl 0)]
    refine iff_of_true (addOrdered_equal hc ha' hb) ?_
    rintro ⟨-, hlost | hlost⟩ <;> exact lt_irrefl _ hlost.lt
  · obtain ⟨k, rfl⟩ := Nat.exists_eq_add_of_lt hgt
    have hdist : ((eb + k + 1 : Nat) : Int) - eb = (k + 1 : Nat) := by omega
    have hright := addOrdered_unequal hc hb ha' (Nat.succ_ne_zero k) rfl
    rw [hdist, if_pos (by omega), ha'.emovz, hb.emovz, sumOf_comm]
    refine hright.trans (not_congr ?_)
    rw [eq_comm]
    refine and_congr_right fun _ => (or_iff_right ?_).symm
    intro hback
    exact absurd hback.lt (by omega)

theorem number_finite {x : EType} (hfin : x.exponent ≠ 0x7fff) : x.number = .finite (eisneg x) x.magnitude unitsInOne :=
  if_neg hfin

theorem number_infinite {x : EType} (hx : x.WellFormed) (hinf : x.exponent = 0x7fff) :
    x.number = .infinite (eisneg x) := by
  unfold EType.WellFormed at hx
  rw [if_pos hinf] at hx
  unfold EType.number
  rw [if_pos hinf, if_pos hx]

theorem encode_infinity (neg : Bool) : encode neg 0x7fff 0 = infinity neg := by
  cases neg <;> decide

theorem eq_infinity {x : EType} (hx : x.WellFormed) (hinf : x.exponent = 0x7fff) : x = infinity (eisneg x) := by
  unfold EType.WellFormed at hx
  rw [if_pos hinf] at hx
  have hparts := encode_parts x
  rw [hinf, hx, encode_infinity] at hparts
  exact hparts.symm

theorem eneg_infinity (neg : Bool) : eneg (infinity neg) = infinity (!neg) := by
  cases neg <;> decide

theorem eisinf_of_finite {x : EType} (hx : x.WellFormed) (hfin : x.exponent ≠ 0x7fff) : eisinf x = false := by
  rw [Bool.eq_false_iff, Ne, eisinf_iff hx]
  exact hfin

theorem stores_enan (neg : Bool) : Stores (enan neg) .nan := by
  have hnan : eisnan (enan neg) = true := by cases neg <;> decide
  exact hnan

theorem not_losesCarry (h : a.exponent = 0x7fff ∨ b.exponent = 0x7fff) : ¬ LosesCarry a b := by
  unfold LosesCarry LosesCarryFrom
  omega

theorem eadd1_stores_iff (hc : c.rndprc = .nbits) (ha : a.WellFormed) (hb : b.WellFormed) (subflg : Bool)
    (hnan : ¬ (eisinf a && eisinf b && (eisneg a ^^ subflg) ≠ eisneg b) = true) :
    Stores (eadd1 c subflg a b).1 ((if subflg then a.number.neg else a.number).add b.number) ↔
      ¬ ((eisneg a ^^ subflg) = eisneg b ∧ LosesCarry a b) := by
  by_cases hafin : a.exponent = 0x7fff
  · have hresult : (eadd1 c subflg a b).1 = infinity (eisneg a ^^ subflg) := by
      unfold eadd1
      rw [if_pos ((eisinf_iff ha).2 hafin)]
      cases subflg with
      | true =>
        rw [if_pos rfl, Bool.xor_true, ← eneg_infinity]
        exact congrArg eneg (eq_infinity ha hafin)
      | false =>
        rw [if_neg Bool.false_ne_true, Bool.xor_false]
        exact eq_infinity ha hafin
    have hnumber : (if subflg then a.number.neg else a.number) = .infinite (eisneg a ^^ subflg) := by
      rw [number_infinite ha hafin]
      cases subflg with
      | true => rw [if_pos rfl, Bool.xor_true]; rfl
      | false => rw [if_neg Bool.false_ne_true, Bool.xor_false]
    rw [hnumber, hresult]
    refine iff_of_true ?_ fun hbad => not_losesCarry (.inl hafin) hbad.2
    by_cases hbfin : b.exponent = 0x7fff
    · have hsame : (eisneg a ^^ subflg) = eisneg b := by
        by_contra hne
        rw [(eisinf_iff ha).2 hafin, (eisinf_iff hb).2 hbfin, Bool.true_and, Bool.true_and, decide_eq_true_iff] at hnan
        exact hnan hne
      rw [number_infinite hb hbfin, Number.add, if_pos hsame]
      rfl
    · rw [number_finite hbfin]
      rfl
  by_cases hbfin : b.exponent = 0x7fff
  · have hresult : (eadd1 c subflg a b).1 = infinity (eisneg b) := by
      unfold eadd1
      rw [eisinf_of_finite ha hafin, if_neg Bool.false_ne_true, if_pos ((eisinf_iff hb).2 hbfin)]
      exact eq_infinity hb hbfin
    rw [number_finite hafin, number_infinite hb hbfin, hresult]
    refine iff_of_true ?_ fun hbad => not_losesCarry (.inr hbfin) hbad.2
    cases subflg <;> rfl
  have hright := eadd1_right_iff hc subflg (eisinf_of_finite ha hafin) (eisinf_of_finite hb hbfin) (movedIn_emovi ha hafin)
    (movedIn_emovi hb hbfin)
  have hnumber : (if subflg then a.number.neg else a.number) = .finite (eisneg a ^^ subflg) a.magnitude unitsInOne := by
    rw [number_finite hafin]
    cases subflg with
    | true => rw [if_pos rfl, Bool.xor_true]; rfl
    | false => rw [if_neg Bool.false_ne_true, Bool.xor_false]
  rw [hnumber, number_finite hbfin, stores_add]
  exact hright

theorem eadd_right_iff (hc : c.rndprc = .nbits) (ha : a.WellFormed) (hb : b.WellFormed) :
    Stores (eadd c a b).1 (a.number.add b.number) ↔ ¬ (eisneg a = eisneg b ∧ LosesCarry a b) := by
  unfold eadd
  rw [eisnan_of_wellFormed ha, eisnan_of_wellFormed hb, if_neg Bool.false_ne_true, if_neg Bool.false_ne_true]
  by_cases hnan : (eisinf a && eisinf b && eisneg a ≠ eisneg b) = true
  · rw [if_pos hnan]
    rw [Bool.and_eq_true_iff, Bool.and_eq_true_iff, decide_eq_true_iff, eisinf_iff ha, eisinf_iff hb] at hnan
    obtain ⟨⟨hafin, hbfin⟩, hsign⟩ := hnan
    rw [number_infinite ha hafin, number_infinite hb hbfin, Number.add, if_neg hsign]
    exact iff_of_true (stores_enan false) fun hbad => hsign hbad.1
  · rw [if_neg hnan]
    have hright := @eadd1_stores_iff _ _ _ hc ha hb false (by rwa [Bool.xor_false])
    rwa [if_neg Bool.false_ne_true, Bool.xor_false] at hright

theorem Number.add_comm (x y : Number) : x.add y = y.add x := by
  cases x with
  | nan => cases y <;> rfl
  | infinite s =>
    cases y with
    | nan => rfl
    | infinite t =>
      unfold Number.add
      dsimp only
      by_cases hst : s = t
      · rw [if_pos hst, if_pos hst.symm, hst]
      · rw [if_neg hst, if_neg (Ne.symm hst)]
    | finite t n d => rfl
  | finite s m c =>
    cases y with
    | nan => rfl
    | infinite t => rfl
    | finite t n d =>
      unfold Number.add
      dsimp only
      rw [Nat.mul_comm d c]
      by_cases hst : s = t
      · rw [if_pos hst, if_pos hst.symm, Nat.add_comm, hst]
      · rw [if_neg hst, if_neg (Ne.symm hst)]
        obtain hlt | heq | hgt := Nat.lt_trichotomy (m * d) (n * c)
        · rw [if_neg (by omega), if_pos hlt, if_pos hlt]
        · rw [if_neg (by omega), if_neg (by omega), if_neg (by omega), if_neg (by omega)]
        · rw [if_pos hgt, if_neg (by omega), if_pos hgt]

theorem esub_right_iff (hc : c.rndprc = .nbits) (ha : a.WellFormed) (hb : b.WellFormed) :
    Stores (esub c a b).1 (b.number.sub a.number) ↔ ¬ ((!eisneg a) = eisneg b ∧ LosesCarry a b) := by
  unfold esub Number.sub
  rw [eisnan_of_wellFormed ha, eisnan_of_wellFormed hb, if_neg Bool.false_ne_true, if_neg Bool.false_ne_true,
    Number.add_comm]
  by_cases hnan : (eisinf a && eisinf b && eisneg a = eisneg b) = true
  · rw [if_pos hnan]
    rw [Bool.and_eq_true_iff, Bool.and_eq_true_iff, decide_eq_true_iff, eisinf_iff ha, eisinf_iff hb] at hnan
    obtain ⟨⟨hafin, hbfin⟩, hsign⟩ := hnan
    have hopposite : ¬ (!eisneg a) = eisneg b := by
      rw [hsign]
      cases eisneg b <;> decide
    rw [number_infinite ha hafin, number_infinite hb hbfin, Number.neg, Number.add, if_neg hopposite]
    exact iff_of_true (stores_enan false) fun hbad => hopposite hbad.1
  · rw [if_neg hnan]
    have hsigns : decide ((eisneg a ^^ true) ≠ eisneg b) = decide (eisneg a = eisneg b) := by
      cases eisneg a <;> cases eisneg b <;> rfl
    have hright := @eadd1_stores_iff _ _ _ hc ha hb true (by rwa [hsigns])
    rwa [if_pos rfl, Bool.xor_true] at hright

end Add

end Z80Gcc.Emulator
