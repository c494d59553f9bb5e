import Z80Gcc.Lib.LongDivision
import Z80Gcc.Spec.EType

/-! What the shifts, sums, products and quotients of the emulator make of a significand as a number. -/

namespace Z80Gcc.Emulator

open WordList

section Bits

variable (x : Word)

theorem and_twoPow_ne_zero {n : Nat} (x : BitVec n) (i : Nat) (hi : i < n) :
    x &&& BitVec.twoPow n i ≠ 0 ↔ x.getLsbD i = true := by
  rw [BitVec.and_twoPow]
  split_ifs with hbit
  · refine ⟨fun _ => hbit, fun _ hzero => ?_⟩
    have hval := congrArg BitVec.toNat hzero
    rw [BitVec.toNat_twoPow_of_lt hi] at hval
    exact absurd hval (Nat.two_pow_pos i).ne'
  · exact ⟨fun hne => absurd rfl hne, fun h => absurd h hbit⟩

theorem and_one_ne_zero : x &&& 1 ≠ 0 ↔ x.getLsbD 0 = true := and_twoPow_ne_zero x 0 (by decide)

theorem and_two_ne_zero : x &&& 2 ≠ 0 ↔ x.getLsbD 1 = true := and_twoPow_ne_zero x 1 (by decide)

theorem and_top_ne_zero : x &&& 0x8000 ≠ 0 ↔ x.getLsbD 15 = true := and_twoPow_ne_zero x 15 (by decide)

theorem and_shiftLeft {n : Nat} (w mask : BitVec n) (k : Nat) : w &&& mask <<< k = (w >>> k &&& mask) <<< k := by
  ext i hi
  simp only [BitVec.getElem_and, BitVec.getElem_shiftLeft, BitVec.getElem_ushiftRight]
  by_cases hk : i < k
  · simp [hk]
  · simp [hk, BitVec.getLsbD, Nat.add_sub_cancel' (not_lt.1 hk), BitVec.getElem_eq_testBit_toNat]

theorem toNat_mod_two : x.toNat % 2 = (x.getLsbD 0).toNat := by
  rw [BitVec.getLsbD, Nat.testBit_zero]
  obtain h | h := Nat.mod_two_eq_zero_or_one x.toNat <;> rw [h] <;> rfl

theorem top_iff : x.getLsbD 15 = true ↔ 2 ^ 15 ≤ x.toNat := by
  have hx := x.isLt
  rw [BitVec.getLsbD, Nat.testBit_eq_decide_div_mod_eq, decide_eq_true_eq]
  omega

/-- A word put together from bits at and above `i`, and bits below. -/
theorem toNat_or_of_dvd {w : Nat} {x y : BitVec w} (i : Nat) (hx : 2 ^ i ∣ x.toNat) (hy : y.toNat < 2 ^ i) :
    (x ||| y).toNat = x.toNat + y.toNat := by
  obtain ⟨a, ha⟩ := hx
  rw [BitVec.toNat_or, ha]
  exact (Nat.two_pow_add_eq_or_of_lt hy a).symm

theorem passed_bit {bits : Word} (hbits : bits.getLsbD 0 = false) {P : Prop} [Decidable P] {q : Bool}
    (hP : P ↔ q = true) :
    let b := if P then bits ||| 1 else bits
    (b <<< 1).getLsbD 0 = false ∧ (b <<< 1).getLsbD 1 = q ∧ b.getLsbD 1 = bits.getLsbD 1 := by
  have hzero : bits[0] = false := hbits
  dsimp only
  cases q with
  | true =>
    rw [if_pos (hP.2 rfl)]
    simp
  | false =>
    rw [if_neg fun h => Bool.false_ne_true (hP.1 h)]
    simp [hzero]

theorem carry_bit (a : BitVec 32) : a &&& 0x10000 ≠ 0 ↔ a.toNat / 2 ^ 16 % 2 = 1 := by
  have hbit : a.getLsbD 16 = true ↔ a.toNat / 2 ^ 16 % 2 = 1 := by
    rw [BitVec.getLsbD, Nat.testBit_eq_decide_div_mod_eq, decide_eq_true_eq]
  rw [← hbit]
  exact and_twoPow_ne_zero a 16 (by decide)

end Bits

section Value

def sigValue (x : Sig) : Nat := value x.toList

variable (x y : Sig)

theorem sigValue_lt : sigValue x < 2 ^ 112 := by
  have hlt := value_lt x.toList
  rwa [x.toList_length, ← Nat.pow_mul] at hlt

theorem sigValue_injective {x y : Sig} (h : sigValue x = sigValue y) : x = y :=
  Subtype.ext (value_injective (x.toList_length.trans y.toList_length.symm) h)

theorem sigValue_zeros : sigValue (zeros 7) = 0 := value_replicate_zero 7

theorem toNat_word {i : Nat} (hlo : 2 ≤ i) (hhi : i ≤ 8) :
    (word x i).toNat = sigValue x / 2 ^ (16 * (8 - i)) % 2 ^ 16 := by
  unfold word sigValue
  have hlen := x.toList_length
  rw [toNat_getD (by omega), hlen, ← Nat.pow_mul]
  congr 3
  omega

end Value

section Shifts

variable (x : Sig)

theorem down_value {S : Type} {good : S → Prop} {rest : S → Nat} {d : Nat} {f : Word → S → S × Word}
    (hstep : ∀ w s, good s → good (f w s).1 ∧ rest s * 2 ^ 16 + w.toNat = (f w s).2.toNat * d + rest (f w s).1)
    (hlt : ∀ s, rest s < d) {s : S} (hs : good s) (hrest : rest s = 0) :
    sigValue (down f x s) = sigValue x / d := by
  obtain ⟨-, heq⟩ := mapAccuml_value hstep x.toList hs
  have hr := hlt (mapAccuml f x.toList s).1
  rw [hrest, Nat.zero_mul, Nat.zero_add] at heq
  unfold sigValue
  rw [heq, Nat.mul_comm, Nat.mul_add_div (by omega), Nat.div_eq_of_lt hr, Nat.add_zero]
  rfl

theorem up_value {S : Type} {good : S → Prop} {carry : S → Nat} {k : Nat} {f : Word → S → S × Word}
    (hstep : ∀ w s, good s → good (f w s).1 ∧ w.toNat * k + carry s = carry (f w s).1 * 2 ^ 16 + (f w s).2.toNat)
    {s : S} (hs : good s) (hcarry : carry s = 0) :
    sigValue (x.mapAccumr f s).2 = sigValue x * k % 2 ^ 112 := by
  have hstep' : ∀ w s, good s → good (f w s).1 ∧
      (k : Int) * (w.toNat : Int) + carry s = carry (f w s).1 * 2 ^ 16 + (f w s).2.toNat := by
    intro w s hgood
    obtain ⟨hgood', heq⟩ := hstep w s hgood
    refine ⟨hgood', ?_⟩
    rw [Nat.mul_comm] at heq
    exact_mod_cast heq
  obtain ⟨-, heq⟩ := mapAccumr_value hstep' x.toList hs
  rw [weigh_mul, weigh_toNat, hcarry, Nat.cast_zero, add_zero, x.toList_length, ← pow_mul] at heq
  have hnat : k * sigValue x = carry (x.toList.mapAccumr f s).1 * 2 ^ 112 + sigValue (x.mapAccumr f s).2 := by
    exact_mod_cast heq
  rw [Nat.mul_comm, hnat, Nat.mul_comm, Nat.mul_add_mod, Nat.mod_eq_of_lt (sigValue_lt _)]

theorem eshdn1_value : sigValue (eshdn1 x) = sigValue x / 2 := by
  refine @down_value x _ (fun bits => bits.getLsbD 0 = false) (fun bits => (bits.getLsbD 1).toNat) _ _
    (fun w bits hbits => ?_) (fun bits => Bool.toNat_lt _) _ rfl rfl
  obtain ⟨hgood, hpassed, hkept⟩ := passed_bit hbits (and_one_ne_zero w)
  refine ⟨hgood, ?_⟩
  have hlow := toNat_mod_two w
  have hw := w.isLt
  have hshift : (w >>> 1).toNat = w.toNat / 2 := by
    rw [BitVec.toNat_ushiftRight, Nat.shiftRight_eq_div_pow]
  unfold eshdn1Step
  dsimp only
  rw [hpassed, ← hlow]
  generalize (if w &&& 1 ≠ 0 then bits ||| 1 else bits) = b at hkept ⊢
  cases hbit : bits.getLsbD 1 with
  | true =>
    rw [if_pos ((and_two_ne_zero b).2 (hkept.trans hbit)), BitVec.or_comm,
      toNat_or_of_dvd 15 (dvd_refl _) (by omega), hshift]
    change 1 * 2 ^ 16 + w.toNat = (2 ^ 15 + w.toNat / 2) * 2 + w.toNat % 2
    omega
  | false =>
    rw [if_neg fun hne => Bool.false_ne_true ((hbit.symm.trans hkept.symm).trans ((and_two_ne_zero b).1 hne)), hshift]
    change 0 * 2 ^ 16 + w.toNat = w.toNat / 2 * 2 + w.toNat % 2
    omega

theorem eshup1_value : sigValue (eshup1 x) = sigValue x * 2 % 2 ^ 112 := by
  refine @up_value x _ (fun bits => bits.getLsbD 0 = false) (fun bits => (bits.getLsbD 1).toNat) _ _
    (fun w bits hbits => ?_) _ rfl rfl
  obtain ⟨hgood, hpassed, hkept⟩ := passed_bit hbits (and_top_ne_zero w)
  refine ⟨hgood, ?_⟩
  have htop := top_iff w
  have hw := w.isLt
  have hshift : (w <<< 1).toNat = w.toNat * 2 % 2 ^ 16 := by
    rw [BitVec.toNat_shiftLeft, Nat.shiftLeft_eq, Nat.pow_one]
  have hcarry : w.toNat * 2 = (w.getLsbD 15).toNat * 2 ^ 16 + (w <<< 1).toNat := by
    rw [hshift]
    cases hb : w.getLsbD 15 with
    | true =>
      have hle := htop.1 hb
      change _ = 1 * 2 ^ 16 + _
      omega
    | false =>
      have hlt : ¬ 2 ^ 15 ≤ w.toNat := fun hle => Bool.false_ne_true (hb.symm.trans (htop.2 hle))
      change _ = 0 * 2 ^ 16 + _
      omega
  unfold eshup1Step
  dsimp only
  rw [hpassed, hcarry]
  generalize (if w &&& 0x8000 ≠ 0 then bits ||| 1 else bits) = b at hkept ⊢
  cases hbit : bits.getLsbD 1 with
  | true =>
    rw [if_pos ((and_two_ne_zero b).2 (hkept.trans hbit)),
      toNat_or_of_dvd 1 (by rw [hshift]; omega) (by decide : (1 : Word).toNat < 2 ^ 1)]
    exact Nat.add_assoc _ _ _
  | false =>
    rw [if_neg fun hne => Bool.false_ne_true ((hbit.symm.trans hkept.symm).trans ((and_two_ne_zero b).1 hne))]
    exact Nat.add_assoc _ _ _

theorem eshdn8_value : sigValue (eshdn8 x) = sigValue x / 2 ^ 8 := by
  refine @down_value x _ (fun oldbyt => 2 ^ 8 ∣ oldbyt.toNat) (fun oldbyt => oldbyt.toNat / 2 ^ 8) _ _
    (fun w oldbyt hold => ?_) (fun oldbyt => by omega) _ (dvd_zero _) rfl
  have hw := w.isLt
  have hshift : (w >>> 8).toNat = w.toNat / 2 ^ 8 := by
    rw [BitVec.toNat_ushiftRight, Nat.shiftRight_eq_div_pow]
  have hpassed : (w <<< 8).toNat = w.toNat * 2 ^ 8 % 2 ^ 16 := by
    rw [BitVec.toNat_shiftLeft, Nat.shiftLeft_eq]
  unfold eshdn8Step
  dsimp only
  rw [hpassed, BitVec.or_comm, toNat_or_of_dvd 8 hold (by omega), hshift]
  constructor <;> omega

theorem eshup8_value : sigValue (eshup8 x) = sigValue x * 2 ^ 8 % 2 ^ 112 := by
  refine @up_value x _ (fun oldbyt => oldbyt.toNat < 2 ^ 8) (fun oldbyt => oldbyt.toNat) _ _
    (fun w oldbyt hold => ?_) _ (by decide) rfl
  have hw := w.isLt
  have hpassed : (w >>> 8).toNat = w.toNat / 2 ^ 8 := by
    rw [BitVec.toNat_ushiftRight, Nat.shiftRight_eq_div_pow]
  have hshift : (w <<< 8).toNat = w.toNat * 2 ^ 8 % 2 ^ 16 := by
    rw [BitVec.toNat_shiftLeft, Nat.shiftLeft_eq]
  unfold eshup8Step
  dsimp only
  rw [hpassed, toNat_or_of_dvd 8 (by rw [hshift]; omega) hold, hshift]
  constructor <;> omega

theorem eshup6_value : sigValue (eshup6 x) = sigValue x * 2 ^ 16 % 2 ^ 112 := by
  obtain ⟨_ | ⟨w, ws⟩, hlen⟩ := x
  · cases hlen
  have hws : ws.length = 6 := Nat.succ_injective hlen
  have hlt : value ws < (2 ^ 16) ^ 6 := hws ▸ value_lt ws
  have hsnoc : value (ws ++ [0]) = value ws * (2 ^ 16) ^ 1 + value [(0 : Word)] := value_append ws [0]
  have hzero : value [(0 : Word)] = 0 := value_replicate_zero 1
  have hcons := value_cons w ws
  rw [hws] at hcons
  change value (ws ++ [0]) = value (w :: ws) * 2 ^ 16 % 2 ^ 112
  omega

theorem eshdn6_value : sigValue (eshdn6 x) = sigValue x / 2 ^ 16 := by
  obtain ⟨ws, hlen⟩ := x
  have hne : ws ≠ [] := by
    rintro rfl
    cases hlen
  change value (0 :: ws.dropLast) = value ws / 2 ^ 16
  conv_rhs => rw [← List.dropLast_append_getLast hne]
  have hdiv := (value_append_div_mod ws.dropLast [ws.getLast hne]).1
  rw [List.length_singleton, Nat.pow_one] at hdiv
  rw [hdiv, value_cons, BitVec.ofNat_eq_ofNat, BitVec.toNat_ofNat, Nat.zero_mod, Nat.zero_mul, Nat.zero_add]

end Shifts

section Sums

variable (x y : Sig)

theorem eaddmStep_value (v w : Word) {carry : BitVec 32} (hcarry : carry.toNat ≤ 1) :
    let r := eaddmStep v w carry
    r.1.toNat ≤ 1 ∧ v.toNat + w.toNat + carry.toNat = r.1.toNat * 2 ^ 16 + r.2.toNat := by
  have hv := v.isLt
  have hw := w.isLt
  have hsum : (v.setWidth 32 + w.setWidth 32 + carry).toNat = v.toNat + w.toNat + carry.toNat := by
    rw [BitVec.toNat_add, BitVec.toNat_add, BitVec.toNat_setWidth, BitVec.toNat_setWidth]
    omega
  have htest := carry_bit (v.setWidth 32 + w.setWidth 32 + carry)
  unfold eaddmStep
  dsimp only
  rw [BitVec.toNat_setWidth]
  generalize v.setWidth 32 + w.setWidth 32 + carry = a at hsum htest ⊢
  by_cases hbit : a &&& 0x10000 ≠ 0
  · rw [if_pos hbit]
    have hone := htest.1 hbit
    change 1 ≤ 1 ∧ _ = 1 * 2 ^ 16 + a.toNat % 2 ^ 16
    omega
  · rw [if_neg hbit]
    have hnot : ¬ a.toNat / 2 ^ 16 % 2 = 1 := fun hone => hbit (htest.2 hone)
    change 0 ≤ 1 ∧ _ = 0 * 2 ^ 16 + a.toNat % 2 ^ 16
    omega

theorem eaddm_value : sigValue (eaddm x y) = (sigValue x + sigValue y) % 2 ^ 112 := by
  have hstep : ∀ (v w : Word) (carry : BitVec 32), carry.toNat ≤ 1 → (eaddmStep v w carry).1.toNat ≤ 1 ∧
      (v.toNat : Int) + w.toNat + carry.toNat =
        (eaddmStep v w carry).1.toNat * 2 ^ 16 + (eaddmStep v w carry).2.toNat := by
    intro v w carry hcarry
    obtain ⟨hle, heq⟩ := eaddmStep_value v w hcarry
    exact ⟨hle, by exact_mod_cast heq⟩
  have hlen : x.toList.length = y.toList.length := x.toList_length.trans y.toList_length.symm
  have hzero : (0 : BitVec 32).toNat ≤ 1 := Nat.zero_le 1
  obtain ⟨-, heq⟩ := mapAccumr₂_value hstep hlen hzero
  rw [weigh_toNat, weigh_toNat, x.toList_length, ← pow_mul] at heq
  have hnat : sigValue x + sigValue y + 0 =
      (x.toList.mapAccumr₂ eaddmStep y.toList 0).1.toNat * 2 ^ 112 + sigValue (eaddm x y) := by
    exact_mod_cast heq
  rw [← Nat.add_zero (sigValue x + sigValue y), hnat, Nat.mul_comm, Nat.mul_add_mod,
    Nat.mod_eq_of_lt (sigValue_lt _)]

theorem esubmStep_value (v w : Word) {carry : BitVec 32} (hcarry : carry.toNat ≤ 1) :
    let r := esubmStep v w carry
    r.1.toNat ≤ 1 ∧ (-v.toNat : Int) + w.toNat + -carry.toNat = -r.1.toNat * 2 ^ 16 + r.2.toNat := by
  have hv := v.isLt
  have hw := w.isLt
  have hdiff : v.toNat + carry.toNat ≤ w.toNat ∧
      (w.setWidth 32 - v.setWidth 32 - carry).toNat = w.toNat - (v.toNat + carry.toNat) ∨
      w.toNat < v.toNat + carry.toNat ∧
      (w.setWidth 32 - v.setWidth 32 - carry).toNat = 2 ^ 32 + w.toNat - (v.toNat + carry.toNat) := by
    rw [BitVec.toNat_sub, BitVec.toNat_sub, BitVec.toNat_setWidth, BitVec.toNat_setWidth]
    omega
  have htest := carry_bit (w.setWidth 32 - v.setWidth 32 - carry)
  unfold esubmStep
  dsimp only
  rw [BitVec.toNat_setWidth]
  generalize w.setWidth 32 - v.setWidth 32 - carry = a at hdiff htest ⊢
  by_cases hbit : a &&& 0x10000 ≠ 0
  · rw [if_pos hbit]
    have hone := htest.1 hbit
    change 1 ≤ 1 ∧ _ = -(1 : Int) * 2 ^ 16 + (a.toNat % 2 ^ 16 : Nat)
    omega
  · rw [if_neg hbit]
    have hnot : ¬ a.toNat / 2 ^ 16 % 2 = 1 := fun hone => hbit (htest.2 hone)
    change 0 ≤ 1 ∧ _ = -(0 : Int) * 2 ^ 16 + (a.toNat % 2 ^ 16 : Nat)
    omega

/-- The difference, if it is not negative. -/
theorem esubm_value (hle : sigValue x ≤ sigValue y) : sigValue (esubm x y) = sigValue y - sigValue x := by
  have hstep : ∀ (v w : Word) (carry : BitVec 32), carry.toNat ≤ 1 → (esubmStep v w carry).1.toNat ≤ 1 ∧
      -1 * (v.toNat : Int) + w.toNat + -carry.toNat =
        -(esubmStep v w carry).1.toNat * 2 ^ 16 + (esubmStep v w carry).2.toNat := by
    intro v w carry hcarry
    rw [neg_one_mul]
    exact esubmStep_value v w hcarry
  have hlen : x.toList.length = y.toList.length := x.toList_length.trans y.toList_length.symm
  have hzero : (0 : BitVec 32).toNat ≤ 1 := Nat.zero_le 1
  obtain ⟨hborrow, heq⟩ := @mapAccumr₂_value _ _ _ _ _ (fun c : BitVec 32 => -(c.toNat : Int)) _ _ _ hstep _ _ hlen _
    hzero
  rw [weigh_mul, weigh_toNat, weigh_toNat, x.toList_length, ← pow_mul] at heq
  generalize (x.toList.mapAccumr₂ esubmStep y.toList 0).1.toNat = b at hborrow heq
  have hint : -1 * (sigValue x : Int) + sigValue y + -0 = -b * 2 ^ 112 + sigValue (esubm x y) := heq
  have hx := sigValue_lt x
  have hlt := sigValue_lt (esubm x y)
  omega

end Sums

section Compare

theorem compareWords_cases {xs ys : List Word} (hlen : xs.length = ys.length) :
    compareWords xs ys = 1 ∧ value ys < value xs ∨ compareWords xs ys = 0 ∧ value xs = value ys ∨
      compareWords xs ys = -1 ∧ value xs < value ys := by
  induction xs generalizing ys with
  | nil =>
    obtain rfl := List.length_eq_zero_iff.1 hlen.symm
    exact .inr (.inl ⟨rfl, rfl⟩)
  | cons x xs ih =>
    obtain _ | ⟨y, ys⟩ := ys
    · cases hlen
    have hlen' : xs.length = ys.length := Nat.succ_injective hlen
    unfold compareWords
    by_cases hxy : x = y
    · subst hxy
      rw [if_neg (not_not_intro rfl), value_cons, value_cons, hlen']
      have htail := ih hlen'
      omega
    · rw [if_pos hxy]
      by_cases hlt : y < x
      · rw [if_pos hlt]
        exact .inl ⟨rfl, value_lt_of_head hlen'.symm hlt⟩
      · rw [if_neg hlt]
        have hne : x.toNat ≠ y.toNat := fun heq => hxy (BitVec.eq_of_toNat_eq heq)
        have hgt : x < y := by
          rw [BitVec.lt_def] at hlt ⊢
          omega
        exact .inr (.inr ⟨rfl, value_lt_of_head hlen' hgt⟩)

theorem ecmpm_cases (x y : Sig) :
    ecmpm x y = 1 ∧ sigValue y < sigValue x ∨ ecmpm x y = 0 ∧ sigValue x = sigValue y ∨
      ecmpm x y = -1 ∧ sigValue x < sigValue y :=
  compareWords_cases (x.toList_length.trans y.toList_length.symm)

theorem ecmpm_pos_iff (x y : Sig) : 0 < ecmpm x y ↔ sigValue y < sigValue x := by
  obtain h | h | h := ecmpm_cases x y <;> omega

end Compare

section Products

/-- A word of the multiplication: the state is the number `*pp` with the word above it. -/
theorem m16mStep_value (a x : Word) (pp : Word × Word) :
    a.toNat * x.toNat + (pp.1.toNat + pp.2.toNat * 2 ^ 16) =
      ((m16mStep a x pp).1.1.toNat + (m16mStep a x pp).1.2.toNat * 2 ^ 16) * 2 ^ 16 + (m16mStep a x pp).2.toNat := by
  have ha := a.isLt
  have hx := x.isLt
  have h1 := pp.1.isLt
  have h2 := pp.2.isLt
  unfold m16mStep
  by_cases hzero : x = 0
  · rw [if_pos hzero, hzero]
    change a.toNat * 0 + _ = (pp.2.toNat + 0 * 2 ^ 16) * 2 ^ 16 + pp.1.toNat
    omega
  rw [if_neg hzero]
  dsimp only
  have hmul : a.toNat * x.toNat ≤ (2 ^ 16 - 1) * (2 ^ 16 - 1) := Nat.mul_le_mul (by omega) (by omega)
  have hm : (a.setWidth 32 * x.setWidth 32).toNat = a.toNat * x.toNat := by
    have ha' : a.toNat % 2 ^ 32 = a.toNat := by omega
    have hx' : x.toNat % 2 ^ 32 = x.toNat := by omega
    rw [BitVec.toNat_mul, BitVec.toNat_setWidth, BitVec.toNat_setWidth, ha', hx']
    exact Nat.mod_eq_of_lt (by omega)
  generalize a.setWidth 32 * x.setWidth 32 = m at hm
  have hlow : (m &&& 0xffff).toNat = a.toNat * x.toNat % 2 ^ 16 := by
    rw [BitVec.toNat_and, hm]
    exact Nat.and_two_pow_sub_one_eq_mod _ 16
  have hcarry : ((m &&& 0xffff) + pp.1.setWidth 32).toNat = a.toNat * x.toNat % 2 ^ 16 + pp.1.toNat := by
    rw [BitVec.toNat_add, hlow, BitVec.toNat_setWidth]
    omega
  generalize (m &&& 0xffff) + pp.1.setWidth 32 = carry at hcarry
  have hcarry' : (carry >>> 16 + m >>> 16 + pp.2.setWidth 32).toNat =
      carry.toNat / 2 ^ 16 + m.toNat / 2 ^ 16 + pp.2.toNat := by
    rw [BitVec.toNat_add, BitVec.toNat_add, BitVec.toNat_ushiftRight, BitVec.toNat_ushiftRight,
      Nat.shiftRight_eq_div_pow, Nat.shiftRight_eq_div_pow, BitVec.toNat_setWidth]
    omega
  rw [BitVec.toNat_setWidth, BitVec.toNat_setWidth, BitVec.toNat_setWidth, BitVec.toNat_ushiftRight,
    Nat.shiftRight_eq_div_pow, hcarry', hcarry, hm]
  generalize a.toNat * x.toNat = p at hmul ⊢
  omega

theorem tail_value {b : Sig} (hb : sigValue b < 2 ^ 96) : value b.tail.toList = sigValue b := by
  obtain ⟨_ | ⟨w, ws⟩, hlen⟩ := b
  · cases hlen
  have hws : ws.length = 6 := Nat.succ_injective hlen
  have hcons : sigValue ⟨w :: ws, hlen⟩ = w.toNat * (2 ^ 16) ^ 6 + value ws := by
    rw [← hws]
    exact value_cons w ws
  change value ws = _
  omega

theorem m16m_value (a : Word) {b : Sig} (hb : sigValue b < 2 ^ 96) : sigValue (m16m a b) = a.toNat * sigValue b := by
  have hstep : ∀ (x : Word) (pp : Word × Word), True → True ∧
      (a.toNat : Int) * x.toNat + ((pp.1.toNat : Int) + pp.2.toNat * 2 ^ 16) =
        (((m16mStep a x pp).1.1.toNat : Int) + (m16mStep a x pp).1.2.toNat * 2 ^ 16) * 2 ^ 16 +
          (m16mStep a x pp).2.toNat := by
    intro x pp _
    exact ⟨trivial, by exact_mod_cast m16mStep_value a x pp⟩
  obtain ⟨-, heq⟩ := @mapAccumr_value _ _ _ _ _ _ _ hstep b.tail.toList (0, 0) trivial
  rw [weigh_mul, weigh_toNat, tail_value hb, b.tail.toList_length] at heq
  have htop : sigValue (m16m a b) = (b.tail.toList.mapAccumr (m16mStep a) (0, 0)).1.1.toNat * (2 ^ 16) ^ 6 +
      value (b.tail.toList.mapAccumr (m16mStep a) (0, 0)).2 := by
    have hcons := value_cons (b.tail.toList.mapAccumr (m16mStep a) (0, 0)).1.1
      (b.tail.toList.mapAccumr (m16mStep a) (0, 0)).2
    rw [List.length_mapAccumr, b.tail.toList_length] at hcons
    exact hcons
  generalize b.tail.toList.mapAccumr (m16mStep a) (0, 0) = r at heq htop
  have hlt : a.toNat * sigValue b < 2 ^ 16 * 2 ^ 96 := Nat.mul_lt_mul'' a.isLt hb
  rw [← Nat.cast_mul] at heq
  generalize a.toNat * sigValue b = p at heq hlt ⊢
  change (p : Int) + ((0 : Nat) + (0 : Nat) * 2 ^ 16) = _ at heq
  omega

end Products

section Quotients

variable {den num : Sig}

theorem tquot_value (d : Word) (n : BitVec 32) (hd : 0 < d.toNat) :
    (if d.setWidth 32 * 0xffff < n then (0xffff : Word) else (n / d.setWidth 32).setWidth 16).toNat =
      min (2 ^ 16 - 1) (n.toNat / d.toNat) := by
  have hlt := d.isLt
  have hwide : (d.setWidth 32).toNat = d.toNat := by
    rw [BitVec.toNat_setWidth]
    omega
  have hmul : (d.setWidth 32 * 0xffff).toNat = d.toNat * (2 ^ 16 - 1) := by
    rw [BitVec.toNat_mul, hwide]
    exact Nat.mod_eq_of_lt (by omega : d.toNat * (2 ^ 16 - 1) < 2 ^ 32)
  by_cases hbig : d.setWidth 32 * 0xffff < n
  · rw [if_pos hbig]
    rw [BitVec.lt_def, hmul] at hbig
    have hle : 2 ^ 16 - 1 ≤ n.toNat / d.toNat := (Nat.le_div_iff_mul_le hd).2 (by rw [Nat.mul_comm]; exact hbig.le)
    exact (Nat.min_eq_left hle).symm
  · rw [if_neg hbig, BitVec.toNat_setWidth, BitVec.toNat_udiv, hwide]
    rw [BitVec.lt_def, hmul] at hbig
    have hle : n.toNat / d.toNat ≤ 2 ^ 16 - 1 := by
      rw [← Nat.lt_succ_iff, Nat.div_lt_iff_lt_mul hd]
      have := Nat.mul_comm d.toNat (2 ^ 16 - 1)
      omega
    rw [Nat.min_eq_right hle]
    exact Nat.mod_eq_of_lt (by omega)

theorem rest_value (hlow : 2 ^ 95 ≤ sigValue den) (hhigh : sigValue den < 2 ^ 96) {tprod : Sig}
    (hprod : sigValue tprod = sigValue num / sigValue den * sigValue den) :
    sigValue (eshup6 (esubm tprod num)) = sigValue num % sigValue den * 2 ^ 16 := by
  have hmod := Nat.mod_lt (sigValue num) (by omega : 0 < sigValue den)
  have hsplit := Nat.div_add_mod (sigValue num) (sigValue den)
  rw [Nat.mul_comm] at hsplit
  rw [eshup6_value, esubm_value tprod num (by omega)]
  omega

theorem edivmStep_value (hlow : 2 ^ 95 ≤ sigValue den) (hhigh : sigValue den < 2 ^ 96)
    (hnum : sigValue num < 2 ^ 16 * sigValue den) :
    (edivmStep den num).1.toNat = sigValue num / sigValue den ∧
      sigValue (edivmStep den num).2 = sigValue num % sigValue den * 2 ^ 16 := by
  have htop : (word den 3).toNat = sigValue den / 2 ^ 80 := by
    have hword := toNat_word den (by decide : 2 ≤ 3) (by decide)
    omega
  have htop' : ((word num 2).setWidth 32 <<< 16 + (word num 3).setWidth 32 : BitVec 32).toNat =
      sigValue num / 2 ^ 80 := by
    have hword2 := toNat_word num (by decide : 2 ≤ 2) (by decide)
    have hword3 := toNat_word num (by decide : 2 ≤ 3) (by decide)
    have hlt := sigValue_lt num
    rw [BitVec.toNat_add, BitVec.toNat_shiftLeft, Nat.shiftLeft_eq, BitVec.toNat_setWidth, BitVec.toNat_setWidth]
    omega
  unfold edivmStep
  dsimp only
  generalize ((word num 2).setWidth 32 <<< 16 + (word num 3).setWidth 32 : BitVec 32) = tnum at htop'
  have htquot := tquot_value (word den 3) tnum (by omega)
  rw [htop, htop'] at htquot
  generalize (if (word den 3).setWidth 32 * 0xffff < tnum then (0xffff : Word)
    else (tnum / (word den 3).setWidth 32).setWidth 16) = tquot at htquot
  have hbounds := LongDivision.trial_bounds (by omega : 2 ^ 16 ≤ 2 * (sigValue den / 2 ^ 80))
    (Nat.div_mul_le_self _ _) (by omega : sigValue den < (sigValue den / 2 ^ 80 + 1) * 2 ^ 80) hnum htquot
  have hprod := m16m_value tquot hhigh
  have hsplit := Nat.div_add_mod (sigValue num) (sigValue den)
  have hmod := Nat.mod_lt (sigValue num) (by omega : 0 < sigValue den)
  have ht := tquot.isLt
  rw [Nat.mul_comm] at hsplit
  suffices hpair : ∀ r : Word × Sig, r = (if 0 < ecmpm (m16m tquot den) num then
      if 0 < ecmpm (esubm den (m16m tquot den)) num then (tquot - 2, esubm den (esubm den (m16m tquot den)))
      else (tquot - 1, esubm den (m16m tquot den)) else (tquot, m16m tquot den)) →
      r.1.toNat = sigValue num / sigValue den ∧ sigValue r.2 = sigValue num / sigValue den * sigValue den by
    obtain ⟨hdigit, hvalue⟩ := hpair _ rfl
    exact ⟨hdigit, rest_value hlow hhigh hvalue⟩
  rintro r rfl
  generalize sigValue num / sigValue den = q at hbounds hsplit ⊢
  -- how much too high the digit is
  obtain ⟨k, hk⟩ := Nat.exists_eq_add_of_le hbounds.1
  have hmul : (q + k) * sigValue den = q * sigValue den + k * sigValue den := Nat.add_mul _ _ _
  rw [hk] at hprod
  have hone : (1 : Word).toNat = 1 ∧ (2 : Word).toNat = 2 := ⟨rfl, rfl⟩
  obtain rfl | hk1 := Nat.eq_zero_or_pos k
  · have hno : ¬ 0 < ecmpm (m16m tquot den) num := fun hgt => by
      have := (ecmpm_pos_iff _ _).1 hgt
      omega
    rw [if_neg hno]
    exact ⟨hk, hprod⟩
  · have hle : sigValue den ≤ k * sigValue den := Nat.le_mul_of_pos_left _ hk1
    have hsub := esubm_value den (m16m tquot den) (by omega)
    rw [if_pos ((ecmpm_pos_iff _ _).2 (by omega))]
    obtain rfl | hk2 : k = 1 ∨ k = 2 := by omega
    · have hno : ¬ 0 < ecmpm (esubm den (m16m tquot den)) num := fun hgt => by
        have := (ecmpm_pos_iff _ _).1 hgt
        omega
      rw [if_neg hno]
      have hvalue : sigValue (esubm den (m16m tquot den)) = q * sigValue den := by omega
      refine ⟨?_, hvalue⟩
      rw [BitVec.toNat_sub, hone.1]
      omega
    · subst hk2
      have hsub' := esubm_value den (esubm den (m16m tquot den)) (by omega)
      rw [if_pos ((ecmpm_pos_iff _ _).2 (by omega))]
      have hvalue : sigValue (esubm den (esubm den (m16m tquot den))) = q * sigValue den := by omega
      refine ⟨?_, hvalue⟩
      rw [BitVec.toNat_sub, hone.2]
      omega

theorem edivmLoop_value (hlow : 2 ^ 95 ≤ sigValue den) (hhigh : sigValue den < 2 ^ 96) (n : Nat)
    (hnum : sigValue num < 2 ^ 16 * sigValue den) :
    let r := edivmLoop den n num
    sigValue num * (2 ^ 16) ^ n = value r.1.toList * (sigValue den * 2 ^ 16) + sigValue r.2 ∧
      sigValue r.2 < 2 ^ 16 * sigValue den := by
  induction n generalizing num with
  | zero =>
    refine ⟨?_, hnum⟩
    change _ = 0 * _ + sigValue num
    rw [Nat.pow_zero, Nat.mul_one, Nat.zero_mul, Nat.zero_add]
  | succ n ih =>
    obtain ⟨hdigit, hrest⟩ := edivmStep_value hlow hhigh hnum
    have hmod := Nat.mod_lt (sigValue num) (by omega : 0 < sigValue den)
    obtain ⟨heq, hlt⟩ := ih (by omega : sigValue (edivmStep den num).2 < 2 ^ 16 * sigValue den)
    refine ⟨?_, hlt⟩
    have hcons : value ((edivmStep den num).1 ::ᵥ (edivmLoop den n (edivmStep den num).2).1).toList =
        (edivmStep den num).1.toNat * (2 ^ 16) ^ n + value (edivmLoop den n (edivmStep den num).2).1.toList := by
      rw [List.Vector.toList_cons, value_cons, List.Vector.toList_length]
    change _ = value ((edivmStep den num).1 ::ᵥ (edivmLoop den n (edivmStep den num).2).1).toList * _ +
      sigValue (edivmLoop den n (edivmStep den num).2).2
    rw [hcons, Nat.add_mul, Nat.add_assoc, ← heq, hdigit, hrest, Nat.pow_succ]
    conv_lhs => rw [← Nat.div_add_mod (sigValue num) (sigValue den)]
    ring

theorem foldl_or_eq_zero_iff (xs : List Word) (j : Word) :
    xs.foldl (· ||| ·) j = 0 ↔ j = 0 ∧ value xs = 0 := by
  rw [value_eq_zero_iff]
  induction xs generalizing j with
  | nil => simp
  | cons x xs ih =>
    have hor : j ||| x = 0 ↔ j = 0 ∧ x = 0 := BitVec.or_eq_zero_iff
    rw [List.foldl_cons, ih, hor, List.forall_mem_cons, and_assoc]

/-- The quotient of two significands, and whether there is a remainder. -/
theorem edivm_value (hlow : 2 ^ 95 ≤ sigValue den) (hhigh : sigValue den < 2 ^ 96) (hnum : sigValue num < 2 ^ 96)
    (heven : sigValue num % 2 = 0) :
    let r := edivm den num
    ∃ rest, sigValue num * 2 ^ 95 = sigValue r.2 * sigValue den + rest ∧ rest < sigValue den ∧
      (r.1 = true ↔ rest ≠ 0) := by
  have hhalf := eshdn1_value num
  have hstart : sigValue (eshdn1 num) < 2 ^ 16 * sigValue den := by omega
  obtain ⟨heq, hlt⟩ := edivmLoop_value hlow hhigh 7 hstart
  rw [hhalf] at heq
  unfold edivm
  dsimp only
  rw [decide_eq_true_eq, Ne, foldl_or_eq_zero_iff]
  change ∃ rest, _ = value (edivmLoop den 7 (eshdn1 num)).1.toList * _ + _ ∧ _ ∧
    (¬ (_ ∧ sigValue (edivmLoop den 7 (eshdn1 num)).2 = 0) ↔ _)
  generalize edivmLoop den 7 (eshdn1 num) = r at heq hlt ⊢
  rw [← Nat.pow_mul, ← Nat.mul_assoc (value r.1.toList)] at heq
  have hscale : sigValue num / 2 * 2 ^ (16 * 7) = sigValue num * 2 ^ 95 * 2 ^ 16 := by
    obtain ⟨k, hk⟩ := Nat.dvd_of_mod_eq_zero heven
    rw [hk, Nat.mul_div_cancel_left k Nat.two_pos]
    ring
  obtain ⟨q, hq⟩ : ∃ q, q = sigValue num * 2 ^ 95 := ⟨_, rfl⟩
  rw [hscale, ← hq] at heq
  rw [← hq]
  generalize value r.1.toList * sigValue den = p at heq ⊢
  clear hq hscale hstart
  refine ⟨sigValue r.2 / 2 ^ 16, by omega, by omega, ?_⟩
  rw [not_and]
  exact ⟨fun hne => by have := hne rfl; omega, fun hne _ => by omega⟩

end Quotients

section Multiply

variable {b : Sig}

/-- The words of the first factor from the last one up: the product so far, with what has been shifted out. -/
theorem emulmLoop_value (hb : sigValue b < 2 ^ 96) (xs : List Word) :
    let r := xs.foldr (emulmStep b) (0, zeros 7)
    sigValue r.2 < 2 ^ 96 ∧ ∃ out, value xs * sigValue b = sigValue r.2 * (2 ^ 16) ^ xs.length + out ∧
      out < (2 ^ 16) ^ xs.length ∧ (r.1 ≠ 0 ↔ out ≠ 0) := by
  induction xs with
  | nil =>
    have hzero : sigValue (zeros 7) = 0 := sigValue_zeros
    refine ⟨?_, 0, ?_, Nat.one_pos, fun hne => absurd rfl hne, fun hne => absurd rfl hne⟩
    · change sigValue (zeros 7) < _
      omega
    · change 0 * _ = sigValue (zeros 7) * _ + 0
      rw [hzero, Nat.zero_mul, Nat.zero_mul]
  | cons x xs ih =>
    obtain ⟨hlt, out, heq, hout, hlost⟩ := ih
    rw [List.foldr_cons]
    generalize xs.foldr (emulmStep b) (0, zeros 7) = r at hlt heq hlost
    have hx := x.isLt
    have hprod : x.toNat * sigValue b ≤ (2 ^ 16 - 1) * (2 ^ 96 - 1) := Nat.mul_le_mul (by omega) (by omega)
    have hsum : sigValue (if x = 0 then r.2 else eaddm (m16m x b) r.2) = x.toNat * sigValue b + sigValue r.2 := by
      split_ifs with hzero
      · rw [hzero]
        change _ = 0 * _ + _
        rw [Nat.zero_mul, Nat.zero_add]
      · rw [eaddm_value, m16m_value x hb]
        omega
    unfold emulmStep
    dsimp only
    generalize (if x = 0 then r.2 else eaddm (m16m x b) r.2) = equot at hsum
    have hlast := toNat_word equot (by decide : 2 ≤ 8) (by decide)
    have hpow : (2 ^ 16) ^ (xs.length + 1) = (2 ^ 16) ^ xs.length * 2 ^ 16 := pow_succ _ _
    rw [eshdn6_value, value_cons, List.length_cons, hpow]
    have hor : r.1 ||| word equot 8 ≠ 0 ↔ r.1 ≠ 0 ∨ word equot 8 ≠ 0 := by
      have hor : r.1 ||| word equot 8 = 0 ↔ r.1 = 0 ∧ word equot 8 = 0 := BitVec.or_eq_zero_iff
      rw [Ne, hor, not_and_or]
    have hword : word equot 8 ≠ 0 ↔ sigValue equot % 2 ^ 16 ≠ 0 := by
      rw [Ne, ← BitVec.toNat_inj, hlast]
      change ¬ sigValue equot / 2 ^ 0 % 2 ^ 16 = 0 ↔ _
      rw [Nat.pow_zero, Nat.div_one]
    rw [hor, hword, hlost]
    generalize (2 ^ 16) ^ xs.length = P at heq hout ⊢
    have hsplit := Nat.div_add_mod (sigValue equot) (2 ^ 16)
    have hmod := Nat.mod_lt (sigValue equot) (by decide : 0 < 2 ^ 16)
    refine ⟨by omega, sigValue equot % 2 ^ 16 * P + out, ?_, ?_, ?_⟩
    · calc (x.toNat * P + value xs) * sigValue b = x.toNat * sigValue b * P + value xs * sigValue b := by ring
        _ = sigValue equot * P + out := by
          rw [heq, hsum]
          ring
        _ = (2 ^ 16 * (sigValue equot / 2 ^ 16) + sigValue equot % 2 ^ 16) * P + out := by rw [hsplit]
        _ = _ := by ring
    · have hle : (sigValue equot % 2 ^ 16 + 1) * P ≤ 2 ^ 16 * P := Nat.mul_le_mul_right P hmod
      rw [Nat.succ_mul] at hle
      rw [Nat.mul_comm P]
      omega
    · have hP : 0 < P := by omega
      have hzero : sigValue equot % 2 ^ 16 * P = 0 ↔ sigValue equot % 2 ^ 16 = 0 := by
        rw [Nat.mul_eq_zero, or_iff_left hP.ne']
      omega

/-- The product of two significands, and whether something has been shifted out. -/
theorem emulm_value {a : Sig} (ha : sigValue a < 2 ^ 96) (hb : sigValue b < 2 ^ 96) :
    let r := emulm a b
    ∃ out, sigValue a * sigValue b = sigValue r.2 * 2 ^ 96 + out ∧ out < 2 ^ 96 ∧ (r.1 = true ↔ out ≠ 0) := by
  obtain ⟨-, out, heq, hlt, hlost⟩ := emulmLoop_value hb a.tail.toList
  rw [tail_value ha, a.tail.toList_length, ← Nat.pow_mul] at heq
  rw [a.tail.toList_length, ← Nat.pow_mul] at hlt
  refine ⟨out, heq, hlt, ?_⟩
  unfold emulm
  rw [decide_eq_true_eq]
  exact hlost

end Multiply

section Shift

variable {x : Sig}

theorem mod_two_pow_add (v a b : Nat) : v % 2 ^ (a + b) = 0 ↔ v % 2 ^ a = 0 ∧ v / 2 ^ a % 2 ^ b = 0 := by
  rw [Nat.pow_add, Nat.mod_mul, Nat.add_eq_zero_iff, Nat.mul_eq_zero, or_iff_right (Nat.two_pow_pos a).ne']

/-- A number of shifts down by `k` bits, with the bits that are lost. -/
theorem iterate_shift_down {step : Sig → Sig} {mask : Word} {k : Nat} (hk : k ≤ 16)
    (hstep : ∀ x, sigValue (step x) = sigValue x / 2 ^ k) (hmask : mask.toNat = 2 ^ k - 1) (n : Nat) (r : Word × Sig) :
    let r' := (fun r : Word × Sig => (r.1 ||| word r.2 8 &&& mask, step r.2))^[n] r
    sigValue r'.2 = sigValue r.2 / 2 ^ (k * n) ∧ (r'.1 ≠ 0 ↔ r.1 ≠ 0 ∨ sigValue r.2 % 2 ^ (k * n) ≠ 0) := by
  induction n generalizing r with
  | zero =>
    refine ⟨(Nat.div_one _).symm, ?_⟩
    rw [Nat.mul_zero, Nat.pow_zero, Nat.mod_one]
    exact (or_iff_left fun h => h rfl).symm
  | succ n ih =>
    obtain ⟨hvalue, hlost⟩ := ih (r.1 ||| word r.2 8 &&& mask, step r.2)
    rw [Function.iterate_succ_apply]
    dsimp only at hvalue hlost ⊢
    rw [hvalue, hlost, hstep, Nat.div_div_eq_div_mul, ← Nat.pow_add, Nat.mul_succ, Nat.add_comm k]
    refine ⟨rfl, ?_⟩
    have hword : word r.2 8 &&& mask ≠ 0 ↔ sigValue r.2 % 2 ^ k ≠ 0 := by
      have hlast := toNat_word r.2 (by decide : 2 ≤ 8) (by decide)
      rw [Ne, ← BitVec.toNat_inj, BitVec.toNat_and, hmask, Nat.and_two_pow_sub_one_eq_mod, hlast]
      change ¬ sigValue r.2 / 2 ^ 0 % 2 ^ 16 % 2 ^ k = 0 ↔ _
      rw [Nat.pow_zero, Nat.div_one, Nat.mod_mod_of_dvd _ (Nat.pow_dvd_pow 2 hk)]
    have hor : r.1 ||| word r.2 8 &&& mask ≠ 0 ↔ r.1 ≠ 0 ∨ word r.2 8 &&& mask ≠ 0 := by
      have hor : r.1 ||| word r.2 8 &&& mask = 0 ↔ r.1 = 0 ∧ word r.2 8 &&& mask = 0 := BitVec.or_eq_zero_iff
      rw [Ne, hor, not_and_or]
    rw [hor, hword, Ne, Ne, Ne, Ne, Nat.add_comm (k * n), mod_two_pow_add]
    tauto

theorem iterate_shift_up {step : Sig → Sig} {k : Nat} (hstep : ∀ x, sigValue (step x) = sigValue x * 2 ^ k % 2 ^ 112)
    (n : Nat) (x : Sig) : sigValue (step^[n] x) = sigValue x * 2 ^ (k * n) % 2 ^ 112 := by
  induction n generalizing x with
  | zero => rw [Nat.mul_zero, Nat.pow_zero, Nat.mul_one, Nat.mod_eq_of_lt (sigValue_lt x)]; rfl
  | succ n ih =>
    rw [Function.iterate_succ_apply, ih, hstep, Nat.mod_mul_mod, Nat.mul_assoc, ← Nat.pow_add, Nat.mul_succ,
      Nat.add_comm k]

theorem eshift_down (x : Sig) (n : Nat) (hn : n ≠ 0) :
    sigValue (eshift x (-n)).2 = sigValue x / 2 ^ n ∧ ((eshift x (-n)).1 = true ↔ sigValue x % 2 ^ n ≠ 0) := by
  have hneg : (-(n : Int)) < 0 := by omega
  unfold eshift
  rw [if_pos hneg, Int.natAbs_neg, Int.natAbs_natCast]
  dsimp only
  rw [decide_eq_true_eq]
  obtain ⟨hv16, hl16⟩ :=
    iterate_shift_down (le_refl 16) eshdn6_value (rfl : (0xffff : Word).toNat = _) (n / 16) (0, x)
  generalize (fun r : Word × Sig => (r.1 ||| word r.2 8 &&& 0xffff, eshdn6 r.2))^[n / 16] (0, x) = r
    at hv16 hl16 ⊢
  obtain ⟨hv8, hl8⟩ := iterate_shift_down (by decide : 8 ≤ 16) eshdn8_value (rfl : (0xff : Word).toNat = _) (n % 16 / 8) r
  generalize (fun r : Word × Sig => (r.1 ||| word r.2 8 &&& 0xff, eshdn8 r.2))^[n % 16 / 8] r = r' at hv8 hl8 ⊢
  obtain ⟨hv1, hl1⟩ := iterate_shift_down (by decide : 1 ≤ 16) eshdn1_value (rfl : (1 : Word).toNat = _) (n % 8) r'
  have hsum : 16 * (n / 16) + (8 * (n % 16 / 8) + 1 * (n % 8)) = n := by omega
  rw [hv1, hl1, hl8, hl16, hv8, hv16, Nat.div_div_eq_div_mul, Nat.div_div_eq_div_mul, ← Nat.pow_add, ← Nat.pow_add,
    hsum]
  refine ⟨rfl, ?_⟩
  dsimp only
  have hmod : sigValue x % 2 ^ n = 0 ↔ sigValue x % 2 ^ (16 * (n / 16)) = 0 ∧
      sigValue x / 2 ^ (16 * (n / 16)) % 2 ^ (8 * (n % 16 / 8)) = 0 ∧
      sigValue x / 2 ^ (16 * (n / 16)) / 2 ^ (8 * (n % 16 / 8)) % 2 ^ (1 * (n % 8)) = 0 := by
    rw [← mod_two_pow_add, ← mod_two_pow_add, hsum]
  rw [Ne, Ne, Ne, Ne, Ne, hmod]
  tauto

theorem eshift_up (x : Sig) (n : Nat) : sigValue (eshift x n).2 = sigValue x * 2 ^ n % 2 ^ 112 := by
  have hneg : ¬ (n : Int) < 0 := by omega
  unfold eshift
  rw [if_neg hneg, Int.natAbs_natCast]
  dsimp only
  rw [iterate_shift_up (k := 1) eshup1_value, iterate_shift_up eshup8_value, iterate_shift_up eshup6_value,
    Nat.mod_mul_mod, Nat.mul_assoc, ← Nat.pow_add, Nat.mod_mul_mod, Nat.mul_assoc, ← Nat.pow_add]
  congr 3
  omega

end Shift

end Z80Gcc.Emulator
