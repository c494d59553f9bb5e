import Z80Gcc.Proofs.ETypeIeee
import Z80Gcc.Proofs.ETypeProduct
import Z80Gcc.Spec.ETypeInteger

/-! Integers are converted exactly, and rounded once; a real is cut into its integer part and its fraction, but for the
sign of a fraction that was negative. -/

namespace Z80Gcc.Emulator

open WordList BinaryFloat

section Holds

/-- A finite number, in units of smallest denormals. -/
structure Holds (x : EType) (neg : Bool) (n : Nat) : Prop where
  wellFormed : x.WellFormed
  finite : x.exponent ≠ 0x7fff
  sign : eisneg x = neg
  magnitude : x.magnitude = n

def Representable (n : Nat) : Prop :=
  ∃ exp sig, n = sig * 2 ^ exp ∧ exp < 0x7fff ∧ sig < 2 ^ 80 ∧ (exp ≠ 0 → 2 ^ 79 ≤ sig)

variable {x y : EType} {neg neg' : Bool} {m n e : Nat}

theorem holds_encode {exp sig : Nat} (hexp : exp < 0x7fff) (hsig : sig < 2 ^ 80) (hnormal : exp ≠ 0 → 2 ^ 79 ≤ sig) :
    Holds (encode neg exp sig) neg (sig * 2 ^ exp) := by
  have hfield : (encode neg exp sig).exponent = exp := exponent_encode (by omega)
  refine ⟨wellFormed_encode hexp hsig hnormal, by omega, eisneg_encode (by omega), ?_⟩
  rw [EType.magnitude, hfield, significand_encode hsig]

theorem Holds.number_eq (h : Holds x neg n) : x.number = .finite neg n unitsInOne := by
  rw [number_finite h.finite, h.sign, h.magnitude]

theorem Holds.representable (h : Holds x neg n) : Representable n := by
  have hin := movedIn_emovi h.wellFormed h.finite
  exact ⟨_, _, h.magnitude.symm, hin.exp_lt, hin.sig_lt, hin.normal⟩

/-- A number that does not have more bits is shifted up until it is normal. -/
theorem representable_of_dvd (hdvd : 2 ^ e ∣ n) (hlt : n < 2 ^ (80 + e)) (he : e < 0x7fff) : Representable n := by
  induction e with
  | zero => exact ⟨0, n, (Nat.mul_one n).symm, he, hlt, fun h => absurd rfl h⟩
  | succ e ih =>
    obtain ⟨sig, rfl⟩ := hdvd
    by_cases hnormal : 2 ^ 79 ≤ sig
    · have hsig : sig < 2 ^ 80 := by
        rw [Nat.mul_comm, Nat.pow_add 2 80] at hlt
        exact Nat.lt_of_mul_lt_mul_right hlt
      exact ⟨e + 1, sig, Nat.mul_comm _ _, he, hsig, fun _ => hnormal⟩
    · refine ih (Dvd.intro (2 * sig) (by ring)) ?_ (by omega)
      calc 2 ^ (e + 1) * sig < 2 ^ (e + 1) * 2 ^ 79 := Nat.mul_lt_mul_of_pos_left (not_le.1 hnormal) (Nat.two_pow_pos _)
        _ = 2 ^ (80 + e) := by ring

theorem Representable.mul_two_pow (h : Representable n) {k b : Nat} (hb : b ≤ 16600) (hlt : n * 2 ^ k < 2 ^ b) :
    Representable (n * 2 ^ k) := by
  obtain ⟨exp, sig, rfl, hexp, hsig, hnormal⟩ := h
  by_cases hzero : sig = 0
  · exact ⟨0, 0, by rw [hzero, Nat.zero_mul, Nat.zero_mul, Nat.zero_mul], by decide, by decide, fun h => absurd rfl h⟩
  refine representable_of_dvd (e := exp + k) (Dvd.intro_left sig (by ring)) ?_ ?_
  · calc sig * 2 ^ exp * 2 ^ k = sig * 2 ^ (exp + k) := by ring
      _ < 2 ^ 80 * 2 ^ (exp + k) := Nat.mul_lt_mul_of_pos_right hsig (Nat.two_pow_pos _)
      _ = 2 ^ (80 + (exp + k)) := by ring
  · have hpow : 2 ^ (exp + k) < 2 ^ b := by
      calc 2 ^ (exp + k) ≤ sig * 2 ^ (exp + k) := Nat.le_mul_of_pos_left _ (Nat.pos_of_ne_zero hzero)
        _ = sig * 2 ^ exp * 2 ^ k := by ring
        _ < 2 ^ b := hlt
    have hlt' := (Nat.pow_lt_pow_iff_right (by decide)).1 hpow
    omega

/-- What is a number of the format is not changed by the rounding. -/
theorem holds_ofBits (h : Representable n) {d : Nat} (hd : 0 < d) : Holds (ofBits neg (roundMagnitude 79 (n * d) d)) neg n := by
  obtain ⟨exp, sig, rfl, hexp, hsig, hnormal⟩ := h
  rw [roundMagnitude_exact hsig hnormal hd, ofBits_encode hexp hsig hnormal]
  exact holds_encode hexp hsig hnormal

theorem eneg_encode {exp sig : Nat} (hexp : exp < 2 ^ 15) : eneg (encode neg exp sig) = encode (!neg) exp sig := by
  have hlow : (BitVec.ofNat 16 exp).getLsbD 15 = false := by
    rw [BitVec.getLsbD_ofNat, Nat.testBit_lt_two_pow hexp, Bool.and_false]
  have hbit (i : Nat) (hi : i < 16) : (0x8000 : Word)[i] = decide (i = 15) := by
    have htwo : (0x8000 : Word) = BitVec.twoPow 16 15 := rfl
    rw [htwo, BitVec.getElem_twoPow]
  unfold eneg encode
  dsimp only
  congr 1
  have hclear : (BitVec.ofNat 16 exp)[15] = false := hlow
  generalize BitVec.ofNat 16 exp = w at hclear
  have hzero : w ||| 0 = w := BitVec.or_zero
  cases neg with
  | false =>
    rw [if_neg Bool.false_ne_true, hzero, Bool.not_false, if_pos rfl]
    ext i hi
    rw [BitVec.getElem_xor, BitVec.getElem_or, hbit i hi]
    by_cases h15 : i = 15
    · subst h15
      rw [hclear]
      rfl
    · rw [decide_eq_false h15, Bool.xor_false, Bool.or_false]
  | true =>
    rw [if_pos rfl, Bool.not_true, if_neg Bool.false_ne_true, hzero]
    ext i hi
    rw [BitVec.getElem_xor, BitVec.getElem_or, hbit i hi]
    by_cases h15 : i = 15
    · subst h15
      rw [hclear]
      rfl
    · rw [decide_eq_false h15, Bool.xor_false, Bool.or_false]

theorem Holds.eneg (h : Holds x neg n) : Holds (eneg x) (!neg) n := by
  obtain ⟨hwell, hfin, hsign, hmagnitude⟩ := h
  have hin := movedIn_emovi hwell hfin
  have hparts := @eneg_encode (eisneg x) _ x.significand (exponent_lt x)
  rw [encode_parts, hsign] at hparts
  rw [hparts, ← hmagnitude]
  exact holds_encode hin.exp_lt hin.sig_lt hin.normal

end Holds

section Operations

variable {c : RoundControl} {x y old : EType} {s t : Bool} {m n p e : Nat}

theorem Holds.significand_ne_zero (h : Holds x s m) (hm : m ≠ 0) : x.significand ≠ 0 := by
  intro hzero
  have hmagnitude := h.magnitude
  rw [magnitude_eq_zero_iff.2 hzero] at hmagnitude
  exact hm hmagnitude.symm

theorem emul_exact (hc : c.rndprc = .nbits) (hx : Holds x s m) (hy : Holds y t n) (hp : m * n = p * unitsInOne)
    (hrep : Representable p) : Holds (emul c x y old).1 (s ^^ t) p := by
  rw [emul_finite hc hx.wellFormed hy.wellFormed hx.finite hy.finite, hx.sign, hy.sign, hx.magnitude, hy.magnitude, hp]
  exact holds_ofBits hrep (Nat.two_pow_pos _)

theorem ediv_exact (hc : c.rndprc = .nbits) (hx : Holds x s m) (hy : Holds y t n) (hm : m ≠ 0)
    (hp : n * unitsInOne = p * m) (hrep : Representable p) : Holds (ediv c x y old).1 (s ^^ t) p := by
  rw [ediv_finite hc hx.wellFormed hy.wellFormed hx.finite hy.finite (hx.significand_ne_zero hm), hx.sign, hy.sign,
    hx.magnitude, hy.magnitude, hp]
  exact holds_ofBits hrep (Nat.pos_of_ne_zero hm)

/-- A sum that has no more bits than the format loses none. -/
theorem not_losesBit {es S eb B : Nat} (hdvd : 2 ^ e ∣ S * 2 ^ es + B * 2 ^ eb)
    (hlt : S * 2 ^ es + B * 2 ^ eb < 2 ^ (80 + e)) : ¬ LosesBit es S eb B := by
  rintro ⟨hle, -, hrest, hcarry, -⟩
  obtain ⟨k, rfl⟩ := Nat.exists_eq_add_of_le hle
  have hdist : es + 16 + k - es = 16 + k := by omega
  rw [hdist] at hrest hcarry
  have hfew : 16 + k - 16 = k := Nat.add_sub_cancel_left ..
  rw [hfew] at hrest
  have hsplit := Nat.div_add_mod S (2 ^ (16 + k))
  have hsum : S * 2 ^ es + B * 2 ^ (es + 16 + k) =
      (B + S / 2 ^ (16 + k)) * 2 ^ (es + 16 + k) + 2 ^ (es + k) := by
    calc _ = (2 ^ (16 + k) * (S / 2 ^ (16 + k)) + S % 2 ^ (16 + k)) * 2 ^ es + B * 2 ^ (es + 16 + k) := by rw [hsplit]
      _ = _ := by
        rw [hrest]
        ring
  rw [hsum] at hdvd hlt
  have hbig : es + 16 + k < e := by
    have hpow : 2 ^ 80 * 2 ^ (es + 16 + k) < 2 ^ 80 * 2 ^ e := by
      calc _ ≤ (B + S / 2 ^ (16 + k)) * 2 ^ (es + 16 + k) := Nat.mul_le_mul_right _ hcarry
        _ ≤ (B + S / 2 ^ (16 + k)) * 2 ^ (es + 16 + k) + 2 ^ (es + k) := Nat.le_add_right _ _
        _ < 2 ^ (80 + e) := hlt
        _ = 2 ^ 80 * 2 ^ e := Nat.pow_add 2 80 e
    exact (Nat.pow_lt_pow_iff_right (by decide)).1 (Nat.lt_of_mul_lt_mul_left hpow)
  have hdvd' : 2 ^ (es + 16 + k) ∣ 2 ^ (es + k) :=
    (Nat.dvd_add_right (Dvd.intro_left _ rfl)).1 ((Nat.pow_dvd_pow 2 hbig.le).trans hdvd)
  have hexp := Nat.pow_dvd_pow_iff_le_right (by decide) |>.1 hdvd'
  omega

theorem eadd_exact (hc : c.rndprc = .nbits) (hx : Holds x s m) (hy : Holds y s n) (hdvd : 2 ^ e ∣ m + n)
    (hlt : m + n < 2 ^ (80 + e)) (he : e < 0x7fff) : Holds (eadd c x y).1 s (m + n) := by
  have hkept : ¬ LosesCarry x y := by
    have hm := hx.magnitude
    have hn := hy.magnitude
    unfold EType.magnitude at hm hn
    rintro (hlost | hlost)
    · exact not_losesBit (e := e) (by rwa [hm, hn]) (by rwa [hm, hn]) hlost
    · exact not_losesBit (e := e) (by rwa [hm, hn, Nat.add_comm]) (by rwa [hm, hn, Nat.add_comm]) hlost
  have hright := (eadd_right_iff hc hx.wellFormed hy.wellFormed).2 fun hbad => hkept hbad.2
  rw [hx.number_eq, hy.number_eq, stores_add] at hright
  have hhold := @holds_ofBits s _ (representable_of_dvd hdvd hlt he) 1 Nat.one_pos
  rw [Nat.mul_one] at hhold
  rw [hright]
  unfold sumOf
  rwa [if_pos rfl]

theorem eldexp_exact (hc : c.rndprc = .nbits) (hx : Holds x s m) (k : Nat) (hm : m ≠ 0)
    (hrep : Representable (m * 2 ^ k)) : Holds (eldexp c x k).1 s (m * 2 ^ k) := by
  have hin := movedIn_emovi hx.wellFormed hx.finite
  have hexp := hin.exp_eq
  have hsig := hin.sig_eq
  have hlt := hin.sig_lt
  have hne := hx.significand_ne_zero hm
  have hcov : Covers (sigValue (emovi x).sig) false false (m * 2 ^ k * 2 ^ (16 + 0)) (1 * 2 ^ (x.exponent + k)) 0 := by
    refine ⟨one_dvd _, ?_⟩
    rw [if_neg Bool.false_ne_true, hsig, ← hx.magnitude, EType.magnitude]
    ring
  have hright := @emdnorm_number _ _ _ _ _ _ _ (emovi x) (x.exponent + k) hc (by push_cast; ring) Nat.one_pos hcov (by omega)
    (by omega) (fun h => absurd h Bool.false_ne_true) (fun h => absurd h Bool.false_ne_true)
  have hhold := @holds_ofBits s _ hrep 1 Nat.one_pos
  rw [Nat.mul_one] at hhold
  rw [hin.sign_ne_zero, hx.sign] at hright
  unfold eldexp
  dsimp only
  rw [hexp, hright]
  exact hhold

end Operations

section Control

variable {c : RoundControl}

theorem emdnorm_rndprc (s : Exploded) (lost subflg : Bool) (exp : Int) (n : Nat) :
    (emdnorm c s lost subflg exp n).2.rndprc = c.rndprc := by
  unfold emdnorm
  dsimp only
  split_ifs
  all_goals first
    | rfl
    | exact setUp_rndprc c

theorem eldexp_rndprc (x : EType) (k : Int) : (eldexp c x k).2.rndprc = c.rndprc := emdnorm_rndprc _ _ _ _ _

theorem emul_rndprc (a b old : EType) : (emul c a b old).2.rndprc = c.rndprc := by
  unfold emul
  dsimp only
  split_ifs
  · rfl
  · rfl
  · rfl
  · rfl
  · cases normalizeTiny (emovi a) with
    | none => rfl
    | some ai =>
      cases normalizeTiny (emovi b) with
      | none => rfl
      | some bi => exact emdnorm_rndprc _ _ _ _ _

theorem ediv_rndprc (a b old : EType) : (ediv c a b old).2.rndprc = c.rndprc := by
  unfold ediv
  dsimp only
  split_ifs
  · rfl
  · rfl
  · rfl
  · rfl
  · rfl
  · cases normalizeTiny (emovi b) with
    | none => rfl
    | some bi =>
      cases normalizeTiny (emovi a) with
      | none => rfl
      | some ai => exact emdnorm_rndprc _ _ _ _ _

end Control

section Words

variable {x : EType} {n : Nat}

theorem holds_emovo {a : Exploded} {sig : Nat} (hexp : a.exp.toNat < 0x7fff) (hsig : sigValue a.sig = sig * 2 ^ 16)
    (hlt : sig < 2 ^ 80) (hnormal : a.exp.toNat ≠ 0 → 2 ^ 79 ≤ sig) :
    Holds (emovo a) (a.sign ≠ 0) (sig * 2 ^ a.exp.toNat) := by
  rw [emovo_encode hexp (by rw [hsig]; exact Nat.mul_div_left sig (by decide)) hlt]
  exact holds_encode hexp hlt hnormal

theorem emovo_zero : emovo ⟨0, 0, zeros 7⟩ = eclear := by decide

theorem holds_eclear : Holds eclear false 0 := by
  have hzero : eclear = encode false 0 0 := by decide
  rw [hzero]
  exact holds_encode (by decide) (by decide) fun h => absurd rfl h

theorem toNat_count {e : Nat} {k : Int} (he : e < 2 ^ 15) (hlow : -(2 ^ 14) ≤ k) (hhigh : k ≤ e) :
    (BitVec.ofInt 16 e - BitVec.ofInt 16 k).toNat = (e - k).toNat := by
  rw [BitVec.toNat_sub, BitVec.toNat_ofInt, BitVec.toNat_ofInt]
  omega

/-- A significand is normalized under its exponent; nothing is lost. -/
theorem holds_placed {sig : Sig} {v e : Nat} (sign : Word) (hsig : sigValue sig = v * 2 ^ 16)
    (hv : v < 2 ^ 80 ∨ 2 ^ 16 ∣ v) (he : 81 ≤ e) (he' : e < 2 ^ 14 + 16) :
    Holds (if nbits < (enormlz sig).1 then emovo ⟨0, 0, zeros 7⟩
      else emovo ⟨sign, BitVec.ofInt 16 e - BitVec.ofInt 16 (enormlz sig).1, (enormlz sig).2⟩)
      (decide (sign ≠ 0) && decide (v ≠ 0)) (v * 2 ^ e) := by
  have hlt := sigValue_lt sig
  by_cases hzero : v = 0
  · have hzeros : sig = zeros 7 := sigValue_injective (by rw [hsig, sigValue_zeros, hzero, Nat.zero_mul])
    rw [hzeros, enormlz_zero, if_pos (by decide), emovo_zero, hzero, Nat.zero_mul, decide_eq_false (not_not_intro rfl),
      Bool.and_false]
    exact holds_eclear
  rw [decide_eq_true hzero, Bool.and_true]
  by_cases hhigh : sigValue sig < 2 ^ 96
  · obtain ⟨j, hcount, hj, hvalue, hlow, hlt'⟩ := enormlz_up (x := sig) (by omega) hhigh
    have hexp := toNat_count (e := e) (k := j) (by omega) (by omega) (by omega)
    have hfield : ((e : Int) - j).toNat = e - j := by omega
    have hfits : ¬ nbits < (j : Int) := by
      unfold nbits
      omega
    have hvalue' : sigValue (enormlz sig).2 = v * 2 ^ j * 2 ^ 16 := by
      rw [hvalue, hsig]
      ring
    rw [hvalue'] at hlow hlt'
    rw [hcount, if_neg hfits]
    have hhold := @holds_emovo ⟨sign, BitVec.ofInt 16 e - BitVec.ofInt 16 j, (enormlz sig).2⟩ (v * 2 ^ j)
      (by rw [hexp]; omega) hvalue' (by omega) (fun _ => by omega)
    have hpow : 2 ^ j * 2 ^ (e - j) = 2 ^ e := by rw [← Nat.pow_add, Nat.add_sub_cancel' (by omega)]
    rw [hexp, hfield, Nat.mul_assoc, hpow] at hhold
    exact hhold
  · obtain ⟨j, hcount, hvalue, hlow, hlt'⟩ := enormlz_down (not_lt.1 hhigh)
    have hj : j ≤ 16 := by
      by_contra hbig
      have hpow : 2 ^ 17 ≤ 2 ^ j := Nat.pow_le_pow_right (by decide) (by omega)
      have hle := Nat.div_le_div_left (a := sigValue sig) hpow (by decide)
      rw [hvalue] at hlow
      have hmost := hlow.trans hle
      omega
    have hdvd : 2 ^ j ∣ v := (Nat.pow_dvd_pow 2 hj).trans (hv.resolve_left (by omega))
    obtain ⟨u, rfl⟩ := hdvd
    have hexp := toNat_count (e := e) (k := -j) (by omega) (by omega) (by omega)
    have hfield : ((e : Int) - -j).toNat = e + j := by omega
    have hfits : ¬ nbits < -(j : Int) := by
      unfold nbits
      omega
    rw [hsig, Nat.mul_assoc, Nat.mul_div_cancel_left _ (Nat.two_pow_pos j)] at hvalue
    rw [hcount, if_neg hfits]
    have hhold := @holds_emovo ⟨sign, BitVec.ofInt 16 e - BitVec.ofInt 16 (-j), (enormlz sig).2⟩ u
      (by rw [hexp]; omega) hvalue (by omega) (fun _ => by omega)
    have hpow : u * 2 ^ (e + j) = 2 ^ j * u * 2 ^ e := by ring
    rw [hexp, hfield, hpow] at hhold
    exact hhold

theorem fromWord_exact (sign : Word) (ll : HostWord) :
    Holds (fromWord sign ll) (decide (sign ≠ 0) && decide (ll.toNat ≠ 0)) (ll.toNat * unitsInOne) := by
  have hll := ll.isLt
  have hhigh : ((ll >>> 16).setWidth 16).toNat = ll.toNat / 2 ^ 16 := by
    rw [BitVec.toNat_setWidth, BitVec.toNat_ushiftRight, Nat.shiftRight_eq_div_pow]
    omega
  have hlow : (ll.setWidth 16).toNat = ll.toNat % 2 ^ 16 := BitVec.toNat_setWidth ..
  have hsig : sigValue ((ll >>> 16).setWidth 16 ::ᵥ ll.setWidth 16 ::ᵥ zeros 5) = ll.toNat * 2 ^ 64 * 2 ^ 16 := by
    have hzero : value (zeros 5).toList = 0 := value_replicate_zero 5
    have hlist : ((ll >>> 16).setWidth 16 ::ᵥ ll.setWidth 16 ::ᵥ zeros 5).toList =
        (ll >>> 16).setWidth 16 :: ll.setWidth 16 :: (zeros 5).toList := rfl
    rw [sigValue, hlist, value_cons, value_cons, hzero, List.length_cons, (zeros 5).toList_length, ← Nat.pow_mul,
      ← Nat.pow_mul, hhigh, hlow]
    omega
  obtain ⟨e, he⟩ : ∃ e, e = 16398 := ⟨_, rfl⟩
  have hplaced := holds_placed (e := e) sign hsig (.inr ⟨ll.toNat * 2 ^ 48, by ring⟩) (by omega) (by omega)
  have hU : unitsInOne = 2 ^ (64 + e) := unitsInOne_eq (by rw [he]; rfl)
  have hne : decide (ll.toNat * 2 ^ 64 ≠ 0) = decide (ll.toNat ≠ 0) := decide_eq_decide.2 (by omega)
  rw [hne, Nat.mul_assoc, ← Nat.pow_add, ← hU, he] at hplaced
  exact hplaced

theorem ultoe_exact (ll : HostWord) : Holds (ultoe ll) false (ll.toNat * unitsInOne) := fromWord_exact 0 ll

end Words

section Cut

/-- Whole words are shifted out of the significand, and put together. -/
theorem shiftOut_loop (n : Nat) {r : HostWord × Sig} {v : Nat} (hll : r.1.toNat = v / 2 ^ 96 % 2 ^ 32)
    (hsig : sigValue r.2 = v % 2 ^ 112) :
    let r' := (fun r : HostWord × Sig => (r.1 <<< 16 ||| (word (eshup6 r.2) 2).setWidth 32, eshup6 r.2))^[n] r
    r'.1.toNat = v * 2 ^ (16 * n) / 2 ^ 96 % 2 ^ 32 ∧ sigValue r'.2 = v * 2 ^ (16 * n) % 2 ^ 112 := by
  induction n generalizing r v with
  | zero => simpa using ⟨hll, hsig⟩
  | succ n ih =>
    have hup := eshup6_value r.2
    have hword := toNat_word (eshup6 r.2) (by decide : 2 ≤ 2) (by decide)
    have hlt := (word (eshup6 r.2) 2).isLt
    have hwide : ((word (eshup6 r.2) 2).setWidth 32).toNat = (word (eshup6 r.2) 2).toNat := by
      rw [BitVec.toNat_setWidth]
      omega
    have hshift : (r.1 <<< 16).toNat = r.1.toNat % 2 ^ 16 * 2 ^ 16 := by
      rw [BitVec.toNat_shiftLeft, Nat.shiftLeft_eq]
      omega
    have hor : (r.1 <<< 16 ||| (word (eshup6 r.2) 2).setWidth 32).toNat =
        r.1.toNat % 2 ^ 16 * 2 ^ 16 + (word (eshup6 r.2) 2).toNat := by
      rw [toNat_or_of_dvd 16 (by rw [hshift]; exact Nat.dvd_mul_left _ _) (by rw [hwide]; exact hlt), hshift, hwide]
    rw [hsig] at hup
    have hnext := ih (v := v * 2 ^ 16) (r := (r.1 <<< 16 ||| (word (eshup6 r.2) 2).setWidth 32, eshup6 r.2))
      (by
        dsimp only
        rw [hor, hll, hword, hup]
        omega)
      (hup.trans (by omega))
    have hpow : v * 2 ^ 16 * 2 ^ (16 * n) = v * 2 ^ (16 * (n + 1)) := by ring
    rw [hpow] at hnext
    rw [Function.iterate_succ_apply]
    exact hnext

/-- The bits above the fraction, and what is left in the register. -/
theorem shiftOut_value {sig : Sig} {k : Nat} (hsig : sigValue sig < 2 ^ 96) (hk : k ≤ 32) :
    (shiftOut sig k).1.toNat = sigValue sig * 2 ^ k / 2 ^ 96 ∧
      sigValue (shiftOut sig k).2 = sigValue sig * 2 ^ k % 2 ^ 112 := by
  have hshift := eshift_up sig (k % 16)
  have hmod : k % 16 < 16 := Nat.mod_lt _ (by decide)
  have hpow : 2 ^ (k % 16) ≤ 2 ^ 15 := Nat.pow_le_pow_right (by decide) (by omega)
  have hfits : sigValue sig * 2 ^ (k % 16) < 2 ^ 112 := by
    calc _ ≤ sigValue sig * 2 ^ 15 := Nat.mul_le_mul_left _ hpow
      _ < 2 ^ 112 := by omega
  rw [Nat.mod_eq_of_lt hfits] at hshift
  have hword := toNat_word (eshift sig (k % 16 : Nat)).2 (by decide : 2 ≤ 2) (by decide)
  obtain ⟨hll, hrest⟩ := shiftOut_loop (k / 16)
    (r := ((word (eshift sig (k % 16 : Nat)).2 2).setWidth 32, (eshift sig (k % 16 : Nat)).2))
    (v := sigValue sig * 2 ^ (k % 16))
    (by
      dsimp only
      rw [BitVec.toNat_setWidth, hword, hshift]
      omega)
    (by
      dsimp only
      rw [hshift, Nat.mod_eq_of_lt hfits])
  have hall : sigValue sig * 2 ^ (k % 16) * 2 ^ (16 * (k / 16)) = sigValue sig * 2 ^ k := by
    rw [Nat.mul_assoc, ← Nat.pow_add, Nat.mod_add_div]
  have hquot : sigValue sig * 2 ^ k / 2 ^ 96 < 2 ^ 32 := by
    have hpow' : 2 ^ k ≤ 2 ^ 32 := Nat.pow_le_pow_right (by decide) hk
    rw [Nat.div_lt_iff_lt_mul (by decide)]
    calc _ ≤ sigValue sig * 2 ^ 32 := Nat.mul_le_mul_left _ hpow'
      _ < _ := by omega
  rw [hall] at hll hrest
  rw [Nat.mod_eq_of_lt hquot] at hll
  exact ⟨hll, hrest⟩

theorem shiftFew_value {sig : Sig} {k : Nat} (hsig : sigValue sig < 2 ^ 96) (hk : k ≤ 16) :
    (shiftFew sig k).1.toNat = sigValue sig * 2 ^ k / 2 ^ 96 ∧
      sigValue (shiftFew sig k).2 = sigValue sig * 2 ^ k % 2 ^ 112 := by
  have hshift := eshift_up sig k
  have hpow : 2 ^ k ≤ 2 ^ 16 := Nat.pow_le_pow_right (by decide) hk
  have hfits : sigValue sig * 2 ^ k < 2 ^ 112 := by
    calc _ ≤ sigValue sig * 2 ^ 16 := Nat.mul_le_mul_left _ hpow
      _ < 2 ^ 112 := by omega
  have hword := toNat_word (eshift sig k).2 (by decide : 2 ≤ 2) (by decide)
  have hmask : ((word (eshift sig k).2 2).setWidth 32 &&& 0xffff : HostWord).toNat = (word (eshift sig k).2 2).toNat := by
    have hlt := (word (eshift sig k).2 2).isLt
    rw [BitVec.toNat_and, BitVec.toNat_setWidth]
    have hand : (word (eshift sig k).2 2).toNat % 2 ^ 32 &&& (0xffff : HostWord).toNat =
        (word (eshift sig k).2 2).toNat % 2 ^ 32 % 2 ^ 16 := Nat.and_two_pow_sub_one_eq_mod _ 16
    rw [hand]
    omega
  refine ⟨?_, hshift⟩
  unfold shiftFew
  dsimp only
  rw [hmask, hword, hshift, Nat.mod_eq_of_lt hfits]
  omega

/-- What is left in the register under the high guard word. -/
theorem fractionOf_exact {sig : Sig} {v : Nat} (hsig : sigValue sig % 2 ^ 96 = v * 2 ^ 16) :
    Holds (fractionOf sig) false (v * 2 ^ 16382) := by
  have hcleared : sigValue (0 ::ᵥ sig.tail) = v * 2 ^ 16 := by
    obtain ⟨_ | ⟨w, ws⟩, hlen⟩ := sig
    · cases hlen
    have hws : ws.length = 6 := Nat.succ_injective hlen
    have hlt := value_lt ws
    have hcons := value_cons w ws
    have hzero := value_cons (0 : Word) ws
    change value (0 :: ws) = _
    change value (w :: ws) % _ = _ at hsig
    rw [hws, ← Nat.pow_mul] at hlt hcons hzero
    rw [BitVec.ofNat_eq_ofNat, BitVec.toNat_ofNat, Nat.zero_mod, Nat.zero_mul, Nat.zero_add] at hzero
    rw [hcons] at hsig
    rw [BitVec.ofNat_eq_ofNat, hzero]
    omega
  have hv : v < 2 ^ 80 := by omega
  exact holds_placed (e := 16382) 0 hcleared (.inl hv) (by decide) (by decide)

variable {x : EType} {neg : Bool} {m k : Nat}

theorem cut_value (h : Holds x neg m) (hk : x.exponent = 16382 + k) :
    sigValue (emovi x).sig * 2 ^ k / 2 ^ 96 = m / unitsInOne ∧
      ∃ v, sigValue (emovi x).sig * 2 ^ k % 2 ^ 112 % 2 ^ 96 = v * 2 ^ 16 ∧ v * 2 ^ 16382 = m % unitsInOne := by
  have hin := movedIn_emovi h.wellFormed h.finite
  obtain ⟨w, hw⟩ : ∃ w, w = 16382 := ⟨_, rfl⟩
  have hU : unitsInOne = 2 ^ 80 * 2 ^ w := by
    rw [← Nat.pow_add]
    exact unitsInOne_eq (by rw [hw]; rfl)
  have hm : m = x.significand * 2 ^ k * 2 ^ w := by
    rw [← h.magnitude, EType.magnitude, hk, ← hw]
    ring
  have hsig : sigValue (emovi x).sig * 2 ^ k = x.significand * 2 ^ k * 2 ^ 16 := by
    rw [hin.sig_eq]
    ring
  rw [hsig, hU, hm, ← hw, Nat.mul_div_mul_right _ _ (Nat.two_pow_pos w), Nat.mul_mod_mul_right]
  generalize x.significand * 2 ^ k = a
  exact ⟨by omega, a % 2 ^ 80, by omega, rfl⟩

theorem below_one (h : Holds x neg m) (hk : x.exponent ≤ 16382) : m < unitsInOne ∧ emovo (emovi x) = x := by
  have hin := movedIn_emovi h.wellFormed h.finite
  have hparts := hin.emovo
  rw [encode_parts] at hparts
  refine ⟨?_, hparts⟩
  obtain ⟨w, hw⟩ : ∃ w, w = 16382 := ⟨_, rfl⟩
  have hU : unitsInOne = 2 ^ 80 * 2 ^ w := by
    rw [← Nat.pow_add]
    exact unitsInOne_eq (by rw [hw]; rfl)
  rw [← h.magnitude, EType.magnitude, hU]
  calc x.significand * 2 ^ x.exponent < 2 ^ 80 * 2 ^ x.exponent :=
        Nat.mul_lt_mul_of_pos_right hin.sig_lt (Nat.two_pow_pos _)
    _ ≤ 2 ^ 80 * 2 ^ w := Nat.mul_le_mul_left _ (Nat.pow_le_pow_right (by decide) (by omega))

theorem exponent_le_of_lt (h : Holds x neg m) {b : Nat} (hb : 1 ≤ b) (hm : m < 2 ^ b * unitsInOne) : x.exponent ≤ 16382 + b := by
  have hin := movedIn_emovi h.wellFormed h.finite
  by_contra hbig
  have hnormal := hin.normal (by omega)
  obtain ⟨w, hw⟩ : ∃ w, w = 16382 := ⟨_, rfl⟩
  have hU : unitsInOne = 2 ^ 80 * 2 ^ w := by
    rw [← Nat.pow_add]
    exact unitsInOne_eq (by rw [hw]; rfl)
  have hle : 2 ^ b * unitsInOne ≤ m := by
    rw [← h.magnitude, EType.magnitude, hU]
    calc 2 ^ b * (2 ^ 80 * 2 ^ w) = 2 ^ 79 * 2 ^ (w + b + 1) := by ring
      _ ≤ x.significand * 2 ^ x.exponent := Nat.mul_le_mul hnormal (Nat.pow_le_pow_right (by decide) (by omega))
  omega

theorem exponent_distance (h : Holds x neg m) : ((emovi x).exp.toNat : Int) - (exone - 1) = x.exponent - 16382 := by
  have hin := movedIn_emovi h.wellFormed h.finite
  rw [hin.exp_eq]
  rfl

theorem euifrac_right (h : Holds x false m) (hm : m < 2 ^ 32 * unitsInOne) :
    (euifrac x).1.toNat = m / unitsInOne ∧ Holds (euifrac x).2 false (m % unitsInOne) := by
  have hle := exponent_le_of_lt h (by decide) hm
  have hin := movedIn_emovi h.wellFormed h.finite
  have hlt : sigValue (emovi x).sig < 2 ^ 96 := by
    have hsig := hin.sig_lt
    rw [hin.sig_eq]
    omega
  have hsign : (emovi x).sign = 0 := by rw [hin.sign_eq, h.sign, if_neg Bool.false_ne_true]
  unfold euifrac
  dsimp only
  rw [exponent_distance h]
  by_cases hsmall : x.exponent ≤ 16382
  · obtain ⟨hbelow, hself⟩ := below_one h hsmall
    rw [if_pos (by omega), hself, Nat.div_eq_of_lt hbelow, Nat.mod_eq_of_lt hbelow]
    exact ⟨rfl, h⟩
  · obtain ⟨k, hk⟩ := Nat.exists_eq_add_of_le (not_le.1 hsmall).le
    have hdist : (x.exponent : Int) - 16382 = k := by omega
    obtain ⟨hquot, v, hrest, hv⟩ := cut_value h hk
    rw [if_neg (by omega), if_neg (not_not_intro hsign), hdist, if_neg (by omega), Int.toNat_natCast, ← hquot, ← hv]
    by_cases hmany : 16 < (k : Int)
    · obtain ⟨hi, hsig⟩ := shiftOut_value (k := k) hlt (by omega)
      rw [if_pos hmany]
      exact ⟨hi, fractionOf_exact (by rw [hsig, hrest])⟩
    · obtain ⟨hi, hsig⟩ := shiftFew_value (k := k) hlt (by omega)
      rw [if_neg hmany]
      exact ⟨hi, fractionOf_exact (by rw [hsig, hrest])⟩

theorem pow_le_of_exponent (h : Holds x neg m) (hk : x.exponent = 16382 + (k + 1)) : 2 ^ k * unitsInOne ≤ m := by
  have hin := movedIn_emovi h.wellFormed h.finite
  have hnormal := hin.normal (by omega)
  obtain ⟨w, hw⟩ : ∃ w, w = 16382 := ⟨_, rfl⟩
  have hU : unitsInOne = 2 ^ 80 * 2 ^ w := by
    rw [← Nat.pow_add]
    exact unitsInOne_eq (by rw [hw]; rfl)
  rw [← h.magnitude, EType.magnitude, hU, hk, ← hw]
  calc 2 ^ k * (2 ^ 80 * 2 ^ w) = 2 ^ 79 * 2 ^ (w + (k + 1)) := by ring
    _ ≤ x.significand * 2 ^ (w + (k + 1)) := Nat.mul_le_mul_right _ hnormal

theorem trunc_eq (h : Holds x neg m) : x.trunc = if neg then -((m / unitsInOne : Nat) : Int) else (m / unitsInOne : Nat) := by
  unfold EType.trunc
  rw [h.sign, h.magnitude]
  cases neg with
  | true => rw [if_pos rfl, if_pos rfl, neg_one_mul]
  | false => rw [if_neg Bool.false_ne_true, if_neg Bool.false_ne_true, one_mul]

theorem eifrac_right (h : Holds x neg m) (hlow : -2 ^ 31 ≤ x.trunc) (hhigh : x.trunc < 2 ^ 31) :
    (eifrac x).1 = BitVec.ofInt 32 x.trunc ∧ Holds (eifrac x).2 (neg && m < unitsInOne) (m % unitsInOne) := by
  have hU : 0 < unitsInOne := Nat.two_pow_pos _
  have hin := movedIn_emovi h.wellFormed h.finite
  have hlt : sigValue (emovi x).sig < 2 ^ 96 := by
    have hsig := hin.sig_lt
    rw [hin.sig_eq]
    omega
  have hsign : (emovi x).sign ≠ 0 ↔ neg = true := by
    rw [← decide_eq_true_iff (p := (emovi x).sign ≠ 0), hin.sign_ne_zero, h.sign]
  rw [trunc_eq h] at hlow hhigh ⊢
  unfold eifrac
  dsimp only
  rw [exponent_distance h]
  by_cases hsmall : x.exponent ≤ 16382
  · obtain ⟨hbelow, hself⟩ := below_one h hsmall
    rw [if_pos (by omega), hself, Nat.div_eq_of_lt hbelow, Nat.mod_eq_of_lt hbelow, decide_eq_true hbelow, Bool.and_true]
    refine ⟨?_, h⟩
    cases neg <;> rfl
  obtain ⟨k, hk⟩ := Nat.exists_eq_add_of_lt (not_le.1 hsmall)
  have hdist : (x.exponent : Int) - 16382 = (k + 1 : Nat) := by omega
  have hone := pow_le_of_exponent h hk
  have hge : ¬ m < unitsInOne := not_lt.2 ((Nat.le_mul_of_pos_left _ (Nat.two_pow_pos k)).trans hone)
  obtain ⟨hquot, v, hrest, hv⟩ := cut_value (k := k + 1) h hk
  have hquotlow : 2 ^ k ≤ m / unitsInOne := (Nat.le_div_iff_mul_le hU).2 hone
  rw [if_neg (by omega), hdist, decide_eq_false hge, Bool.and_false, ← hv]
  by_cases hover : 31 < ((k + 1 : Nat) : Int)
  · have hpow : 2 ^ 31 ≤ 2 ^ k := Nat.pow_le_pow_right (by decide) (by omega)
    obtain rfl : neg = true := by
      cases neg with
      | true => rfl
      | false =>
        rw [if_neg Bool.false_ne_true] at hhigh
        omega
    rw [if_pos rfl] at hlow ⊢
    have hexact : m / unitsInOne = 2 ^ 31 := by omega
    have hshift := eshift_up (emovi x).sig (k + 1)
    have hleast : (1 : HostWord) <<< 31 = BitVec.ofInt 32 (-((2 ^ 31 : Nat) : Int)) := by decide
    rw [if_pos hover, if_pos (hsign.2 rfl), hexact]
    exact ⟨hleast, fractionOf_exact (by rw [hshift, hrest])⟩
  · have hint {i : HostWord} (hi : i.toNat = m / unitsInOne) :
        (if (emovi x).sign ≠ 0 then -i else i) =
          BitVec.ofInt 32 (if neg then -((m / unitsInOne : Nat) : Int) else (m / unitsInOne : Nat)) := by
      have hword : i = BitVec.ofInt 32 ((m / unitsInOne : Nat) : Int) := by
        rw [← hi, BitVec.ofInt_natCast, BitVec.ofNat_toNat, BitVec.setWidth_eq]
      cases neg with
      | true => rw [if_pos (hsign.2 rfl), if_pos rfl, BitVec.ofInt_neg, ← hword]
      | false => rw [if_neg (mt hsign.1 Bool.false_ne_true), if_neg Bool.false_ne_true, ← hword]
    rw [if_neg hover, Int.toNat_natCast]
    by_cases hmany : 16 < ((k + 1 : Nat) : Int)
    · obtain ⟨hi, hsig⟩ := shiftOut_value (k := k + 1) hlt (by omega)
      rw [if_pos hmany]
      exact ⟨hint (hi.trans hquot), fractionOf_exact (by rw [hsig, hrest])⟩
    · obtain ⟨hi, hsig⟩ := shiftFew_value (k := k + 1) hlt (by omega)
      rw [if_neg hmany]
      exact ⟨hint (hi.trans hquot), fractionOf_exact (by rw [hsig, hrest])⟩

end Cut

section Words

variable {c : RoundControl} {x old : EType} {neg : Bool} {m n : Nat}

theorem exists_unit : ∃ e, e = 16462 ∧ unitsInOne = 2 ^ e := by
  obtain ⟨e, he⟩ : ∃ e, e = 16462 := ⟨_, rfl⟩
  exact ⟨e, he, unitsInOne_eq (by rw [he]; rfl)⟩

theorem holds_eone : Holds eone false unitsInOne := by
  have hencode : eone = encode false 16383 (2 ^ 79) := by decide +kernel
  obtain ⟨e, he⟩ : ∃ e, e = 16383 := ⟨_, rfl⟩
  have hU : unitsInOne = 2 ^ 79 * 2 ^ e := by
    rw [← Nat.pow_add]
    exact unitsInOne_eq (by rw [he]; rfl)
  rw [hencode, hU, ← he]
  exact holds_encode (by omega) (by decide) fun _ => le_rfl

theorem holds_base (hc : c.rndprc = .nbits) : Holds (eldexp c eone 32).1 false (unitsInOne * 2 ^ 32) := by
  obtain ⟨e, he, hU⟩ := exists_unit
  have hrep : Representable (unitsInOne * 2 ^ 32) := by
    rw [hU]
    refine representable_of_dvd (e := e) (Dvd.intro _ rfl) ?_ (by omega)
    rw [Nat.pow_add, Nat.mul_comm (2 ^ 80)]
    exact Nat.mul_lt_mul_of_pos_left (by decide) (Nat.two_pow_pos e)
  exact eldexp_exact hc holds_eone 32 (Nat.two_pow_pos _).ne' hrep

theorem fromWords_exact (hc : c.rndprc = .nbits) (low high : HostWord) :
    Holds (fromWords c low high).1 false ((high.toNat * 2 ^ 32 + low.toNat) * unitsInOne) := by
  obtain ⟨e, he, hU⟩ := exists_unit
  have hlow := low.isLt
  have hhigh := high.isLt
  have hbase := holds_base hc
  have hc1 := (eldexp_rndprc (c := c) eone 32).trans hc
  unfold fromWords
  generalize eldexp c eone 32 = base at hbase hc1
  obtain ⟨df, c1⟩ := base
  have hsmall : high.toNat * 2 ^ 32 * unitsInOne < 2 ^ (80 + e) := by
    rw [hU, Nat.pow_add]
    exact Nat.mul_lt_mul_of_pos_right (by omega) (Nat.two_pow_pos e)
  have hprod : Holds (emul c1 (ultoe high) df (ultoe high)).1 false (high.toNat * 2 ^ 32 * unitsInOne) :=
    emul_exact hc1 (ultoe_exact high) hbase (by ring)
      (representable_of_dvd (e := e) (by rw [hU]; exact Nat.dvd_mul_left _ _) hsmall (by omega))
  have hc2 := (emul_rndprc (c := c1) (ultoe high) df (ultoe high)).trans hc1
  dsimp only at hprod hc2 ⊢
  generalize emul c1 (ultoe high) df (ultoe high) = prod at hprod hc2
  obtain ⟨dg, c2⟩ := prod
  have hsum : low.toNat * unitsInOne + high.toNat * 2 ^ 32 * unitsInOne =
      (high.toNat * 2 ^ 32 + low.toNat) * unitsInOne := by ring
  have hright := eadd_exact (e := e) hc2 (ultoe_exact low) hprod (by rw [hsum, hU]; exact Nat.dvd_mul_left _ _)
    (by
      rw [hsum, hU, Nat.pow_add]
      exact Nat.mul_lt_mul_of_pos_right (by omega) (Nat.two_pow_pos e)) (by omega)
  rw [hsum] at hright
  exact hright

theorem putRounded_right (bigEndian : Bool) (hx : Holds x neg (n * unitsInOne)) :
    ∃ f : Packed .single, f.sign = neg ∧ f.bits = min Format.single.overflow (roundMagnitude 23 (n * Format.single.units) 1) ∧
      (putRounded .single bigEndian c x).1.number.Same f.number := by
  obtain ⟨hsign, hbits⟩ := @etoIeee_rounds .single bigEndian c x hx.wellFormed _ _ _ hx.number_eq
  have hU : 0 < unitsInOne := Nat.two_pow_pos _
  have hround : roundMagnitude Format.single.fraction (n * unitsInOne * Format.single.units) unitsInOne =
      roundMagnitude 23 (n * Format.single.units) 1 := by
    have hscale := roundMagnitude_scale (t := 23) (n := n * Format.single.units) (d := 1) Nat.one_pos hU
    rw [Nat.one_mul] at hscale
    rw [← hscale, Nat.mul_right_comm]
    rfl
  rw [hround] at hbits
  exact ⟨(etoe24 bigEndian c x).1, hsign, hbits, etoe53_e24toe (number_ne_nan (hbits.trans_le (Nat.min_le_left _ _)))⟩

/-- The quotient by `2 ^ 32` is exact, or too small to matter. -/
theorem quotient_right (hc : c.rndprc = .nbits) {d : EType} (hx : Holds x false (unitsInOne * 2 ^ 32)) (hd : Holds d false m)
    (hm : m < 2 ^ 63 * unitsInOne) :
    ∃ p, Holds (ediv c x d old).1 false p ∧ p < 2 ^ 31 * unitsInOne ∧ p * 2 ^ 32 / unitsInOne = m / unitsInOne := by
  obtain ⟨e, he, hU⟩ := exists_unit
  have hUpos : 0 < unitsInOne := Nat.two_pow_pos _
  have hbase : unitsInOne * 2 ^ 32 ≠ 0 := (Nat.mul_pos hUpos (by decide)).ne'
  have hin := movedIn_emovi hd.wellFormed hd.finite
  have hmagnitude := hd.magnitude
  unfold EType.magnitude at hmagnitude
  by_cases hexp : 32 ≤ d.exponent
  · obtain ⟨k, hk⟩ := Nat.exists_eq_add_of_le hexp
    have hp : m = d.significand * 2 ^ k * 2 ^ 32 := by
      rw [← hmagnitude, hk]
      ring
    have hrep : Representable (d.significand * 2 ^ k) := by
      refine representable_of_dvd (e := k) (Dvd.intro_left _ rfl) ?_ (by have := hin.exp_lt; omega)
      rw [Nat.pow_add]
      exact Nat.mul_lt_mul_of_pos_right hin.sig_lt (Nat.two_pow_pos k)
    refine ⟨d.significand * 2 ^ k, ediv_exact hc hx hd hbase ?_ hrep, ?_, by rw [hp]⟩
    · rw [hp]
      ring
    · rw [hp] at hm
      omega
  · -- the quotient may be rounded, far below one
    have hsmall : m < 2 ^ 111 := by
      rw [← hmagnitude]
      calc d.significand * 2 ^ d.exponent ≤ d.significand * 2 ^ 31 :=
            Nat.mul_le_mul_left _ (Nat.pow_le_pow_right (by decide) (by omega))
        _ < 2 ^ 80 * 2 ^ 31 := Nat.mul_lt_mul_of_pos_right hin.sig_lt (by decide)
    have hquot := ediv_finite hc hx.wellFormed hd.wellFormed hx.finite hd.finite (hx.significand_ne_zero hbase) old
    have hscale := roundMagnitude_scale (t := 79) (n := m) (d := 2 ^ 32) (by decide) hUpos
    rw [hx.sign, hd.sign, hx.magnitude, hd.magnitude, Nat.mul_comm unitsInOne, hscale] at hquot
    obtain ⟨i, sig, hbits, hnear, hlow, -⟩ := roundMagnitude_cases (t := 79) (n := m) (d := 2 ^ 32) (by decide)
    have hi : i = 0 := by
      refine hlow.resolve_right fun hle => ?_
      have hpow : 1 ≤ 2 ^ i := Nat.one_le_two_pow
      omega
    subst hi
    have hsig : sig ≤ 2 ^ 79 := hnear.le_pow (by decide) (by omega)
    rw [hbits, Nat.zero_mul, Nat.zero_add] at hquot
    have hbig : 2 ^ 200 ≤ unitsInOne := by
      rw [hU]
      exact Nat.pow_le_pow_right (by decide) (by omega)
    have hencode : ofBits false sig = encode false 0 sig := by
      have hexact := @ofBits_encode false 0 sig (by decide) (by omega) (fun h => absurd rfl h)
      rwa [Nat.zero_mul, Nat.zero_add] at hexact
    have hhold : Holds (encode false 0 sig) false (sig * 2 ^ 0) := holds_encode (by decide) (by omega) fun h => absurd rfl h
    rw [Nat.pow_zero, Nat.mul_one] at hhold
    refine ⟨sig, ?_, by omega, by rw [Nat.div_eq_of_lt (by omega), Nat.div_eq_of_lt (by omega)]⟩
    rw [hquot, Bool.xor_self, hencode]
    exact hhold

/-- A number that is not negative, in two words. -/
theorem positive_words (hc : c.rndprc = .nbits) {d : EType} (hd : Holds d false m) (hm : m < 2 ^ 63 * unitsInOne) :
    let base := eldexp c eone 32
    let quot := ediv base.2 base.1 d old
    let rest := emul quot.2 base.1 (euifrac quot.1).2 quot.1
    (euifrac quot.1).1.toNat * 2 ^ 32 + (euifrac rest.1).1.toNat = m / unitsInOne := by
  have hU : 0 < unitsInOne := Nat.two_pow_pos _
  have hbase := holds_base hc
  have hc1 := (eldexp_rndprc (c := c) eone 32).trans hc
  dsimp only
  generalize eldexp c eone 32 = base at hbase hc1
  obtain ⟨df, c1⟩ := base
  obtain ⟨p, hquot, hp, hwhole⟩ := @quotient_right _ _ old _ hc1 _ hbase hd hm
  have hc2 := (ediv_rndprc (c := c1) df d old).trans hc1
  dsimp only at hquot hc2 hbase ⊢
  generalize ediv c1 df d old = quot at hquot hc2
  obtain ⟨dg, c2⟩ := quot
  dsimp only at hquot hc2 ⊢
  obtain ⟨hhigh, hfrac⟩ := euifrac_right hquot (by omega)
  have hless : p % unitsInOne < unitsInOne := Nat.mod_lt _ hU
  have hrep : Representable (p % unitsInOne * 2 ^ 32) := by
    obtain ⟨e, he, hunit⟩ := exists_unit
    have hpow : 2 ^ (e + 32) = unitsInOne * 2 ^ 32 := by rw [Nat.pow_add, hunit]
    refine hfrac.representable.mul_two_pow (b := e + 32) (by omega) ?_
    rw [hpow]
    exact Nat.mul_lt_mul_of_pos_right hless (by decide)
  have hprod := @emul_exact _ _ _ dg _ _ _ _ _ hc2 hbase hfrac (by ring) hrep
  obtain ⟨hlow, -⟩ := euifrac_right hprod (by omega)
  rw [hhigh, hlow, ← hwhole]
  have hsplit : p * 2 ^ 32 = p % unitsInOne * 2 ^ 32 + p / unitsInOne * 2 ^ 32 * unitsInOne := by
    conv_lhs => rw [← Nat.mod_add_div p unitsInOne]
    ring
  rw [hsplit, Nat.add_mul_div_right _ _ hU, Nat.add_comm]

theorem toNat_append_word (high low : HostWord) : (high ++ low).toNat = high.toNat * 2 ^ 32 + low.toNat := by
  rw [BitVec.toNat_append, Nat.shiftLeft_eq]
  have hor := Nat.two_pow_add_eq_or_of_lt low.isLt high.toNat
  rw [Nat.mul_comm, hor]

theorem toNat_neg_word (low : HostWord) : (-low).toNat = if low.toNat = 0 then 0 else 4294967296 - low.toNat := by
  have hlow := low.isLt
  rw [BitVec.toNat_neg]
  split_ifs <;> omega

theorem toNat_not_word (high : HostWord) : (~~~high).toNat = 4294967295 - high.toNat := BitVec.toNat_not

theorem complement_words {low high : Nat} (hlow : low < 4294967296) (hhigh : high < 4294967296) (hne : low ≠ 0) :
    (4294967295 - high) * 2 ^ 32 + (4294967296 - low) =
      (18446744073709551616 - (high * 2 ^ 32 + low)) % 18446744073709551616 := by
  omega

theorem complement_carry {high : Nat} (hhigh : high < 4294967296) :
    (4294967295 - high + 1) % 2 ^ 32 * 2 ^ 32 + 0 =
      (18446744073709551616 - (high * 2 ^ 32 + 0)) % 18446744073709551616 := by
  omega

theorem negate_words (low high : HostWord) :
    (if low ≠ 0 then ~~~high ++ -low else (~~~high + 1) ++ low) = -(high ++ low) := by
  have hone : (1 : HostWord).toNat = 1 := rfl
  have hzero : low = 0 ↔ low.toNat = 0 := by
    rw [← BitVec.toNat_inj]
    rfl
  have hneg : (-(high ++ low)).toNat = (18446744073709551616 - (high.toNat * 2 ^ 32 + low.toNat)) %
      18446744073709551616 := by
    have hpow : 2 ^ (32 + 32) = 18446744073709551616 := rfl
    rw [BitVec.toNat_neg, toNat_append_word, hpow]
  rw [← BitVec.toNat_inj, hneg]
  split_ifs with hne
  · rw [toNat_append_word, toNat_not_word, toNat_neg_word, if_neg (mt hzero.2 hne)]
    exact complement_words low.isLt high.isLt (mt hzero.2 hne)
  · rw [toNat_append_word, BitVec.toNat_add, toNat_not_word, hone, hzero.1 (not_not.1 hne)]
    exact complement_carry high.isLt

theorem toWords_right (hc : c.rndprc = .nbits) (hx : Holds x neg m) (hm : m < 2 ^ 63 * unitsInOne) :
    (toWords c x old).2 ++ (toWords c x old).1 = BitVec.ofInt 64 x.trunc := by
  have habs : Holds (if neg then eneg x else x) false m := by
    cases neg with
    | true =>
      rw [if_pos rfl]
      exact hx.eneg
    | false => exact hx
  have hwords := @positive_words _ old _ hc _ habs hm
  rw [trunc_eq hx]
  unfold toWords
  dsimp only at hwords ⊢
  rw [eisnan_of_wellFormed hx.wellFormed, if_neg Bool.false_ne_true, hx.sign]
  generalize (if neg then eneg x else x) = d at hwords
  generalize (euifrac (ediv (eldexp c eone 32).2 (eldexp c eone 32).1 d old).1) = high at hwords ⊢
  generalize (euifrac (emul (ediv (eldexp c eone 32).2 (eldexp c eone 32).1 d old).2 (eldexp c eone 32).1 high.2
    (ediv (eldexp c eone 32).2 (eldexp c eone 32).1 d old).1).1).1 = low at hwords ⊢
  have hvalue : high.1 ++ low = BitVec.ofInt 64 ((m / unitsInOne : Nat) : Int) := by
    rw [BitVec.ofInt_natCast, ← hwords, ← toNat_append_word, BitVec.ofNat_toNat, BitVec.setWidth_eq]
  cases neg with
  | true =>
    have hneg := negate_words low high.1
    rw [hvalue, ← BitVec.ofInt_neg] at hneg
    rw [if_pos rfl, if_pos rfl, ← hneg]
    split_ifs <;> rfl
  | false => exact hvalue

theorem slt_zero_iff (high low : HostWord) : high.slt 0 = decide ((high ++ low).toInt < 0) := by
  have hlow := low.isLt
  have hhigh := high.isLt
  have hint : (high ++ low).toInt = if 2 * (high.toNat * 4294967296 + low.toNat) < 18446744073709551616 then
      ((high.toNat * 4294967296 + low.toNat : Nat) : Int)
      else ((high.toNat * 4294967296 + low.toNat : Nat) : Int) - 18446744073709551616 := by
    rw [BitVec.toInt_eq_toNat_cond, toNat_append_word]
    rfl
  have hword : high.toInt = if 2 * high.toNat < 4294967296 then (high.toNat : Int) else (high.toNat : Int) - 4294967296 :=
    BitVec.toInt_eq_toNat_cond high
  have hzero : (0 : HostWord).toInt = 0 := rfl
  rw [BitVec.slt_eq_decide, decide_eq_decide, hint, hword, hzero]
  split_ifs <;> omega

theorem fromInt_words (i j : HostWord) :
    let r := if j.slt 0 then if i ≠ 0 then (-i, ~~~j) else (i, ~~~j + 1) else (i, j)
    r.2.toNat * 2 ^ 32 + r.1.toNat = (j ++ i).toInt.natAbs := by
  have hneg := negate_words i j
  have hcond := BitVec.toInt_eq_toNat_cond (j ++ i)
  have hsum : ∀ low high : HostWord, high.toNat * 2 ^ 32 + low.toNat = (high ++ low).toNat := fun low high =>
    (toNat_append_word high low).symm
  have hlt := (j ++ i).isLt
  dsimp only
  rw [hsum, slt_zero_iff j i]
  by_cases hsign : (j ++ i).toInt < 0
  · rw [decide_eq_true hsign, if_pos rfl]
    have hword : (if i ≠ 0 then (-i, ~~~j) else (i, ~~~j + 1)).2 ++ (if i ≠ 0 then (-i, ~~~j) else (i, ~~~j + 1)).1 =
        -(j ++ i) := by
      rw [← hneg]
      split_ifs <;> rfl
    rw [hword, BitVec.toNat_neg]
    split_ifs at hcond <;> omega
  · rw [decide_eq_false hsign, if_neg Bool.false_ne_true]
    dsimp only
    split_ifs at hcond <;> omega

end Words

section Right

variable {bigEndian : Bool} {c : RoundControl} {x old : EType}

theorem fromInt_right (hc : c.rndprc = .nbits) (i j : HostWord) :
    ∃ f, IsNearestTo f (j ++ i).toInt ∧ (erealFromInt .single bigEndian c i j).1.number.Same f.number := by
  have hwords := fromInt_words i j
  unfold erealFromInt
  dsimp only at hwords ⊢
  generalize (if j.slt 0 then if i ≠ 0 then (-i, ~~~j) else (i, ~~~j + 1) else (i, j)) = words at hwords ⊢
  have hexact := fromWords_exact hc words.1 words.2
  have hsigned : Holds (if j.slt 0 then eneg (fromWords c words.1 words.2).1 else (fromWords c words.1 words.2).1)
      (decide ((j ++ i).toInt < 0)) ((j ++ i).toInt.natAbs * unitsInOne) := by
    rw [← hwords, ← slt_zero_iff j i]
    cases j.slt 0 with
    | true => exact hexact.eneg
    | false => exact hexact
  obtain ⟨f, hf, hbits, hsame⟩ := putRounded_right (c := (fromWords c words.1 words.2).2) bigEndian hsigned
  exact ⟨f, ⟨hf, hbits⟩, hsame⟩

theorem fromUint_right (hc : c.rndprc = .nbits) (i j : HostWord) :
    ∃ f, IsNearestTo f (j ++ i).toNat ∧ (erealFromUint .single bigEndian c i j).1.number.Same f.number := by
  obtain ⟨f, hf, hbits, hsame⟩ := putRounded_right (c := (fromWords c i j).2) bigEndian (fromWords_exact hc i j)
  refine ⟨f, ⟨?_, ?_⟩, hsame⟩
  · rw [hf, eq_comm, decide_eq_false_iff_not]
    omega
  · rw [hbits, Int.natAbs_natCast, toNat_append_word]

theorem keepsSign_iff {neg : Bool} {m : Nat} (h : Holds x neg m) :
    KeepsSign x ↔ neg = true ∧ 0 < m ∧ m < unitsInOne := by
  unfold KeepsSign
  rw [h.sign, h.magnitude]

theorem KeepsSign.not_right {neg : Bool} {m : Nat} (h : Holds x neg m) (hkeeps : KeepsSign x) :
    ¬ ConvertsRight bigEndian c x old := by
  obtain ⟨hneg, hpos, hlt⟩ := (keepsSign_iff h).1 hkeeps
  intro hright
  have htrunc : x.trunc = 0 := by
    rw [trunc_eq h, Nat.div_eq_of_lt hlt, hneg]
    rfl
  have hlow : -2 ^ 31 ≤ x.trunc := by
    rw [htrunc]
    decide
  have hhigh : x.trunc < 2 ^ 31 := by
    rw [htrunc]
    decide
  obtain ⟨-, hfrac⟩ := eifrac_right h hlow hhigh
  obtain ⟨-, neg', n, hnumber, -, hsign, -⟩ := hright.frac hlow hhigh
  rw [hfrac.number_eq, hneg, decide_eq_true hlt, Nat.mod_eq_of_lt hlt] at hnumber
  cases hnumber
  exact hpos.ne' (hsign rfl)

/-- The conversions are right, unless the fraction of a negative number keeps its sign. -/
theorem convertsRight_iff (hc : c.rndprc = .nbits) (hx : x.WellFormed) (hfin : x.exponent ≠ 0x7fff) :
    ConvertsRight bigEndian c x old ↔ ¬ KeepsSign x := by
  have hU : 0 < unitsInOne := Nat.two_pow_pos _
  have h : Holds x (eisneg x) x.magnitude := ⟨hx, hfin, rfl, rfl⟩
  refine ⟨fun hright hkeeps => hkeeps.not_right h hright, fun hkeeps => ?_⟩
  refine ⟨fromInt_right hc, fromUint_right hc, toWords_right hc h, fun hlow hhigh => ?_⟩
  obtain ⟨hint, hfrac⟩ := eifrac_right h hlow hhigh
  refine ⟨hint, _, _, hfrac.number_eq, Nat.mod_lt _ hU, fun hneg => ?_, (Nat.div_add_mod' _ _).symm⟩
  obtain ⟨hsign, hlt⟩ := Bool.and_eq_true_iff.1 hneg
  have hlt := of_decide_eq_true hlt
  rw [Nat.mod_eq_of_lt hlt]
  by_contra hne
  exact hkeeps ⟨hsign, Nat.pos_of_ne_zero hne, hlt⟩

theorem convertsRight_one : ConvertsRight false .initial eone eone :=
  (convertsRight_iff rfl holds_eone.wellFormed holds_eone.finite).2 fun h =>
    absurd ((keepsSign_iff holds_eone).1 h).1 Bool.false_ne_true

/-- The fraction of minus one half is minus one half. -/
theorem fraction_negative : ¬ ConvertsRight false .initial (encode true 16382 (2 ^ 79)) eone := by
  have hholds : ∀ e, e < 0x7fff → Holds (encode true e (2 ^ 79)) true (2 ^ 79 * 2 ^ e) := fun e he =>
    holds_encode he (by decide) fun _ => le_rfl
  obtain ⟨e, he⟩ : ∃ e, e = 16382 := ⟨_, rfl⟩
  have hU : unitsInOne = 2 ^ 79 * 2 ^ e * 2 := by
    rw [← Nat.pow_add, ← Nat.pow_succ]
    exact unitsInOne_eq (by rw [he]; rfl)
  have hpos : 0 < 2 ^ 79 * 2 ^ e := Nat.mul_pos (by decide) (Nat.two_pow_pos e)
  have hhalf := hholds e (by omega)
  rw [← he]
  refine KeepsSign.not_right hhalf ((keepsSign_iff hhalf).2 ⟨rfl, hpos, ?_⟩)
  rw [hU]
  omega

end Right

end Z80Gcc.Emulator
