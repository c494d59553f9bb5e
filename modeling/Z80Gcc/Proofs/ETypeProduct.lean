import Z80Gcc.Proofs.ETypeSum

/-! `emul` and `ediv` store the product and the quotient, rounded. -/

namespace Z80Gcc.Emulator

open WordList BinaryFloat

section Sign

theorem setSign_parts (s : Bool) (x : EType) : setSign s x = encode s x.exponent x.significand := by
  have hneg : eisneg (setSign s x) = s := by
    have htop : ((0x8000 : Word)).getLsbD 15 = true := by decide
    have hclear : (~~~0x8000 : Word).getLsbD 15 = false := by decide
    rw [Bool.eq_iff_iff]
    unfold eisneg setSign
    rw [decide_eq_true_iff, and_top_ne_zero]
    cases s with
    | true =>
      rw [if_pos rfl, BitVec.getLsbD_or, htop, Bool.or_true]
    | false =>
      rw [if_neg Bool.false_ne_true, BitVec.getLsbD_and, hclear, Bool.and_false]
  have hexp : (setSign s x).exponent = x.exponent := by
    have hor : (0x8000 : Word) &&& 0x7fff = 0 := by decide
    have hand : (~~~0x8000 : Word) &&& 0x7fff = 0x7fff := by decide
    refine congrArg BitVec.toNat ?_
    unfold setSign
    cases s with
    | true =>
      rw [if_pos rfl, BitVec.and_or_distrib_right, hor]
      exact BitVec.or_zero
    | false =>
      rw [if_neg Bool.false_ne_true, BitVec.and_assoc, hand]
  have hparts := encode_parts (setSign s x)
  rw [hneg, hexp] at hparts
  exact hparts.symm

theorem setSign_encode (s : Bool) {neg : Bool} {exp sig : Nat} (hexp : exp < 2 ^ 15) (hsig : sig < 2 ^ 80) :
    setSign s (encode neg exp sig) = encode s exp sig := by
  rw [setSign_parts, exponent_encode hexp, significand_encode hsig]

theorem setSign_einfin (s : Bool) (x : EType) : setSign s (einfin x) = infinity s := by
  have hexp : (einfin x).exponent = 0x7fff := by
    have habsorb (y : Word) : (x.top ||| y) &&& y = y := by
      ext i hi
      rw [BitVec.getElem_and, BitVec.getElem_or]
      cases y[i] with
      | true => rw [Bool.or_true, Bool.and_true]
      | false => rw [Bool.and_false]
    exact congrArg BitVec.toNat (habsorb 0x7fff)
  have hsig : (einfin x).significand = 0 := value_replicate_zero 5
  rw [setSign_parts, hexp, hsig, encode_infinity]

theorem setSign_ofBits (s neg : Bool) (bits : Nat) : setSign s (ofBits neg bits) = ofBits s bits := by
  unfold ofBits
  by_cases hinf : 0x7fff * 2 ^ 79 + 2 ^ 79 ≤ bits
  · rw [if_pos hinf, if_pos hinf, ← encode_infinity, ← encode_infinity]
    exact setSign_encode s (by decide) (by decide)
  · rw [if_neg hinf, if_neg hinf]
    exact setSign_encode s (by omega) (by omega)

theorem setSign_eclear (s : Bool) : setSign s eclear = ofBits s 0 := by
  cases s <;> decide

end Sign

section Normalized

variable {a : Exploded} {s : Bool} {e m : Nat}

/-- A number with its top bit set, under the high guard word; its exponent is less by what it was shifted up. -/
structure Normal (a : Exploded) (lt : Int) (e m j : Nat) : Prop where
  lt_eq : lt = e - j
  value : sigValue a.sig = m * 2 ^ (16 + j)
  low : 2 ^ 95 ≤ sigValue a.sig
  high : sigValue a.sig < 2 ^ 96

theorem normalizeTiny_zero (h : MovedIn a s e 0) : normalizeTiny a = none := by
  have he : e = 0 := by
    by_contra hne
    exact absurd (h.normal hne) (by decide)
  have hzero : a.exp = 0 := by
    rw [← BitVec.toNat_inj, h.exp_eq, he]
    rfl
  have hblank : blank a = true := by
    rw [blank_iff, h.exp_eq, h.sig_eq, he]
    exact ⟨rfl, rfl⟩
  unfold normalizeTiny
  rw [if_pos hzero, if_pos hblank]

theorem normalizeTiny_normal (h : MovedIn a s e m) (hm : m ≠ 0) :
    ∃ b lt j, normalizeTiny a = some (b, lt) ∧ b.sign = a.sign ∧ Normal b lt e m j := by
  have hsig := h.sig_eq
  have hlt := h.sig_lt
  have hzero : a.exp = 0 ↔ e = 0 := by
    rw [← BitVec.toNat_inj, h.exp_eq]
    rfl
  unfold normalizeTiny
  by_cases he : e = 0
  · have hblank : blank a = false := by
      rw [Bool.eq_false_iff, Ne, blank_iff, hsig]
      omega
    obtain ⟨j, hcount, -, hvalue, hlow, hhigh⟩ := enormlz_up (x := a.sig) (by omega) (by omega)
    rw [if_pos (hzero.2 he), hblank, if_neg Bool.false_ne_true]
    refine ⟨{ a with sig := (enormlz a.sig).2 }, a.exp.toNat - (enormlz a.sig).1, j, rfl, rfl, ?_, ?_, hlow, hhigh⟩
    · rw [h.exp_eq, hcount]
    · dsimp only
      rw [hvalue, hsig, Nat.mul_assoc, ← Nat.pow_add]
  · have hnormal := h.normal he
    rw [if_neg (mt hzero.1 he)]
    refine ⟨_, _, 0, rfl, rfl, ?_, hsig, by omega, by omega⟩
    rw [h.exp_eq]
    exact (Int.sub_zero _).symm

end Normalized

section Finite

variable {c : RoundControl} {a b : Exploded} {la lb : Int} {ea eb m n j k : Nat}

/-- The register holds a number but for a rest that is less than its unit. -/
theorem covers_of_rest {R N D rest u : Nat} {lost : Bool} (hlost : lost = decide (rest ≠ 0))
    (hsplit : N = R * D + rest * u) (hrest : rest * u < D) (hu : 0 < u) : Covers R lost false N D 0 := by
  refine ⟨one_dvd _, ?_⟩
  rw [hsplit, hlost]
  by_cases hzero : rest = 0
  · rw [decide_eq_false (not_not_intro hzero), if_neg Bool.false_ne_true, hzero, Nat.zero_mul, Nat.add_zero]
  · have hpos : 0 < rest * u := Nat.mul_pos (Nat.pos_of_ne_zero hzero) hu
    rw [decide_eq_true hzero, if_pos rfl, if_neg Bool.false_ne_true]
    omega

/-- The product of two significands, with the bits that are lost. -/
theorem emulm_right (hc : c.rndprc = .nbits) (ha : Normal a la ea m j) (hb : Normal b lb eb n k) :
    emovo (emdnorm c { b with sig := (emulm a.sig b.sig).2 } (emulm a.sig b.sig).1 false (la + lb - (exone - 1)) 64).1 =
      ofBits (b.sign ≠ 0) (roundMagnitude 79 (m * 2 ^ ea * (n * 2 ^ eb)) unitsInOne) := by
  obtain ⟨out, hprod, hout, hlost⟩ := emulm_value ha.high hb.high
  have hlow : 2 ^ 95 * 2 ^ 95 ≤ sigValue a.sig * sigValue b.sig := Nat.mul_le_mul ha.low hb.low
  have hhigh : sigValue a.sig * sigValue b.sig < 2 ^ 96 * 2 ^ 96 := Nat.mul_lt_mul'' ha.high hb.high
  have hexact : sigValue a.sig * sigValue b.sig = m * n * 2 ^ (32 + j + k) := by
    rw [ha.value, hb.value]
    ring
  generalize emulm a.sig b.sig = prod at *
  obtain ⟨lost, sig⟩ := prod
  dsimp only at hprod hlost ⊢
  have hflag : lost = decide (out ≠ 0) := by
    rw [Bool.eq_iff_iff, hlost, decide_eq_true_iff]
  obtain ⟨w, hw⟩ : ∃ w, w = 16366 := ⟨_, rfl⟩
  have hU : unitsInOne = 2 ^ (96 + w) := unitsInOne_eq (by rw [hw]; rfl)
  have hunit : unitsInOne * 2 ^ (ea + eb) = 2 ^ 96 * 2 ^ (w + ea + eb) := by
    rw [hU]
    ring
  have hcov : Covers (sigValue sig) lost false (m * 2 ^ ea * (n * 2 ^ eb) * 2 ^ (16 + (j + k + 16 + w)))
      (unitsInOne * 2 ^ (ea + eb)) 0 := by
    have hsplit : m * 2 ^ ea * (n * 2 ^ eb) * 2 ^ (16 + (j + k + 16 + w)) =
        sigValue sig * (unitsInOne * 2 ^ (ea + eb)) + out * 2 ^ (w + ea + eb) := by
      rw [hunit]
      calc _ = m * n * 2 ^ (32 + j + k) * 2 ^ (w + ea + eb) := by ring
        _ = (sigValue sig * 2 ^ 96 + out) * 2 ^ (w + ea + eb) := by rw [← hexact, hprod]
        _ = _ := by ring
    have hrest : out * 2 ^ (w + ea + eb) < unitsInOne * 2 ^ (ea + eb) := by
      rw [hunit]
      exact Nat.mul_lt_mul_of_pos_right hout (Nat.two_pow_pos _)
    exact covers_of_rest hflag hsplit hrest (Nat.two_pow_pos _)
  have hbits : 2 ^ 94 ≤ sigValue sig ∧ sigValue sig < 2 ^ 96 := by omega
  have hexp : la + lb - (exone - 1) = (ea + eb : Nat) - (j + k + 16 + w : Nat) := by
    have hexone : exone = 16383 := rfl
    rw [ha.lt_eq, hb.lt_eq, hexone, hw]
    push_cast
    ring
  exact emdnorm_number (s := { b with sig := sig }) hc hexp (Nat.two_pow_pos _) hcov (by dsimp only; omega) hbits.2
    (fun _ => hbits.1) (fun hflag => absurd hflag Bool.false_ne_true)

theorem edivm_right (hc : c.rndprc = .nbits) (ha : Normal a la ea m j) (hb : Normal b lb eb n k) (hm : m ≠ 0) :
    emovo (emdnorm c { b with sig := (edivm a.sig b.sig).2 } (edivm a.sig b.sig).1 false (lb - la + exone) 64).1 =
      ofBits (b.sign ≠ 0) (roundMagnitude 79 (n * 2 ^ eb * unitsInOne) (m * 2 ^ ea)) := by
  have heven : sigValue b.sig % 2 = 0 := by
    rw [hb.value, Nat.add_comm, Nat.pow_add, ← Nat.mul_assoc]
    exact Nat.mod_eq_zero_of_dvd ((by decide : 2 ∣ 2 ^ 16).mul_left _)
  obtain ⟨rest, hquot, hrest, hlost⟩ := edivm_value ha.low ha.high hb.high heven
  have halow := ha.low
  have hahigh := ha.high
  have hblow := hb.low
  have hbhigh := hb.high
  generalize edivm a.sig b.sig = quot at *
  obtain ⟨lost, sig⟩ := quot
  dsimp only at hquot hlost ⊢
  have hflag : lost = decide (rest ≠ 0) := by
    rw [Bool.eq_iff_iff, hlost, decide_eq_true_iff]
  have hbits : 2 ^ 94 ≤ sigValue sig ∧ sigValue sig < 2 ^ 96 := by
    constructor
    · by_contra hsmall
      have hmul : (sigValue sig + 1) * sigValue a.sig ≤ 2 ^ 94 * 2 ^ 96 := Nat.mul_le_mul (by omega) hahigh.le
      rw [Nat.succ_mul] at hmul
      omega
    · by_contra hbig
      have hmul : 2 ^ 96 * 2 ^ 95 ≤ sigValue sig * sigValue a.sig := Nat.mul_le_mul (by omega) halow
      omega
  obtain ⟨w, hw⟩ : ∃ w, w = 16367 := ⟨_, rfl⟩
  have hU : unitsInOne = 2 ^ (95 + w) := unitsInOne_eq (by rw [hw]; rfl)
  have hunit : m * 2 ^ ea * 2 ^ (eb + j + 16 + w) = sigValue a.sig * 2 ^ (w + ea + eb) := by
    rw [ha.value]
    ring
  have hpos : 0 < m * 2 ^ ea := Nat.mul_pos (Nat.pos_of_ne_zero hm) (Nat.two_pow_pos ea)
  have hcov : Covers (sigValue sig) lost false (n * 2 ^ eb * unitsInOne * 2 ^ (16 + (k + ea)))
      (m * 2 ^ ea * 2 ^ (eb + j + 16 + w)) 0 := by
    have hsplit : n * 2 ^ eb * unitsInOne * 2 ^ (16 + (k + ea)) =
        sigValue sig * (m * 2 ^ ea * 2 ^ (eb + j + 16 + w)) + rest * 2 ^ (w + ea + eb) := by
      rw [hunit, hU]
      calc _ = n * 2 ^ (16 + k) * 2 ^ 95 * 2 ^ (w + ea + eb) := by ring
        _ = (sigValue sig * sigValue a.sig + rest) * 2 ^ (w + ea + eb) := by rw [← hb.value, hquot]
        _ = _ := by ring
    have hless : rest * 2 ^ (w + ea + eb) < m * 2 ^ ea * 2 ^ (eb + j + 16 + w) := by
      rw [hunit]
      exact Nat.mul_lt_mul_of_pos_right hrest (Nat.two_pow_pos _)
    exact covers_of_rest hflag hsplit hless (Nat.two_pow_pos _)
  have hexp : lb - la + exone = (eb + j + 16 + w : Nat) - (k + ea : Nat) := by
    have hexone : exone = 16383 := rfl
    rw [ha.lt_eq, hb.lt_eq, hexone, hw]
    push_cast
    ring
  exact emdnorm_number (s := { b with sig := sig }) hc hexp hpos hcov (by dsimp only; omega) hbits.2
    (fun _ => hbits.1) (fun hflag => absurd hflag Bool.false_ne_true)

end Finite

section Zero

variable {x : EType}

theorem magnitude_eq_zero_iff : x.magnitude = 0 ↔ x.significand = 0 := by
  unfold EType.magnitude
  rw [Nat.mul_eq_zero]
  exact or_iff_left (Nat.two_pow_pos _).ne'

theorem exponent_of_zero (hx : x.WellFormed) (hfin : x.exponent ≠ 0x7fff) (hzero : x.significand = 0) : x.exponent = 0 := by
  by_contra hne
  exact absurd ((movedIn_emovi hx hfin).normal hne) (by omega)

theorem ecmp_ezero_iff (hx : x.WellFormed) : ecmp x ezero = 0 ↔ blank (emovi x) = true := by
  have hzero : emovi ezero = ⟨0, 0, zeros 7⟩ := by decide
  have hnan : eisnan ezero = false := by decide
  have hblank : blank ⟨0, 0, zeros 7⟩ = true := by decide
  unfold ecmp
  rw [eisnan_of_wellFormed hx, hnan, Bool.or_false, if_neg Bool.false_ne_true, hzero]
  dsimp only
  by_cases hsign : (emovi x).sign = 0
  · have hwords : (emovi x).sig.toList.dropLast.length = 6 := by
      rw [List.length_dropLast, (emovi x).sig.toList_length]
    have hlen : ((emovi x).exp :: (emovi x).sig.toList.dropLast).length =
        ((0 : Word) :: (zeros 7).toList.dropLast).length := by
      rw [List.length_cons, hwords]
      rfl
    have hcmp := compareWords_cases hlen
    have hall : value ((emovi x).exp :: (emovi x).sig.toList.dropLast) = 0 ↔ blank (emovi x) = true := by
      rw [value_eq_zero_iff, List.forall_mem_cons]
      unfold blank
      rw [Bool.and_eq_true, decide_eq_true_iff, List.all_eq_true]
      simp
    have hnone : value ((0 : Word) :: (zeros 7).toList.dropLast) = 0 := value_replicate_zero 7
    rw [hnone] at hcmp
    rw [if_neg (not_not_intro hsign), if_pos hsign, one_mul, ← hall]
    omega
  · rw [if_pos hsign, hblank, Bool.and_true, if_neg hsign]
    cases blank (emovi x) <;> decide

/-- An infinity is none; a finite number is zero if its significand is. -/
theorem ecmp_ezero_finite (hx : x.WellFormed) (hfin : x.exponent ≠ 0x7fff) : ecmp x ezero = 0 ↔ x.significand = 0 := by
  have hin := movedIn_emovi hx hfin
  rw [ecmp_ezero_iff hx, blank_iff, hin.exp_eq, hin.sig_eq]
  constructor
  · rintro ⟨-, hzero⟩
    omega
  · intro hzero
    exact ⟨exponent_of_zero hx hfin hzero, by rw [hzero]; rfl⟩

theorem ecmp_ezero_infinite (hx : x.WellFormed) (hinf : x.exponent = 0x7fff) : ¬ ecmp x ezero = 0 := by
  have hexp : (emovi x).exp.toNat = 0x7fff := by
    unfold emovi
    dsimp only
    split_ifs <;> exact hinf
  rw [ecmp_ezero_iff hx, blank_iff, hexp]
  omega

end Zero

section Product

variable {c : RoundControl} {a b : EType}

theorem emul_finite (hc : c.rndprc = .nbits) (ha : a.WellFormed) (hb : b.WellFormed) (hafin : a.exponent ≠ 0x7fff)
    (hbfin : b.exponent ≠ 0x7fff) (old : EType) :
    (emul c a b old).1 = ofBits (eisneg a ^^ eisneg b) (roundMagnitude 79 (a.magnitude * b.magnitude) unitsInOne) := by
  have hma := movedIn_emovi ha hafin
  have hmb := movedIn_emovi hb hbfin
  have hU : 0 < unitsInOne := Nat.two_pow_pos _
  have hzero (h : a.magnitude * b.magnitude = 0) :
      ofBits (eisneg a ^^ eisneg b) (roundMagnitude 79 (a.magnitude * b.magnitude) unitsInOne) =
        setSign (eisneg a ^^ eisneg b) eclear := by
    rw [h, roundMagnitude_of_small hU, setSign_eclear]
  unfold emul
  dsimp only
  rw [eisnan_of_wellFormed ha, eisnan_of_wellFormed hb, eisinf_of_finite ha hafin, eisinf_of_finite hb hbfin,
    if_neg Bool.false_ne_true, if_neg Bool.false_ne_true, if_neg (by simp), if_neg (by simp)]
  by_cases hsa : a.significand = 0
  · rw [hsa] at hma
    rw [normalizeTiny_zero hma, hzero (by rw [magnitude_eq_zero_iff.2 hsa, Nat.zero_mul])]
  obtain ⟨ai, la, j, hna, -, hnormal⟩ := normalizeTiny_normal hma hsa
  rw [hna]
  dsimp only
  by_cases hsb : b.significand = 0
  · rw [hsb] at hmb
    rw [normalizeTiny_zero hmb, hzero (by rw [magnitude_eq_zero_iff.2 hsb, Nat.mul_zero])]
  obtain ⟨bi, lb, k, hnb, -, hnormal'⟩ := normalizeTiny_normal hmb hsb
  rw [hnb]
  have hright := congrArg (setSign (eisneg a ^^ eisneg b)) (emulm_right hc hnormal hnormal')
  rw [setSign_ofBits] at hright
  exact hright

theorem ediv_finite (hc : c.rndprc = .nbits) (ha : a.WellFormed) (hb : b.WellFormed) (hafin : a.exponent ≠ 0x7fff)
    (hbfin : b.exponent ≠ 0x7fff) (hsa : a.significand ≠ 0) (old : EType) :
    (ediv c a b old).1 = ofBits (eisneg a ^^ eisneg b) (roundMagnitude 79 (b.magnitude * unitsInOne) a.magnitude) := by
  have hma := movedIn_emovi ha hafin
  have hmb := movedIn_emovi hb hbfin
  have hcmp : ¬ ecmp a ezero = 0 := mt (ecmp_ezero_finite ha hafin).1 hsa
  unfold ediv
  dsimp only
  rw [eisnan_of_wellFormed ha, eisnan_of_wellFormed hb, eisinf_of_finite ha hafin, eisinf_of_finite hb hbfin,
    if_neg Bool.false_ne_true, if_neg Bool.false_ne_true, if_neg (by simp [hcmp]), if_neg (by simp), if_neg (by simp)]
  obtain ⟨ai, la, j, hna, -, hnormal⟩ := normalizeTiny_normal hma hsa
  by_cases hsb : b.significand = 0
  · have hpos : 0 < a.magnitude := Nat.pos_of_ne_zero (mt magnitude_eq_zero_iff.1 hsa)
    have hround : roundMagnitude 79 (b.magnitude * unitsInOne) a.magnitude = 0 := by
      rw [magnitude_eq_zero_iff.2 hsb, Nat.zero_mul, roundMagnitude_of_small hpos]
    rw [hsb] at hmb
    rw [normalizeTiny_zero hmb, hround]
    exact setSign_eclear _
  obtain ⟨bi, lb, k, hnb, -, hnormal'⟩ := normalizeTiny_normal hmb hsb
  rw [hnb, hna]
  have hright := congrArg (setSign (eisneg a ^^ eisneg b)) (edivm_right hc hnormal hnormal' hsa)
  rw [setSign_ofBits] at hright
  exact hright

theorem emul_right (hc : c.rndprc = .nbits) (ha : a.WellFormed) (hb : b.WellFormed) (old : EType) :
    Stores (emul c a b old).1 (a.number.mul b.number) := by
  have hU : 0 < unitsInOne := Nat.two_pow_pos _
  by_cases hafin : a.exponent = 0x7fff
  · have hainf := (eisinf_iff ha).2 hafin
    have hacmp := ecmp_ezero_infinite ha hafin
    unfold emul
    dsimp only
    rw [eisnan_of_wellFormed ha, eisnan_of_wellFormed hb, if_neg Bool.false_ne_true, if_neg Bool.false_ne_true,
      number_infinite ha hafin]
    by_cases hbfin : b.exponent = 0x7fff
    · have hbcmp := ecmp_ezero_infinite hb hbfin
      rw [if_neg (by simp [hacmp, hbcmp]), if_pos (.inl hainf), number_infinite hb hbfin]
      exact setSign_einfin _ old
    · have hbcmp := ecmp_ezero_finite hb hbfin
      rw [number_finite hbfin, Number.mul]
      by_cases hzero : b.significand = 0
      · rw [if_pos (.inl ⟨hainf, hbcmp.2 hzero⟩), if_pos (magnitude_eq_zero_iff.2 hzero)]
        exact stores_enan _
      · rw [if_neg (by simp [hacmp, mt hbcmp.1 hzero]), if_pos (.inl hainf), if_neg (mt magnitude_eq_zero_iff.1 hzero)]
        exact setSign_einfin _ old
  by_cases hbfin : b.exponent = 0x7fff
  · have hbinf := (eisinf_iff hb).2 hbfin
    have hbcmp := ecmp_ezero_infinite hb hbfin
    have hacmp := ecmp_ezero_finite ha hafin
    unfold emul
    dsimp only
    rw [eisnan_of_wellFormed ha, eisnan_of_wellFormed hb, if_neg Bool.false_ne_true, if_neg Bool.false_ne_true,
      number_infinite hb hbfin, number_finite hafin, Number.mul]
    by_cases hzero : a.significand = 0
    · rw [if_pos (.inr ⟨hbinf, hacmp.2 hzero⟩), if_pos (magnitude_eq_zero_iff.2 hzero)]
      exact stores_enan _
    · rw [if_neg (by simp [hbcmp, mt hacmp.1 hzero]), if_pos (.inr hbinf), if_neg (mt magnitude_eq_zero_iff.1 hzero)]
      exact setSign_einfin _ old
  rw [emul_finite hc ha hb hafin hbfin, number_finite hafin, number_finite hbfin, Number.mul]
  unfold Stores
  dsimp only
  rw [roundMagnitude_scale hU hU]

theorem ediv_right (hc : c.rndprc = .nbits) (ha : a.WellFormed) (hb : b.WellFormed) (old : EType)
    (hzero : ∀ neg d, a.number ≠ .finite neg 0 d) : Stores (ediv c a b old).1 (b.number.div a.number) := by
  have hU : 0 < unitsInOne := Nat.two_pow_pos _
  by_cases hafin : a.exponent = 0x7fff
  · have hainf := (eisinf_iff ha).2 hafin
    have hacmp := ecmp_ezero_infinite ha hafin
    unfold ediv
    dsimp only
    rw [eisnan_of_wellFormed ha, eisnan_of_wellFormed hb, if_neg Bool.false_ne_true, if_neg Bool.false_ne_true,
      number_infinite ha hafin]
    by_cases hbfin : b.exponent = 0x7fff
    · rw [if_pos (.inr ⟨hainf, (eisinf_iff hb).2 hbfin⟩), number_infinite hb hbfin]
      exact stores_enan _
    · rw [eisinf_of_finite hb hbfin, if_neg (by simp [hacmp]), if_neg Bool.false_ne_true, if_pos hainf,
        number_finite hbfin, Number.div, setSign_eclear, Bool.xor_comm]
      unfold Stores
      dsimp only
      rw [roundMagnitude_of_small (by rw [Nat.zero_mul]; exact Nat.one_pos)]
  have hsa : a.significand ≠ 0 := by
    intro hsig
    rw [number_finite hafin, magnitude_eq_zero_iff.2 hsig] at hzero
    exact hzero _ _ rfl
  have hacmp : ¬ ecmp a ezero = 0 := mt (ecmp_ezero_finite ha hafin).1 hsa
  by_cases hbfin : b.exponent = 0x7fff
  · unfold ediv
    dsimp only
    rw [eisnan_of_wellFormed ha, eisnan_of_wellFormed hb, if_neg Bool.false_ne_true, if_neg Bool.false_ne_true,
      eisinf_of_finite ha hafin, if_neg (by simp [hacmp]), if_pos ((eisinf_iff hb).2 hbfin), number_infinite hb hbfin,
      number_finite hafin, Number.div, Bool.xor_comm]
    exact setSign_einfin _ old
  rw [ediv_finite hc ha hb hafin hbfin hsa, number_finite hafin, number_finite hbfin, Number.div, Bool.xor_comm]
  unfold Stores
  dsimp only
  rw [Nat.mul_comm unitsInOne a.magnitude, roundMagnitude_scale (Nat.pos_of_ne_zero (mt magnitude_eq_zero_iff.1 hsa)) hU]

end Product

section Operations

variable {c : RoundControl} {a b : EType}

/-- Exactly one of the sum and the difference adds the magnitudes. -/
theorem arith_right_iff (hc : c.rndprc = .nbits) (ha : a.WellFormed) (hb : b.WellFormed) (old : EType) :
    ArithRight c a b old ↔ ¬ LosesCarry a b := by
  have hadd := eadd_right_iff hc ha hb
  have hsub := esub_right_iff hc ha hb
  constructor
  · rintro ⟨hsum, hdiff, -, -⟩ hlost
    by_cases hsign : eisneg a = eisneg b
    · exact hadd.1 hsum ⟨hsign, hlost⟩
    · have hopposite : (!eisneg a) = eisneg b := by
        revert hsign
        cases eisneg a <;> cases eisneg b <;> decide
      exact hsub.1 hdiff ⟨hopposite, hlost⟩
  · intro hkept
    exact ⟨hadd.2 fun hbad => hkept hbad.2, hsub.2 fun hbad => hkept hbad.2, emul_right hc ha hb old,
      ediv_right hc ha hb old⟩

theorem arith_right_one : ArithRight .initial eone (eneg eone) ezero :=
  (arith_right_iff rfl (by decide +kernel) (by decide +kernel) ezero).2 (by decide +kernel)

/-- The sum of `2 ^ 80 - 3` and a number whose last bit is the one below the guard word. -/
theorem carry_lost : ¬ ∀ (c : RoundControl) (a b old : EType), c.rndprc = .nbits → a.WellFormed → b.WellFormed →
    ArithRight c a b old := by
  intro hright
  have hadd := (hright .initial (encode false 16383 (2 ^ 80 - 3)) (encode false 16367 (2 ^ 79 + 1)) ezero rfl
    (by decide +kernel) (by decide +kernel)).eadd
  rw [number_finite (by decide +kernel), number_finite (by decide +kernel), stores_add] at hadd
  revert hadd
  decide +kernel

end Operations

end Z80Gcc.Emulator
