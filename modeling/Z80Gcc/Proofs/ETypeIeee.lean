import Z80Gcc.Proofs.ETypeSum
import Z80Gcc.Spec.ETypeIeee

/-! A float is the number rounded to its precision, and is given back by it. -/

namespace Z80Gcc.Emulator

open WordList BinaryFloat

section Exact

variable {c : RoundControl} {a : Exploded} {s : Bool} {e m b : Nat}

/-- A number is rounded to a precision; `b` is what its exponent is biased by in the format of the emulator, above the one
of the precision. -/
theorem emdnorm_exact (h : MovedIn a s e m) (b : Nat) :
    ∃ r, Rounded c.rndprc (roundMagnitude (fractionBits c.rndprc) (m * 2 ^ e)
        (2 ^ (b + (guardBits c.rndprc - 16) + impliedBits c.rndprc))) r ∧
      (emdnorm c a false false (e - b) 64).1 = roundFinish a.sign r.1 r.2 := by
  have hg := (guardBits_le c.rndprc).1
  have hd : 0 < 2 ^ (b + (guardBits c.rndprc - 16) + impliedBits c.rndprc) := Nat.two_pow_pos _
  have hsig := h.sig_eq
  have hlt := h.sig_lt
  by_cases hm : m = 0
  · have hzeros : a.sig = zeros 7 := sigValue_injective (by rw [hsig, hm, sigValue_zeros, Nat.zero_mul])
    have hearly : (emdnorm c a false false (e - b) 64).1 = ecleazs a := by
      have hexp := h.exp_lt
      unfold emdnorm
      rw [hzeros, enormlz_zero]
      dsimp only
      rw [if_pos ⟨by decide, by omega⟩]
    refine ⟨(zeros 7, 0), ?_, hearly.trans (ecleazs_eq a)⟩
    rw [hm, Nat.zero_mul, roundMagnitude_of_small hd]
    exact rounded_zero _
  · obtain ⟨j, hcount, hj, hvalue, hlow, hhigh⟩ := enormlz_up (x := a.sig) (by omega) (by omega)
    have hcov : Covers (sigValue (enormlz a.sig).2) false false (m * 2 ^ e * 2 ^ (16 + j + b)) (2 ^ (e + b)) 0 := by
      refine ⟨one_dvd _, ?_⟩
      rw [if_neg Bool.false_ne_true, hvalue, hsig]
      ring
    have hunit : 2 ^ (guardBits c.rndprc + impliedBits c.rndprc + (-((e : Int) - b - (enormlz a.sig).1)).toNat) *
        2 ^ (e + b) = 2 ^ (b + (guardBits c.rndprc - 16) + impliedBits c.rndprc) * 2 ^ (16 + j + b) *
          2 ^ ((e : Int) - b - (enormlz a.sig).1).toNat := by
      rw [hcount, ← Nat.pow_add, ← Nat.pow_add, ← Nat.pow_add]
      congr 1
      omega
    obtain ⟨r, hr, hresult⟩ := @emdnorm_spec c a _ _ (e - b) _ _ _ _ _ (by decide : 64 ≠ 0)
      (by rw [hcount]; unfold nbits; omega) hlow hhigh hcov (Nat.zero_le 1) (Nat.two_pow_pos _)
      (Nat.mul_pos hd (Nat.two_pow_pos _)) hunit (fun hflag => absurd hflag Bool.false_ne_true)
    rw [roundMagnitude_scale hd (Nat.two_pow_pos _)] at hr
    exact ⟨r, hr, hresult⟩

end Exact

section Pack

variable {fmt : Format}

theorem packed_low_lt (f : Packed fmt) : value f.low.toList < 2 ^ (16 * fmt.low) := by
  have hlt := value_lt f.low.toList
  rwa [f.low.toList_length, ← Nat.pow_mul] at hlt

theorem Packed.ext_parts {f g : Packed fmt} (hsign : f.sign = g.sign) (hbits : f.bits = g.bits) : f = g := by
  have hfl := packed_low_lt f
  have hgl := packed_low_lt g
  obtain ⟨fh, fl⟩ := f
  obtain ⟨gh, gl⟩ := g
  have hfh := fh.isLt
  have hgh := gh.isLt
  unfold Packed.sign at hsign
  unfold Packed.bits at hbits
  rw [decide_eq_decide] at hsign
  dsimp only at hsign hbits hfl hgl
  obtain ⟨hdiv, hmod⟩ := @split_word (fh.toNat % 2 ^ 15) _ _ 0 (Nat.two_pow_pos _) hfl
  obtain ⟨hdiv', hmod'⟩ := @split_word (gh.toNat % 2 ^ 15) _ _ 0 (Nat.two_pow_pos _) hgl
  rw [hbits, hdiv', Nat.pow_zero, Nat.div_one, Nat.div_one] at hdiv
  rw [hbits, hmod', Nat.pow_zero, Nat.mod_one, Nat.mod_one, Nat.zero_mul, Nat.zero_add, Nat.zero_add] at hmod
  have hhigh : fh = gh := BitVec.eq_of_toNat_eq (by omega)
  have hlow : fl = gl :=
    List.Vector.toList_injective (value_injective (fl.toList_length.trans gl.toList_length.symm) hmod.symm)
  rw [hhigh, hlow]

theorem signed_parts (neg : Bool) {i : Word} (hi : i.toNat < 2 ^ 15) (low : List.Vector Word fmt.low) :
    (⟨(if neg then 0x8000 else 0) ||| i, low⟩ : Packed fmt).sign = neg ∧
      (⟨(if neg then 0x8000 else 0) ||| i, low⟩ : Packed fmt).bits =
        i.toNat * 2 ^ (16 * fmt.low) + value low.toList := by
  have hor : ((if neg then 0x8000 else 0) ||| i : Word).toNat = (if neg then 2 ^ 15 else 0) + i.toNat := by
    cases neg with
    | true => exact toNat_or_of_dvd 15 (dvd_refl _) hi
    | false => exact (congrArg BitVec.toNat BitVec.zero_or).trans (Nat.zero_add _).symm
  unfold Packed.sign Packed.bits
  dsimp only
  rw [hor]
  cases neg with
  | true =>
    rw [if_pos rfl, Nat.add_mod_left, Nat.mod_eq_of_lt hi]
    exact ⟨decide_eq_true (Nat.le_add_right _ _), rfl⟩
  | false =>
    rw [if_neg Bool.false_ne_true, Nat.zero_add, Nat.mod_eq_of_lt hi]
    exact ⟨decide_eq_false (by omega), rfl⟩

/-- The words from the high guard word on, of a significand that has been shifted up to it. -/
theorem words_of_value {sig : Sig} {n v : Nat} (hn : n ≤ 6) (hsig : sigValue sig = v * 2 ^ (16 * (6 - n))) :
    (word sig 2).toNat = v / 2 ^ (16 * n) ∧ value (sig.toList.tail.take n) = v % 2 ^ (16 * n) := by
  obtain ⟨_ | ⟨w, ws⟩, hlen⟩ := sig
  · cases hlen
  have hws : ws.length = 6 := Nat.succ_injective hlen
  have htake : (ws.take n).length = n := by
    rw [List.length_take, hws]
    exact Nat.min_eq_left hn
  have hdrop : (ws.drop n).length = 6 - n := by rw [List.length_drop, hws]
  have hsplit : w :: ws = (w :: ws.take n) ++ ws.drop n := by rw [List.cons_append, List.take_append_drop]
  have hquot := (value_append_div_mod (w :: ws.take n) (ws.drop n)).1
  rw [← hsplit, hdrop, ← Nat.pow_mul] at hquot
  change sigValue ⟨w :: ws, hlen⟩ / _ = _ at hquot
  rw [hsig, Nat.mul_div_left _ (Nat.two_pow_pos _), value_cons, htake, ← Nat.pow_mul] at hquot
  have hlt := value_lt (ws.take n)
  rw [htake, ← Nat.pow_mul] at hlt
  obtain ⟨hdiv, hmod⟩ := @split_word w.toNat _ _ 0 (Nat.two_pow_pos (16 * n)) hlt
  rw [Nat.pow_zero, Nat.one_mul, ← hquot] at hdiv hmod
  rw [hdiv, hmod, Nat.mod_one, Nat.zero_mul, Nat.zero_add, Nat.div_one]
  exact ⟨rfl, rfl⟩

theorem toNat_mask (w : Word) : (w &&& fmt.mask).toNat = w.toNat % 2 ^ fmt.high := by
  have hmask : fmt.mask.toNat = 2 ^ fmt.high - 1 := by cases fmt <;> rfl
  rw [BitVec.toNat_and, hmask]
  exact Nat.and_two_pow_sub_one_eq_mod _ _

/-- The exponent and the bits under the top one of the significand. -/
theorem pack_word (r w : Word) (hr : r.toNat ≤ fmt.top) :
    (r <<< fmt.high ||| w &&& fmt.mask).toNat = r.toNat * 2 ^ fmt.high + w.toNat % 2 ^ fmt.high := by
  have hshift : (r <<< fmt.high).toNat = r.toNat * 2 ^ fmt.high := by
    rw [BitVec.toNat_shiftLeft, Nat.shiftLeft_eq]
    refine Nat.mod_eq_of_lt ?_
    cases fmt <;> dsimp only [Format.top, Format.high] at hr ⊢ <;> omega
  have hlow : (w &&& fmt.mask).toNat < 2 ^ fmt.high := by
    rw [toNat_mask]
    exact Nat.mod_lt _ (Nat.two_pow_pos _)
  rw [toNat_or_of_dvd fmt.high (by rw [hshift]; exact Nat.dvd_mul_left _ _) hlow, hshift, toNat_mask]

theorem overflow_bits (neg : Bool) :
    (⟨(if neg then 0x8000 else 0) ||| fmt.infinity, zeros _⟩ : Packed fmt).sign = neg ∧
      (⟨(if neg then 0x8000 else 0) ||| fmt.infinity, zeros _⟩ : Packed fmt).bits = fmt.overflow := by
  have hparts := signed_parts neg (i := fmt.infinity) (by cases fmt <;> decide) (zeros fmt.low)
  have hzero : value (zeros fmt.low).toList = 0 := value_replicate_zero fmt.low
  have hinf : fmt.infinity.toNat * 2 ^ (16 * fmt.low) = fmt.overflow := by cases fmt <;> decide
  rw [hzero, hinf] at hparts
  exact hparts

/-- The words of a float, from a significand that is shifted up by `k`. -/
theorem packed_bits {x : Sig} {i : Word} {m exp g k b : Nat} {neg : Bool}
    (hi : (i ||| word (eshift x k).2 2 &&& fmt.mask).toNat =
      exp * 2 ^ fmt.high + (word (eshift x k).2 2).toNat % 2 ^ fmt.high)
    (hx : sigValue x = m * 2 ^ g) (hk : g + k = 16 * (6 - fmt.low)) (hm : m < 2 ^ (fmt.fraction + 1)) (hexp : exp < fmt.top)
    (hb : exp * 2 ^ fmt.fraction + m % 2 ^ fmt.fraction = b) (hlen : _) :
    (⟨(if neg then 0x8000 else 0) ||| (i ||| word (eshift x k).2 2 &&& fmt.mask),
        (eshift x k).2.toList.tail.take fmt.low, hlen⟩ : Packed fmt).sign = neg ∧
      (⟨(if neg then 0x8000 else 0) ||| (i ||| word (eshift x k).2 2 &&& fmt.mask),
        (eshift x k).2.toList.tail.take fmt.low, hlen⟩ : Packed fmt).bits = min fmt.overflow b := by
  have hshift := eshift_up x k
  have hfits : m * 2 ^ (16 * (6 - fmt.low)) < 2 ^ 112 := by
    cases fmt <;> dsimp only [Format.fraction, Format.high, Format.low] at * <;> omega
  rw [hx, Nat.mul_assoc, ← Nat.pow_add, hk, Nat.mod_eq_of_lt hfits] at hshift
  obtain ⟨hword, hlow⟩ := words_of_value fmt.low_le hshift
  rw [hword] at hi
  have hquot : m / 2 ^ (16 * fmt.low) % 2 ^ fmt.high < 2 ^ fmt.high := Nat.mod_lt _ (Nat.two_pow_pos _)
  have hfield : (i ||| word (eshift x k).2 2 &&& fmt.mask).toNat < 2 ^ 15 := by
    rw [hi]
    cases fmt <;> dsimp only [Format.high, Format.top] at * <;> omega
  obtain ⟨hs, hbits⟩ := signed_parts neg hfield ⟨(eshift x k).2.toList.tail.take fmt.low, hlen⟩
  have hsum : exp * 2 ^ fmt.fraction + m % 2 ^ fmt.fraction =
      (exp * 2 ^ fmt.high + m / 2 ^ (16 * fmt.low) % 2 ^ fmt.high) * 2 ^ (16 * fmt.low) + m % 2 ^ (16 * fmt.low) := by
    unfold Format.fraction
    rw [Nat.pow_add, Nat.mul_comm (2 ^ fmt.high), Nat.mod_mul]
    ring
  have hless : b ≤ fmt.overflow := by
    have hmod := Nat.mod_lt m (Nat.two_pow_pos fmt.fraction)
    have hmul : (exp + 1) * 2 ^ fmt.fraction ≤ fmt.overflow := Nat.mul_le_mul_right _ hexp
    rw [Nat.succ_mul] at hmul
    omega
  rw [hs, hbits, hi, Nat.min_eq_right hless, ← hb, hsum]
  exact ⟨rfl, congrArg _ hlow⟩

/-- What `emdnorm` leaves is packed into the float with the bits of the rounding. -/
theorem toIeee_roundFinish {b : Nat} {r : Sig × Int} (hr : Rounded fmt.precision b r) (bigEndian : Bool) (sign : Word) :
    (toIeee fmt bigEndian (roundFinish sign r.1 r.2)).sign = decide (sign ≠ 0) ∧
      (toIeee fmt bigEndian (roundFinish sign r.1 r.2)).bits = min fmt.overflow b := by
  obtain ⟨sig, exp⟩ := r
  obtain ⟨hlt, hnormal, m, hsig, hbits⟩ := hr
  have himplied : impliedBits fmt.precision = 1 := by cases fmt <;> rfl
  have hguard : guardBits fmt.precision = 95 - fmt.fraction := by cases fmt <;> rfl
  have hfraction : fractionBits fmt.precision = fmt.fraction := by cases fmt <;> rfl
  dsimp only at hlt hnormal hsig hbits ⊢
  rw [hfraction, himplied] at hbits
  rw [hguard] at hsig
  have hy : (if sign ≠ 0 then 0x8000 else 0 : Word) = if decide (sign ≠ 0) then 0x8000 else 0 :=
    if_congr decide_eq_true_iff.symm rfl rfl
  have hlarge : 0 < exp → roomFor fmt.precision exp = 0 ∧ 2 ^ fmt.fraction ≤ m := by
    intro hpos
    have hroom : roomFor fmt.precision exp = 0 := if_neg (by omega)
    have hbig := hnormal hpos
    rw [hroom] at hsig
    refine ⟨hroom, ?_⟩
    clear hroom hy himplied hguard hfraction
    cases fmt <;> dsimp only [Format.fraction, Format.high, Format.low] at * <;> omega
  have hinf : fmt.top ≤ exp.toNat → min fmt.overflow b = fmt.overflow := by
    intro hbig
    have hm := (hlarge (by cases fmt <;> dsimp only [Format.top] at hbig <;> omega)).2
    clear hnormal hsig hlarge hy himplied hguard hfraction
    rw [Nat.min_eq_left]
    unfold Format.overflow
    cases fmt <;> dsimp only [Format.fraction, Format.high, Format.low, Format.top] at * <;> omega
  by_cases hhuge : 32767 ≤ exp
  · have htop : fmt.top ≤ (32767 : Word).toNat := by cases fmt <;> decide
    obtain ⟨hs, hb⟩ := @overflow_bits fmt (decide (sign ≠ 0))
    unfold roundFinish toIeee
    rw [if_pos hhuge, eiisnan_infinite, if_neg Bool.false_ne_true]
    dsimp only
    rw [if_pos htop, hy, hs, hb, hinf (htop.trans (by change 32767 ≤ _; omega))]
    exact ⟨rfl, rfl⟩
  obtain ⟨hsign, hexp, hvalue⟩ := @roundFinish_finite sign sig _ (not_le.1 hhuge)
  have hnan : eiisnan (roundFinish sign sig exp) = false := by
    unfold eiisnan
    rw [Bool.and_eq_false_iff, decide_eq_false_iff_not, ← BitVec.toNat_inj, BitVec.toNat_and, hexp]
    left
    change ¬ exp.toNat &&& 2 ^ 15 - 1 = 2 ^ 15 - 1
    rw [Nat.and_two_pow_sub_one_eq_mod]
    omega
  generalize roundFinish sign sig exp = x at *
  unfold toIeee
  rw [hnan, if_neg Bool.false_ne_true, hexp, hsign, hy]
  dsimp only
  by_cases hbig : fmt.top ≤ exp.toNat
  · obtain ⟨hs, hb⟩ := @overflow_bits fmt (decide (sign ≠ 0))
    rw [if_pos hbig, hs, hb, hinf hbig]
    exact ⟨rfl, rfl⟩
  rw [if_neg hbig]
  have hzero : x.exp = 0 ↔ exp.toNat = 0 := by
    rw [← BitVec.toNat_inj, hexp]
    rfl
  by_cases htiny : exp ≤ 0
  · have hroom : roomFor fmt.precision exp = 1 := (if_pos htiny).trans himplied
    have hexp0 : x.exp = 0 := hzero.2 (by omega)
    have hnone : exp.toNat = 0 := by omega
    rw [hroom] at hsig
    have hm : m < 2 ^ fmt.fraction := by
      clear hinf hlarge hbig
      cases fmt <;> dsimp only [Format.fraction, Format.high, Format.low] at * <;> omega
    rw [if_pos hexp0]
    dsimp only
    refine @packed_bits _ _ _ _ exp.toNat (95 - fmt.fraction + 1) fmt.high _ _ ?_ (hvalue.trans ?_) ?_
      (hm.trans (Nat.pow_lt_pow_right (by decide) (Nat.lt_succ_self _))) (not_le.1 hbig) ?_ _
    · have hpack := @pack_word fmt 0 (word (eshift x.sig fmt.high).2 2) (Nat.zero_le _)
      rw [BitVec.ofNat_eq_ofNat, BitVec.zero_shiftLeft] at hpack
      rw [hexp0, hnone]
      exact hpack
    · cases fmt <;> dsimp only [Format.fraction, Format.high, Format.low] at * <;> omega
    · cases fmt <;> rfl
    · rw [Nat.mod_eq_of_lt hm, hbits]
      have hfield : (exp - (1 : Nat)).toNat = exp.toNat := by omega
      rw [hfield]
  · obtain ⟨hroom, hlow⟩ := hlarge (not_le.1 htiny)
    have hm : m < 2 ^ (fmt.fraction + 1) := by
      rw [hroom] at hsig
      clear hinf hbig
      cases fmt <;> dsimp only [Format.fraction, Format.high, Format.low] at * <;> omega
    rw [hroom] at hsig
    rw [if_neg (mt hzero.1 (by omega))]
    dsimp only
    refine @packed_bits _ _ _ _ exp.toNat (95 - fmt.fraction) (fmt.high + 1) _ _ ?_ (hvalue.trans ?_) ?_ hm
      (not_le.1 hbig) ?_ _
    · have hpack := @pack_word fmt x.exp (word (eshift x.sig (fmt.high + 1)).2 2) (by omega)
      rwa [hexp] at hpack
    · cases fmt <;> dsimp only [Format.fraction, Format.high, Format.low] at * <;> omega
    · cases fmt <;> rfl
    · obtain ⟨e, he⟩ : ∃ e, exp.toNat = e + 1 := ⟨exp.toNat - 1, by omega⟩
      have hfield : (exp - (1 : Nat)).toNat = e := by omega
      have hmod : m % 2 ^ fmt.fraction = m - 2 ^ fmt.fraction := by
        rw [Nat.pow_succ] at hm
        rw [Nat.mod_eq_sub_mod hlow, Nat.mod_eq_of_lt (by omega)]
      rw [hbits, he, hfield, hmod, Nat.succ_mul]
      omega

end Pack

section Unpack

variable {fmt : Format}

theorem wellFormed_encode {neg : Bool} {exp sig : Nat} (hexp : exp < 0x7fff) (hsig : sig < 2 ^ 80)
    (hnormal : exp ≠ 0 → 2 ^ 79 ≤ sig) : (encode neg exp sig).WellFormed := by
  unfold EType.WellFormed
  rw [exponent_encode (by omega), significand_encode hsig, if_neg (by omega)]
  exact hnormal

theorem number_encode {neg : Bool} {exp sig : Nat} (hexp : exp < 0x7fff) (hsig : sig < 2 ^ 80) :
    (encode neg exp sig).number = .finite neg (sig * 2 ^ exp) unitsInOne := by
  have hfield : (encode neg exp sig).exponent = exp := exponent_encode (by omega)
  rw [number_finite (by omega), eisneg_encode (by omega), EType.magnitude, hfield, significand_encode hsig]

theorem sign_eq_ite (f : Packed fmt) :
    decide ((if f.high &&& 0x8000 ≠ 0 then 0xffff else 0 : Word) ≠ 0) = f.sign := by
  unfold Packed.sign
  rw [decide_eq_decide, ← top_iff, ← and_top_ne_zero]
  split_ifs with htop
  · exact iff_of_true (by decide) htop
  · exact iff_of_false (fun h => h rfl) htop

theorem packed_fields (f : Packed fmt) :
    (f.high &&& ~~~fmt.stripped).toNat = f.bits / 2 ^ fmt.fraction * 2 ^ fmt.high ∧
      (f.high &&& fmt.mask).toNat * 2 ^ (16 * fmt.low) + value f.low.toList = f.bits % 2 ^ fmt.fraction := by
  have hlow := packed_low_lt f
  obtain ⟨hdiv, hmod⟩ := @split_word (f.high.toNat % 2 ^ 15) _ _ fmt.high (Nat.two_pow_pos _) hlow
  have hexp : (f.high &&& ~~~fmt.stripped).toNat = f.high.toNat % 2 ^ 15 / 2 ^ fmt.high * 2 ^ fmt.high := by
    have hmask : ~~~fmt.stripped = BitVec.ofNat 16 fmt.top <<< fmt.high := by cases fmt <;> decide
    have htop : (BitVec.ofNat 16 fmt.top).toNat = 2 ^ (15 - fmt.high) - 1 := by cases fmt <;> rfl
    have hhigh := f.high.isLt
    rw [hmask, and_shiftLeft, BitVec.toNat_shiftLeft, BitVec.toNat_and, htop, BitVec.toNat_ushiftRight,
      Nat.shiftRight_eq_div_pow, Nat.and_two_pow_sub_one_eq_mod, Nat.shiftLeft_eq]
    cases fmt <;> dsimp only [Format.high] <;> omega
  have hfrac : f.high.toNat % 2 ^ 15 % 2 ^ fmt.high = f.high.toNat % 2 ^ fmt.high := by
    cases fmt <;> dsimp only [Format.high] <;> omega
  unfold Format.fraction Packed.bits
  rw [Nat.pow_add, hdiv, hmod, hexp, toNat_mask, hfrac]
  exact ⟨rfl, rfl⟩

/-- The significand of a float, moved under the high guard word. -/
theorem shifted_moveIn (m : Word) (low : List.Vector Word fmt.low) :
    sigValue (eshift (moveIn m low) (-(fmt.high + 1 : Nat))).2 =
      (m.toNat * 2 ^ (16 * fmt.low) + value low.toList) * 2 ^ (95 - fmt.fraction) := by
  have hvalue : sigValue (moveIn m low) =
      (m.toNat * 2 ^ (16 * fmt.low) + value low.toList) * 2 ^ (16 * (6 - fmt.low)) := by
    have hsplit := value_append (m :: low.toList) (List.replicate (6 - fmt.low) 0)
    rw [value_replicate_zero, List.length_replicate, ← Nat.pow_mul, value_cons, low.toList_length, ← Nat.pow_mul,
      Nat.add_zero] at hsplit
    exact hsplit
  have hshift := (eshift_down (moveIn m low) (fmt.high + 1) (Nat.succ_ne_zero _)).1
  have hpow : 2 ^ (16 * (6 - fmt.low)) = 2 ^ (95 - fmt.fraction) * 2 ^ (fmt.high + 1) := by
    cases fmt <;> rfl
  rw [hshift, hvalue, hpow, ← Nat.mul_assoc, Nat.mul_div_left _ (Nat.two_pow_pos _)]

theorem unitsInOne_units (fmt : Format) : ∃ w, unitsInOne = 2 ^ w * fmt.units ∧ w + fmt.one + fmt.fraction = 16463 := by
  refine ⟨16463 - fmt.one - fmt.fraction, ?_, by cases fmt <;> rfl⟩
  unfold Format.units
  rw [← Nat.pow_add]
  exact unitsInOne_eq (by cases fmt <;> rfl)

def Packed.signWord (f : Packed fmt) : Word := if f.high &&& 0x8000 ≠ 0 then 0xffff else 0

theorem not_infinity {f : Packed fmt} (hfin : f.bits < fmt.overflow) :
    ¬ f.high &&& ~~~fmt.stripped = fmt.infinity := by
  intro heq
  obtain ⟨hr, -⟩ := packed_fields f
  have htop : fmt.infinity.toNat = fmt.top * 2 ^ fmt.high := by cases fmt <;> rfl
  rw [heq, htop] at hr
  have hsame := Nat.eq_of_mul_eq_mul_right (Nat.two_pow_pos _) hr
  have hfield : f.bits / 2 ^ fmt.fraction < fmt.top := by
    unfold Format.overflow at hfin
    exact Nat.div_lt_of_lt_mul (by rwa [Nat.mul_comm])
  omega

theorem exponent_fields {f : Packed fmt} (hfin : f.bits < fmt.overflow) :
    ((f.high &&& ~~~fmt.stripped) >>> fmt.high).toNat = f.bits / 2 ^ fmt.fraction ∧
      ((f.high &&& ~~~fmt.stripped) >>> fmt.high + BitVec.ofInt 16 (exone - fmt.one)).toNat + fmt.one =
        f.bits / 2 ^ fmt.fraction + 16383 := by
  obtain ⟨hr, -⟩ := packed_fields f
  have hfield : f.bits / 2 ^ fmt.fraction < fmt.top := by
    unfold Format.overflow at hfin
    exact Nat.div_lt_of_lt_mul (by rwa [Nat.mul_comm])
  have hr' : ((f.high &&& ~~~fmt.stripped) >>> fmt.high).toNat = f.bits / 2 ^ fmt.fraction := by
    rw [BitVec.toNat_ushiftRight, Nat.shiftRight_eq_div_pow, hr, Nat.mul_div_left _ (Nat.two_pow_pos _)]
  have hrebias : (BitVec.ofInt 16 (exone - fmt.one)).toNat + fmt.one = 16383 := by cases fmt <;> rfl
  have htop : fmt.top < 2 ^ 15 := by cases fmt <;> decide
  refine ⟨hr', ?_⟩
  rw [BitVec.toNat_add, hr', Nat.mod_eq_of_lt (by omega)]
  omega

theorem field_eq_zero_iff {f : Packed fmt} (hfin : f.bits < fmt.overflow) :
    (f.high &&& ~~~fmt.stripped) >>> fmt.high = 0 ↔ f.bits / 2 ^ fmt.fraction = 0 := by
  rw [← BitVec.toNat_inj, (exponent_fields hfin).1]
  rfl

theorem ieeeToe_normal {f : Packed fmt} (hfin : f.bits < fmt.overflow) (hnormal : f.bits / 2 ^ fmt.fraction ≠ 0) :
    ∃ (e : Word) (sig : Sig), ieeeToe fmt f = emovo ⟨f.signWord, e, sig⟩ ∧
      e.toNat + fmt.one = f.bits / 2 ^ fmt.fraction + 16383 ∧
      sigValue sig = (2 ^ fmt.fraction + f.bits % 2 ^ fmt.fraction) * 2 ^ (95 - fmt.fraction) := by
  obtain ⟨-, hsig⟩ := packed_fields f
  have hmask : (f.high &&& fmt.mask).toNat < 2 ^ fmt.high := by
    rw [toNat_mask]
    exact Nat.mod_lt _ (Nat.two_pow_pos _)
  have himplied : (f.high &&& fmt.mask ||| fmt.implied).toNat * 2 ^ (16 * fmt.low) + value f.low.toList =
      2 ^ fmt.fraction + f.bits % 2 ^ fmt.fraction := by
    have htop : fmt.implied.toNat = 2 ^ fmt.high := by cases fmt <;> rfl
    rw [BitVec.or_comm, toNat_or_of_dvd fmt.high (by rw [htop]) hmask, htop, ← hsig]
    unfold Format.fraction
    ring
  have hvalue := shifted_moveIn (f.high &&& fmt.mask ||| fmt.implied) f.low
  have hfield := mt (field_eq_zero_iff hfin).1 hnormal
  rw [himplied] at hvalue
  refine ⟨_, _, ?_, (exponent_fields hfin).2, hvalue⟩
  unfold ieeeToe
  dsimp only
  rw [if_neg (not_infinity hfin), if_neg hfield, if_neg hfield]
  rfl

theorem ieeeToe_denormal {f : Packed fmt} (hfin : f.bits < fmt.overflow) (hdenormal : f.bits / 2 ^ fmt.fraction = 0) :
    ∃ (e : Word) (sig : Sig), (ieeeToe fmt f = if nbits < (enormlz sig).1 then emovo (ecleazs ⟨f.signWord, e, (enormlz sig).2⟩)
        else emovo ⟨f.signWord, e - BitVec.ofInt 16 ((enormlz sig).1 - 1), (enormlz sig).2⟩) ∧
      e.toNat + fmt.one = 16383 ∧ sigValue sig = f.bits * 2 ^ (95 - fmt.fraction) := by
  obtain ⟨-, hsig⟩ := packed_fields f
  have htaken : (f.high &&& fmt.mask ||| fmt.implied) &&& ~~~fmt.implied = f.high &&& fmt.mask := by
    have hgone : fmt.implied &&& ~~~fmt.implied = 0 := by cases fmt <;> decide
    have hkept : fmt.mask &&& ~~~fmt.implied = fmt.mask := by cases fmt <;> decide
    rw [BitVec.and_or_distrib_right, hgone, BitVec.and_assoc, hkept]
    exact BitVec.or_zero
  have hvalue := shifted_moveIn (f.high &&& fmt.mask) f.low
  have hall : f.bits % 2 ^ fmt.fraction = f.bits :=
    Nat.mod_eq_of_lt ((Nat.div_eq_zero_iff_lt (Nat.two_pow_pos _)).1 hdenormal)
  have hfield := (field_eq_zero_iff hfin).2 hdenormal
  have hexp := (exponent_fields hfin).2
  rw [hsig, hall] at hvalue
  rw [hdenormal, Nat.zero_add] at hexp
  refine ⟨_, _, ?_, hexp, hvalue⟩
  unfold ieeeToe
  dsimp only
  rw [if_neg (not_infinity hfin), if_pos hfield, if_pos hfield, htaken]
  rfl

/-- The significand of a denormal number, moved up by the places that are missing. -/
theorem enormlz_denormal {v : Nat} {e : Word} {sig : Sig} (hv : 0 < v) (hlt : v < 2 ^ fmt.fraction)
    (he : e.toNat + fmt.one = 16383) (hsig : sigValue sig = v * 2 ^ (95 - fmt.fraction)) :
    ∃ i, ¬ nbits < (enormlz sig).1 ∧ (e - BitVec.ofInt 16 ((enormlz sig).1 - 1)).toNat + fmt.one + i = 16383 ∧
      i ≤ fmt.fraction ∧ sigValue (enormlz sig).2 = v * 2 ^ (79 - fmt.fraction + (i + 1)) * 2 ^ 16 ∧
      2 ^ 79 ≤ v * 2 ^ (79 - fmt.fraction + (i + 1)) ∧ v * 2 ^ (79 - fmt.fraction + (i + 1)) < 2 ^ 80 := by
  have hbounds : 2 ^ (95 - fmt.fraction) ≤ sigValue sig ∧ sigValue sig < 2 ^ 95 := by
    cases fmt <;> dsimp only [Format.fraction, Format.high, Format.low] at * <;> omega
  have hroom : 2 ^ 15 ≤ 2 ^ (95 - fmt.fraction) := by cases fmt <;> decide
  obtain ⟨j, hcount, hj, hup, htop, hhigh⟩ := enormlz_up (hroom.trans hbounds.1) (by omega)
  have hj1 : j ≠ 0 := by
    rintro rfl
    rw [Nat.pow_zero, Nat.mul_one] at hup
    omega
  obtain ⟨i, rfl⟩ := Nat.exists_eq_add_one_of_ne_zero hj1
  have hm : sigValue (enormlz sig).2 = v * 2 ^ (79 - fmt.fraction + (i + 1)) * 2 ^ 16 := by
    have hpow : 95 - fmt.fraction = 79 - fmt.fraction + 16 := by cases fmt <;> rfl
    rw [hup, hsig, hpow]
    ring
  have hless : (BitVec.ofInt 16 ((enormlz sig).1 - 1)).toNat = i := by
    rw [hcount]
    change (BitVec.ofInt 16 (((i : Int) + 1) - 1)).toNat = i
    rw [Int.add_sub_cancel]
    change (BitVec.ofNat 16 i).toNat = i
    rw [BitVec.toNat_ofNat]
    exact Nat.mod_eq_of_lt (by omega)
  have hone : fmt.one ≤ 1023 := by cases fmt <;> decide
  rw [hm] at htop hhigh
  refine ⟨i, ?_, ?_, ?_, hm, by omega, by omega⟩
  · rw [hcount]
    unfold nbits
    omega
  · rw [BitVec.toNat_sub, hless]
    omega
  · -- the number of places is bounded by those under the implied bit
    by_contra hbig
    have hle : fmt.fraction ≤ 79 := by cases fmt <;> decide
    have hpow : 2 ^ 79 * 2 ≤ 2 ^ (79 - fmt.fraction + (i + 1)) := by
      rw [← Nat.pow_succ]
      exact Nat.pow_le_pow_right (by decide) (by omega)
    have hmul : 1 * (2 ^ 79 * 2) ≤ v * 2 ^ (79 - fmt.fraction + (i + 1)) := Nat.mul_le_mul hv hpow
    omega

theorem ieeeToe_finite {f : Packed fmt} (hfin : f.bits < fmt.overflow) :
    ∃ exp sig, ieeeToe fmt f = encode f.sign exp sig ∧ exp < 0x7fff ∧ sig < 2 ^ 80 ∧ (exp ≠ 0 → 2 ^ 79 ≤ sig) ∧
      sig * 2 ^ exp * fmt.units = magnitude fmt.fraction f.bits * unitsInOne := by
  obtain ⟨w, hU, hw⟩ := unitsInOne_units fmt
  have hsign : decide (f.signWord ≠ 0) = f.sign := sign_eq_ite f
  have hle : fmt.fraction ≤ 79 ∧ fmt.top < 2 ^ 14 ∧ fmt.one < 2 ^ 14 := by cases fmt <;> decide
  rw [hU]
  by_cases hdenormal : f.bits / 2 ^ fmt.fraction = 0
  · obtain ⟨e, sig, hrun, hexp, hvalue⟩ := ieeeToe_denormal hfin hdenormal
    have hlt := (Nat.div_eq_zero_iff_lt (Nat.two_pow_pos _)).1 hdenormal
    have hmagnitude : magnitude fmt.fraction f.bits = f.bits := by
      unfold magnitude
      rw [if_pos hdenormal, Nat.mod_eq_of_lt hlt]
    rw [hrun, hmagnitude]
    obtain hnone | hpos := Nat.eq_zero_or_pos f.bits
    · have hzeros : sig = zeros 7 := sigValue_injective (by rw [hvalue, sigValue_zeros, hnone, Nat.zero_mul])
      refine ⟨0, 0, ?_, by decide, by decide, fun h => absurd rfl h, by rw [hnone, Nat.zero_mul, Nat.zero_mul, Nat.zero_mul]⟩
      rw [hzeros, enormlz_zero, if_pos (by decide)]
      refine (emovo_encode (m := 0) (by change (0 : Word).toNat < _; decide) ?_ (by decide)).trans ?_
      · change sigValue (zeros 7) / 2 ^ 16 = 0
        rw [sigValue_zeros]
        rfl
      · exact congrArg (encode · 0 0) hsign
    · obtain ⟨i, hfits, hword, hi, hm, hlarge, hsmall⟩ := enormlz_denormal hpos hlt hexp hvalue
      rw [if_neg hfits]
      refine ⟨(e - BitVec.ofInt 16 ((enormlz sig).1 - 1)).toNat, f.bits * 2 ^ (79 - fmt.fraction + (i + 1)), ?_,
        by omega, hsmall, fun _ => hlarge, ?_⟩
      · refine (emovo_encode (m := f.bits * 2 ^ (79 - fmt.fraction + (i + 1))) ?_ ?_ hsmall).trans ?_
        · dsimp only
          omega
        · dsimp only
          rw [hm, Nat.mul_div_left _ (Nat.two_pow_pos _)]
        · dsimp only
          rw [hsign]
      · have hexponents : 79 - fmt.fraction + (i + 1) + (e - BitVec.ofInt 16 ((enormlz sig).1 - 1)).toNat = w := by
          omega
        rw [← hexponents, Nat.pow_add]
        ring
  · obtain ⟨e, sig, hrun, hexp, hvalue⟩ := ieeeToe_normal hfin hdenormal
    have hfield : f.bits / 2 ^ fmt.fraction < fmt.top := by
      unfold Format.overflow at hfin
      exact Nat.div_lt_of_lt_mul (by rwa [Nat.mul_comm])
    have hfrac : f.bits % 2 ^ fmt.fraction < 2 ^ fmt.fraction := Nat.mod_lt _ (Nat.two_pow_pos _)
    unfold magnitude
    rw [hrun, if_neg hdenormal]
    obtain ⟨i, hi⟩ := Nat.exists_eq_add_one_of_ne_zero hdenormal
    obtain ⟨m, hm⟩ : ∃ m, m = 2 ^ fmt.fraction + f.bits % 2 ^ fmt.fraction := ⟨_, rfl⟩
    rw [← hm] at hvalue ⊢
    have hpow : 2 ^ 79 = 2 ^ fmt.fraction * 2 ^ (79 - fmt.fraction) := by rw [← Nat.pow_add, Nat.add_sub_cancel' hle.1]
    have hpow' : 95 - fmt.fraction = 79 - fmt.fraction + 16 := by omega
    have hlarge : 2 ^ 79 ≤ m * 2 ^ (79 - fmt.fraction) := by
      rw [hpow]
      exact Nat.mul_le_mul_right _ (by omega)
    have hsmall : m * 2 ^ (79 - fmt.fraction) < 2 ^ 80 := by
      have htwice : 2 ^ 80 = 2 * 2 ^ fmt.fraction * 2 ^ (79 - fmt.fraction) := by
        rw [Nat.mul_assoc, ← hpow]
        rfl
      rw [htwice]
      exact Nat.mul_lt_mul_of_pos_right (by omega) (Nat.two_pow_pos _)
    rw [hpow', Nat.pow_add, ← Nat.mul_assoc] at hvalue
    refine ⟨e.toNat, m * 2 ^ (79 - fmt.fraction), ?_, by omega, hsmall, fun _ => hlarge, ?_⟩
    · refine (emovo_encode (m := m * 2 ^ (79 - fmt.fraction)) ?_ ?_ hsmall).trans ?_
      · dsimp only
        omega
      · dsimp only
        omega
      · dsimp only
        rw [hsign]
    · have hexponents : 79 - fmt.fraction + e.toNat = i + w := by omega
      rw [hi, Nat.add_sub_cancel]
      calc _ = m * 2 ^ (79 - fmt.fraction + e.toNat) * fmt.units := by ring
        _ = m * 2 ^ (i + w) * fmt.units := by rw [hexponents]
        _ = _ := by ring

theorem ieeeToe_infinite {f : Packed fmt} (hinf : f.bits = fmt.overflow) : ieeeToe fmt f = infinity f.sign := by
  obtain ⟨hr, hsig⟩ := packed_fields f
  have hsign := sign_eq_ite f
  have hpos : 0 < 2 ^ (16 * fmt.low) := Nat.two_pow_pos _
  unfold Format.overflow at hinf
  rw [hinf, Nat.mul_div_left _ (Nat.two_pow_pos _)] at hr
  rw [hinf, Nat.mul_mod_left, Nat.add_eq_zero_iff, Nat.mul_eq_zero, or_iff_left hpos.ne', value_eq_zero_iff] at hsig
  have hfield : f.high &&& ~~~fmt.stripped = fmt.infinity := by
    rw [← BitVec.toNat_inj, hr]
    cases fmt <;> rfl
  have hfrac : f.high &&& fmt.mask = 0 := BitVec.eq_of_toNat_eq hsig.1
  have hnone : ¬ (f.high &&& fmt.mask ≠ 0 ∨ (f.low.toList.any fun x => x ≠ 0) = true) := by
    rw [not_or, List.any_eq_true]
    refine ⟨not_not_intro hfrac, ?_⟩
    rintro ⟨x, hx, hne⟩
    exact of_decide_eq_true hne (hsig.2 x hx)
  unfold ieeeToe
  dsimp only
  rw [if_pos hfield, if_neg hnone, ← hsign]
  by_cases htop : f.high &&& 0x8000 ≠ 0
  · rw [if_pos htop]
    decide
  · rw [if_neg htop]
    decide

end Unpack

section Right

variable {fmt : Format} {bigEndian : Bool} {c : RoundControl}

theorem etoIeee_rounds {x : EType} (hx : x.WellFormed) {neg : Bool} {n d : Nat} (hn : x.number = .finite neg n d) :
    (etoIeee fmt bigEndian c x).1.sign = neg ∧
      (etoIeee fmt bigEndian c x).1.bits = min fmt.overflow (roundMagnitude fmt.fraction (n * fmt.units) d) := by
  have hfin : x.exponent ≠ 0x7fff := by
    intro hinf
    rw [number_infinite hx hinf] at hn
    cases hn
  rw [number_finite hfin] at hn
  injection hn with hneg hmagnitude hunits
  subst hneg hmagnitude hunits
  have hin := movedIn_emovi hx hfin
  obtain ⟨r, hr, hresult⟩ := emdnorm_exact (c := c.withPrecision fmt.precision) hin (16383 - fmt.one)
  have hrebias : exone - fmt.one = (16383 - fmt.one : Nat) := by cases fmt <;> rfl
  obtain ⟨w, hU, hw⟩ := unitsInOne_units fmt
  have hround : roundMagnitude fmt.fraction (x.magnitude * fmt.units) unitsInOne =
      roundMagnitude fmt.fraction x.magnitude (2 ^ w) := by
    rw [hU]
    exact roundMagnitude_scale (Nat.two_pow_pos w) (Nat.two_pow_pos _)
  have hprc : (c.withPrecision fmt.precision).rndprc = fmt.precision := rfl
  have hfraction : fractionBits fmt.precision = fmt.fraction := by cases fmt <;> rfl
  have hunit : 16383 - fmt.one + (guardBits fmt.precision - 16) + impliedBits fmt.precision = w := by
    have hbits : 16383 - fmt.one + (guardBits fmt.precision - 16) + impliedBits fmt.precision + fmt.one + fmt.fraction =
        16463 := by cases fmt <;> rfl
    omega
  rw [hprc, hunit, hfraction] at hr
  have hpack := toIeee_roundFinish hr bigEndian (emovi x).sign
  rw [← hresult, hin.sign_ne_zero] at hpack
  unfold etoIeee
  dsimp only
  rw [eisnan_of_wellFormed hx, eisinf_of_finite hx hfin, if_neg Bool.false_ne_true, if_neg Bool.false_ne_true, hin.exp_eq,
    hrebias, hround]
  exact hpack

theorem packed_cases {f : Packed fmt} (hf : f.number ≠ .nan) :
    f.bits = fmt.overflow ∧ f.number = .infinite f.sign ∨
      f.bits < fmt.overflow ∧ f.number = .finite f.sign (magnitude fmt.fraction f.bits) fmt.units := by
  unfold Packed.number at hf ⊢
  by_cases hnan : fmt.overflow < f.bits
  · rw [if_pos hnan] at hf
    exact absurd rfl hf
  · rw [if_neg hnan]
    by_cases hinf : f.bits = fmt.overflow
    · rw [if_pos hinf]
      exact .inl ⟨hinf, rfl⟩
    · rw [if_neg hinf]
      exact .inr ⟨by omega, rfl⟩

theorem number_ne_nan {f : Packed fmt} (h : f.bits ≤ fmt.overflow) : f.number ≠ .nan := by
  unfold Packed.number
  rw [if_neg (not_lt.2 h)]
  split_ifs <;> exact fun hnan => nomatch hnan

theorem ieeeToe_exact {f : Packed fmt} (hf : f.number ≠ .nan) :
    (ieeeToe fmt f).WellFormed ∧ (ieeeToe fmt f).number.Same f.number := by
  obtain ⟨hinf, hnumber⟩ | ⟨hfin, hnumber⟩ := packed_cases hf
  · have hwell : (infinity f.sign).WellFormed := by
      cases f.sign <;> decide +kernel
    have hother : (infinity f.sign).number = .infinite f.sign := by
      cases f.sign <;> rfl
    rw [ieeeToe_infinite hinf, hnumber, hother]
    exact ⟨hwell, rfl⟩
  · obtain ⟨exp, sig, hvalue, hexp, hsig, hnormal, heq⟩ := ieeeToe_finite hfin
    rw [hvalue, hnumber, number_encode hexp hsig]
    exact ⟨wellFormed_encode hexp hsig hnormal, rfl, heq⟩

theorem etoIeee_infinity (neg : Bool) :
    (etoIeee fmt bigEndian c (infinity neg)).1.sign = neg ∧
      (etoIeee fmt bigEndian c (infinity neg)).1.bits = fmt.overflow := by
  have hinf : eisinf (infinity neg) = true := by cases neg <;> decide
  have hnan : eisnan (infinity neg) = false := by cases neg <;> decide
  unfold etoIeee
  dsimp only
  rw [hnan, hinf, if_neg Bool.false_ne_true, if_pos rfl]
  dsimp only
  cases fmt <;> cases neg <;> cases bigEndian <;> decide +kernel

theorem etoIeee_ieeeToe {f : Packed fmt} (hf : f.number ≠ .nan) : (etoIeee fmt bigEndian c (ieeeToe fmt f)).1 = f := by
  obtain ⟨hinf, -⟩ | ⟨hfin, -⟩ := packed_cases hf
  · obtain ⟨hsign, hbits⟩ := @etoIeee_infinity fmt bigEndian c f.sign
    rw [ieeeToe_infinite hinf]
    exact Packed.ext_parts hsign (hbits.trans hinf.symm)
  · obtain ⟨exp, sig, hvalue, hexp, hsig, hnormal, heq⟩ := ieeeToe_finite hfin
    obtain ⟨hsign, hbits⟩ := @etoIeee_rounds fmt bigEndian c _ (@wellFormed_encode f.sign _ _ hexp hsig hnormal) _ _ _
      (number_encode hexp hsig)
    have hU : 0 < unitsInOne := Nat.two_pow_pos _
    rw [heq, roundMagnitude_magnitude hU, Nat.min_eq_right hfin.le] at hbits
    rw [hvalue]
    exact Packed.ext_parts hsign hbits

/-- A precision is entered with the nearest number, and left with the number itself. -/
theorem ieeeRight (fmt : Format) (bigEndian : Bool) (c : RoundControl) :
    IeeeRight fmt (fun x => (etoIeee fmt bigEndian c x).1) (ieeeToe fmt) :=
  ⟨fun _ hx _ _ _ hn => etoIeee_rounds hx hn, fun _ hf => ieeeToe_exact hf, fun _ hf => etoIeee_ieeeToe hf⟩

theorem single_right (bigEndian : Bool) (c : RoundControl) :
    IeeeRight .single (fun x => (etoe24 bigEndian c x).1) e24toe := ieeeRight .single bigEndian c

end Right

section Widen

variable {bigEndian : Bool} {c : RoundControl} {f : Packed .single}

theorem etoe53_e24toe (hf : f.number ≠ .nan) : (etoe53 bigEndian c (e24toe f)).1.number.Same f.number := by
  obtain ⟨hinf, hnumber⟩ | ⟨hfin, hnumber⟩ := packed_cases hf
  · obtain ⟨hsign, hbits⟩ := @etoIeee_infinity .double bigEndian c f.sign
    have hvalue : e24toe f = infinity f.sign := ieeeToe_infinite hinf
    have hwide : (etoe53 bigEndian c (infinity f.sign)).1.number = .infinite f.sign := by
      unfold Packed.number etoe53
      rw [hbits, hsign, if_neg (lt_irrefl _), if_pos rfl]
    rw [hvalue, hnumber, hwide]
    rfl
  · obtain ⟨exp, sig, hvalue, hexp, hsig, hnormal, heq⟩ := ieeeToe_finite hfin
    obtain ⟨hsign, hbits⟩ := @etoIeee_rounds .double bigEndian c _ (@wellFormed_encode f.sign _ _ hexp hsig hnormal) _ _ _
      (number_encode hexp hsig)
    obtain ⟨e, m, hencode, hm, hlow⟩ := exists_encode (t := 23) f.bits
    have hmagnitude : magnitude 23 f.bits = m * 2 ^ e := by rw [hencode, magnitude_encode hm.le hlow]
    have he : e ≤ 254 := by
      have hoverflow : Format.single.overflow = 255 * 2 ^ 23 := rfl
      rw [hoverflow] at hfin
      omega
    obtain ⟨k, hk⟩ : ∃ k, k = 925 := ⟨_, rfl⟩
    have hunits : Format.double.units = Format.single.units * 2 ^ k := by
      have hexponents : Format.double.one + Format.double.fraction - 1 =
          Format.single.one + Format.single.fraction - 1 + k := by
        rw [hk]
        rfl
      unfold Format.units
      rw [hexponents, Nat.pow_add]
    obtain ⟨b, hb⟩ := exists_magnitude (t := 52) (e := e + k) (n := m * 2 ^ e * 2 ^ k) (Dvd.intro_left m (by ring)) (by
      calc m * 2 ^ e * 2 ^ k = m * 2 ^ (e + k) := by ring
        _ < 2 ^ 53 * 2 ^ (e + k) := Nat.mul_lt_mul_of_pos_right (hm.trans (by decide)) (Nat.two_pow_pos _)
        _ = 2 ^ (52 + 1 + (e + k)) := by ring)
    have hfits : b < Format.double.overflow := by
      by_contra hbig
      have hle := (magnitude_strictMono (t := 52)).monotone (not_lt.1 hbig)
      obtain ⟨u, hu⟩ : ∃ u, u = 2046 := ⟨_, rfl⟩
      have htop : Format.double.overflow = u * 2 ^ 52 + 2 ^ 52 := by rw [hu]; rfl
      rw [hb, htop, magnitude_encode (Nat.pow_le_pow_right (by decide) (by decide)) (.inr le_rfl), ← Nat.pow_add] at hle
      have hless : m * 2 ^ e * 2 ^ k < 2 ^ (24 + e + k) := by
        calc m * 2 ^ e * 2 ^ k = m * 2 ^ (e + k) := by ring
          _ < 2 ^ 24 * 2 ^ (e + k) := Nat.mul_lt_mul_of_pos_right hm (Nat.two_pow_pos _)
          _ = 2 ^ (24 + e + k) := by ring
      have hexponents := (Nat.pow_lt_pow_iff_right (by decide)).1 (hle.trans_lt hless)
      omega
    have hU : 0 < unitsInOne := Nat.two_pow_pos _
    have hexact : sig * 2 ^ exp * Format.double.units = magnitude 52 b * unitsInOne := by
      rw [hunits, ← Nat.mul_assoc, heq, hb, ← hmagnitude]
      change magnitude 23 f.bits * unitsInOne * 2 ^ k = magnitude 23 f.bits * 2 ^ k * unitsInOne
      ring
    have hround : roundMagnitude Format.double.fraction (magnitude 52 b * unitsInOne) unitsInOne = b :=
      roundMagnitude_magnitude hU b
    rw [hexact, hround, Nat.min_eq_right hfits.le] at hbits
    have hvalue' : e24toe f = encode f.sign exp sig := hvalue
    have hwide : (etoe53 bigEndian c (encode f.sign exp sig)).1.number =
        .finite f.sign (magnitude Format.double.fraction b) Format.double.units := by
      unfold Packed.number etoe53
      rw [hbits, hsign, if_neg hfits.not_gt, if_neg hfits.ne]
    rw [hvalue', hnumber, hwide]
    refine ⟨rfl, ?_⟩
    change magnitude 52 b * Format.single.units = magnitude 23 f.bits * Format.double.units
    rw [hb, hunits, hmagnitude]
    ring

end Widen

end Z80Gcc.Emulator
