import Z80Gcc.Proofs.ETypeNormalize
import Z80Gcc.Spec.ETypeNumber

/-! E-type numbers and their parts: what `emovi` and `emovo` make of them, and the number that a rounding leaves. -/

namespace Z80Gcc.Emulator

open WordList BinaryFloat

section Parts

variable (x : EType)

theorem exponent_eq : x.exponent = x.top.toNat % 2 ^ 15 := by
  have hand : (x.top &&& 0x7fff).toNat = x.top.toNat % 2 ^ 15 := by
    rw [BitVec.toNat_and]
    exact Nat.and_two_pow_sub_one_eq_mod _ 15
  exact hand

theorem exponent_lt : x.exponent < 2 ^ 15 := by
  rw [exponent_eq]
  exact Nat.mod_lt _ (by decide)

theorem significand_lt : x.significand < 2 ^ 80 := by
  have hlt := value_lt x.sig.toList
  rwa [x.sig.toList_length] at hlt

theorem eisneg_iff : eisneg x = true ↔ 2 ^ 15 ≤ x.top.toNat := by
  unfold eisneg
  rw [decide_eq_true_iff, and_top_ne_zero, top_iff]

theorem exponent_eq_iff (n : Nat) (hn : n < 2 ^ 16) : x.top &&& 0x7fff = BitVec.ofNat 16 n ↔ x.exponent = n := by
  rw [← BitVec.toNat_inj, BitVec.toNat_ofNat, Nat.mod_eq_of_lt hn]
  rfl

theorem eisnan_iff : eisnan x = true ↔ x.exponent = 0x7fff ∧ x.significand ≠ 0 := by
  unfold eisnan
  rw [Bool.and_eq_true, decide_eq_true_iff]
  refine and_congr (exponent_eq_iff x 0x7fff (by decide)) ?_
  have hzero := @value_eq_zero_iff _ x.sig.toList
  rw [EType.significand, Ne, hzero, List.any_eq_true]
  simp

variable {x}

theorem eisnan_of_wellFormed (hx : x.WellFormed) : eisnan x = false := by
  rw [Bool.eq_false_iff, Ne, eisnan_iff]
  rintro ⟨hexp, hsig⟩
  rw [EType.WellFormed, if_pos hexp] at hx
  exact hsig hx

theorem eisinf_iff (hx : x.WellFormed) : eisinf x = true ↔ x.exponent = 0x7fff := by
  unfold eisinf
  rw [eisnan_of_wellFormed hx, Bool.not_false, Bool.true_and, decide_eq_true_iff]
  exact exponent_eq_iff x 0x7fff (by decide)

end Parts

section Encode

variable {neg : Bool} {exp sig : Nat}

theorem toNat_top (hexp : exp < 2 ^ 15) :
    (BitVec.ofNat 16 exp ||| if neg then 0x8000 else 0 : Word).toNat = exp + if neg then 2 ^ 15 else 0 := by
  have hofNat : (BitVec.ofNat 16 exp : Word).toNat = exp := by
    rw [BitVec.toNat_ofNat]
    exact Nat.mod_eq_of_lt (by omega)
  cases neg with
  | false =>
    simp only [Bool.false_eq_true, if_false]
    rw [Nat.add_zero]
    exact (congrArg BitVec.toNat (BitVec.or_zero)).trans hofNat
  | true =>
    simp only [if_true]
    rw [BitVec.or_comm, toNat_or_of_dvd 15 (by decide) (by rwa [hofNat]), hofNat, Nat.add_comm]
    rfl

@[simp] theorem exponent_encode (hexp : exp < 2 ^ 15) : (encode neg exp sig).exponent = exp := by
  rw [exponent_eq, encode, toNat_top hexp]
  cases neg with
  | false => exact Nat.mod_eq_of_lt hexp
  | true => rw [if_pos rfl, Nat.add_mod_right, Nat.mod_eq_of_lt hexp]

@[simp] theorem significand_encode (hsig : sig < 2 ^ 80) : (encode neg exp sig).significand = sig := by
  change value (WordList.ofNat 16 5 sig) = sig
  rw [value_ofNat]
  exact Nat.mod_eq_of_lt hsig

@[simp] theorem eisneg_encode (hexp : exp < 2 ^ 15) : eisneg (encode neg exp sig) = neg := by
  rw [Bool.eq_iff_iff, eisneg_iff, encode, toNat_top hexp]
  cases neg with
  | false => simpa using hexp
  | true => simp

theorem encode_parts (x : EType) : encode (eisneg x) x.exponent x.significand = x := by
  obtain ⟨sig, top⟩ := x
  have hsig : (⟨WordList.ofNat 16 5 (EType.significand ⟨sig, top⟩), WordList.length_ofNat 16 5 _⟩ : List.Vector Word 5) = sig := by
    refine List.Vector.toList_injective ?_
    change WordList.ofNat 16 5 (value sig.toList) = sig.toList
    have hself := ofNat_value sig.toList
    rwa [sig.toList_length] at hself
  have htop : (BitVec.ofNat 16 (EType.exponent ⟨sig, top⟩) ||| if eisneg ⟨sig, top⟩ then 0x8000 else 0) = top := by
    have hlt := top.isLt
    have hneg := eisneg_iff ⟨sig, top⟩
    rw [← BitVec.toNat_inj, toNat_top (exponent_lt _), exponent_eq]
    dsimp only at hneg ⊢
    cases hsign : eisneg ⟨sig, top⟩ with
    | false =>
      rw [hsign] at hneg
      have hsmall := not_le.1 (mt hneg.2 Bool.false_ne_true)
      rw [if_neg Bool.false_ne_true, Nat.mod_eq_of_lt hsmall, Nat.add_zero]
    | true =>
      have hbig := hneg.1 hsign
      rw [if_pos rfl]
      omega
  unfold encode
  rw [hsig, htop]

end Encode

section Move

theorem sigValue_guarded (sig : List.Vector Word 5) :
    sigValue (0 ::ᵥ List.Vector.snoc sig 0) = value sig.toList * 2 ^ 16 := by
  have hlist : (0 ::ᵥ List.Vector.snoc sig 0).toList = 0 :: (sig.toList ++ [0]) := by
    rfl
  have hzero : (0 : Word).toNat = 0 := rfl
  rw [sigValue, hlist, value_cons, hzero, Nat.zero_mul, Nat.zero_add, value_append, value_cons, hzero]
  simp

/-- An exploded number that stands for a finite e-type number: its significand is above the low guard word. -/
structure Explodes (x : EType) (a : Exploded) : Prop where
  sign : a.sign ≠ 0 ↔ eisneg x = true
  exp : a.exp.toNat = x.exponent
  sig : sigValue a.sig = x.significand * 2 ^ 16

theorem explodes_emovi {x : EType} (hx : x.exponent ≠ 0x7fff) : Explodes x (emovi x) := by
  have hexp : ¬ (x.top &&& 0x7fff = 0x7fff ∧ ¬ eisnan x = true) := fun h =>
    hx ((exponent_eq_iff x 0x7fff (by decide)).1 h.1)
  unfold emovi
  dsimp only
  rw [if_neg hexp]
  refine ⟨?_, rfl, sigValue_guarded x.sig⟩
  have hneg : eisneg x = true ↔ x.top &&& 0x8000 ≠ 0 := decide_eq_true_iff
  rw [hneg]
  split_ifs with hsign
  · have hones : (0xffff : Word) ≠ 0 := by decide
    exact iff_of_true hones hsign
  · exact iff_of_false (fun h => h rfl) hsign

/-- A significand by its guard words and the words between them. -/
theorem sig_words (sig : Sig) : ∃ w mid l, sig.toList = w :: (mid ++ [l]) ∧ mid.length = 5 ∧
    sigValue sig = w.toNat * 2 ^ 96 + value mid * 2 ^ 16 + l.toNat := by
  obtain ⟨ws, hlen⟩ := sig
  obtain _ | ⟨w, ws⟩ := ws
  · cases hlen
  have hws : ws.length = 6 := Nat.succ_injective hlen
  have hne : ws ≠ [] := by
    rintro rfl
    cases hws
  have hmid : ws.dropLast.length = 5 := by
    rw [List.length_dropLast, hws]
  have hsplit : ws = ws.dropLast ++ [ws.getLast hne] := (List.dropLast_append_getLast hne).symm
  refine ⟨w, ws.dropLast, ws.getLast hne, congrArg (w :: ·) hsplit, hmid, ?_⟩
  change value (w :: ws) = _
  conv_lhs => rw [hsplit]
  rw [value_cons, value_append, value_cons, List.length_append, hmid]
  simp
  ring

/-- The significand of what is moved out: the words between the guard words. -/
theorem value_middle {sig : Sig} {m : Nat} (hsig : sigValue sig / 2 ^ 16 = m) (hm : m < 2 ^ 80) :
    value sig.toList.tail.dropLast = m := by
  obtain ⟨w, mid, l, hlist, hmid, hvalue⟩ := sig_words sig
  have hl := l.isLt
  have hmidlt := value_lt mid
  rw [hmid] at hmidlt
  rw [hlist, List.tail_cons, List.dropLast_concat]
  omega

theorem sigValue_clearLast (sig : Sig) (hlen : (sig.toList.dropLast ++ [0]).length = 7) :
    sigValue ⟨sig.toList.dropLast ++ [0], hlen⟩ = sigValue sig / 2 ^ 16 * 2 ^ 16 := by
  obtain ⟨w, mid, l, hlist, hmid, hvalue⟩ := sig_words sig
  have hl := l.isLt
  have hdrop : sig.toList.dropLast ++ [0] = w :: (mid ++ [0]) := by
    rw [hlist, ← List.cons_append, List.dropLast_concat]
    rfl
  have hcleared : value (sig.toList.dropLast ++ [0]) = w.toNat * 2 ^ 96 + value mid * 2 ^ 16 := by
    rw [hdrop, value_cons, value_append, value_cons, List.length_append, hmid]
    simp
  change value (sig.toList.dropLast ++ [0]) = _
  rw [hcleared, hvalue]
  omega

theorem emovz_eq {a : Exploded} (hsig : sigValue a.sig % 2 ^ 16 = 0) : emovz a = a := by
  have hclear : (⟨a.sig.toList.dropLast ++ [0], by
      rw [List.length_append, List.length_dropLast, a.sig.toList_length]; rfl⟩ : Sig) = a.sig := by
    refine sigValue_injective ?_
    rw [sigValue_clearLast]
    omega
  unfold emovz
  rw [hclear]

theorem emovo_encode {a : Exploded} {m : Nat} (hexp : a.exp.toNat < 0x7fff) (hsig : sigValue a.sig / 2 ^ 16 = m)
    (hm : m < 2 ^ 80) : emovo a = encode (a.sign ≠ 0) a.exp.toNat m := by
  have hne : ¬ a.exp = 0x7fff := by
    intro heq
    rw [heq] at hexp
    exact absurd hexp (by decide)
  have hmiddle := value_middle hsig hm
  have hlen : a.sig.toList.tail.dropLast.length = 5 := by
    rw [List.length_dropLast, List.length_tail, a.sig.toList_length]
  have hwords : a.sig.toList.tail.dropLast = WordList.ofNat 16 5 m := by
    rw [← hmiddle]
    have hself := ofNat_value a.sig.toList.tail.dropLast
    rw [hlen] at hself
    exact hself.symm
  have hofNat : BitVec.ofNat 16 a.exp.toNat = a.exp := by
    rw [BitVec.ofNat_toNat, BitVec.setWidth_eq]
  unfold emovo encode
  dsimp only
  rw [if_neg hne, hofNat]
  congr 1
  · exact List.Vector.toList_injective hwords
  · by_cases hsign : a.sign ≠ 0
    · rw [if_pos hsign, decide_eq_true hsign, if_pos rfl]
    · rw [if_neg hsign, decide_eq_false hsign, if_neg Bool.false_ne_true, BitVec.ofNat_eq_ofNat, BitVec.or_zero]

end Move

section Store

variable {neg : Bool} {exp sig : Nat}

theorem ofBits_encode (hexp : exp < 0x7fff) (hsig : sig < 2 ^ 80) (hnormal : exp ≠ 0 → 2 ^ 79 ≤ sig) :
    ofBits neg (exp * 2 ^ 79 + sig) = encode neg exp sig := by
  have hfield : (exp * 2 ^ 79 + sig) / 2 ^ 79 - 1 = exp := by
    by_cases hzero : exp = 0
    · omega
    · have hlow := hnormal hzero
      omega
  unfold ofBits
  rw [if_neg (by omega)]
  dsimp only
  rw [hfield, Nat.add_sub_cancel_left]

theorem ofBits_infinity {bits : Nat} (hbits : 0x7fff * 2 ^ 79 + 2 ^ 79 ≤ bits) : ofBits neg bits = infinity neg := if_pos hbits

theorem eiisnan_infinite (sign : Word) : eiisnan ⟨sign, 32767, zeros 7⟩ = false := by
  have hany : ((zeros 7).tail.toList.any fun x => x ≠ 0) = false := by decide
  unfold eiisnan
  rw [Bool.and_eq_false_iff]
  exact .inr hany

theorem emovo_infinite (sign : Word) : emovo ⟨sign, 32767, zeros 7⟩ = infinity (sign ≠ 0) := by
  unfold emovo
  dsimp only
  rw [if_pos rfl, eiisnan_infinite, if_neg Bool.false_ne_true]
  by_cases hsign : sign ≠ 0
  · rw [if_pos hsign, decide_eq_true hsign]
    exact congrArg (EType.mk (zeros 5)) (by decide : ((32767 : Word) ||| 32768) ||| 32767 = 0xffff)
  · rw [if_neg hsign, decide_eq_false hsign]
    exact congrArg (EType.mk (zeros 5)) (by decide : (32767 : Word) ||| 32767 = 0x7fff)

theorem roundFinish_finite {sign : Word} {sig : Sig} {exp : Int} (hexp : exp < 32767) :
    (roundFinish sign sig exp).sign = sign ∧ (roundFinish sign sig exp).exp.toNat = exp.toNat ∧
      sigValue (roundFinish sign sig exp).sig = sigValue sig / 2 ^ 16 * 2 ^ 16 := by
  unfold roundFinish
  rw [if_neg (by omega)]
  refine ⟨rfl, ?_, sigValue_clearLast sig _⟩
  dsimp only
  split_ifs with hneg
  · rw [Int.toNat_of_nonpos hneg.le]
    rfl
  · obtain ⟨e, rfl⟩ := Int.eq_ofNat_of_zero_le (not_lt.1 hneg)
    rw [Int.toNat_natCast]
    change (BitVec.ofNat 16 e).toNat = e
    rw [BitVec.toNat_ofNat]
    exact Nat.mod_eq_of_lt (by omega)

/-- What `emdnorm` leaves is the number with the bits of the rounding. -/
theorem emovo_roundFinish {b : Nat} {r : Sig × Int} (hr : Rounded .nbits b r) (sign : Word) :
    emovo (roundFinish sign r.1 r.2) = ofBits (sign ≠ 0) b := by
  obtain ⟨sig, exp⟩ := r
  obtain ⟨hlt, hnormal, m, hsig, hbits⟩ := hr
  have hroom : guardBits .nbits + roomFor .nbits exp = 16 := by
    unfold roomFor
    split_ifs <;> rfl
  have hfield : (exp - impliedBits .nbits).toNat = exp.toNat := congrArg Int.toNat (Int.sub_zero exp)
  have hfraction : fractionBits .nbits = 79 := rfl
  rw [hfield, hfraction] at hbits
  dsimp only at hlt hnormal hsig ⊢
  rw [hroom] at hsig
  subst hbits
  by_cases hinf : 32767 ≤ exp
  · have hbig := hnormal (by omega)
    unfold roundFinish
    rw [if_pos hinf, emovo_infinite, ofBits_infinity]
    omega
  · obtain ⟨hsign, hexp, hvalue⟩ := @roundFinish_finite sign sig _ (not_le.1 hinf)
    rw [ofBits_encode (by omega) (by omega) (fun hne => by have := hnormal (by omega); omega)]
    refine (emovo_encode (m := m) (by omega) (by omega) (by omega)).trans ?_
    rw [hsign, hexp]

theorem roundMagnitude_exact (hsig : sig < 2 ^ 80) (hnormal : exp ≠ 0 → 2 ^ 79 ≤ sig) {d : Nat} (hd : 0 < d) :
    roundMagnitude 79 (sig * 2 ^ exp * d) d = exp * 2 ^ 79 + sig := by
  have hlow : exp = 0 ∨ 2 ^ 79 ≤ sig := or_iff_not_imp_left.2 hnormal
  have hself := roundMagnitude_magnitude (t := 79) hd (exp * 2 ^ 79 + sig)
  rwa [magnitude_encode hsig.le hlow] at hself

end Store

end Z80Gcc.Emulator
