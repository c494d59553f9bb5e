import Z80Gcc.Lib.StickyBit
import Z80Gcc.Proofs.ETypeWords

/-! `enormlz` and `emdnorm`: a significand is normalized, and what it stands for is rounded to the nearest number. -/

namespace Z80Gcc.Emulator

open WordList BinaryFloat

section Loops

/-- A loop with an invariant that says how many rounds are left at most. -/
theorem whileUpTo_spec {S : Type} (Inv : Nat → S → Prop) {test : S → Bool} {body : S → S}
    (hbody : ∀ n s, Inv (n + 1) s → test s = true → Inv n (body s)) (hend : ∀ s, Inv 0 s → test s = false) {n : Nat}
    {s : S} (hs : Inv n s) : ∃ m, Inv m (whileUpTo n test body s) ∧ test (whileUpTo n test body s) = false := by
  induction n generalizing s with
  | zero => exact ⟨0, hs, hend s hs⟩
  | succ n ih =>
    unfold whileUpTo
    cases htest : test s with
    | true =>
      rw [if_pos rfl]
      exact ih (hbody n s hs htest)
    | false =>
      rw [if_neg Bool.false_ne_true]
      exact ⟨n + 1, hs, htest⟩

end Loops

section Normalize

variable {x : Sig}

theorem word_two_eq_zero_iff (x : Sig) : word x 2 = 0 ↔ sigValue x < 2 ^ 96 := by
  have hword := toNat_word x (by decide : 2 ≤ 2) (by decide)
  have hlt := sigValue_lt x
  rw [← BitVec.toNat_inj, hword]
  change sigValue x / 2 ^ 96 % 2 ^ 16 = 0 ↔ _
  omega

theorem word_three_eq_zero_iff (hx : sigValue x < 2 ^ 96) : word x 3 = 0 ↔ sigValue x < 2 ^ 80 := by
  have hword := toNat_word x (by decide : 2 ≤ 3) (by decide)
  rw [← BitVec.toNat_inj, hword]
  change sigValue x / 2 ^ 80 % 2 ^ 16 = 0 ↔ _
  omega

theorem and_high_eq_zero_iff (w : Word) : w &&& 0xff00 = 0 ↔ w.toNat < 2 ^ 8 := by
  have hsplit : (w &&& 0xff00).toNat = w.toNat / 2 ^ 8 % 2 ^ 8 * 2 ^ 8 := by
    have hmask : (0xff00 : Word) = 0xff#16 <<< 8 := rfl
    rw [hmask, and_shiftLeft, BitVec.toNat_shiftLeft, BitVec.toNat_and, BitVec.toNat_ushiftRight, Nat.shiftRight_eq_div_pow,
      Nat.shiftLeft_eq]
    have hand : w.toNat / 2 ^ 8 &&& (0xff#16).toNat = w.toNat / 2 ^ 8 % 2 ^ 8 := Nat.and_two_pow_sub_one_eq_mod _ 8
    rw [hand]
    omega
  have hw := w.isLt
  rw [← BitVec.toNat_inj, hsplit]
  change _ = 0 ↔ _
  omega

theorem and_top_eq_zero_iff (w : Word) : w &&& 0x8000 = 0 ↔ w.toNat < 2 ^ 15 := by
  have htop := and_top_ne_zero w
  rw [top_iff, Ne] at htop
  rw [← not_iff_not, htop, not_lt]

theorem toNat_word_three (hx : sigValue x < 2 ^ 96) : (word x 3).toNat = sigValue x / 2 ^ 80 := by
  have hword := toNat_word x (by decide : 2 ≤ 3) (by decide)
  change _ = sigValue x / 2 ^ 80 % 2 ^ 16 at hword
  omega

/-- A significand that has been shifted up, and still is under the high guard word. -/
structure ShiftedUp (v : Nat) (r : Int × Sig) : Prop where
  lt : sigValue r.2 < 2 ^ 96
  count : ∃ j : Nat, r.1 = j ∧ sigValue r.2 = v * 2 ^ j

theorem ShiftedUp.step {v k : Nat} {r : Int × Sig} {shift : Sig → Sig} (hr : ShiftedUp v r)
    (hshift : ∀ x, sigValue (shift x) = sigValue x * 2 ^ k % 2 ^ 112) (hlt : sigValue r.2 * 2 ^ k < 2 ^ 96) :
    ShiftedUp v (r.1 + k, shift r.2) ∧ sigValue (shift r.2) = sigValue r.2 * 2 ^ k := by
  have hvalue : sigValue (shift r.2) = sigValue r.2 * 2 ^ k := by
    rw [hshift, Nat.mod_eq_of_lt (by omega)]
  obtain ⟨j, hj, hv⟩ := hr.count
  refine ⟨⟨hvalue ▸ hlt, j + k, ?_, ?_⟩, hvalue⟩
  · rw [hj]
    push_cast
    rfl
  · change sigValue (shift r.2) = _
    rw [hvalue, hv, Nat.mul_assoc, ← Nat.pow_add]

theorem ShiftedUp.count_le {v : Nat} {r : Int × Sig} (hr : ShiftedUp v r) (hv : 2 ^ 15 ≤ v) : r.1 ≤ nbits := by
  obtain ⟨j, hj, hvalue⟩ := hr.count
  have hlt := hr.lt
  rw [hvalue] at hlt
  have hpow : 2 ^ 15 * 2 ^ j < 2 ^ 15 * 2 ^ 81 := (Nat.mul_le_mul_right _ hv).trans_lt hlt
  have hj81 : j < 81 := (Nat.pow_lt_pow_iff_right (by decide)).1 (Nat.lt_of_mul_lt_mul_left hpow)
  unfold nbits
  omega

/-- Whole words, as long as the first one is zero. -/
theorem shift_words {v : Nat} (hv : 2 ^ 15 ≤ v) (hx : sigValue x = v) (hlt : v < 2 ^ 96) :
    let r := whileUpTo 6 (fun r : Int × Sig => r.1 ≤ nbits && word r.2 3 = 0) (fun r => (r.1 + 16, eshup6 r.2)) (0, x)
    ShiftedUp v r ∧ 2 ^ 80 ≤ sigValue r.2 := by
  have hbody : ∀ (n : Nat) (r : Int × Sig), ShiftedUp v r ∧ r.1 = 16 * (6 - (n + 1 : Nat)) →
      (r.1 ≤ nbits && word r.2 3 = 0) = true →
      ShiftedUp v (r.1 + 16, eshup6 r.2) ∧ r.1 + 16 = 16 * (6 - n) := by
    intro n r ⟨hr, hn⟩ htest
    have hsmall := (word_three_eq_zero_iff hr.lt).1 (of_decide_eq_true (Bool.and_eq_true_iff.1 htest).2)
    have hstep := (hr.step (k := 16) eshup6_value (by omega)).1
    refine ⟨hstep, ?_⟩
    push_cast at hn
    omega
  have hend : ∀ r : Int × Sig, ShiftedUp v r ∧ r.1 = 16 * (6 - (0 : Nat)) →
      (r.1 ≤ nbits && word r.2 3 = 0) = false := by
    intro r ⟨hr, hn⟩
    have hle := hr.count_le hv
    unfold nbits at hle
    omega
  obtain ⟨m, ⟨hr, -⟩, htest⟩ :=
    whileUpTo_spec (fun n (r : Int × Sig) => ShiftedUp v r ∧ r.1 = 16 * (6 - n)) hbody hend
      (⟨⟨hx ▸ hlt, 0, rfl, by rw [hx, Nat.pow_zero, Nat.mul_one]⟩, rfl⟩ :
        ShiftedUp v (0, x) ∧ (0 : Int) = 16 * (6 - (6 : Nat)))
  refine ⟨hr, ?_⟩
  have hle := hr.count_le hv
  rw [decide_eq_true hle, Bool.true_and, decide_eq_false_iff_not, word_three_eq_zero_iff hr.lt,
    not_lt] at htest
  exact htest

theorem shift_byte {v : Nat} {r : Int × Sig} (hr : ShiftedUp v r) (hlow : 2 ^ 80 ≤ sigValue r.2) :
    let r' := whileUpTo 16 (fun r : Int × Sig => word r.2 3 &&& 0xff00 = 0) (fun r => (r.1 + 8, eshup8 r.2)) r
    ShiftedUp v r' ∧ 2 ^ 88 ≤ sigValue r'.2 := by
  have htest_iff : ∀ r : Int × Sig, ShiftedUp v r → (word r.2 3 &&& 0xff00 = 0 ↔ sigValue r.2 < 2 ^ 88) := by
    intro r hr
    rw [and_high_eq_zero_iff, toNat_word_three hr.lt]
    omega
  have hbody : ∀ (n : Nat) (r : Int × Sig), (ShiftedUp v r ∧ 2 ^ 80 ≤ sigValue r.2 ∧ (n + 1 < 16 → 2 ^ 88 ≤ sigValue r.2)) →
      (decide (word r.2 3 &&& 0xff00 = 0)) = true →
      ShiftedUp v (r.1 + 8, eshup8 r.2) ∧ 2 ^ 80 ≤ sigValue (eshup8 r.2) ∧ (n < 16 → 2 ^ 88 ≤ sigValue (eshup8 r.2)) := by
    rintro n r ⟨hr, hlow, -⟩ htest
    have hsmall := (htest_iff r hr).1 (of_decide_eq_true htest)
    obtain ⟨hstep, hvalue⟩ := hr.step (k := 8) eshup8_value (by omega)
    exact ⟨hstep, by omega, fun _ => by omega⟩
  have hend : ∀ r : Int × Sig, (ShiftedUp v r ∧ 2 ^ 80 ≤ sigValue r.2 ∧ (0 < 16 → 2 ^ 88 ≤ sigValue r.2)) →
      (decide (word r.2 3 &&& 0xff00 = 0)) = false := by
    rintro r ⟨hr, -, hbig⟩
    rw [decide_eq_false_iff_not, htest_iff r hr, not_lt]
    exact hbig (by decide)
  obtain ⟨m, ⟨hr', -, -⟩, htest⟩ :=
    whileUpTo_spec (fun n (r : Int × Sig) => ShiftedUp v r ∧ 2 ^ 80 ≤ sigValue r.2 ∧ (n < 16 → 2 ^ 88 ≤ sigValue r.2))
      hbody hend (⟨hr, hlow, fun hlt => absurd hlt (lt_irrefl 16)⟩ :
        ShiftedUp v r ∧ 2 ^ 80 ≤ sigValue r.2 ∧ (16 < 16 → 2 ^ 88 ≤ sigValue r.2))
  rw [decide_eq_false_iff_not, htest_iff _ hr', not_lt] at htest
  exact ⟨hr', htest⟩

/-- Single bits, until the top bit is set. -/
theorem shift_bits {v : Nat} {r : Int × Sig} (hv : 2 ^ 15 ≤ v) (hr : ShiftedUp v r) (hlow : 2 ^ 88 ≤ sigValue r.2) :
    let body := fun r : Int × Sig => (r.1 + 1, eshup1 r.2)
    let r' := if word r.2 3 &&& 0x8000 = 0 then
      whileUpTo 16 (fun r => r.1 ≤ nbits && word r.2 3 &&& 0x8000 = 0) body (body r) else r
    ShiftedUp v r' ∧ 2 ^ 95 ≤ sigValue r'.2 := by
  have htest_iff : ∀ r : Int × Sig, ShiftedUp v r → (word r.2 3 &&& 0x8000 = 0 ↔ sigValue r.2 < 2 ^ 95) := by
    intro r hr
    rw [and_top_eq_zero_iff, toNat_word_three hr.lt]
    omega
  dsimp only
  by_cases htop : word r.2 3 &&& 0x8000 = 0
  · rw [if_pos htop]
    have hstart := hr.step (k := 1) eshup1_value (by have := (htest_iff r hr).1 htop; omega)
    have hbody : ∀ (n : Nat) (r : Int × Sig), ShiftedUp v r ∧ 2 ^ 105 ≤ sigValue r.2 * 2 ^ (n + 1) →
        (r.1 ≤ nbits && word r.2 3 &&& 0x8000 = 0) = true →
        ShiftedUp v (r.1 + 1, eshup1 r.2) ∧ 2 ^ 105 ≤ sigValue (eshup1 r.2) * 2 ^ n := by
      intro n r ⟨hr, hbig⟩ htest
      have hsmall := (htest_iff r hr).1 (of_decide_eq_true (Bool.and_eq_true_iff.1 htest).2)
      obtain ⟨hstep, hvalue⟩ := hr.step (k := 1) eshup1_value (by omega)
      refine ⟨hstep, ?_⟩
      rw [hvalue, Nat.mul_assoc, ← Nat.pow_add, Nat.add_comm 1]
      exact hbig
    have hend : ∀ r : Int × Sig, ShiftedUp v r ∧ 2 ^ 105 ≤ sigValue r.2 * 2 ^ 0 →
        (r.1 ≤ nbits && word r.2 3 &&& 0x8000 = 0) = false := by
      intro r ⟨hr, hbig⟩
      have hlt := hr.lt
      omega
    obtain ⟨m, ⟨hr', -⟩, htest⟩ :=
      whileUpTo_spec (fun n (r : Int × Sig) => ShiftedUp v r ∧ 2 ^ 105 ≤ sigValue r.2 * 2 ^ n) hbody hend
        (⟨hstart.1, by rw [hstart.2]; omega⟩ :
          ShiftedUp v (r.1 + 1, eshup1 r.2) ∧ 2 ^ 105 ≤ sigValue (eshup1 r.2) * 2 ^ 16)
    refine ⟨hr', ?_⟩
    have hle := hr'.count_le hv
    rw [decide_eq_true hle, Bool.true_and, decide_eq_false_iff_not, htest_iff _ hr', not_lt]
      at htest
    exact htest
  · rw [if_neg htop]
    rw [htest_iff r hr, not_lt] at htop
    exact ⟨hr, htop⟩

/-- A significand under the high guard word is shifted up until its top bit is set. -/
theorem enormlz_up (hlow : 2 ^ 15 ≤ sigValue x) (hhigh : sigValue x < 2 ^ 96) :
    ∃ j : Nat, (enormlz x).1 = j ∧ j ≤ 80 ∧ sigValue (enormlz x).2 = sigValue x * 2 ^ j ∧
      2 ^ 95 ≤ sigValue (enormlz x).2 ∧ sigValue (enormlz x).2 < 2 ^ 96 := by
  suffices h : ShiftedUp (sigValue x) (enormlz x) ∧ 2 ^ 95 ≤ sigValue (enormlz x).2 by
    obtain ⟨hr, htop⟩ := h
    obtain ⟨j, hj, hvalue⟩ := hr.count
    have hle := hr.count_le hlow
    unfold nbits at hle
    exact ⟨j, hj, by omega, hvalue, htop, hr.lt⟩
  unfold enormlz
  rw [if_neg (not_not_intro ((word_two_eq_zero_iff x).2 hhigh))]
  by_cases htop : word x 3 &&& 0x8000 = 0
  · rw [if_neg (not_not_intro htop)]
    obtain ⟨hr, hbig⟩ := shift_words hlow rfl hhigh
    have hle := hr.count_le hlow
    dsimp only
    rw [if_neg (not_lt.2 hle)]
    obtain ⟨hr', hbig'⟩ := shift_byte hr hbig
    exact shift_bits hlow hr' hbig'
  · rw [if_pos htop]
    rw [and_top_eq_zero_iff, toNat_word_three hhigh] at htop
    have hbig : 2 ^ 95 ≤ sigValue x := by omega
    exact ⟨⟨hhigh, 0, rfl, by rw [Nat.pow_zero, Nat.mul_one]⟩, hbig⟩

/-- A significand that has been shifted down, and still is as long as a normalized one. -/
structure ShiftedDown (v : Nat) (r : Int × Sig) : Prop where
  le : 2 ^ 95 ≤ sigValue r.2
  count : ∃ j : Nat, r.1 = -j ∧ sigValue r.2 = v / 2 ^ j

theorem ShiftedDown.step {v k : Nat} {r : Int × Sig} {shift : Sig → Sig} (hr : ShiftedDown v r)
    (hshift : ∀ x, sigValue (shift x) = sigValue x / 2 ^ k) (hle : 2 ^ 95 ≤ sigValue r.2 / 2 ^ k) :
    ShiftedDown v (r.1 - k, shift r.2) := by
  obtain ⟨j, hj, hv⟩ := hr.count
  refine ⟨(hshift r.2).symm ▸ hle, j + k, ?_, ?_⟩
  · rw [hj]
    push_cast
    omega
  · change sigValue (shift r.2) = _
    rw [hshift, hv, Nat.div_div_eq_div_mul, ← Nat.pow_add]

/-- A significand that reaches into the high guard word is shifted down; what falls out at the end is forgotten. -/
theorem enormlz_down (hlow : 2 ^ 96 ≤ sigValue x) :
    ∃ j : Nat, (enormlz x).1 = -j ∧ sigValue (enormlz x).2 = sigValue x / 2 ^ j ∧
      2 ^ 95 ≤ sigValue (enormlz x).2 ∧ sigValue (enormlz x).2 < 2 ^ 96 := by
  have hguard : ¬ word x 2 = 0 := by
    rw [word_two_eq_zero_iff]
    omega
  have hword : (word x 2).toNat = sigValue x / 2 ^ 96 := by
    have hword := toNat_word x (by decide : 2 ≤ 2) (by decide)
    have hlt := sigValue_lt x
    change _ = sigValue x / 2 ^ 96 % 2 ^ 16 at hword
    omega
  unfold enormlz
  rw [if_pos hguard]
  dsimp only
  have hstart : ShiftedDown (sigValue x) (if word x 2 &&& 0xff00 ≠ 0 then (-8, eshdn8 x) else (0, x)) := by
    have hle : 2 ^ 95 ≤ sigValue x := by omega
    have hself : ShiftedDown (sigValue x) (0, x) := ⟨hle, 0, rfl, (Nat.div_one _).symm⟩
    by_cases hbyte : word x 2 &&& 0xff00 = 0
    · rw [if_neg (not_not_intro hbyte)]
      exact hself
    · rw [if_pos hbyte]
      rw [and_high_eq_zero_iff, hword] at hbyte
      exact hself.step (k := 8) eshdn8_value (by omega : 2 ^ 95 ≤ sigValue x / 2 ^ 8)
  generalize (if word x 2 &&& 0xff00 ≠ 0 then ((-8 : Int), eshdn8 x) else (0, x)) = r at hstart
  have hbody : ∀ (n : Nat) (r : Int × Sig), ShiftedDown (sigValue x) r ∧ sigValue r.2 < 2 ^ 96 * 2 ^ (n + 1) →
      decide (word r.2 2 ≠ 0) = true →
      ShiftedDown (sigValue x) (r.1 - 1, eshdn1 r.2) ∧ sigValue (eshdn1 r.2) < 2 ^ 96 * 2 ^ n := by
    intro n r ⟨hr, hlt⟩ htest
    have hbig := of_decide_eq_true htest
    rw [Ne, word_two_eq_zero_iff, not_lt] at hbig
    refine ⟨hr.step (k := 1) eshdn1_value (by omega), ?_⟩
    rw [Nat.pow_succ] at hlt
    rw [eshdn1_value]
    omega
  have hend : ∀ r : Int × Sig, ShiftedDown (sigValue x) r ∧ sigValue r.2 < 2 ^ 96 * 2 ^ 0 →
      decide (word r.2 2 ≠ 0) = false := by
    intro r ⟨hr, hlt⟩
    rw [decide_eq_false_iff_not, not_not, word_two_eq_zero_iff]
    omega
  obtain ⟨m, ⟨hr, -⟩, htest⟩ :=
    whileUpTo_spec (fun n (r : Int × Sig) => ShiftedDown (sigValue x) r ∧ sigValue r.2 < 2 ^ 96 * 2 ^ n) hbody hend
      (⟨hstart, sigValue_lt r.2⟩ : ShiftedDown (sigValue x) r ∧ sigValue r.2 < 2 ^ 96 * 2 ^ 16)
  rw [decide_eq_false_iff_not, not_not, word_two_eq_zero_iff] at htest
  obtain ⟨j, hj, hvalue⟩ := hr.count
  exact ⟨j, hj, hvalue, hr.le, htest⟩

theorem enormlz_zero : enormlz (zeros 7) = (96, zeros 7) := by decide +kernel

end Normalize

section RoundOff

/-- How the masks of a rounding precision lie: the word `k` from the high guard word on, and its lowest `b` bits. -/
structure MaskShape (m : RoundMasks) (full : Bool) (k b : Nat) : Prop where
  rw_eq : m.rw = k + 2
  rmsk_eq : m.rmsk.toNat = 2 ^ b - 1
  rmbit_eq : m.rmbit = BitVec.twoPow 16 (b - 1)
  k_le : k ≤ 6
  b_pos : 2 ≤ b
  b_le : b ≤ 16
  full_last : full = true → k = 6
  bit : ∃ i < 16, m.rebit = BitVec.twoPow 16 i ∧ 2 ≤ m.re ∧ m.re ≤ 8 ∧ 16 * (8 - m.re) + i = 16 * (6 - k) + b

def guardBits : Precision → Nat
  | .nbits => 16
  | .p64 => 32
  | .p56 => 40
  | .p53 => 43
  | .p32 => 64
  | .p24 => 72

theorem roundMasks_shape (p : Precision) :
    ∃ k b, MaskShape (roundMasks p) (p = .nbits) k b ∧ guardBits p = 16 * (6 - k) + b := by
  cases p with
  | nbits => exact ⟨6, 16, ⟨rfl, rfl, rfl, by decide, by decide, by decide, fun _ => rfl, 0, by decide, rfl, by decide⟩, rfl⟩
  | p64 => exact ⟨5, 16, ⟨rfl, rfl, rfl, by decide, by decide, by decide, by decide, 0, by decide, rfl, by decide⟩, rfl⟩
  | p56 => exact ⟨4, 8, ⟨rfl, rfl, rfl, by decide, by decide, by decide, by decide, 8, by decide, rfl, by decide⟩, rfl⟩
  | p53 => exact ⟨4, 11, ⟨rfl, rfl, rfl, by decide, by decide, by decide, by decide, 11, by decide, rfl, by decide⟩, rfl⟩
  | p32 => exact ⟨3, 16, ⟨rfl, rfl, rfl, by decide, by decide, by decide, by decide, 0, by decide, rfl, by decide⟩, rfl⟩
  | p24 => exact ⟨2, 8, ⟨rfl, rfl, rfl, by decide, by decide, by decide, by decide, 8, by decide, rfl, by decide⟩, rfl⟩

theorem foldl_sticky (xs : List Word) (r : Word) :
    xs.foldl (fun r x => if x ≠ 0 then r ||| 1 else r) r = if value xs = 0 then r else r ||| 1 := by
  induction xs generalizing r with
  | nil => rfl
  | cons x xs ih =>
    have htwice : (r ||| 1) ||| 1 = r ||| 1 := by rw [BitVec.or_assoc, BitVec.or_self]
    have hcons : value (x :: xs) = 0 ↔ x = 0 ∧ value xs = 0 := by
      rw [value_eq_zero_iff, value_eq_zero_iff, List.forall_mem_cons]
    rw [List.foldl_cons, ih]
    by_cases hx : x = 0
    · rw [if_neg (not_not_intro hx)]
      exact if_congr (hcons.trans (and_iff_right hx)).symm rfl rfl
    · rw [if_pos hx, htwice, ite_self, if_neg fun h => hx (hcons.1 h).1]

/-- The bits of one word below `b`, and the words after it. -/
theorem split_word {X L l : Nat} (b : Nat) (hL : 0 < L) (hl : l < L) :
    (X * L + l) / (2 ^ b * L) = X / 2 ^ b ∧ (X * L + l) % (2 ^ b * L) = X % 2 ^ b * L + l := by
  have hdiv : (X * L + l) / L = X := by rw [Nat.mul_comm, Nat.mul_add_div hL, Nat.div_eq_of_lt hl, Nat.add_zero]
  have hmod : (X * L + l) % L = l := by rw [Nat.mul_comm, Nat.mul_add_mod, Nat.mod_eq_of_lt hl]
  rw [Nat.mul_comm (2 ^ b), ← Nat.div_div_eq_div_mul, Nat.mod_mul, hdiv, hmod]
  exact ⟨rfl, by rw [Nat.add_comm, Nat.mul_comm]⟩

theorem mul_add_lt_iff {a h L l : Nat} (hl : l < L) : a < h ↔ a * L + l < h * L := by
  constructor
  · intro hlt
    have hle : (a + 1) * L ≤ h * L := Nat.mul_le_mul_right L hlt
    rw [Nat.succ_mul] at hle
    omega
  · intro hlt
    exact Nat.lt_of_mul_lt_mul_right (Nat.lt_of_le_of_lt (Nat.le_add_right _ l) hlt)

theorem mul_add_eq_iff {a h L l : Nat} (hl : l < L) : a = h ∧ l = 0 ↔ a * L + l = h * L := by
  constructor
  · rintro ⟨rfl, rfl⟩
    rfl
  · intro heq
    have hzero : l = 0 := by
      have hmod := congrArg (· % L) heq
      rwa [Nat.mul_comm, Nat.mul_comm h, Nat.mul_add_mod, Nat.mul_mod_right, Nat.mod_eq_of_lt hl] at hmod
    subst hzero
    exact ⟨Nat.eq_of_mul_eq_mul_right hl heq, rfl⟩

section Mask

variable {m : RoundMasks} {full : Bool} {k b : Nat} (hm : MaskShape m full k b) (x : Word)

include hm

theorem MaskShape.toNat_and_rmsk : (x &&& m.rmsk).toNat = x.toNat % 2 ^ b := by
  rw [BitVec.toNat_and, hm.rmsk_eq, Nat.and_two_pow_sub_one_eq_mod]

theorem MaskShape.toNat_and_not_rmsk : (x &&& ~~~m.rmsk).toNat = x.toNat / 2 ^ b * 2 ^ b := by
  have hshift : x &&& ~~~m.rmsk = x >>> b <<< b := by
    ext i hi
    have hbit : m.rmsk[i] = decide (i < b) := by
      rw [BitVec.getElem_eq_testBit_toNat, hm.rmsk_eq, Nat.testBit_two_pow_sub_one]
    rw [BitVec.getElem_and, BitVec.getElem_not, hbit, BitVec.getElem_shiftLeft]
    by_cases hib : i < b
    · simp [hib]
    · have hindex : b + (i - b) = i := by omega
      simp [hib, hindex, BitVec.getElem_eq_testBit_toNat]
  have hle := Nat.div_mul_le_self x.toNat (2 ^ b)
  have hx := x.isLt
  rw [hshift, BitVec.toNat_shiftLeft, BitVec.toNat_ushiftRight, Nat.shiftRight_eq_div_pow, Nat.shiftLeft_eq]
  exact Nat.mod_eq_of_lt (by omega)

/-- The rounding bit, which the sticky bit at the bottom is not. -/
theorem MaskShape.and_rmbit (hx : x.toNat < 2 ^ b) : x &&& m.rmbit = 0 ↔ x.toNat < 2 ^ (b - 1) := by
  have hb := hm.b_pos
  have hpow : 2 ^ b = 2 * 2 ^ (b - 1) := by
    rw [← Nat.pow_succ']
    congr 1
    omega
  have hlt := hm.b_le
  rw [← not_iff_not, hm.rmbit_eq, not_lt]
  have hbit := and_twoPow_ne_zero x (b - 1) (by omega)
  rw [Ne] at hbit
  rw [hbit, BitVec.getLsbD, Nat.testBit_eq_decide_div_mod_eq, decide_eq_true_eq]
  have hdiv : x.toNat / 2 ^ (b - 1) < 2 := (Nat.div_lt_iff_lt_mul (Nat.two_pow_pos _)).2 (by omega)
  rw [Nat.mod_eq_of_lt hdiv, ← Nat.one_le_div_iff (Nat.two_pow_pos _)]
  omega

theorem MaskShape.toNat_rmbit : m.rmbit.toNat = 2 ^ (b - 1) := by
  have hb := hm.b_pos
  have hlt := hm.b_le
  rw [hm.rmbit_eq, BitVec.toNat_twoPow_of_lt (by omega)]

theorem MaskShape.or_one {r : Word} (hr : r.toNat < 2 ^ b) :
    (r ||| 1).toNat < 2 ^ b ∧ ((r ||| 1).toNat < 2 ^ (b - 1) ↔ r.toNat < 2 ^ (b - 1)) ∧
      (r ||| 1).toNat ≠ 2 ^ (b - 1) := by
  have hb := hm.b_pos
  have hone : (1 : Word).toNat = 1 := rfl
  have hpow : 2 ^ (b - 1) = 2 * 2 ^ (b - 2) := by
    rw [← Nat.pow_succ']
    congr 1
    omega
  have hpos := Nat.two_pow_pos (b - 2)
  rw [BitVec.toNat_or, hone]
  refine ⟨Nat.or_lt_two_pow hr (Nat.one_lt_two_pow (by omega)), ⟨Nat.left_le_or.trans_lt, fun hlt => ?_⟩, fun heq => ?_⟩
  · exact Nat.or_lt_two_pow hlt (by omega)
  · have hodd : (r.toNat ||| 1) % 2 = 1 := by
      rw [Nat.or_mod_two_eq_one]
      exact .inr rfl
    omega

theorem MaskShape.clearBelow_spec (s : Sig) {g : Nat} (hg : g = 16 * (6 - k) + b) :
    let r := clearBelow m full s
    sigValue r.2 = sigValue s / 2 ^ g * 2 ^ g ∧ (r.1 &&& m.rmbit = 0 ↔ sigValue s % 2 ^ g < 2 ^ (g - 1)) ∧
      (r.1 = m.rmbit ↔ sigValue s % 2 ^ g = 2 ^ (g - 1)) := by
  obtain ⟨ws, hlen⟩ := s
  have hk := hm.k_le
  obtain ⟨hi, x, lo, rfl, hhi⟩ : ∃ hi x lo, ws = hi ++ x :: lo ∧ hi.length = k := by
    refine ⟨ws.take k, ws.getD k 0, ws.drop (k + 1), ?_, ?_⟩
    · rw [List.getD_eq_getElem ws 0 (by omega), List.cons_getElem_drop_succ, List.take_append_drop]
    · rw [List.length_take]
      omega
  have hlo : lo.length = 6 - k := by
    rw [List.length_append, List.length_cons] at hlen
    omega
  have hword : word ⟨hi ++ x :: lo, hlen⟩ m.rw = x := by
    rw [hm.rw_eq]
    change (hi ++ x :: lo).getD (k + 2 - 2) 0 = x
    rw [Nat.add_sub_cancel, ← hhi]
    simp
  have hL : lo.length = 6 - k → (2 ^ 16) ^ lo.length = 2 ^ (16 * (6 - k)) := by
    rintro heq
    rw [heq, ← Nat.pow_mul]
  have hlt := value_lt lo
  rw [hL hlo] at hlt
  have hpow : 2 ^ g = 2 ^ b * 2 ^ (16 * (6 - k)) := by rw [hg, Nat.pow_add, Nat.mul_comm]
  have hhalf : 2 ^ (g - 1) = 2 ^ (b - 1) * 2 ^ (16 * (6 - k)) := by
    have hb := hm.b_pos
    rw [← Nat.pow_add, hg]
    congr 1
    omega
  have hvalue : sigValue ⟨hi ++ x :: lo, hlen⟩ = (value hi * 2 ^ 16 + x.toNat) * 2 ^ (16 * (6 - k)) + value lo := by
    change value (hi ++ x :: lo) = _
    rw [value_append, value_cons, List.length_cons, pow_succ, hL hlo]
    ring
  generalize 2 ^ (16 * (6 - k)) = L at hL hlt hpow hhalf hvalue
  have hLpos : 0 < L := by omega
  obtain ⟨hdiv, hmod⟩ := @split_word (value hi * 2 ^ 16 + x.toNat) L (value lo) b hLpos hlt
  rw [← hvalue, ← hpow] at hdiv hmod
  -- the bits of the word below `b` do not depend on the words before it
  have hb16 : 2 ^ 16 = 2 ^ (16 - b) * 2 ^ b := by
    have hb := hm.b_le
    rw [← Nat.pow_add]
    congr 1
    omega
  have hxmod : (value hi * 2 ^ 16 + x.toNat) % 2 ^ b = x.toNat % 2 ^ b := by
    rw [hb16, ← Nat.mul_assoc, Nat.add_comm, Nat.add_mul_mod_self_right]
  have hxdiv : (value hi * 2 ^ 16 + x.toNat) / 2 ^ b * 2 ^ b = value hi * 2 ^ 16 + x.toNat / 2 ^ b * 2 ^ b := by
    rw [hb16, ← Nat.mul_assoc, Nat.add_comm, Nat.add_mul_div_right _ _ (Nat.two_pow_pos b), Nat.add_mul, Nat.add_comm]
  have hxlt : x.toNat % 2 ^ b < 2 ^ b := Nat.mod_lt _ (Nat.two_pow_pos b)
  rw [hxmod] at hmod
  have hr0 := hm.toNat_and_rmsk x
  have hfull : full = true → lo = [] := by
    intro h
    rw [← List.length_eq_zero_iff, hlo, hm.full_last h]
  have hdrop : (hi ++ x :: lo).drop (m.rw - 1) = lo := by
    rw [hm.rw_eq, ← hhi]
    simp
  have htake : ((hi ++ x :: lo).set (m.rw - 2) (x &&& ~~~m.rmsk)).take (m.rw - 1) = hi ++ [x &&& ~~~m.rmsk] := by
    rw [hm.rw_eq, ← hhi]
    simp [List.take_append]
  have hremember : (clearBelow m full ⟨hi ++ x :: lo, hlen⟩).1 =
      if value lo = 0 then x &&& m.rmsk else x &&& m.rmsk ||| 1 := by
    unfold clearBelow
    dsimp only
    rw [hword]
    cases full with
    | true =>
      have hnil : value lo = 0 := by rw [hfull rfl, value_nil]
      rw [if_pos rfl, if_pos hnil]
    | false =>
      rw [if_neg Bool.false_ne_true]
      change ((hi ++ x :: lo).drop (m.rw - 1)).foldl _ _ = _
      rw [hdrop, foldl_sticky]
  have hclear : sigValue (clearBelow m full ⟨hi ++ x :: lo, hlen⟩).2 =
      (value hi * 2 ^ 16 + (x &&& ~~~m.rmsk).toNat) * L := by
    have hzero : value (lo.map fun x => if full then x else 0) = 0 := by
      cases full with
      | true => rw [hfull rfl, List.map_nil, value_nil]
      | false =>
        simp only [Bool.false_eq_true, if_false, List.map_const']
        exact value_replicate_zero lo.length
    change value (((hi ++ x :: lo).set (m.rw - 2) (word ⟨hi ++ x :: lo, hlen⟩ m.rw &&& ~~~m.rmsk)).take (m.rw - 1) ++
      ((hi ++ x :: lo).drop (m.rw - 1)).map fun x => if full then x else 0) = _
    rw [hword, hdrop, htake, value_append, hzero, List.length_map, hL hlo, value_append, value_cons, List.length_singleton,
      List.length_nil, Nat.pow_one, Nat.pow_zero, Nat.mul_one, value_nil, Nat.add_zero, Nat.add_zero]
  dsimp only
  refine ⟨?_, ?_, ?_⟩
  · rw [hclear, hm.toNat_and_not_rmsk, ← hxdiv, hdiv, hpow, Nat.mul_assoc]
  · rw [hremember, hmod, hhalf, ← mul_add_lt_iff hlt]
    split_ifs with hexact
    · rw [hm.and_rmbit _ (hr0 ▸ hxlt), hr0]
    · obtain ⟨hor, hor_iff, -⟩ := hm.or_one (hr0 ▸ hxlt)
      rw [hm.and_rmbit _ hor, hor_iff, hr0]
  · rw [hremember, hmod, hhalf, ← mul_add_eq_iff hlt, ← BitVec.toNat_inj]
    split_ifs with hexact
    · rw [hm.toNat_rmbit, hr0, and_iff_left hexact]
    · obtain ⟨-, -, hne⟩ := hm.or_one (hr0 ▸ hxlt)
      exact iff_of_false (hm.toNat_rmbit ▸ hne) fun h => hexact h.2

end Mask

/-- What rounding `g` bits off makes of a number; `lost` and `subflg` tell where the exact number is. -/
def roundTo (g R : Nat) (lost subflg : Bool) : Nat :=
  R / 2 ^ g + if 2 ^ (g - 1) < R % 2 ^ g ∨
    R % 2 ^ g = 2 ^ (g - 1) ∧ (if lost then subflg = false else R / 2 ^ g % 2 = 1) then 1 else 0

theorem sigValue_rbit (p : Precision) : sigValue (roundMasks p).rbit = 2 ^ guardBits p := by
  cases p <;> decide +kernel

theorem guardBits_le (p : Precision) : 16 ≤ guardBits p ∧ guardBits p ≤ 72 := by
  cases p <;> decide

theorem roundOff_value (p : Precision) (lost subflg : Bool) {s : Sig} (hs : sigValue s < 2 ^ 96) :
    sigValue (roundOff (roundMasks p) (p = .nbits) lost subflg s) =
      roundTo (guardBits p) (sigValue s) lost subflg * 2 ^ guardBits p := by
  obtain ⟨k, b, hm, hg⟩ := roundMasks_shape p
  obtain ⟨hvalue, hbit, htie⟩ := hm.clearBelow_spec s hg
  obtain ⟨i, hi, hrebit, hre, hre', hindex⟩ := hm.bit
  have hrbit := sigValue_rbit p
  have hgle := guardBits_le p
  rw [← hg] at hindex
  unfold roundOff roundTo
  generalize clearBelow (roundMasks p) (p = .nbits) s = r at hvalue hbit htie
  obtain ⟨r, s'⟩ := r
  dsimp only at hvalue hbit htie ⊢
  -- the lowest bit that stays
  have heven : word s' (roundMasks p).re &&& (roundMasks p).rebit = 0 ↔ ¬ sigValue s / 2 ^ guardBits p % 2 = 1 := by
    have htest := and_twoPow_ne_zero (word s' (roundMasks p).re) i hi
    rw [Ne] at htest
    have hword := toNat_word s' hre hre'
    rw [hrebit, ← not_iff_not, htest, not_not, BitVec.getLsbD, hword, Nat.testBit_mod_two_pow, hvalue,
      Nat.testBit_div_two_pow, Nat.add_comm i, hindex, Nat.testBit_mul_two_pow, Nat.sub_self, Nat.testBit_zero]
    simp [hi]
  have hround : sigValue (eaddm (roundMasks p).rbit s') = (sigValue s / 2 ^ guardBits p + 1) * 2 ^ guardBits p := by
    have hle := Nat.div_mul_le_self (sigValue s) (2 ^ guardBits p)
    have hpow : 2 ^ guardBits p ≤ 2 ^ 72 := Nat.pow_le_pow_right (by decide) hgle.2
    rw [eaddm_value, hrbit, hvalue, Nat.succ_mul, Nat.add_comm]
    exact Nat.mod_eq_of_lt (by omega)
  generalize sigValue s / 2 ^ guardBits p = q at *
  generalize sigValue s % 2 ^ guardBits p = rest at *
  generalize 2 ^ (guardBits p - 1) = H at *
  by_cases hlow : rest < H
  · rw [if_pos (hbit.2 hlow), if_neg (by omega), hvalue, Nat.add_zero]
  rw [if_neg (mt hbit.1 hlow)]
  by_cases hhalf : rest = H
  · cases lost with
    | true =>
      cases subflg with
      | true =>
        rw [if_pos ⟨htie.2 hhalf, rfl⟩, if_neg (by simp [hhalf]), hvalue, Nat.add_zero]
      | false =>
        rw [if_neg (by simp), if_pos (.inr ⟨hhalf, rfl⟩), hround]
    | false =>
      by_cases hodd : q % 2 = 1
      · rw [if_neg fun h => heven.1 h.2 hodd, if_pos (.inr ⟨hhalf, hodd⟩), hround]
      · rw [if_pos ⟨htie.2 hhalf, heven.2 hodd⟩, if_neg (by simp [hhalf, hodd]), hvalue, Nat.add_zero]
  · rw [if_neg fun h => hhalf (htie.1 h.1), if_pos (.inl (by omega)), hround]

end RoundOff

section Nearest

variable {R n D k : Nat} {lost subflg : Bool}

/-- The number `n`, in units of `D`, is `R`; or, if something has been lost, above it; or below it, if that has been
subtracted. The bits of `R` below `k` are zero, and what has been lost is less than the bit `k`. -/
def Covers (R : Nat) (lost subflg : Bool) (n D k : Nat) : Prop :=
  2 ^ k ∣ R ∧
    if lost then if subflg then n < R * D ∧ R * D < n + 2 ^ k * D else R * D < n ∧ n < R * D + 2 ^ k * D else n = R * D

theorem add_mul_le {a b m : Nat} (ha : m ∣ a) (hb : m ∣ b) (hlt : a < b) (D : Nat) : a * D + m * D ≤ b * D := by
  obtain ⟨i, rfl⟩ := ha
  obtain ⟨j, rfl⟩ := hb
  have hij : i + 1 ≤ j := Nat.lt_of_mul_lt_mul_left hlt
  calc m * i * D + m * D = m * (i + 1) * D := by ring
    _ ≤ m * j * D := Nat.mul_le_mul_right D (Nat.mul_le_mul_left m hij)

theorem roundTo_nearest {g : Nat} (hk : k < g) (hD : 0 < D) (h : Covers R lost subflg n D k) :
    Nearest (roundTo g R lost subflg) n (2 ^ g * D) := by
  have hpow : 2 ^ g = 2 * 2 ^ (g - 1) := by
    rw [← Nat.pow_succ']
    congr 1
    omega
  have hsplit := Nat.div_add_mod R (2 ^ g)
  have hmod := Nat.mod_lt R (Nat.two_pow_pos g)
  obtain ⟨hdvd, h⟩ := h
  have hH : 2 ^ k ∣ 2 ^ (g - 1) := Nat.pow_dvd_pow 2 (by omega)
  have hgdvd : 2 ^ k ∣ 2 ^ g := Nat.pow_dvd_pow 2 hk.le
  have hr : 2 ^ k ∣ R % 2 ^ g := (Nat.dvd_mod_iff hgdvd).2 hdvd
  unfold roundTo
  rw [hpow] at hsplit hmod hr hgdvd ⊢
  have hKpos : 0 < 2 ^ k * D := Nat.mul_pos (Nat.two_pow_pos k) hD
  generalize 2 ^ k = K at *
  generalize 2 ^ (g - 1) = H at *
  generalize R / (2 * H) = q at *
  generalize R % (2 * H) = r at *
  have hD2 : 2 * H * D = 2 * (H * D) := by ring
  have hRD : R * D = q * (2 * (H * D)) + r * D := by
    rw [← hsplit]
    ring
  have hsucc : (q + 1) * (2 * (H * D)) = q * (2 * (H * D)) + 2 * (H * D) := by ring
  have htop := add_mul_le hr hgdvd hmod D
  rw [hRD] at h
  rw [hD2] at htop ⊢
  obtain hlt | rfl | hgt := Nat.lt_trichotomy r H
  · -- below the half, whatever has been lost
    have hle := add_mul_le hr hH hlt D
    rw [if_neg (by omega), Nat.add_zero]
    constructor <;> split_ifs at h <;> omega
  · cases lost with
    | true =>
      cases subflg with
      | true =>
        rw [if_pos rfl, if_pos rfl] at h
        rw [if_neg (by simp), Nat.add_zero]
        constructor <;> omega
      | false =>
        rw [if_pos rfl, if_neg Bool.false_ne_true] at h
        rw [if_pos (.inr ⟨rfl, rfl⟩)]
        constructor <;> rw [hsucc] <;> omega
    | false =>
      rw [if_neg Bool.false_ne_true] at h
      by_cases hodd : q % 2 = 1
      · rw [if_pos (.inr ⟨rfl, hodd⟩)]
        constructor <;> rw [hsucc] <;> omega
      · rw [if_neg (by simp [hodd]), Nat.add_zero]
        constructor <;> omega
  · have hle := add_mul_le hH hr hgt D
    rw [if_pos (.inl hgt)]
    constructor <;> rw [hsucc] <;> split_ifs at h <;> omega

theorem Covers.shift (hD : 0 < D) (h : Covers R lost subflg n D k) (y : Nat)
    (hsub : subflg = true → R % 2 ^ y = 0) :
    Covers (R / 2 ^ y) (lost || R % 2 ^ y ≠ 0) subflg n (2 ^ y * D) (k - y) := by
  obtain ⟨hdvd, h⟩ := h
  have hsplit := Nat.div_add_mod R (2 ^ y)
  have hmod := Nat.mod_lt R (Nat.two_pow_pos y)
  have hRD : R * D = R / 2 ^ y * (2 ^ y * D) + R % 2 ^ y * D := by
    conv_lhs => rw [← hsplit]
    ring
  have hdvd' : 2 ^ (k - y) ∣ R / 2 ^ y := by
    obtain hle | hlt := Nat.le_total k y
    · rw [Nat.sub_eq_zero_of_le hle]
      exact one_dvd _
    · obtain ⟨i, rfl⟩ := Nat.exists_eq_add_of_le hlt
      rw [Nat.add_sub_cancel_left]
      rw [Nat.pow_add] at hdvd
      exact Nat.dvd_div_of_mul_dvd hdvd
  refine ⟨hdvd', ?_⟩
  rw [hRD] at h
  by_cases hexact : R % 2 ^ y = 0
  · rw [hexact, Nat.zero_mul, Nat.add_zero] at h
    have hle : 2 ^ k * D ≤ 2 ^ (k - y) * (2 ^ y * D) := by
      rw [← Nat.mul_assoc, ← Nat.pow_add]
      exact Nat.mul_le_mul_right D (Nat.pow_le_pow_right (by decide) (by omega))
    rw [decide_eq_false (not_not_intro hexact), Bool.or_false]
    split_ifs at h ⊢ <;> omega
  · have hsub' : subflg = false := by
      cases subflg with
      | false => rfl
      | true => exact absurd (hsub rfl) hexact
    have hpos : 0 < R % 2 ^ y * D := Nat.mul_pos (Nat.pos_of_ne_zero hexact) hD
    have hky : k < y := by
      by_contra hle
      exact hexact (Nat.mod_eq_zero_of_dvd ((Nat.pow_dvd_pow 2 (by omega)).trans hdvd))
    have hgdvd : 2 ^ k ∣ 2 ^ y := Nat.pow_dvd_pow 2 hky.le
    have hle := add_mul_le ((Nat.dvd_mod_iff hgdvd).2 hdvd) hgdvd hmod D
    have hKpos : 0 < 2 ^ k * D := Nat.mul_pos (Nat.two_pow_pos k) hD
    subst hsub'
    rw [decide_eq_true hexact, Bool.or_true, if_pos rfl, if_neg Bool.false_ne_true, Nat.sub_eq_zero_of_le hky.le,
      Nat.pow_zero, Nat.one_mul]
    rw [if_neg Bool.false_ne_true] at h
    split_ifs at h <;> omega

/-- A significand of 96 bits is rounded as the number is; `e` is the exponent field of the unit. -/
theorem Covers.roundMagnitude_eq {g d e : Nat} (h : Covers R lost subflg n D k) (hD : 0 < D) (hk : k + 2 ≤ g) (hg : g ≤ 95)
    (hR : R < 2 ^ 96) (hd : 0 < d) (hunit : 2 ^ g * D = d * 2 ^ e) (hlow : e = 0 ∨ 2 ^ 95 ≤ R) :
    roundMagnitude (95 - g) n d = e * 2 ^ (95 - g) + roundTo g R lost subflg := by
  have hnear := roundTo_nearest (g := g) (by omega) hD h
  obtain ⟨hdvd, hwhere⟩ := h
  have hpow (i : Nat) : 2 ^ (95 - g + i) * (d * 2 ^ e) = 2 ^ (95 + i) * D := by
    rw [← hunit, ← Nat.mul_assoc, ← Nat.pow_add]
    congr 2
    omega
  have hgap := add_mul_le hdvd (Nat.pow_dvd_pow 2 (by omega : k ≤ 96)) hR D
  have hhigh : n < 2 ^ (95 - g + 1) * (d * 2 ^ e) := by
    have hKpos : 0 < 2 ^ k * D := Nat.mul_pos (Nat.two_pow_pos k) hD
    rw [hpow 1]
    split_ifs at hwhere <;> omega
  rw [hunit] at hnear
  by_cases hsize : e = 0 ∨ 2 ^ (95 - g) * (d * 2 ^ e) ≤ n
  · exact BinaryFloat.roundMagnitude_eq hd hsize hhigh hnear
  -- only what is subtracted from a power of two leaves a smaller number
  rw [not_or, not_le] at hsize
  obtain ⟨he, hsmall⟩ := hsize
  have hlow := hlow.resolve_left he
  have h95 := hpow 0
  rw [Nat.add_zero, Nat.add_zero] at h95
  rw [h95] at hsmall
  have hRD : 2 ^ 95 * D ≤ R * D := Nat.mul_le_mul_right D hlow
  obtain rfl : R = 2 ^ 95 := by
    by_contra hne
    have hnext := add_mul_le (Nat.pow_dvd_pow 2 (by omega : k ≤ 95)) hdvd (by omega : 2 ^ 95 < R) D
    split_ifs at hwhere <;> omega
  have hround : roundTo g (2 ^ 95) lost subflg = 2 ^ (95 - g) := by
    have hdvd : 2 ^ g ∣ 2 ^ 95 := Nat.pow_dvd_pow 2 hg
    have hhalf := Nat.two_pow_pos (g - 1)
    unfold roundTo
    rw [Nat.mod_eq_zero_of_dvd hdvd, if_neg (by omega), Nat.add_zero, Nat.pow_div hg (by decide)]
  have hquarter : 4 * (2 ^ k * D) ≤ d * 2 ^ e := by
    rw [← hunit, ← Nat.mul_assoc]
    refine Nat.mul_le_mul_right D ?_
    calc 4 * 2 ^ k = 2 ^ (k + 2) := by ring
      _ ≤ 2 ^ g := Nat.pow_le_pow_right (by decide) hk
  have hbelow : 2 ^ 95 * D < n + 2 ^ k * D := by
    split_ifs at hwhere <;> omega
  rw [hround]
  exact StickyBit.roundMagnitude_of_close hd le_rfl (Nat.pow_lt_pow_right (by decide) (Nat.lt_succ_self _))
    (by rw [h95]; omega) (by rw [h95]; omega)

end Nearest

end Z80Gcc.Emulator
