import Z80Gcc.Proofs.FpHalfway

/-! Multiplication and division: both find the quotient of two numbers to the length of a fraction and whether there is more of it.
Their results are rounded to nearest but for subnormal ones that have to be rounded up. -/

namespace Z80Gcc.FpBit

open BinaryFloat

section Words

theorem mulWords_float {x y : Nat} (hx : x < 2 ^ 31) (hy : y < 2 ^ 31) : mulWords .float x y = (x * y / 2 ^ 32, x * y % 2 ^ 32) := by
  have hmul : x * y < 2 ^ 31 * 2 ^ 31 := Nat.mul_lt_mul'' hx hy
  have hanswer : (BitVec.ofNat 64 x * BitVec.ofNat 64 y).toNat = x * y := by
    rw [BitVec.toNat_mul, BitVec.toNat_ofNat, BitVec.toNat_ofNat, Nat.mod_eq_of_lt (show x < 2 ^ 64 by omega),
      Nat.mod_eq_of_lt (show y < 2 ^ 64 by omega), Nat.mod_eq_of_lt (by omega)]
  have hmsb : (BitVec.ofNat 64 x * BitVec.ofNat 64 y).msb = false := by
    rw [BitVec.msb_eq_decide, hanswer, decide_eq_false (by omega)]
  rw [mulWords, BitVec.sshiftRight_eq_of_msb_false hmsb, BitVec.toNat_setWidth, BitVec.toNat_setWidth, BitVec.toNat_ushiftRight, hanswer,
    Nat.shiftRight_eq_div_pow, Nat.mod_eq_of_lt (show x * y / 2 ^ 32 < 2 ^ 32 by omega)]

theorem low_toNat {x : Nat} (hx : x < 2 ^ 61) : (BitVec.ofNat 64 x &&& 0xffffffff#64).toNat = x % 2 ^ 32 := by
  rw [BitVec.toNat_and, BitVec.toNat_ofNat, Nat.mod_eq_of_lt (by omega), show (0xffffffff#64).toNat = 2 ^ 32 - 1 from rfl,
    Nat.and_two_pow_sub_one_eq_mod]

theorem high_toNat {x : Nat} (hx : x < 2 ^ 61) : (BitVec.ofNat 64 x >>> 32).toNat = x / 2 ^ 32 := by
  rw [BitVec.toNat_ushiftRight, BitVec.toNat_ofNat, Nat.mod_eq_of_lt (by omega), Nat.shiftRight_eq_div_pow]

theorem shifted_toNat (v : BitVec 64) : ((v <<< 32) &&& 0xffffffff00000000#64).toNat = v.toNat % 2 ^ 32 * 2 ^ 32 := by
  have hmask : (v <<< 32) &&& 0xffffffff00000000#64 = v <<< 32 := by
    apply BitVec.eq_of_getLsbD_eq
    intro i hi
    have hbit : ∀ i < 64, (0xffffffff00000000#64).getLsbD i = decide (32 ≤ i) := by decide
    rw [BitVec.getLsbD_and, hbit i hi, BitVec.getLsbD_shiftLeft]
    by_cases hlow : i < 32
    · simp [hlow]
    · simp [hlow, Nat.le_of_not_lt hlow]
  rw [hmask, BitVec.toNat_shiftLeft, Nat.shiftLeft_eq]
  omega

/-- The product of two doubles is put together from those of their halves; the sum of the middle ones does not carry. -/
theorem mulWords_double {x y : Nat} (hx : x < 2 ^ 61) (hy : y < 2 ^ 61) : mulWords .double x y = (x * y / 2 ^ 64, x * y % 2 ^ 64) := by
  obtain ⟨a, ha⟩ : ∃ a, a = x / 2 ^ 32 := ⟨_, rfl⟩
  obtain ⟨b, hb⟩ : ∃ b, b = x % 2 ^ 32 := ⟨_, rfl⟩
  obtain ⟨c, hc⟩ : ∃ c, c = y / 2 ^ 32 := ⟨_, rfl⟩
  obtain ⟨d, hd⟩ : ∃ d, d = y % 2 ^ 32 := ⟨_, rfl⟩
  have hxs := Nat.div_add_mod x (2 ^ 32)
  have hys := Nat.div_add_mod y (2 ^ 32)
  have hprod : x * y = a * c * 2 ^ 64 + (c * b + d * a) * 2 ^ 32 + d * b := by
    rw [← hxs, ← hys, ← ha, ← hb, ← hc, ← hd]
    ring
  have hbd : d * b ≤ (2 ^ 32 - 1) * (2 ^ 32 - 1) := Nat.mul_le_mul (by omega) (by omega)
  have hcb : c * b ≤ (2 ^ 29 - 1) * (2 ^ 32 - 1) := Nat.mul_le_mul (by omega) (by omega)
  have hda : d * a ≤ (2 ^ 32 - 1) * (2 ^ 29 - 1) := Nat.mul_le_mul (by omega) (by omega)
  have hac : c * a ≤ (2 ^ 29 - 1) * (2 ^ 29 - 1) := Nat.mul_le_mul (by omega) (by omega)
  rw [Nat.mul_comm a c] at hprod
  have mul_toNat {u v : BitVec 64} (h : u.toNat * v.toNat < 2 ^ 64) : (u * v).toNat = u.toNat * v.toNat := by
    rw [BitVec.toNat_mul, Nat.mod_eq_of_lt h]
  have hll := mul_toNat (u := BitVec.ofNat 64 y &&& 0xffffffff#64) (v := BitVec.ofNat 64 x &&& 0xffffffff#64)
    (by rw [low_toNat hy, low_toNat hx, ← hd, ← hb]; omega)
  have hhl := mul_toNat (u := BitVec.ofNat 64 y >>> 32) (v := BitVec.ofNat 64 x &&& 0xffffffff#64)
    (by rw [high_toNat hy, low_toNat hx, ← hc, ← hb]; omega)
  have hlh := mul_toNat (u := BitVec.ofNat 64 y &&& 0xffffffff#64) (v := BitVec.ofNat 64 x >>> 32)
    (by rw [low_toNat hy, high_toNat hx, ← hd, ← ha]; omega)
  have hhh := mul_toNat (u := BitVec.ofNat 64 y >>> 32) (v := BitVec.ofNat 64 x >>> 32)
    (by rw [high_toNat hy, high_toNat hx, ← hc, ← ha]; omega)
  rw [low_toNat hy, low_toNat hx, ← hd, ← hb] at hll
  rw [high_toNat hy, low_toNat hx, ← hc, ← hb] at hhl
  rw [low_toNat hy, high_toNat hx, ← hd, ← ha] at hlh
  rw [high_toNat hy, high_toNat hx, ← hc, ← ha] at hhh
  rw [mulWords]
  generalize (BitVec.ofNat 64 y &&& 0xffffffff#64) * (BitVec.ofNat 64 x &&& 0xffffffff#64) = ll at *
  generalize (BitVec.ofNat 64 y >>> 32) * (BitVec.ofNat 64 x &&& 0xffffffff#64) = hl at *
  generalize (BitVec.ofNat 64 y &&& 0xffffffff#64) * (BitVec.ofNat 64 x >>> 32) = lh at *
  generalize (BitVec.ofNat 64 y >>> 32) * (BitVec.ofNat 64 x >>> 32) = hh at *
  have hps : (hl + lh).toNat = c * b + d * a := by
    rw [BitVec.toNat_add, hhl, hlh, Nat.mod_eq_of_lt (by omega)]
  have hshift := shifted_toNat (hl + lh)
  have hhigh : ((hl + lh) >>> 32 &&& 0xffffffff#64).toNat = (c * b + d * a) / 2 ^ 32 := by
    rw [BitVec.toNat_and, BitVec.toNat_ushiftRight, Nat.shiftRight_eq_div_pow, show (0xffffffff#64).toNat = 2 ^ 32 - 1 from rfl,
      Nat.and_two_pow_sub_one_eq_mod, hps, Nat.mod_eq_of_lt (by omega)]
  rw [hps] at hshift
  have hmiddle : ¬ hl + lh < hl := by
    rw [BitVec.lt_def, hps, hhl]
    omega
  rw [if_neg hmiddle]
  generalize (hl + lh) <<< 32 &&& 0xffffffff00000000#64 = shifted at *
  generalize (hl + lh) >>> 32 &&& 0xffffffff#64 = middle at *
  have hres0 : (ll + shifted).toNat = (ll.toNat + shifted.toNat) % 2 ^ 64 := BitVec.toNat_add _ _
  generalize ll + shifted = res0 at *
  have hsum : (middle + hh).toNat = middle.toNat + hh.toNat := by
    rw [BitVec.toNat_add, Nat.mod_eq_of_lt (by omega)]
  generalize middle + hh = sum at *
  -- the low word has wrapped where it is less than what was added
  by_cases hcarry : res0 < ll
  · have hlt : res0.toNat < ll.toNat := hcarry
    have hres2 : (0#64 + 1#64 + sum).toNat = 1 + sum.toNat := by
      rw [BitVec.zero_add, BitVec.toNat_add, show (1#64).toNat = 1 from rfl, Nat.mod_eq_of_lt (by omega)]
    rw [if_pos hcarry, hres2]
    refine Prod.ext ?_ ?_
    · dsimp only
      omega
    · dsimp only
      omega
  · have hge : ¬ res0.toNat < ll.toNat := hcarry
    rw [if_neg hcarry, BitVec.zero_add]
    refine Prod.ext ?_ ?_
    · dsimp only
      omega
    · dsimp only
      omega

theorem mulWords_eq (v : Version) {x y : Nat} (hx : x < 2 * 2 ^ (v.format.fracBits + v.format.nGards))
    (hy : y < 2 * 2 ^ (v.format.fracBits + v.format.nGards)) :
    mulWords v x y = (x * y / 2 ^ v.format.fracNbits, x * y % 2 ^ v.format.fracNbits) := by
  cases v with
  | float => exact mulWords_float hx hy
  | double => exact mulWords_double hx hy

theorem mulExp_eq (v : Version) : mulExp v = v.format.fracNbits - (v.format.fracBits + v.format.nGards) := by
  cases v <;> rfl

end Words

section Shift

variable (f : Format)

theorem mulDown_eq {high : Nat} (hhigh : high < 2 * 2 ^ (f.fracBits + f.nGards)) (low : Nat) (exp : Int) :
    mulDown f high low exp = (high, low, exp) := by
  rw [mulDown, f.implicit2_eq, if_neg (by omega)]

theorem mulUp_step (w : Nat) : (w / 2 ^ f.fracNbits) <<< 1 ||| (if w % 2 ^ f.fracNbits &&& f.fracHigh ≠ 0 then 1 else 0) =
      w * 2 / 2 ^ f.fracNbits ∧ f.word ((w % 2 ^ f.fracNbits) <<< 1) = w * 2 % 2 ^ f.fracNbits := by
  obtain ⟨n, hn⟩ : ∃ n, f.fracNbits = n + 1 := Nat.exists_eq_add_one_of_ne_zero (by have := f.room; omega)
  have hpow : 2 ^ f.fracNbits = 2 * 2 ^ n := by rw [hn]; ring
  have hpos : 0 < 2 ^ n := Nat.two_pow_pos n
  have hsplit := Nat.div_add_mod w (2 ^ f.fracNbits)
  have hmod := Nat.mod_lt w (Nat.two_pow_pos f.fracNbits)
  have hbit : w % 2 ^ f.fracNbits &&& f.fracHigh ≠ 0 ↔ 2 ^ n ≤ w % 2 ^ f.fracNbits := by
    have hlt : w % 2 ^ f.fracNbits / 2 ^ n < 2 := by
      rw [Nat.div_lt_iff_lt_mul hpos, ← hpow]
      exact hmod
    rw [Format.fracHigh, hn, Nat.add_sub_cancel, Nat.one_shiftLeft, ← hn, Nat.and_two_pow, Nat.testBit_eq_decide_div_mod_eq,
      Nat.mod_eq_of_lt hlt, ← Nat.one_le_div_iff hpos]
    obtain h | h := Nat.le_one_iff_eq_zero_or_eq_one.mp (Nat.le_of_lt_succ hlt)
    · rw [h]
      simp
    · rw [h]
      simp
  constructor
  · have hor {c : Nat} (hc : c < 2) : (w / 2 ^ f.fracNbits) <<< 1 ||| c = 2 * (w / 2 ^ f.fracNbits) + c := by
      rw [Nat.shiftLeft_eq, Nat.pow_one, Nat.mul_comm, ← Nat.two_pow_add_eq_or_of_lt (i := 1) hc, Nat.pow_one]
    have hexp : w * 2 = 2 ^ f.fracNbits * (2 * (w / 2 ^ f.fracNbits)) + 2 * (w % 2 ^ f.fracNbits) := by
      calc w * 2 = (2 ^ f.fracNbits * (w / 2 ^ f.fracNbits) + w % 2 ^ f.fracNbits) * 2 := by rw [hsplit]
        _ = _ := by ring
    rw [hor (by split <;> omega), hexp, Nat.mul_add_div (Nat.two_pow_pos _)]
    congr 1
    symm
    split
    · next h =>
      have hle := hbit.mp h
      apply Nat.div_eq_of_lt_le
      · omega
      · omega
    · next h =>
      have hlt := hbit.not.mp h
      exact Nat.div_eq_of_lt (by omega)
  · rw [Format.word, Nat.shiftLeft_eq, Nat.pow_one, Nat.mod_mul_mod]

/-- The loop finds the power of two that brings the high word of a product to its place. -/
theorem mulUp_spec {w : Nat} (hpos : 0 < w / 2 ^ f.fracNbits) (hhigh : w / 2 ^ f.fracNbits < 2 * 2 ^ (f.fracBits + f.nGards)) (exp : Int) :
    ∃ k : Nat, mulUp f (w / 2 ^ f.fracNbits) (w % 2 ^ f.fracNbits) exp =
        (w * 2 ^ k / 2 ^ f.fracNbits, w * 2 ^ k % 2 ^ f.fracNbits, exp - k) ∧
      2 ^ (f.fracBits + f.nGards) ≤ w * 2 ^ k / 2 ^ f.fracNbits ∧ w * 2 ^ k / 2 ^ f.fracNbits < 2 * 2 ^ (f.fracBits + f.nGards) := by
  rw [mulUp, f.implicit1_eq]
  split
  · next hlow =>
    have hN : 0 < 2 ^ f.fracNbits := Nat.two_pow_pos _
    have hdouble : w / 2 ^ f.fracNbits * 2 ≤ w * 2 / 2 ^ f.fracNbits := by
      rw [Nat.le_div_iff_mul_le hN, Nat.mul_right_comm]
      exact Nat.mul_le_mul_right 2 (Nat.div_mul_le_self _ _)
    have hless : w * 2 / 2 ^ f.fracNbits < 2 * 2 ^ (f.fracBits + f.nGards) := by
      rw [Nat.div_lt_iff_lt_mul hN, Nat.mul_assoc, Nat.mul_comm]
      exact Nat.mul_lt_mul_of_pos_left ((Nat.div_lt_iff_lt_mul hN).mp hlow.1) (by decide)
    obtain ⟨hstep, hword⟩ := mulUp_step f w
    obtain ⟨k, hk, hlow', hhigh'⟩ := mulUp_spec (w := w * 2) (by omega) hless (exp - 1)
    have hexp : w * 2 * 2 ^ k = w * 2 ^ (k + 1) := by ring
    rw [hexp] at hk hlow' hhigh'
    refine ⟨k + 1, ?_, hlow', hhigh'⟩
    rw [hstep, hword, hk]
    congr 2
    push_cast
    ring
  · next hlow => exact ⟨0, by simp, by simp; omega, by simpa using hhigh⟩
termination_by 2 ^ (f.fracBits + f.nGards) - w / 2 ^ f.fracNbits

end Shift

section Multiply

variable {v : Version} {a b : v.format.Raw} {i j m n : Nat}

theorem product_isFraction (ha : Unpacked a i m) (hb : Unpacked b j n) {k : Nat}
    (hlow : 2 ^ (v.format.fracBits + v.format.nGards) ≤ m * n * 2 ^ k / 2 ^ v.format.fracNbits)
    (hhigh : m * n * 2 ^ k / 2 ^ v.format.fracNbits < 2 * 2 ^ (v.format.fracBits + v.format.nGards)) :
    IsFraction v.format (magnitude a * magnitude b) (2 ^ v.format.quantum) (m * n * 2 ^ k) (2 ^ v.format.fracNbits)
      (k + v.format.quantum + 2 * (v.format.fracBits + v.format.nGards)) (i + j + v.format.fracNbits) where
  d_pos := Nat.two_pow_pos _
  U_pos := Nat.two_pow_pos _
  low := (Nat.le_div_iff_mul_le (Nat.two_pow_pos _)).mp hlow
  high := (Nat.div_lt_iff_lt_mul (Nat.two_pow_pos _)).mp hhigh
  value := by
    calc magnitude a * magnitude b * 2 ^ v.format.fracNbits *
          2 ^ (k + v.format.quantum + 2 * (v.format.fracBits + v.format.nGards))
        = (magnitude a * 2 ^ (v.format.fracBits + v.format.nGards)) * (magnitude b * 2 ^ (v.format.fracBits + v.format.nGards)) *
          2 ^ v.format.fracNbits * 2 ^ k * 2 ^ v.format.quantum := by ring
      _ = (m * 2 ^ i) * (n * 2 ^ j) * 2 ^ v.format.fracNbits * 2 ^ k * 2 ^ v.format.quantum := by rw [ha.value, hb.value]
      _ = m * n * 2 ^ k * 2 ^ v.format.quantum * 2 ^ (i + j + v.format.fracNbits) := by ring

theorem xor_eq_decide (s s' : Bool) : decide (s ≠ s') = (s ^^ s') := by
  cases s <;> cases s' <;> rfl

/-- A product of two numbers that are neither 0 nor an infinity. -/
theorem multiply_number (ha : Unpacked a i m) (hb : Unpacked b j n) :
    IsRounded (neg a ^^ neg b) (magnitude a * magnitude b) (2 ^ v.format.quantum) (multiply v a b) ↔
      Rounds v.format (magnitude a * magnitude b) (2 ^ v.format.quantum) := by
  have hwide : v.format.fracNbits ≤ 2 * (v.format.fracBits + v.format.nGards) := by
    cases v <;> decide
  have hroom := v.format.room
  have hN : 0 < 2 ^ v.format.fracNbits := Nat.two_pow_pos _
  have hpos : 0 < m * n / 2 ^ v.format.fracNbits := by
    rw [Nat.div_pos_iff]
    refine ⟨hN, ?_⟩
    calc 2 ^ v.format.fracNbits ≤ 2 ^ (2 * (v.format.fracBits + v.format.nGards)) := Nat.pow_le_pow_right (by decide) hwide
      _ = 2 ^ (v.format.fracBits + v.format.nGards) * 2 ^ (v.format.fracBits + v.format.nGards) := by ring
      _ ≤ m * n := Nat.mul_le_mul ha.low hb.low
  have hless : m * n / 2 ^ v.format.fracNbits < 2 * 2 ^ (v.format.fracBits + v.format.nGards) := by
    rw [Nat.div_lt_iff_lt_mul hN]
    calc m * n < 2 * 2 ^ (v.format.fracBits + v.format.nGards) * (2 * 2 ^ (v.format.fracBits + v.format.nGards)) :=
          Nat.mul_lt_mul'' ha.high hb.high
      _ = 2 * 2 ^ (v.format.fracBits + v.format.nGards) * 2 ^ (v.format.fracBits + v.format.nGards + 1) := by ring
      _ ≤ 2 * 2 ^ (v.format.fracBits + v.format.nGards) * 2 ^ v.format.fracNbits :=
          Nat.mul_le_mul_left _ (Nat.pow_le_pow_right (by decide) (by omega))
  obtain ⟨k, hk, hlow, hhigh⟩ := mulUp_spec v.format hpos hless ((i : Int) - v.format.quantum + (j - v.format.quantum) + mulExp v)
  have hfraction := product_isFraction ha hb hlow hhigh
  have hparts : fpmulParts v (unpackD v.format a) (unpackD v.format b) = ⟨.number, neg a ^^ neg b,
      (i : Int) - v.format.quantum + (j - v.format.quantum) + mulExp v - k,
      roundHalfway v.format (m * n * 2 ^ k / 2 ^ v.format.fracNbits) (m * n * 2 ^ k % 2 ^ v.format.fracNbits)⟩ := by
    rw [fpmulParts, ha.unpack, hb.unpack]
    simp only [FpNumber.isnan, FpNumber.isinf, FpNumber.iszero, reduceCtorEq, decide_false, Bool.or_self, Bool.false_eq_true, if_false]
    rw [mulWords_eq v ha.high hb.high]
    dsimp only
    rw [mulDown_eq v.format hless]
    dsimp only
    rw [hk, xor_eq_decide]
  rw [multiply, hparts, ← hfraction.rounded_iff Iff.rfl, mulExp_eq]
  have hexp : (i : Int) - v.format.quantum + (j - v.format.quantum) + (v.format.fracNbits - (v.format.fracBits + v.format.nGards)) - k =
      (v.format.fracBits : Int) + v.format.nGards + (i + j + v.format.fracNbits : Nat) -
        (k + v.format.quantum + 2 * (v.format.fracBits + v.format.nGards) : Nat) - v.format.quantum := by
    omega
  rw [hexp]

end Multiply

section Divide

variable {f : Format} {a b : f.Raw} {i j m n : Nat}

theorem divLoop_step {num den q s : Nat} (hnum : num < 2 * den) (hq : 2 ^ (s + 1) ∣ q) : ∃ c num', num = c * den + num' ∧ num' < den ∧
    (if num ≥ den then (q ||| 2 ^ s, num - den) else (q, num)) = (q + c * 2 ^ s, num') := by
  by_cases hle : num ≥ den
  · obtain ⟨u, rfl⟩ := hq
    have hlt : 2 ^ s < 2 ^ (s + 1) := Nat.pow_lt_pow_right (by decide) (Nat.lt_succ_self s)
    refine ⟨1, num - den, by omega, by omega, ?_⟩
    rw [if_pos hle, Nat.one_mul, ← Nat.two_pow_add_eq_or_of_lt hlt]
  · exact ⟨0, num, by omega, by omega, by rw [if_neg hle, Nat.zero_mul, Nat.add_zero]⟩

theorem divLoop_spec {den : Nat} (hden : 0 < den) (hhigh : den < 2 * 2 ^ (f.fracBits + f.nGards)) (s : Nat) {num q : Nat} (hnum : num < 2 * den)
    (hq : 2 ^ (s + 1) ∣ q) : divLoop f (2 ^ s) num den q = (q + num * 2 ^ s / den, 2 * (num * 2 ^ s % den)) := by
  have hroom := f.implicit2_lt
  induction s generalizing num q with
  | zero =>
    obtain ⟨c, num', hsplit, hless, hstep⟩ := divLoop_step hnum hq
    have hword : f.word (num' * 2) = num' * 2 := Nat.mod_eq_of_lt (by omega)
    rw [divLoop, if_pos (Nat.two_pow_pos 0), hstep]
    dsimp only
    rw [hword, divLoop, if_neg (by decide), Nat.pow_zero, Nat.mul_one, Nat.mul_one, hsplit, Nat.add_comm (c * den), Nat.mul_comm c,
      Nat.add_mul_div_left _ _ hden, Nat.add_mul_mod_self_left, Nat.div_eq_of_lt hless, Nat.mod_eq_of_lt hless, Nat.zero_add, Nat.mul_comm]
  | succ s ih =>
    obtain ⟨c, num', hsplit, hless, hstep⟩ := divLoop_step hnum hq
    have hword : f.word (num' * 2) = num' * 2 := Nat.mod_eq_of_lt (by omega)
    have hdvd : 2 ^ (s + 1) ∣ q + c * 2 ^ (s + 1) := by
      exact Nat.dvd_add ((Nat.pow_dvd_pow 2 (Nat.le_succ _)).trans hq) (Nat.dvd_mul_left _ _)
    have hbit : 2 ^ (s + 1) >>> 1 = 2 ^ s := by
      rw [Nat.shiftRight_eq_div_pow, Nat.pow_one, Nat.pow_succ, Nat.mul_div_cancel _ (by decide)]
    have hexp : num * 2 ^ (s + 1) = num' * 2 * 2 ^ s + den * (c * 2 ^ (s + 1)) := by
      rw [hsplit]
      ring
    rw [divLoop, if_pos (Nat.two_pow_pos _), hstep]
    dsimp only
    rw [hword, hbit, ih (by omega) hdvd, hexp, Nat.add_mul_div_left _ _ hden, Nat.add_mul_mod_self_left]
    congr 1
    omega

/-- A quotient of two fractions is one of the length of a fraction when its numerator is not less. -/
theorem quotient_isFraction (ha : Unpacked a i m) (hb : Unpacked b j n) {c : Nat} (hlow : n ≤ m * 2 ^ c) (hhigh : m * 2 ^ c < 2 * n) :
    IsFraction f (magnitude a * 2 ^ f.quantum) (magnitude b) (m * 2 ^ c * 2 ^ (f.fracBits + f.nGards)) n
      (c + j + (f.fracBits + f.nGards)) (i + f.quantum) where
  d_pos := hb.magnitude_pos
  U_pos := (Nat.two_pow_pos _).trans_le hb.low
  low := by
    rw [Nat.mul_comm]
    exact Nat.mul_le_mul_right _ hlow
  high := by
    calc m * 2 ^ c * 2 ^ (f.fracBits + f.nGards) < 2 * n * 2 ^ (f.fracBits + f.nGards) :=
          Nat.mul_lt_mul_of_pos_right hhigh (Nat.two_pow_pos _)
      _ = 2 * 2 ^ (f.fracBits + f.nGards) * n := by ring
  value := by
    calc magnitude a * 2 ^ f.quantum * n * 2 ^ (c + j + (f.fracBits + f.nGards))
        = magnitude a * 2 ^ (f.fracBits + f.nGards) * n * 2 ^ (f.quantum + c + j) := by ring
      _ = m * 2 ^ i * n * 2 ^ (f.quantum + c + j) := by rw [ha.value]
      _ = m * 2 ^ c * (n * 2 ^ j) * 2 ^ (i + f.quantum) := by ring
      _ = m * 2 ^ c * (magnitude b * 2 ^ (f.fracBits + f.nGards)) * 2 ^ (i + f.quantum) := by rw [hb.value]
      _ = m * 2 ^ c * 2 ^ (f.fracBits + f.nGards) * magnitude b * 2 ^ (i + f.quantum) := by ring

/-- A quotient of two numbers that are neither 0 nor an infinity. -/
theorem divide_number (ha : Unpacked a i m) (hb : Unpacked b j n) :
    IsRounded (neg a ^^ neg b) (magnitude a * 2 ^ f.quantum) (magnitude b) (divide f a b) ↔
      Rounds f (magnitude a * 2 ^ f.quantum) (magnitude b) := by
  have hroom := f.implicit2_lt
  have hlowa := ha.low
  have hhigha := ha.high
  have hlowb := hb.low
  have hhighb := hb.high
  have hp : 0 < 2 ^ (f.fracBits + f.nGards) := Nat.two_pow_pos _
  -- the numerator is doubled where it is less
  obtain ⟨c, hc, hnum⟩ : ∃ c : Nat, (if m < n then (i : Int) - f.quantum - (j - f.quantum) - 1 else (i : Int) - f.quantum - (j - f.quantum)) =
      (i : Int) - j - c ∧ (if m < n then f.word (m * 2) else m) = m * 2 ^ c ∧ n ≤ m * 2 ^ c ∧ m * 2 ^ c < 2 * n := by
    by_cases hless : m < n
    · refine ⟨1, by rw [if_pos hless]; omega, ?_, by omega, by omega⟩
      rw [if_pos hless, Format.word, Nat.mod_eq_of_lt (by omega), Nat.pow_one]
    · refine ⟨0, by rw [if_neg hless]; omega, ?_, by omega, by omega⟩
      rw [if_neg hless, Nat.pow_zero, Nat.mul_one]
  obtain ⟨hnum, hlow, hhigh⟩ := hnum
  have hfraction := quotient_isFraction ha hb hlow hhigh
  have hparts : fpdivParts f (unpackD f a) (unpackD f b) = ⟨.number, neg a ^^ neg b, (i : Int) - j - c,
      roundHalfway f (m * 2 ^ c * 2 ^ (f.fracBits + f.nGards) / n) (2 * (m * 2 ^ c * 2 ^ (f.fracBits + f.nGards) % n))⟩ := by
    have hloop := divLoop_spec (f := f) (by omega) hhighb (f.fracBits + f.nGards) (q := 0) hhigh (Nat.dvd_zero _)
    rw [Nat.zero_add] at hloop
    rw [fpdivParts, ha.unpack, hb.unpack]
    simp only [FpNumber.isnan, FpNumber.isinf, FpNumber.iszero, reduceCtorEq, decide_false, Bool.or_self, Bool.false_eq_true, if_false]
    rw [hc, hnum, f.implicit1_eq, hloop]
  have hrest : 2 * (m * 2 ^ c * 2 ^ (f.fracBits + f.nGards) % n) = 0 ↔ m * 2 ^ c * 2 ^ (f.fracBits + f.nGards) % n = 0 := by omega
  rw [divide, hparts, ← hfraction.rounded_iff hrest]
  have hexp : (i : Int) - j - c =
      (f.fracBits : Int) + f.nGards + (i + f.quantum : Nat) - (c + j + (f.fracBits + f.nGards) : Nat) - f.quantum := by
    omega
  rw [hexp]

end Divide

section Special

variable {f : Format} {a b r : f.Raw}

theorem rounds_zero {d : Nat} (hd : 0 < d) : Rounds f 0 d := .inr (.inl (by rw [roundEven_zero hd, Nat.zero_div]))

theorem isProduct_of_nan (h : IsInf a ∧ bits b = 0 ∨ bits a = 0 ∧ IsInf b) (hr : r = packD f nan) : IsProduct a b r ↔ ProductRounds a b := by
  rw [IsProduct, if_pos h, hr]
  exact ⟨fun _ => h.elim (fun h => .inl h.1) (fun h => .inr (.inl h.2)), fun _ => packD_nan_isNan⟩

theorem isProduct_of_inf (hnan : ¬ (IsInf a ∧ bits b = 0 ∨ bits a = 0 ∧ IsInf b)) (h : IsInf a ∨ IsInf b)
    (hr : r = pattern f (neg a ^^ neg b) f.infBits) : IsProduct a b r ↔ ProductRounds a b := by
  rw [IsProduct, if_neg hnan, if_pos h]
  exact ⟨fun _ => h.elim .inl fun h => .inr (.inl h), fun _ => hr⟩

theorem isProduct_of_zero (ha : ¬ IsInf a) (hb : ¬ IsInf b) (h : bits a = 0 ∨ bits b = 0) (hr : r = pattern f (neg a ^^ neg b) 0) :
    IsProduct a b r ↔ ProductRounds a b := by
  have hm : magnitude a * magnitude b = 0 := by
    obtain h | h := h
    · rw [magnitude_zero h, Nat.zero_mul]
    · rw [magnitude_zero h, Nat.mul_zero]
  have hq : 0 < 2 ^ f.quantum := Nat.two_pow_pos _
  rw [IsProduct, if_neg (fun h => h.elim (fun h => ha h.1) fun h => hb h.2), if_neg (fun h => h.elim ha hb), hm, hr]
  exact ⟨fun _ => .inr (.inr (by rw [hm]; exact rounds_zero hq)), fun _ => zero_isRounded hq _⟩

theorem isQuotient_of_nan (h : IsInf a ∧ IsInf b ∨ bits a = 0 ∧ bits b = 0) (hr : r = packD f nan) : IsQuotient a b r ↔ QuotientRounds a b := by
  rw [IsQuotient, if_pos h, hr]
  exact ⟨fun _ => h.elim (fun h => .inl h.1) (fun h => .inr (.inr (.inl h.2))), fun _ => packD_nan_isNan⟩

theorem isQuotient_of_inf (hnan : ¬ (IsInf a ∧ IsInf b ∨ bits a = 0 ∧ bits b = 0)) (h : IsInf a ∨ bits b = 0)
    (hr : r = pattern f (neg a ^^ neg b) f.infBits) : IsQuotient a b r ↔ QuotientRounds a b := by
  rw [IsQuotient, if_neg hnan, if_pos h]
  exact ⟨fun _ => h.elim .inl fun h => .inr (.inr (.inl h)), fun _ => hr⟩

theorem isQuotient_of_zero (ha : ¬ IsInf a) (hb : bits b ≠ 0) (h : bits a = 0 ∨ IsInf b) (hr : r = pattern f (neg a ^^ neg b) 0) :
    IsQuotient a b r ↔ QuotientRounds a b := by
  rw [IsQuotient, if_neg (fun h => h.elim (fun h => ha h.1) fun h => hb h.2), if_neg (fun h => h.elim ha hb), hr]
  by_cases hinf : IsInf b
  · rw [if_pos hinf]
    exact ⟨fun _ => .inr (.inl hinf), fun _ => rfl⟩
  · have hzero := h.resolve_right hinf
    have hd := magnitude_pos hb
    rw [if_neg hinf, QuotientRounds, magnitude_zero hzero, Nat.zero_mul]
    exact ⟨fun _ => .inr (.inr (.inr (rounds_zero hd))), fun _ => zero_isRounded hd _⟩

theorem multiply_iff {v : Version} {a b : v.format.Raw} (ha : ¬ IsNan a) (hb : ¬ IsNan b) :
    IsProduct a b (multiply v a b) ↔ ProductRounds a b := by
  obtain hza | hia | ⟨hfa, i, m, hna⟩ := number_cases ha <;> obtain hzb | hib | ⟨hfb, j, n, hnb⟩ := number_cases hb
  · refine isProduct_of_zero (not_inf_of_zero hza) (not_inf_of_zero hzb) (.inl hza) ?_
    rw [multiply, unpackD_zero hza, unpackD_zero hzb, ← xor_eq_decide]
    exact packD_zero _ _ _
  · refine isProduct_of_nan (.inr ⟨hza, hib⟩) ?_
    rw [multiply, unpackD_zero hza, unpackD_inf hib]
    rfl
  · refine isProduct_of_zero (not_inf_of_zero hza) hfb.not_inf (.inl hza) ?_
    rw [multiply, unpackD_zero hza, hnb.unpack, ← xor_eq_decide]
    exact packD_zero _ _ _
  · refine isProduct_of_nan (.inl ⟨hia, hzb⟩) ?_
    rw [multiply, unpackD_inf hia, unpackD_zero hzb]
    rfl
  · refine isProduct_of_inf (by rintro (h | h); exacts [inf_ne_zero hib h.2, inf_ne_zero hia h.1]) (.inl hia) ?_
    rw [multiply, unpackD_inf hia, unpackD_inf hib, ← xor_eq_decide]
    exact packD_infinity _ _ _
  · refine isProduct_of_inf (by rintro (h | h); exacts [hnb.magnitude_pos.ne' (magnitude_zero h.2), inf_ne_zero hia h.1]) (.inl hia) ?_
    rw [multiply, unpackD_inf hia, hnb.unpack, ← xor_eq_decide]
    exact packD_infinity _ _ _
  · refine isProduct_of_zero hfa.not_inf (not_inf_of_zero hzb) (.inr hzb) ?_
    rw [multiply, hna.unpack, unpackD_zero hzb, ← xor_eq_decide]
    exact packD_zero _ _ _
  · refine isProduct_of_inf (by rintro (h | h); exacts [inf_ne_zero hib h.2, hna.magnitude_pos.ne' (magnitude_zero h.1)]) (.inr hib) ?_
    rw [multiply, hna.unpack, unpackD_inf hib, ← xor_eq_decide]
    exact packD_infinity _ _ _
  · rw [IsProduct, if_neg (fun h => h.elim (fun h => hfa.not_inf h.1) fun h => hfb.not_inf h.2),
      if_neg (fun h => h.elim hfa.not_inf hfb.not_inf), multiply_number hna hnb]
    exact ⟨fun h => .inr (.inr h), fun h => (h.resolve_left hfa.not_inf).resolve_left hfb.not_inf⟩

theorem divide_iff (ha : ¬ IsNan a) (hb : ¬ IsNan b) : IsQuotient a b (divide f a b) ↔ QuotientRounds a b := by
  obtain hza | hia | ⟨hfa, i, m, hna⟩ := number_cases ha <;> obtain hzb | hib | ⟨hfb, j, n, hnb⟩ := number_cases hb
  · refine isQuotient_of_nan (.inr ⟨hza, hzb⟩) ?_
    rw [divide, unpackD_zero hza, unpackD_zero hzb]
    rfl
  · refine isQuotient_of_zero (not_inf_of_zero hza) (inf_ne_zero hib) (.inl hza) ?_
    rw [divide, unpackD_zero hza, unpackD_inf hib]
    exact packD_zero _ _ _
  · refine isQuotient_of_zero (not_inf_of_zero hza) (fun h => hnb.magnitude_pos.ne' (magnitude_zero h)) (.inl hza) ?_
    rw [divide, unpackD_zero hza, hnb.unpack]
    exact packD_zero _ _ _
  · refine isQuotient_of_inf (by rintro (h | h); exacts [not_inf_of_zero hzb h.2, inf_ne_zero hia h.1]) (.inl hia) ?_
    rw [divide, unpackD_inf hia, unpackD_zero hzb]
    exact packD_infinity _ _ _
  · refine isQuotient_of_nan (.inl ⟨hia, hib⟩) ?_
    rw [divide, unpackD_inf hia, unpackD_inf hib]
    rfl
  · refine isQuotient_of_inf (by rintro (h | h); exacts [hfb.not_inf h.2, inf_ne_zero hia h.1]) (.inl hia) ?_
    rw [divide, unpackD_inf hia, hnb.unpack]
    exact packD_infinity _ _ _
  · refine isQuotient_of_inf (by rintro (h | h); exacts [hfa.not_inf h.1, hna.magnitude_pos.ne' (magnitude_zero h.1)]) (.inr hzb) ?_
    rw [divide, hna.unpack, unpackD_zero hzb]
    exact packD_infinity _ _ _
  · refine isQuotient_of_zero hfa.not_inf (inf_ne_zero hib) (.inr hib) ?_
    rw [divide, hna.unpack, unpackD_inf hib]
    exact packD_fraction_zero _ _
  · have hne : bits b ≠ 0 := fun h => hnb.magnitude_pos.ne' (magnitude_zero h)
    rw [IsQuotient, if_neg (fun h => h.elim (fun h => hfa.not_inf h.1) fun h => hne h.2),
      if_neg (fun h => h.elim hfa.not_inf hne), if_neg hfb.not_inf, divide_number hna hnb]
    exact ⟨fun h => .inr (.inr (.inr h)), fun h => ((h.resolve_left hfa.not_inf).resolve_left hfb.not_inf).resolve_left hne⟩

end Special

/-- `multiply` and `divide` round to nearest, but for subnormal results, which they round only where the rounding before the packing
carries through all the bits that are kept. -/
theorem multiply_divide_right_iff (v : Version) (a b : v.format.Raw) (ha : ¬ IsNan a) (hb : ¬ IsNan b) :
    (IsProduct a b (multiply v a b) ↔ ProductRounds a b) ∧ (IsQuotient a b (divide v.format a b) ↔ QuotientRounds a b) :=
  ⟨multiply_iff ha hb, divide_iff ha hb⟩

/-- 1.5 and 2.0. -/
theorem multiply_divide_normal : IsProduct (f := float) 0x3fc00000 0x40000000 (multiply .float 0x3fc00000 0x40000000) ∧
    IsQuotient (f := float) 0x3fc00000 0x40000000 (divide float 0x3fc00000 0x40000000) := by
  obtain ⟨hproduct, hquotient⟩ := multiply_divide_right_iff .float 0x3fc00000 0x40000000 (by decide) (by decide)
  refine ⟨hproduct.2 (.inr (.inr (.inl ?_))), hquotient.2 (.inr (.inr (.inr (.inl ?_))))⟩
  · decide
  · decide

/-- The half of `2 ^ 23 + 3` quanta is half way between two numbers of them, the greater of which is even. -/
theorem half_not_rounds : ¬ ProductRounds (f := float) 0x00800003 0x3f000000 := by
  have ha : magnitude (f := float) 0x00800003 = 2 ^ 23 + 3 := by decide
  have hb : magnitude (f := float) 0x3f000000 = 2 ^ 148 := by decide
  have hq : float.quantum = 149 := by decide
  rw [ProductRounds, ha, hb, hq]
  intro hor
  obtain h | h | h | h | ⟨k, hk, ⟨-, hhigh⟩, hdvd, -⟩ := hor
  · exact absurd h (by decide)
  · exact absurd h (by decide)
  · exact absurd h (by decide)
  · exact absurd h (by decide)
  · have hone : k = 1 := by
      by_contra hne
      have hmul : (2 ^ 23 + 3) * 2 ^ 148 * 2 ^ 2 ≤ (2 ^ 23 + 3) * 2 ^ 148 * 2 ^ k :=
        Nat.mul_le_mul_left _ (Nat.pow_le_pow_right (by decide) (by omega))
      exact absurd (hmul.trans_lt hhigh) (by decide)
    rw [hone] at hdvd
    exact absurd hdvd (by decide)

/-- A product that is cut off where it should be rounded up. -/
theorem multiply_cuts_off : ¬ ∀ (v : Version) (a b : v.format.Raw), ¬ IsNan a → ¬ IsNan b →
    IsProduct a b (multiply v a b) ∧ IsQuotient a b (divide v.format a b) := by
  intro h
  have hproduct := (h .float 0x00800003 0x3f000000 (by decide) (by decide)).1
  exact half_not_rounds ((multiply_iff (by decide) (by decide)).mp hproduct)

end Z80Gcc.FpBit
