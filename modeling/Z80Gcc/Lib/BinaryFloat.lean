import Mathlib.Data.Nat.Log
import Mathlib.Tactic.Linarith
import Mathlib.Tactic.Ring

/-! Binary floating point numbers without their signs. A number is its bits: the exponent field above `t` bits of fraction, as they
are compared; its magnitude is counted in the smallest subnormal. What is rounded is a quotient of two numbers, in the same unit. -/

namespace BinaryFloat

section RoundEven

/-- `m` is the nearest whole number to `n / d`, and of two the even one. -/
structure Nearest (m n d : Nat) : Prop where
  above : 2 * (m * d) ≤ 2 * n + d
  below : 2 * n ≤ 2 * (m * d) + d
  tie : 2 * (m * d) = 2 * n + d ∨ 2 * n = 2 * (m * d) + d → m % 2 = 0

def roundEven (n d : Nat) : Nat :=
  if 2 * (n % d) < d ∨ 2 * (n % d) = d ∧ n / d % 2 = 0 then n / d else n / d + 1

variable {m n d : Nat}

theorem roundEven_nearest (hd : 0 < d) : Nearest (roundEven n d) n d := by
  have hsplit := Nat.div_add_mod n d
  have hmod := Nat.mod_lt n hd
  have hcomm : d * (n / d) = n / d * d := Nat.mul_comm _ _
  rw [roundEven]
  split
  · next h => exact ⟨by omega, by omega, fun htie => by omega⟩
  · next h =>
    have hsucc : (n / d + 1) * d = n / d * d + d := Nat.succ_mul _ _
    exact ⟨by omega, by omega, fun htie => by omega⟩

theorem Nearest.unique {m' : Nat} (hd : 0 < d) (h : Nearest m n d) (h' : Nearest m' n d) : m = m' := by
  have hle {a b : Nat} (ha : Nearest a n d) (hb : Nearest b n d) : a ≤ b := by
    by_contra hlt
    obtain ⟨k, rfl⟩ := Nat.exists_eq_add_of_lt (Nat.lt_of_not_le hlt)
    have h₁ := ha.above
    have h₂ := hb.below
    have hexp : (b + k + 1) * d = b * d + k * d + d := by ring
    have hk : k = 0 := by
      by_contra hk
      have := Nat.le_mul_of_pos_left d (Nat.pos_of_ne_zero hk)
      omega
    subst hk
    have h₃ := ha.tie (.inl (by omega))
    have h₄ := hb.tie (.inr (by omega))
    omega
  exact Nat.le_antisymm (hle h h') (hle h' h)

theorem Nearest.roundEven_eq (hd : 0 < d) (h : Nearest m n d) : roundEven n d = m := (roundEven_nearest hd).unique hd h

theorem nearest_scale {k : Nat} (hk : 0 < k) : Nearest m (n * k) (d * k) ↔ Nearest m n d := by
  have h₁ : 2 * (m * (d * k)) = 2 * (m * d) * k := by ring
  have h₂ : 2 * (n * k) + d * k = (2 * n + d) * k := by ring
  have h₃ : 2 * (n * k) = 2 * n * k := by ring
  have h₄ : 2 * (m * (d * k)) + d * k = (2 * (m * d) + d) * k := by ring
  constructor
  · intro h
    obtain ⟨habove, hbelow, htie⟩ := h
    rw [h₁, h₂] at habove
    rw [h₃, h₄] at hbelow
    rw [h₄, h₁, h₂, h₃] at htie
    refine ⟨Nat.le_of_mul_le_mul_right habove hk, Nat.le_of_mul_le_mul_right hbelow hk, fun h => htie ?_⟩
    exact h.imp (congrArg (· * k)) (congrArg (· * k))
  · intro h
    obtain ⟨habove, hbelow, htie⟩ := h
    refine ⟨?_, ?_, fun h => htie ?_⟩
    · rw [h₁, h₂]
      exact Nat.mul_le_mul_right k habove
    · rw [h₃, h₄]
      exact Nat.mul_le_mul_right k hbelow
    · rw [h₄, h₁, h₂, h₃] at h
      exact h.imp (Nat.eq_of_mul_eq_mul_right hk) (Nat.eq_of_mul_eq_mul_right hk)

theorem nearest_exact (m : Nat) (hd : 0 < d) : Nearest m (m * d) d := ⟨by omega, by omega, fun h => by omega⟩

/-- Between two neighbouring halves the nearest number does not change. -/
theorem nearest_of_between {c : Nat} (hlow : c * d < 2 * n) (hhigh : 2 * n < (c + 1) * d) : Nearest ((c + 1) / 2) n d := by
  have hle : 2 * ((c + 1) / 2) * d ≤ (c + 1) * d := Nat.mul_le_mul_right d (by omega)
  have hge : c * d ≤ 2 * ((c + 1) / 2) * d := Nat.mul_le_mul_right d (by omega)
  have hassoc : 2 * ((c + 1) / 2) * d = 2 * ((c + 1) / 2 * d) := Nat.mul_assoc _ _ _
  rw [Nat.succ_mul c d] at hle hhigh
  exact ⟨by omega, by omega, fun h => by omega⟩

end RoundEven

section Encoding

variable {t : Nat}

def magnitude (t bits : Nat) : Nat :=
  if bits / 2 ^ t = 0 then bits % 2 ^ t else (2 ^ t + bits % 2 ^ t) * 2 ^ (bits / 2 ^ t - 1)

def distance (t n d bits : Nat) : Nat := ((n : Int) - magnitude t bits * d).natAbs

/-- The rounding of the standard, without a greatest exponent: no number is nearer to `n / d`, and of two that are as near it has
the even significand. -/
structure IsNearest (t n d bits : Nat) : Prop where
  le : ∀ other, distance t n d bits ≤ distance t n d other
  even : ∀ other, other ≠ bits → distance t n d bits = distance t n d other → bits % 2 = 0

/-- The bits of the number nearest to `n / d`, without a greatest exponent: in units of `2 ^ e` it has a significand of at most
`t + 1` bits. -/
def roundMagnitude (t n d : Nat) : Nat :=
  let e := Nat.log 2 (n / d) - t
  e * 2 ^ t + roundEven n (d * 2 ^ e)

/-- The bits for a significand in units of `2 ^ e`: its top bit is counted into the exponent field. -/
theorem magnitude_encode {e m : Nat} (hm : m ≤ 2 ^ (t + 1)) (hlow : e = 0 ∨ 2 ^ t ≤ m) : magnitude t (e * 2 ^ t + m) = m * 2 ^ e := by
  have hpos : 0 < 2 ^ t := Nat.two_pow_pos t
  rw [Nat.pow_succ] at hm
  rw [magnitude]
  by_cases hsmall : m < 2 ^ t
  · obtain rfl : e = 0 := by omega
    rw [Nat.zero_mul, Nat.zero_add, Nat.div_eq_of_lt hsmall, if_pos rfl, Nat.mod_eq_of_lt hsmall, Nat.pow_zero, Nat.mul_one]
  obtain ⟨f, rfl⟩ := Nat.exists_eq_add_of_le (Nat.le_of_not_lt hsmall)
  have hsum : e * 2 ^ t + (2 ^ t + f) = 2 ^ t * (e + 1) + f := by ring
  rw [hsum, Nat.mul_add_div hpos, Nat.mul_add_mod]
  by_cases hfull : f < 2 ^ t
  · rw [Nat.div_eq_of_lt hfull, Nat.mod_eq_of_lt hfull, Nat.add_zero, if_neg (Nat.succ_ne_zero e), Nat.add_sub_cancel]
  · -- a significand of `t + 2` bits is the next power of two
    obtain rfl : f = 2 ^ t := by omega
    rw [Nat.div_self hpos, Nat.mod_self, if_neg (Nat.succ_ne_zero _), Nat.add_sub_cancel, Nat.pow_succ]
    ring

theorem exists_encode (bits : Nat) : ∃ e m, bits = e * 2 ^ t + m ∧ m < 2 ^ (t + 1) ∧ (e = 0 ∨ 2 ^ t ≤ m) := by
  have hpos : 0 < 2 ^ t := Nat.two_pow_pos t
  have hsplit := Nat.div_add_mod bits (2 ^ t)
  have hmod := Nat.mod_lt bits hpos
  rw [Nat.pow_succ]
  by_cases hzero : bits / 2 ^ t = 0
  · exact ⟨0, bits, by omega, by rw [hzero] at hsplit; omega, .inl rfl⟩
  · obtain ⟨e, he⟩ := Nat.exists_eq_succ_of_ne_zero hzero
    refine ⟨e, 2 ^ t + bits % 2 ^ t, ?_, by omega, .inr (Nat.le_add_right _ _)⟩
    rw [he, Nat.mul_succ, Nat.mul_comm] at hsplit
    omega

theorem magnitude_strictMono : StrictMono (magnitude t) := by
  refine strictMono_nat_of_lt_succ fun bits => ?_
  obtain ⟨e, m, rfl, hm, hlow⟩ := exists_encode (t := t) bits
  rw [magnitude_encode hm.le hlow, Nat.add_assoc, magnitude_encode (Nat.succ_le_of_lt hm) (hlow.imp id (Nat.le_succ_of_le))]
  exact Nat.mul_lt_mul_of_pos_right (Nat.lt_succ_self m) (Nat.two_pow_pos e)

theorem exists_magnitude {e n : Nat} (hdvd : 2 ^ e ∣ n) (hlt : n < 2 ^ (t + 1 + e)) : ∃ bits, magnitude t bits = n := by
  induction e with
  | zero => exact ⟨0 * 2 ^ t + n, by rw [magnitude_encode (by simpa using hlt.le) (.inl rfl), Nat.pow_zero, Nat.mul_one]⟩
  | succ e ih =>
    obtain ⟨m, rfl⟩ := hdvd
    by_cases hnormal : 2 ^ t ≤ m
    · have hm : m < 2 ^ (t + 1) := by
        rw [Nat.mul_comm, Nat.pow_add 2 (t + 1)] at hlt
        exact Nat.lt_of_mul_lt_mul_right hlt
      exact ⟨(e + 1) * 2 ^ t + m, by rw [magnitude_encode hm.le (.inr hnormal), Nat.mul_comm]⟩
    · refine ih (Dvd.intro (2 * m) (by ring)) ?_
      calc 2 ^ (e + 1) * m < 2 ^ (e + 1) * 2 ^ t := Nat.mul_lt_mul_of_pos_left (not_le.1 hnormal) (Nat.two_pow_pos _)
        _ = 2 ^ (t + 1 + e) := by ring

end Encoding

section Round

variable {t n d : Nat}

/-- The rounding from a significand that is found otherwise. -/
theorem roundMagnitude_eq {e m : Nat} (hd : 0 < d) (hlow : e = 0 ∨ 2 ^ t * (d * 2 ^ e) ≤ n) (hhigh : n < 2 ^ (t + 1) * (d * 2 ^ e))
    (hm : Nearest m n (d * 2 ^ e)) : roundMagnitude t n d = e * 2 ^ t + m := by
  have he : Nat.log 2 (n / d) - t = e := by
    have hupper : Nat.log 2 (n / d) < t + 1 + e := by
      apply Nat.log_lt_of_lt_pow'
      · omega
      · rw [Nat.div_lt_iff_lt_mul hd, Nat.pow_add]
        calc n < 2 ^ (t + 1) * (d * 2 ^ e) := hhigh
          _ = 2 ^ (t + 1) * 2 ^ e * d := by ring
    obtain rfl | hlow := hlow
    · omega
    · have hlower : t + e ≤ Nat.log 2 (n / d) := by
        apply Nat.le_log_of_pow_le (by decide)
        rw [Nat.le_div_iff_mul_le hd, Nat.pow_add]
        calc 2 ^ t * 2 ^ e * d = 2 ^ t * (d * 2 ^ e) := by ring
          _ ≤ n := hlow
      omega
  rw [roundMagnitude, he, hm.roundEven_eq (Nat.mul_pos hd (Nat.two_pow_pos e))]

theorem roundMagnitude_magnitude (hd : 0 < d) (bits : Nat) : roundMagnitude t (magnitude t bits * d) d = bits := by
  obtain ⟨e, m, rfl, hm, hlow⟩ := exists_encode (t := t) bits
  have hunit : m * 2 ^ e * d = m * (d * 2 ^ e) := by ring
  have hpos : 0 < d * 2 ^ e := Nat.mul_pos hd (Nat.two_pow_pos e)
  rw [magnitude_encode hm.le hlow, hunit]
  exact roundMagnitude_eq hd (hlow.imp id fun hle => Nat.mul_le_mul_right _ hle) (Nat.mul_lt_mul_of_pos_right hm hpos)
    (nearest_exact m hpos)

theorem roundMagnitude_scale {k : Nat} (hd : 0 < d) (hk : 0 < k) : roundMagnitude t (n * k) (d * k) = roundMagnitude t n d := by
  have hround : roundEven (n * k) (d * k * 2 ^ (Nat.log 2 (n / d) - t)) = roundEven n (d * 2 ^ (Nat.log 2 (n / d) - t)) := by
    have hD : 0 < d * 2 ^ (Nat.log 2 (n / d) - t) := Nat.mul_pos hd (Nat.two_pow_pos _)
    have hunit : d * k * 2 ^ (Nat.log 2 (n / d) - t) = d * 2 ^ (Nat.log 2 (n / d) - t) * k := by ring
    rw [hunit]
    exact ((nearest_scale hk).2 (roundEven_nearest hD)).roundEven_eq (Nat.mul_pos hD hk)
  rw [roundMagnitude, Nat.mul_div_mul_right _ _ hk]
  exact congrArg _ hround

theorem roundMagnitude_cases (hd : 0 < d) : ∃ e m, roundMagnitude t n d = e * 2 ^ t + m ∧ Nearest m n (d * 2 ^ e) ∧
    (e = 0 ∨ 2 ^ t * (d * 2 ^ e) ≤ n) ∧ n < 2 ^ (t + 1) * (d * 2 ^ e) := by
  obtain ⟨e, he⟩ : ∃ e, e = Nat.log 2 (n / d) - t := ⟨_, rfl⟩
  refine ⟨e, roundEven n (d * 2 ^ e), by rw [roundMagnitude, he], roundEven_nearest (Nat.mul_pos hd (Nat.two_pow_pos e)), ?_, ?_⟩
  · by_cases hzero : e = 0
    · exact .inl hzero
    · right
      have hne : n / d ≠ 0 := by
        intro h
        rw [h, Nat.log_zero_right] at he
        omega
      have hpow := Nat.pow_log_le_self 2 hne
      rw [Nat.le_div_iff_mul_le hd, show Nat.log 2 (n / d) = t + e by omega, Nat.pow_add] at hpow
      calc 2 ^ t * (d * 2 ^ e) = 2 ^ t * 2 ^ e * d := by ring
        _ ≤ n := hpow
  · have hlt : n / d < 2 ^ (t + 1 + e) :=
      (Nat.lt_pow_succ_log_self (by decide) _).trans_le (Nat.pow_le_pow_right (by decide) (by omega))
    rw [Nat.div_lt_iff_lt_mul hd, Nat.pow_add] at hlt
    calc n < 2 ^ (t + 1) * 2 ^ e * d := hlt
      _ = 2 ^ (t + 1) * (d * 2 ^ e) := by ring

theorem Nearest.le_pow {m D k : Nat} (hD : 0 < D) (h : Nearest m n D) (hn : n ≤ k * D) : m ≤ k := by
  by_contra hlt
  have hmul : (k + 1) * D ≤ m * D := Nat.mul_le_mul_right D (by omega)
  have habove := h.above
  rw [Nat.succ_mul] at hmul
  omega

theorem Nearest.pow_le {m D k : Nat} (hD : 0 < D) (h : Nearest m n D) (hn : k * D ≤ n) : k ≤ m := by
  by_contra hlt
  have hmul : (m + 1) * D ≤ k * D := Nat.mul_le_mul_right D (by omega)
  have hbelow := h.below
  rw [Nat.succ_mul] at hmul
  omega

/-- No whole multiple of `D` is nearer, and one that is as near is odd where `m` is even. -/
theorem Nearest.dist_le {m D : Nat} (h : Nearest m n D) (k : Nat) :
    ((n : Int) - m * D).natAbs ≤ ((n : Int) - k * D).natAbs ∧
      (k ≠ m → ((n : Int) - m * D).natAbs = ((n : Int) - k * D).natAbs → 0 < D → m % 2 = 0) := by
  have habove := h.above
  have hbelow := h.below
  have htie := h.tie
  obtain hlt | rfl | hlt := Nat.lt_trichotomy k m
  · obtain ⟨j, rfl⟩ := Nat.exists_eq_add_of_lt hlt
    have hexp : (k + j + 1) * D = k * D + j * D + D := by ring
    have hcast : (((k + j + 1 : Nat) : Int)) * D = ((k * D + j * D + D : Nat) : Int) := by
      rw [← hexp]
      push_cast
      ring
    have hk : ((k : Int)) * D = ((k * D : Nat) : Int) := by push_cast; ring
    rw [hcast, hk]
    rw [hexp] at habove hbelow htie
    refine ⟨by omega, fun _ heq hD => htie (.inl ?_)⟩
    omega
  · exact ⟨le_rfl, fun h => absurd rfl h⟩
  · obtain ⟨j, rfl⟩ := Nat.exists_eq_add_of_lt hlt
    have hexp : (m + j + 1) * D = m * D + j * D + D := by ring
    have hcast : (((m + j + 1 : Nat) : Int)) * D = ((m * D + j * D + D : Nat) : Int) := by
      rw [← hexp]
      push_cast
      ring
    have hm : ((m : Int)) * D = ((m * D : Nat) : Int) := by push_cast; ring
    rw [hcast, hm]
    refine ⟨by omega, fun _ heq hD => htie (.inr ?_)⟩
    omega

theorem roundMagnitude_nearest (ht : 0 < t) (hd : 0 < d) : IsNearest t n d (roundMagnitude t n d) := by
  suffices h : ∀ bits, distance t n d (roundMagnitude t n d) ≤ distance t n d bits ∧ (bits ≠ roundMagnitude t n d →
      distance t n d (roundMagnitude t n d) = distance t n d bits → roundMagnitude t n d % 2 = 0) from
    ⟨fun bits => (h bits).1, fun bits => (h bits).2⟩
  intro bits
  simp only [distance]
  obtain ⟨e, m, hr, hm, hlow, hhigh⟩ := roundMagnitude_cases (t := t) (n := n) hd
  have hD : 0 < d * 2 ^ e := Nat.mul_pos hd (Nat.two_pow_pos e)
  have hmle := hm.le_pow hD hhigh.le
  have hmge : e = 0 ∨ 2 ^ t ≤ m := hlow.imp id (hm.pow_le hD)
  obtain ⟨e', m', rfl, hm', hlow'⟩ := exists_encode (t := t) bits
  have heven : 2 ^ t % 2 = 0 := by
    obtain ⟨s, rfl⟩ := Nat.exists_eq_succ_of_ne_zero ht.ne'
    rw [Nat.pow_succ]
    omega
  have hself : (magnitude t (roundMagnitude t n d) : Int) * d = (m : Int) * (d * 2 ^ e : Nat) := by
    rw [hr, magnitude_encode hmle hmge]
    push_cast
    ring
  rw [hself]
  by_cases he : e ≤ e'
  · -- a multiple of the same unit
    obtain ⟨j, rfl⟩ := Nat.exists_eq_add_of_le he
    have hother : (magnitude t ((e + j) * 2 ^ t + m') : Int) * d = ((m' * 2 ^ j : Nat) : Int) * (d * 2 ^ e : Nat) := by
      rw [magnitude_encode hm'.le hlow', Nat.pow_add]
      push_cast
      ring
    rw [hother]
    obtain ⟨hle, htie⟩ := hm.dist_le (m' * 2 ^ j)
    refine ⟨hle, fun hne heq => ?_⟩
    have hk : m' * 2 ^ j ≠ m := by
      intro hk
      refine hne ((magnitude_strictMono (t := t)).injective ?_)
      rw [hr, magnitude_encode hm'.le hlow', magnitude_encode hmle hmge, ← hk, Nat.pow_add]
      ring
    have hpar := htie hk heq hD
    rw [hr, Nat.add_mod, Nat.mul_mod, heven, Nat.mul_zero, Nat.zero_mod, Nat.zero_add, Nat.mod_mod, hpar]
  · -- a number below all that have this unit
    have hlow : 2 ^ t * (d * 2 ^ e) ≤ n := hlow.resolve_left (by omega)
    have hsmall : magnitude t (e' * 2 ^ t + m') * d < 2 ^ t * (d * 2 ^ e) := by
      rw [magnitude_encode hm'.le hlow']
      calc m' * 2 ^ e' * d < 2 ^ (t + 1) * 2 ^ e' * d :=
            Nat.mul_lt_mul_of_pos_right (Nat.mul_lt_mul_of_pos_right hm' (Nat.two_pow_pos _)) hd
        _ = 2 ^ t * (d * 2 ^ (e' + 1)) := by ring
        _ ≤ 2 ^ t * (d * 2 ^ e) := Nat.mul_le_mul_left _ (Nat.mul_le_mul_left _ (Nat.pow_le_pow_right (by decide) (by omega)))
    obtain ⟨hle, -⟩ := hm.dist_le (2 ^ t)
    have hcast : ((2 ^ t : Nat) : Int) * (d * 2 ^ e : Nat) = ((2 ^ t * (d * 2 ^ e) : Nat) : Int) := by push_cast; ring
    have hcast' : (magnitude t (e' * 2 ^ t + m') : Int) * d = ((magnitude t (e' * 2 ^ t + m') * d : Nat) : Int) := by push_cast; ring
    rw [hcast] at hle
    rw [hcast']
    refine ⟨by omega, fun _ heq => ?_⟩
    omega

/-- No two numbers are nearest: they would have a number between them, or be neighbours with even significands. -/
theorem IsNearest.unique {b b' : Nat} (hd : 0 < d) (h : IsNearest t n d b) (h' : IsNearest t n d b') : b = b' := by
  have hnot {b b' : Nat} (h : IsNearest t n d b) (h' : IsNearest t n d b') (hlt : b < b') : False := by
    have heq := Nat.le_antisymm (h.le b') (h'.le b)
    have hmid := h.le (b + 1)
    have heven := h.even b' hlt.ne' heq
    have heven' := h'.even b hlt.ne heq.symm
    have hstep : magnitude t b < magnitude t (b + 1) := magnitude_strictMono (Nat.lt_succ_self b)
    have hstep' : magnitude t (b + 1) < magnitude t b' := magnitude_strictMono (by omega)
    have hmul := Nat.mul_lt_mul_of_pos_right hstep hd
    have hmul' := Nat.mul_lt_mul_of_pos_right hstep' hd
    simp only [distance, ← Int.natCast_mul] at heq hmid
    omega
  obtain hlt | heq | hlt := Nat.lt_trichotomy b b'
  · exact (hnot h h' hlt).elim
  · exact heq
  · exact (hnot h' h hlt).elim

theorem isNearest_iff (ht : 0 < t) (hd : 0 < d) (b : Nat) : IsNearest t n d b ↔ b = roundMagnitude t n d := by
  constructor
  · exact fun h => h.unique hd (roundMagnitude_nearest ht hd)
  · intro h
    rw [h]
    exact roundMagnitude_nearest ht hd

end Round

end BinaryFloat
