import Mathlib.Algebra.Order.Ring.Int
import Mathlib.Data.Int.Order.Lemmas
import Mathlib.Tactic.Linarith
import Mathlib.Tactic.Ring

/-! Division by an invariant divisor through a multiplication: a multiplier `m` that exceeds
`2 ^ p / d` by little enough gives the quotient of every dividend up to `2 ^ k` by one product and
a shift by `p`. -/

namespace Z80Gcc.InvariantDiv

/-- `m / 2 ^ p` is above `1 / d`, by less than dividends up to `2 ^ k` can notice. -/
structure Reciprocal (d k m p : Nat) : Prop where
  lt : 2 ^ p < m * d
  le : m * d * 2 ^ k ≤ 2 ^ p * (2 ^ k + 1)

section Reciprocal

variable {d k m p : Nat}

/-- The product of the excess with a dividend stays below `2 ^ p`. -/
theorem Reciprocal.mul_le (h : Reciprocal d k m p) {x : Nat} (hx : x ≤ 2 ^ k) :
    m * d * x ≤ 2 ^ p * (x + 1) := by
  obtain ⟨e, he⟩ := Nat.exists_eq_add_of_lt h.lt
  have hle := h.le
  rw [he] at hle ⊢
  have h1 : (e + 1) * 2 ^ k ≤ 2 ^ p := by
    have : (2 ^ p + e + 1) * 2 ^ k = 2 ^ p * 2 ^ k + (e + 1) * 2 ^ k := by ring
    have : 2 ^ p * (2 ^ k + 1) = 2 ^ p * 2 ^ k + 2 ^ p := by ring
    omega
  have h2 : (e + 1) * x ≤ (e + 1) * 2 ^ k := Nat.mul_le_mul_left _ hx
  have h3 : (2 ^ p + e + 1) * x = 2 ^ p * x + (e + 1) * x := by ring
  have h4 : 2 ^ p * (x + 1) = 2 ^ p * x + 2 ^ p := by ring
  omega

theorem Reciprocal.mul_lt (h : Reciprocal d k m p) {x : Nat} (hx : x < 2 ^ k) :
    m * d * x < 2 ^ p * (x + 1) := by
  have h1 : m * d * (x + 1) ≤ 2 ^ p * (x + 1 + 1) := h.mul_le (Nat.succ_le_of_lt hx)
  have h2 := h.lt
  have h3 : m * d * (x + 1) = m * d * x + m * d := by ring
  have h4 : 2 ^ p * (x + 1 + 1) = 2 ^ p * (x + 1) + 2 ^ p := by ring
  omega

theorem Reciprocal.pos (h : Reciprocal d k m p) : 0 < m * d :=
  Nat.lt_of_le_of_lt (Nat.zero_le _) h.lt

theorem Reciprocal.div_mul_lt (h : Reciprocal d k m p) {x : Nat} (hx : 0 < x) :
    x / d * 2 ^ p < m * x := by
  have hd : 0 < d := Nat.pos_of_mul_pos_left h.pos
  have h1 : x / d * d * 2 ^ p ≤ x * 2 ^ p :=
    Nat.mul_le_mul_right _ (Nat.div_mul_le_self x d)
  have h2 : x * 2 ^ p < x * (m * d) := Nat.mul_lt_mul_of_pos_left h.lt hx
  have h3 : x / d * 2 ^ p * d < m * x * d := by
    calc x / d * 2 ^ p * d = x / d * d * 2 ^ p := by ring
      _ < x * (m * d) := h1.trans_lt h2
      _ = m * x * d := by ring
  exact Nat.lt_of_mul_lt_mul_right h3

theorem Reciprocal.mul_le_succ (h : Reciprocal d k m p) {x : Nat} (hx : x ≤ 2 ^ k) :
    m * x ≤ (x / d + 1) * 2 ^ p := by
  have hd : 0 < d := Nat.pos_of_mul_pos_left h.pos
  have h1 : x + 1 ≤ (x / d + 1) * d := by
    rw [Nat.mul_comm]
    exact Nat.lt_mul_div_succ x hd
  have h2 := h.mul_le hx
  have h3 : 2 ^ p * (x + 1) ≤ 2 ^ p * ((x / d + 1) * d) := Nat.mul_le_mul_left _ h1
  have h4 : m * x * d ≤ (x / d + 1) * 2 ^ p * d := by
    calc m * x * d = m * d * x := by ring
      _ ≤ 2 ^ p * ((x / d + 1) * d) := h2.trans h3
      _ = (x / d + 1) * 2 ^ p * d := by ring
  exact Nat.le_of_mul_le_mul_right h4 hd

theorem Reciprocal.div_eq (h : Reciprocal d k m p) {x : Nat} (hx : x < 2 ^ k) :
    m * x / 2 ^ p = x / d := by
  rcases Nat.eq_zero_or_pos x with rfl | hpos
  · simp
  have hd : 0 < d := Nat.pos_of_mul_pos_left h.pos
  apply Nat.div_eq_of_lt_le (h.div_mul_lt hpos).le
  -- the bound for the next dividend leaves room for a strict one
  have h1 : x + 1 ≤ (x / d + 1) * d := by
    rw [Nat.mul_comm]
    exact Nat.lt_mul_div_succ x hd
  have h2 : m * x * d < (x / d + 1) * 2 ^ p * d := by
    calc m * x * d = m * d * x := by ring
      _ < 2 ^ p * (x + 1) := h.mul_lt hx
      _ ≤ 2 ^ p * ((x / d + 1) * d) := Nat.mul_le_mul_left _ h1
      _ = (x / d + 1) * 2 ^ p * d := by ring
  exact Nat.lt_of_mul_lt_mul_right h2

/-- The signed product: rounding towards minus infinity is one too low below zero. -/
theorem Reciprocal.tdiv_eq (h : Reciprocal d k m p) {n : Int} (hlo : -2 ^ k ≤ n)
    (hhi : n < 2 ^ k) :
    n * m / 2 ^ p + (if n < 0 then 1 else 0) = n.tdiv d := by
  obtain ⟨x, rfl | rfl⟩ := n.eq_nat_or_neg
  · have hx : x < 2 ^ k := by exact_mod_cast hhi
    rw [if_neg (by omega), Int.add_zero, Int.tdiv_eq_ediv_of_nonneg (by omega), Int.mul_comm]
    exact_mod_cast h.div_eq hx
  · have hx : x ≤ 2 ^ k := by
      have : (x : Int) ≤ 2 ^ k := by omega
      exact_mod_cast this
    rcases Nat.eq_zero_or_pos x with rfl | hpos
    · simp
    rw [if_pos (by omega), Int.neg_tdiv, Int.tdiv_eq_ediv_of_nonneg (by omega)]
    have hp : (0 : Int) < 2 ^ p := by positivity
    have h1 : ((x / d : Nat) : Int) * 2 ^ p < m * x := by exact_mod_cast h.div_mul_lt hpos
    have h2 : (m : Int) * x ≤ ((x / d : Nat) + 1) * 2 ^ p := by exact_mod_cast h.mul_le_succ hx
    rw [Int.natCast_div] at h1 h2
    have h3 : -((x : Int) / d + 1) ≤ -(x : Int) * m / 2 ^ p := by
      rw [Int.le_ediv_iff_mul_le hp]
      linarith
    have h4 : -(x : Int) * m / 2 ^ p < -((x : Int) / d) := by
      rw [Int.ediv_lt_iff_lt_mul hp]
      linarith
    omega

end Reciprocal

/-- Adding `d - 1` below zero makes a division that rounds down round towards zero. -/
theorem bias_ediv {d : Int} (hd : 0 < d) (n : Int) :
    (n + if n < 0 then d - 1 else 0) / d = n.tdiv d := by
  split
  · next hneg =>
    rw [Int.tdiv_eq_ediv, Int.sign_eq_one_of_pos hd]
    have hsplit := Int.mul_ediv_add_emod n d
    have hr := Int.emod_nonneg n hd.ne'
    have hlt := Int.emod_lt_of_pos n hd
    rw [show n + (d - 1) = n % d + (d - 1) + d * (n / d) by omega,
      Int.add_mul_ediv_left _ _ hd.ne']
    by_cases hdvd : d ∣ n
    · rw [Int.emod_eq_zero_of_dvd hdvd, if_pos (.inr hdvd),
        Int.ediv_eq_zero_of_lt (by omega) (by omega)]
      omega
    · have hne : n % d ≠ 0 := fun h0 => hdvd (Int.dvd_of_emod_eq_zero h0)
      have hone : (n % d + (d - 1)) / d = 1 := by
        rw [show n % d + (d - 1) = n % d - 1 + d * 1 by omega, Int.add_mul_ediv_left _ _ hd.ne',
          Int.ediv_eq_zero_of_lt (by omega) (by omega)]
        omega
      rw [hone, if_neg (by omega)]
      omega
  · next hneg => rw [Int.add_zero, Int.tdiv_eq_ediv_of_nonneg (by omega)]

section Floor

variable {n d : Int}

/-- Below zero the complement's quotient is the complement of the quotient. -/
theorem fdiv_complement (hd : 0 < d) (hn : n < 0) : n.fdiv d = -((-n - 1) / d) - 1 := by
  have hdiv : n / d = -((-n - 1) / d + 1) := Int.ediv_of_neg_of_pos hn hd
  rw [Int.fdiv_eq_ediv_of_nonneg _ hd.le, hdiv]
  omega

theorem fdiv_of_neg_of_pos (hd : d < 0) (hn : 0 < n) : n.fdiv d = (n - 1).tdiv d - 1 := by
  rw [← Int.neg_neg d, ← Int.neg_fdiv_neg, Int.neg_neg, fdiv_complement (by omega) (by omega),
    Int.tdiv_neg, Int.tdiv_eq_ediv_of_nonneg (by omega), Int.neg_neg]

theorem fdiv_of_nonpos_of_neg (hd : d < 0) (hn : n ≤ 0) : n.fdiv d = n.tdiv d := by
  rw [← Int.neg_fdiv_neg, Int.fdiv_eq_tdiv_of_nonneg (by omega) (by omega), Int.neg_tdiv_neg]

end Floor

section Multiplier

/-! The candidates for `n`-bit operations that are needed to `n - e` bits: all numbers above
`lower` up to `upper` will do, and halving both keeps that. -/

def lower (n d s : Nat) : Nat := 2 ^ (n + s) / d

def upper (n e d s : Nat) : Nat := (2 ^ (n + s) + 2 ^ (s + e)) / d

variable {n e d s l : Nat}

theorem lower_half (n d s : Nat) : lower n d (s + 1) / 2 = lower n d s := by
  rw [lower, lower, Nat.div_div_eq_div_mul, Nat.mul_comm, ← Nat.div_div_eq_div_mul,
    show n + (s + 1) = n + s + 1 by omega, Nat.pow_succ, Nat.mul_div_cancel _ (by decide)]

theorem upper_half (n e d s : Nat) : upper n e d (s + 1) / 2 = upper n e d s := by
  have h : 2 ^ (n + (s + 1)) + 2 ^ (s + 1 + e) = (2 ^ (n + s) + 2 ^ (s + e)) * 2 := by ring
  rw [upper, upper, Nat.div_div_eq_div_mul, Nat.mul_comm, ← Nat.div_div_eq_div_mul, h,
    Nat.mul_div_cancel _ (by decide)]

theorem upper_mono (n e d : Nat) : Monotone (upper n e d) := by
  refine monotone_nat_of_le_succ fun s => ?_
  rw [← upper_half]
  exact Nat.div_le_self _ 2

theorem lower_div (n d s k : Nat) : lower n d (s + k) / 2 ^ k = lower n d s := by
  induction k with
  | zero => simp
  | succ k ih =>
    rw [Nat.pow_succ', ← Nat.div_div_eq_div_mul, ← Nat.add_assoc, lower_half, ih]

theorem upper_div (n e d s k : Nat) : upper n e d (s + k) / 2 ^ k = upper n e d s := by
  induction k with
  | zero => simp
  | succ k ih =>
    rw [Nat.pow_succ', ← Nat.div_div_eq_div_mul, ← Nat.add_assoc, upper_half, ih]

theorem reciprocal_of_le {m : Nat} (hd : 0 < d) (he : e ≤ n) (hlt : lower n d s < m)
    (hle : m * d ≤ 2 ^ (n + s) + 2 ^ (s + e)) : Reciprocal d (n - e) m (n + s) := by
  refine ⟨(Nat.div_lt_iff_lt_mul hd).1 hlt, ?_⟩
  have h2 : 2 ^ (s + e) * 2 ^ (n - e) = 2 ^ (n + s) := by
    rw [← Nat.pow_add]
    congr 1
    omega
  calc m * d * 2 ^ (n - e) ≤ (2 ^ (n + s) + 2 ^ (s + e)) * 2 ^ (n - e) :=
        Nat.mul_le_mul_right _ hle
    _ = 2 ^ (n + s) * 2 ^ (n - e) + 2 ^ (n + s) := by rw [Nat.add_mul, h2]
    _ = 2 ^ (n + s) * (2 ^ (n - e) + 1) := by ring

theorem reciprocal_upper (hd : 0 < d) (he : e ≤ n) (hlt : lower n d s < upper n e d s) :
    Reciprocal d (n - e) (upper n e d s) (n + s) :=
  reciprocal_of_le hd he hlt (Nat.div_mul_le_self _ d)

/-- At the rounded-up logarithm the bounds are `2 ^ e` apart. -/
theorem lower_add_le_upper (hd : 0 < d) (hle : d ≤ 2 ^ l) :
    lower n d l + 2 ^ e ≤ upper n e d l := by
  rw [upper, Nat.le_div_iff_mul_le hd, Nat.add_mul, Nat.pow_add 2 l e, Nat.mul_comm (2 ^ l)]
  exact Nat.add_le_add (Nat.div_mul_le_self _ d) (Nat.mul_le_mul_left _ hle)

/-- A multiplier takes one bit more than the operations at most. -/
theorem upper_num_lt (hl : 1 ≤ l) (hn : l + e ≤ n) (hlt : 2 ^ l < 2 * d) :
    2 ^ (n + l) + 2 ^ (l + e) < 2 ^ (n + 1) * d := by
  have h1 : 2 ^ (l + e) ≤ 2 ^ n := Nat.pow_le_pow_right (by decide) hn
  have h2 : 2 ^ l + 2 ≤ 2 * d := by
    obtain ⟨j, rfl⟩ := Nat.exists_eq_add_of_le' hl
    rw [Nat.pow_succ] at hlt ⊢
    omega
  have h3 : 2 ^ n * (2 ^ l + 2) ≤ 2 ^ n * (2 * d) := Nat.mul_le_mul_left _ h2
  have h4 : 2 ^ n * (2 ^ l + 2) = 2 ^ (n + l) + 2 * 2 ^ n := by ring
  have h5 : 2 ^ (n + 1) * d = 2 ^ n * (2 * d) := by ring
  have h6 : 0 < 2 ^ n := Nat.two_pow_pos n
  omega

theorem upper_lt (hl : 1 ≤ l) (hn : l + e ≤ n) (hlt : 2 ^ l < 2 * d) :
    upper n e d l < 2 ^ (n + 1) := by
  rw [upper, Nat.div_lt_iff_lt_mul (by have := Nat.two_pow_pos l; omega)]
  exact upper_num_lt hl hn hlt

/-- After one halving a multiplier with a bit to spare fits, and is not all ones. -/
theorem upper_add_one_lt (hn : s + 1 + e ≤ n) (he : 1 ≤ e) (h3 : 3 ≤ n) (hlt : 2 ^ s < d) :
    upper n e d s + 1 < 2 ^ n := by
  obtain ⟨k, hk⟩ := Nat.exists_eq_add_of_le' h3
  have hs : 2 ^ s ≤ 2 ^ (k + 1) := Nat.pow_le_pow_right (by decide) (by omega)
  have hse : 2 ^ (s + e) ≤ 2 ^ (k + 2) := Nat.pow_le_pow_right (by decide) (by omega)
  have hpos := Nat.two_pow_pos k
  have hpow : 2 ^ n = 8 * 2 ^ k := by
    rw [hk]
    ring
  have hfit : upper n e d s < 2 ^ n - 1 := by
    rw [upper, Nat.div_lt_iff_lt_mul (Nat.zero_lt_of_lt hlt)]
    have h1 : (2 ^ n - 1) * (2 ^ s + 1) ≤ (2 ^ n - 1) * d := Nat.mul_le_mul_left _ hlt
    have h2 : (2 ^ n - 1) * (2 ^ s + 1) + (2 ^ s + 1) = 2 ^ (n + s) + 2 ^ n := by
      rw [← Nat.succ_mul, Nat.succ_eq_add_one, Nat.sub_add_cancel Nat.one_le_two_pow]
      ring
    have h3 : 2 ^ (k + 1) = 2 * 2 ^ k := Nat.pow_succ'
    have h4 : 2 ^ (k + 2) = 4 * 2 ^ k := by ring
    omega
  omega

/-- Without a bit to spare a multiplier may take one bit more, but it is never all ones. -/
theorem upper_ne (hn : s + 1 ≤ n) (h2 : 2 ≤ n) (hpos : 0 < d) (hd : d ≤ 2 ^ (n - 1))
    (hlt : lower n d s < upper n 0 d s) : upper n 0 d s + 1 ≠ 2 ^ n := by
  intro heq
  obtain ⟨m, hm⟩ := Nat.exists_eq_add_of_le' (Nat.one_le_two_pow (n := n))
  have hup : upper n 0 d s = m := by omega
  rw [hup] at hlt
  have h1 : 2 ^ (n + s) < m * d := (Nat.div_lt_iff_lt_mul hpos).1 hlt
  have h3 : m * d ≤ 2 ^ (n + s) + 2 ^ s := hup ▸ Nat.div_mul_le_self _ d
  have h4 : 2 ^ (n + s) = m * 2 ^ s + 2 ^ s := by
    rw [Nat.pow_add, hm]
    ring
  have h5 : 2 ^ s < d := by
    by_contra hle
    have := Nat.mul_le_mul_left m (Nat.le_of_not_lt hle)
    omega
  have h6 : m * (2 ^ s + 1) ≤ m * d := Nat.mul_le_mul_left m h5
  have h7 : m * (2 ^ s + 1) = m * 2 ^ s + m := by ring
  -- so `2 ^ n` is at most `2 ^ (s + 1) + 1`, which makes the divisor too large
  have h8 : s < n - 1 := (Nat.pow_lt_pow_iff_right (by decide)).1 (h5.trans_le hd)
  have h9 : 2 ^ (s + 2) ≤ 2 ^ n := Nat.pow_le_pow_right (by decide) (by omega)
  have h10 : 2 ^ (s + 2) = 4 * 2 ^ s := by ring
  have h11 := Nat.two_pow_pos s
  omega

theorem upper_zero_lt (hd : 2 ≤ d) (hn : 1 ≤ n) : upper n 0 d 0 < 2 ^ n := by
  rw [upper, Nat.div_lt_iff_lt_mul (by omega)]
  have h1 : 2 ^ n * 2 ≤ 2 ^ n * d := Nat.mul_le_mul_left _ hd
  have h2 : 2 ^ 1 ≤ 2 ^ n := Nat.pow_le_pow_right (by decide) hn
  simp only [Nat.add_zero, Nat.pow_zero]
  omega

/-! A multiplier of all ones comes with two kinds of divisors only. -/

section Ones

theorem ones_bounds (hup : upper n e d s + 1 = 2 ^ n) (hlt : lower n d s < upper n e d s)
    (hd : 0 < d) :
    2 ^ s < d ∧ upper n e d s * d ≤ upper n e d s * 2 ^ s + 2 ^ s + 2 ^ (s + e) := by
  have h1 : 2 ^ (n + s) < upper n e d s * d := (Nat.div_lt_iff_lt_mul hd).1 hlt
  have h2 : upper n e d s * d ≤ 2 ^ (n + s) + 2 ^ (s + e) := Nat.div_mul_le_self _ d
  have h3 : 2 ^ (n + s) = upper n e d s * 2 ^ s + 2 ^ s := by
    rw [Nat.pow_add, ← hup]
    ring
  refine ⟨?_, h3 ▸ h2⟩
  by_contra hle
  have h4 := Nat.mul_le_mul_left (upper n e d s) (Nat.le_of_not_lt hle)
  omega

theorem ones_of_zero (hd : 2 ≤ d) (hdn : d < 2 ^ n) (hlt : lower n d s < upper n 0 d s)
    (hup : upper n 0 d s + 1 = 2 ^ n) : d = 2 ^ (n - 1) + 1 := by
  obtain ⟨hsd, hle⟩ := ones_bounds hup hlt (by omega)
  have hsn : s < n := (Nat.pow_lt_pow_iff_right (by decide)).1 (hsd.trans hdn)
  obtain ⟨m, hm⟩ : ∃ m, m = upper n 0 d s := ⟨_, rfl⟩
  rw [← hm] at hup hle
  rw [Nat.add_zero] at hle
  have h1 : m * (2 ^ s + 1) ≤ m * d := Nat.mul_le_mul_left m hsd
  rw [Nat.mul_succ] at h1
  have hs : s = n - 1 := by
    by_contra hne
    have h2 : 2 ^ (s + 2) ≤ 2 ^ n := Nat.pow_le_pow_right (by decide) (by omega)
    have h3 : 2 ^ (s + 2) = 4 * 2 ^ s := by ring
    have := Nat.two_pow_pos s
    omega
  have hn : 2 ^ n = 2 * 2 ^ s := by
    rw [← Nat.pow_succ']
    congr 1
    omega
  rw [← hs]
  by_contra hne
  have h2 : m * (2 ^ s + 2) ≤ m * d := Nat.mul_le_mul_left m (by omega)
  rw [Nat.mul_add] at h2
  omega

/-- With bits to spare, where the loop has not gone on. -/
theorem ones_of_pos (hd : 2 ≤ d) (hdn : d < 2 ^ n) (hen : e < n) (he : 1 ≤ e)
    (hlt : lower n d s < upper n e d s)
    (hstop : 0 < s → upper n e d (s - 1) ≤ lower n d (s - 1)) (hup : upper n e d s + 1 = 2 ^ n) :
    n = 2 ∧ d = 2 ∧ e = 1 := by
  obtain ⟨hsd, hle⟩ := ones_bounds hup hlt (by omega)
  have hsn : s < n := (Nat.pow_lt_pow_iff_right (by decide)).1 (hsd.trans hdn)
  obtain ⟨m, hm⟩ : ∃ m, m = upper n e d s := ⟨_, rfl⟩
  rcases Nat.eq_zero_or_pos s with rfl | hs
  · rw [← hm] at hup hle
    rw [Nat.zero_add] at hle
    have h1 : m * 2 ≤ m * d := Nat.mul_le_mul_left m hd
    have h2 : 2 ^ e ≤ 2 ^ (n - 1) := Nat.pow_le_pow_right (by decide) (by omega)
    have h3 : 2 ^ n = 2 * 2 ^ (n - 1) := by
      rw [← Nat.pow_succ']
      congr 1
      omega
    have hn : n = 2 := by
      by_contra hne
      have h4 : 2 ^ 2 ≤ 2 ^ (n - 1) := Nat.pow_le_pow_right (by decide) (by omega)
      omega
    subst hn
    obtain rfl : e = 1 := by omega
    obtain rfl : m = 3 := by omega
    omega
  · -- the two candidates have the same half
    exfalso
    obtain ⟨t, rfl⟩ : ∃ t, s = t + 1 := ⟨s - 1, by omega⟩
    have hhalf := hstop hs
    rw [Nat.add_sub_cancel, ← lower_half, ← upper_half, ← hm] at hhalf
    obtain ⟨k, rfl⟩ : ∃ k, m = k + 1 := ⟨m - 1, by omega⟩
    have hlow : k ≤ lower n d (t + 1) := by omega
    rw [← hm] at hup
    have hS : 2 ≤ 2 ^ (t + 1) := by
      have := Nat.one_le_two_pow (n := t)
      rw [Nat.pow_succ]
      omega
    have hmul : k * d ≤ k * 2 ^ (t + 1) + 2 * 2 ^ (t + 1) := by
      calc k * d ≤ lower n d (t + 1) * d := Nat.mul_le_mul_right d hlow
        _ ≤ 2 ^ (n + (t + 1)) := Nat.div_mul_le_self _ d
        _ = (k + 1 + 1) * 2 ^ (t + 1) := by rw [Nat.pow_add, hup]
        _ = k * 2 ^ (t + 1) + 2 * 2 ^ (t + 1) := by ring
    have h1 : k * (2 ^ (t + 1) + 1) ≤ k * d := Nat.mul_le_mul_left k hsd
    rw [Nat.mul_succ] at h1
    have hn : 2 ^ n = 2 * 2 ^ (t + 1) := by
      have hs : n = t + 2 := by
        by_contra hne
        have h2 : 2 ^ (t + 3) ≤ 2 ^ n := Nat.pow_le_pow_right (by decide) (by omega)
        have h3 : 2 ^ (t + 3) = 4 * 2 ^ (t + 1) := by ring
        omega
      rw [hs]
      exact Nat.pow_succ'
    have hdS : d = 2 ^ (t + 1) + 1 := by
      by_contra hne
      have h2 : k * (2 ^ (t + 1) + 2) ≤ k * d := Nat.mul_le_mul_left k (by omega)
      rw [Nat.mul_add] at h2
      omega
    -- the excess alone takes the higher candidate further
    have hfit : 2 ^ (n + (t + 1)) + 2 ^ (t + 1 + e) < 2 ^ n * d := by
      rw [← Nat.div_lt_iff_lt_mul (by omega), ← hup, hm]
      exact Nat.lt_succ_self _
    have h4 : 2 ^ n * d = 2 ^ (n + (t + 1)) + 2 ^ n := by
      rw [hdS, Nat.pow_add]
      ring
    have h5 : 2 ^ (t + 1 + 1) ≤ 2 ^ (t + 1 + e) := Nat.pow_le_pow_right (by decide) (by omega)
    rw [Nat.pow_succ' (n := t + 1)] at h5
    omega

theorem ones_at_half (hn : 2 ≤ n) :
    lower n (2 ^ (n - 1) + 1) (n - 1) + 1 = upper n 0 (2 ^ (n - 1) + 1) (n - 1) ∧
      upper n 0 (2 ^ (n - 1) + 1) (n - 1) + 1 = 2 ^ n := by
  obtain ⟨t, rfl⟩ : ∃ t, n = t + 1 := ⟨n - 1, by omega⟩
  have hS : 2 ≤ 2 ^ t := by
    have : 2 ^ 1 ≤ 2 ^ t := Nat.pow_le_pow_right (by decide) (by omega)
    exact this
  obtain ⟨k, hk⟩ : ∃ k, 2 ^ t = k + 2 := ⟨2 ^ t - 2, by omega⟩
  have hpow : 2 ^ (t + 1 + t) = 2 * (k + 2) * (k + 2) := by
    rw [Nat.pow_add, Nat.pow_succ', hk]
  rw [lower, upper, Nat.add_sub_cancel, Nat.add_zero t, hpow, Nat.pow_succ', hk]
  have hlow : 2 * (k + 2) * (k + 2) / (k + 2 + 1) = 2 * k + 2 := by
    apply Nat.div_eq_of_lt_le <;> ring_nf <;> omega
  have hup : (2 * (k + 2) * (k + 2) + (k + 2)) / (k + 2 + 1) = 2 * k + 3 := by
    apply Nat.div_eq_of_lt_le <;> ring_nf <;> omega
  rw [hlow, hup]
  omega

end Ones

end Multiplier

end Z80Gcc.InvariantDiv
