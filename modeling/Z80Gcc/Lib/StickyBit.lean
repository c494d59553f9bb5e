import Z80Gcc.Lib.BinaryFloat

/-! Fractions that are shifted down with their lost bits kept in the lowest one, and what rounding sees of them. -/

namespace StickyBit

open BinaryFloat

/-- A shift down by a bit; a bit that is lost sets the lowest one. -/
def jam (fraction : Nat) : Nat := fraction / 2 + if fraction % 4 = 1 then 1 else 0

/-- `fraction` stands for `value` in units of `unit`: it is exact, or its lowest set bit is the bit `low`, and the value lies between
its neighbours without that bit. -/
def Stands (low fraction value unit : Nat) : Prop :=
  value = fraction * unit ∨ ∃ i, fraction = 2 ^ low * (2 * i + 1) ∧ 2 ^ low * (2 * i) * unit < value ∧ value < 2 ^ low * (2 * i + 2) * unit

section Shift

variable {low fraction value unit : Nat}

theorem Stands.jam (hunit : 0 < unit) (h : Stands 0 fraction value unit) : Stands 0 (jam fraction) value (2 * unit) := by
  rw [StickyBit.jam]
  simp only [Stands, Nat.pow_zero, Nat.one_mul] at h ⊢
  -- an odd fraction, exact or not, has its value between its neighbours
  have hodd {i : Nat} (hi : fraction = 2 * i + 1) (hlow : 2 * i * unit < value) (hhigh : value < (2 * i + 2) * unit) :
      ∃ j, fraction / 2 + (if fraction % 4 = 1 then 1 else 0) = 2 * j + 1 ∧ 2 * j * (2 * unit) < value ∧ value < (2 * j + 2) * (2 * unit) := by
    have hexp : 2 * (i / 2) * (2 * unit) = 2 * (2 * (i / 2)) * unit := by ring
    have hexp' : (2 * (i / 2) + 2) * (2 * unit) = (2 * (2 * (i / 2)) + 4) * unit := by ring
    refine ⟨i / 2, by split <;> omega, ?_, ?_⟩
    · rw [hexp]
      exact (Nat.mul_le_mul_right unit (by omega)).trans_lt hlow
    · rw [hexp']
      exact hhigh.trans_le (Nat.mul_le_mul_right unit (by omega))
  obtain hexact | ⟨i, hi, hlow, hhigh⟩ := h
  · obtain heven | hone := Nat.mod_two_eq_zero_or_one fraction
    · left
      have hhalf : fraction = 2 * (fraction / 2) := by omega
      rw [if_neg (by omega), Nat.add_zero, hexact]
      calc fraction * unit = 2 * (fraction / 2) * unit := by rw [← hhalf]
        _ = fraction / 2 * (2 * unit) := by ring
    · right
      have hi : fraction = 2 * (fraction / 2) + 1 := by omega
      have hsucc : fraction * unit = 2 * (fraction / 2) * unit + unit := by
        rw [← Nat.succ_mul, Nat.succ_eq_add_one, ← hi]
      refine hodd hi (by omega) ?_
      rw [show 2 * (fraction / 2) + 2 = fraction + 1 by omega, Nat.succ_mul]
      omega
  · exact .inr (hodd hi hlow hhigh)

theorem Stands.iterate_jam (hunit : 0 < unit) (h : Stands 0 fraction value unit) (n : Nat) :
    Stands 0 (StickyBit.jam^[n] fraction) value (2 ^ n * unit) := by
  induction n with
  | zero => rwa [Nat.pow_zero, Nat.one_mul]
  | succ n ih =>
    rw [Function.iterate_succ_apply', Nat.pow_succ, Nat.mul_comm (2 ^ n) 2, Nat.mul_assoc]
    exact ih.jam (Nat.mul_pos (Nat.two_pow_pos n) hunit)

theorem Stands.double (h : Stands low fraction value (2 * unit)) : Stands (low + 1) (2 * fraction) value unit := by
  obtain hexact | ⟨i, rfl, hlow, hhigh⟩ := h
  · left
    rw [hexact]
    ring
  · right
    refine ⟨i, by ring, ?_, ?_⟩
    · calc 2 ^ (low + 1) * (2 * i) * unit = 2 ^ low * (2 * i) * (2 * unit) := by ring
        _ < value := hlow
    · calc value < 2 ^ low * (2 * i + 2) * (2 * unit) := hhigh
        _ = 2 ^ (low + 1) * (2 * i + 2) * unit := by ring

theorem Stands.scale (h : Stands low fraction value unit) {k : Nat} (hk : 0 < k) : Stands low fraction (value * k) (unit * k) := by
  obtain hexact | ⟨i, hi, hlow, hhigh⟩ := h
  · left
    rw [hexact]
    ring
  · right
    refine ⟨i, hi, ?_, ?_⟩
    · rw [← Nat.mul_assoc]
      exact Nat.mul_lt_mul_of_pos_right hlow hk
    · rw [← Nat.mul_assoc]
      exact Nat.mul_lt_mul_of_pos_right hhigh hk

end Shift

section Sum

variable {fraction value unit c : Nat}

/-- An even fraction is exact, and may be added to one that stands for a value. -/
theorem Stands.add (h : Stands 0 fraction value unit) (hc : c % 2 = 0) : Stands 0 (c + fraction) (c * unit + value) unit := by
  simp only [Stands, Nat.pow_zero, Nat.one_mul] at h ⊢
  obtain hexact | ⟨i, hi, hlow, hhigh⟩ := h
  · left
    rw [hexact]
    ring
  · right
    have hsplit : 2 * (c / 2 + i) * unit = c * unit + 2 * i * unit := by
      rw [← Nat.add_mul]
      congr 1
      omega
    have hsplit' : (2 * (c / 2 + i) + 2) * unit = c * unit + (2 * i + 2) * unit := by
      rw [← Nat.add_mul]
      congr 1
      omega
    exact ⟨c / 2 + i, by omega, by omega, by omega⟩

/-- It may be subtracted from it, or it from the even one: the order and the distance are those of the values. -/
theorem Stands.dist (hunit : 0 < unit) (h : Stands 0 fraction value unit) (hc : c % 2 = 0) :
    (fraction < c ↔ value < c * unit) ∧ (c < fraction ↔ c * unit < value) ∧
      Stands 0 (c - fraction + (fraction - c)) (c * unit - value + (value - c * unit)) unit := by
  simp only [Stands, Nat.pow_zero, Nat.one_mul] at h ⊢
  obtain hexact | ⟨i, hi, hlow, hhigh⟩ := h
  · rw [hexact, ← Nat.sub_mul, ← Nat.sub_mul, ← Nat.add_mul, Nat.mul_lt_mul_right hunit, Nat.mul_lt_mul_right hunit]
    exact ⟨Iff.rfl, Iff.rfl, .inl rfl⟩
  · obtain ⟨b, rfl⟩ : ∃ b, c = 2 * b := ⟨c / 2, by omega⟩
    rw [hi]
    by_cases hle : i + 1 ≤ b
    · obtain ⟨k, rfl⟩ := Nat.exists_eq_add_of_le hle
      have hsplit : 2 * (i + 1 + k) * unit = (2 * i + 2) * unit + 2 * k * unit := by ring
      have hsplit' : 2 * (i + 1 + k) * unit = 2 * i * unit + (2 * k + 2) * unit := by ring
      exact ⟨by omega, by omega, .inr ⟨k, by omega, by omega, by omega⟩⟩
    · obtain ⟨k, rfl⟩ : ∃ k, i = b + k := ⟨i - b, by omega⟩
      have hsplit : 2 * (b + k) * unit = 2 * b * unit + 2 * k * unit := by ring
      have hsplit' : (2 * (b + k) + 2) * unit = 2 * b * unit + (2 * k + 2) * unit := by ring
      exact ⟨by omega, by omega, .inr ⟨k, by omega, by omega, by omega⟩⟩

end Sum

section Round

variable {low fraction value unit c g : Nat}

/-- A value is on the same side of a number without bits under the sticky one as its fraction. -/
theorem Stands.mul_le (h : Stands low fraction value unit) (hc : 2 ^ (low + 1) ∣ c) (hle : c ≤ fraction) : c * unit ≤ value := by
  obtain hexact | ⟨i, hi, hlow, -⟩ := h
  · rw [hexact]
    exact Nat.mul_le_mul_right unit hle
  · obtain ⟨k, rfl⟩ := hc
    have hpow : 2 ^ (low + 1) * k = 2 ^ low * (2 * k) := by ring
    rw [hpow, hi] at hle
    have hk : 2 * k ≤ 2 * i + 1 := Nat.le_of_mul_le_mul_left hle (Nat.two_pow_pos low)
    rw [hpow]
    exact (Nat.mul_le_mul_right unit (Nat.mul_le_mul_left _ (by omega : 2 * k ≤ 2 * i))).trans hlow.le

theorem Stands.lt_mul (hunit : 0 < unit) (h : Stands low fraction value unit) (hc : 2 ^ (low + 1) ∣ c) (hlt : fraction < c) :
    value < c * unit := by
  obtain hexact | ⟨i, hi, -, hhigh⟩ := h
  · rw [hexact]
    exact Nat.mul_lt_mul_of_pos_right hlt hunit
  · obtain ⟨k, rfl⟩ := hc
    have hpow : 2 ^ (low + 1) * k = 2 ^ low * (2 * k) := by ring
    rw [hpow, hi] at hlt
    have hk : 2 * i + 1 < 2 * k := Nat.lt_of_mul_lt_mul_left hlt
    rw [hpow]
    exact hhigh.trans_le (Nat.mul_le_mul_right unit (Nat.mul_le_mul_left _ (by omega : 2 * i + 2 ≤ 2 * k)))

theorem Stands.exact (h : Stands low fraction value unit) (hdvd : 2 ^ low * unit ∣ value) : value = fraction * unit := by
  obtain hexact | ⟨i, hi, hlow, hhigh⟩ := h
  · exact hexact
  · obtain ⟨k, rfl⟩ := hdvd
    have hlow' : 2 ^ low * unit * (2 * i) < 2 ^ low * unit * k := by
      calc 2 ^ low * unit * (2 * i) = 2 ^ low * (2 * i) * unit := by ring
        _ < 2 ^ low * unit * k := hlow
    have hhigh' : 2 ^ low * unit * k < 2 ^ low * unit * (2 * i + 2) := by
      calc 2 ^ low * unit * k < 2 ^ low * (2 * i + 2) * unit := hhigh
        _ = 2 ^ low * unit * (2 * i + 2) := by ring
    have hk := Nat.lt_of_mul_lt_mul_left hlow'
    have hk' := Nat.lt_of_mul_lt_mul_left hhigh'
    obtain rfl : k = 2 * i + 1 := by omega
    rw [hi]
    ring

/-- With two guard bits above the sticky one the fraction rounds as the value does. -/
theorem Stands.nearest (hunit : 0 < unit) (h : Stands low fraction value unit) (hg : low + 2 ≤ g) :
    Nearest (roundEven fraction (2 ^ g)) value (2 ^ g * unit) := by
  obtain hexact | ⟨i, hi, hlow, hhigh⟩ := h
  · rw [hexact, nearest_scale hunit]
    exact roundEven_nearest (Nat.two_pow_pos g)
  · -- fraction and value lie between the same two halves
    obtain ⟨s, rfl⟩ := Nat.exists_eq_add_of_le hg
    have hspos : 0 < 2 ^ s := Nat.two_pow_pos s
    have hsplit := Nat.div_add_mod i (2 ^ s)
    have hmod := Nat.mod_lt i hspos
    obtain ⟨c, hc⟩ : ∃ c, c = i / 2 ^ s := ⟨_, rfl⟩
    rw [← hc] at hsplit
    have hpow : 2 ^ (low + 2 + s) = 2 * (2 ^ low * 2) * 2 ^ s := by ring
    have hfloor : 2 ^ s * c ≤ i := by omega
    have hceil : i + 1 ≤ 2 ^ s * (c + 1) := by
      rw [Nat.mul_succ]
      omega
    have hbelow : c * 2 ^ (low + 2 + s) ≤ 2 * (2 ^ low * (2 * i)) := by
      calc c * 2 ^ (low + 2 + s) = 2 * (2 ^ low * (2 * (2 ^ s * c))) := by rw [hpow]; ring
        _ ≤ 2 * (2 ^ low * (2 * i)) := Nat.mul_le_mul_left _ (Nat.mul_le_mul_left _ (Nat.mul_le_mul_left _ hfloor))
    have habove : 2 * (2 ^ low * (2 * i + 2)) ≤ (c + 1) * 2 ^ (low + 2 + s) := by
      calc 2 * (2 ^ low * (2 * i + 2)) = 2 * (2 ^ low * (2 * (i + 1))) := by ring
        _ ≤ 2 * (2 ^ low * (2 * (2 ^ s * (c + 1)))) := Nat.mul_le_mul_left _ (Nat.mul_le_mul_left _ (Nat.mul_le_mul_left _ hceil))
        _ = (c + 1) * 2 ^ (low + 2 + s) := by rw [hpow]; ring
    have hlowpos : 0 < 2 ^ low := Nat.two_pow_pos low
    have hodd : 2 ^ low * (2 * i + 1) = 2 ^ low * (2 * i) + 2 ^ low := by ring
    have hodd' : 2 ^ low * (2 * i + 2) = 2 ^ low * (2 * i) + 2 * 2 ^ low := by ring
    have hround : Nearest ((c + 1) / 2) fraction (2 ^ (low + 2 + s)) := nearest_of_between (by omega) (by omega)
    rw [hround.roundEven_eq (Nat.two_pow_pos _)]
    refine nearest_of_between ?_ ?_
    · calc c * (2 ^ (low + 2 + s) * unit) = c * 2 ^ (low + 2 + s) * unit := by ring
        _ ≤ 2 * (2 ^ low * (2 * i)) * unit := Nat.mul_le_mul_right unit hbelow
        _ = 2 * (2 ^ low * (2 * i) * unit) := by ring
        _ < 2 * value := by omega
    · calc 2 * value < 2 * (2 ^ low * (2 * i + 2) * unit) := by omega
        _ = 2 * (2 ^ low * (2 * i + 2)) * unit := by ring
        _ ≤ (c + 1) * 2 ^ (low + 2 + s) * unit := Nat.mul_le_mul_right unit habove
        _ = (c + 1) * (2 ^ (low + 2 + s) * unit) := by ring

end Round

/-- What is added to a number of `t + 1` bits, or taken from it, does not change the rounding when it is less than a quarter of the
lowest bit: below a power of two the next lower number is only half as far. -/
theorem roundMagnitude_of_close {t n d e m : Nat} (hd : 0 < d) (hlow : 2 ^ t ≤ m) (hhigh : m < 2 ^ (t + 1))
    (habove : 4 * (m * (d * 2 ^ e)) < 4 * n + d * 2 ^ e) (hbelow : 4 * n < 4 * (m * (d * 2 ^ e)) + d * 2 ^ e) :
    roundMagnitude t n d = e * 2 ^ t + m := by
  have hD : 0 < d * 2 ^ e := Nat.mul_pos hd (Nat.two_pow_pos e)
  have hn : n < 2 ^ (t + 1) * (d * 2 ^ e) := by
    have hmul : (m + 1) * (d * 2 ^ e) ≤ 2 ^ (t + 1) * (d * 2 ^ e) := Nat.mul_le_mul_right _ hhigh
    rw [Nat.succ_mul] at hmul
    omega
  have hm : Nearest m n (d * 2 ^ e) := ⟨by omega, by omega, fun h => by omega⟩
  by_cases hsize : e = 0 ∨ 2 ^ t * (d * 2 ^ e) ≤ n
  · exact roundMagnitude_eq hd hsize hn hm
  -- the number below a power of two is rounded in the lower half of the unit
  rw [not_or, Nat.not_le] at hsize
  obtain ⟨hne, hlt⟩ := hsize
  obtain ⟨e, rfl⟩ := Nat.exists_eq_add_one_of_ne_zero hne
  have hunit : d * 2 ^ (e + 1) = 2 * (d * 2 ^ e) := by ring
  obtain rfl : m = 2 ^ t := by
    by_contra hm'
    have hmul : (2 ^ t + 1) * (d * 2 ^ (e + 1)) ≤ m * (d * 2 ^ (e + 1)) := Nat.mul_le_mul_right _ (by omega)
    rw [Nat.succ_mul] at hmul
    omega
  have hdouble : 2 ^ (t + 1) * (d * 2 ^ e) = 2 ^ t * (d * 2 ^ (e + 1)) := by ring
  have hhalf : 2 ^ (t + 1) * (d * 2 ^ e) = 2 * (2 ^ t * (d * 2 ^ e)) := by ring
  have hpow : d * 2 ^ e ≤ 2 ^ t * (d * 2 ^ e) := Nat.le_mul_of_pos_left _ (Nat.two_pow_pos t)
  rw [roundMagnitude_eq (e := e) (m := 2 ^ (t + 1)) hd (.inr (by omega)) (by omega) ⟨by omega, by omega, fun h => by omega⟩]
  ring

end StickyBit
