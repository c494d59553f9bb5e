import Mathlib.Algebra.Order.Ring.Int
import Mathlib.Tactic.Ring

/-! Numbers as bytes of seven bits, the low ones first; a byte of 128 or more is followed by another one. -/

namespace Leb128

/-- An unsigned number at the front of some bytes, and the bytes behind it. -/
def decodeUnsigned : List Nat → Option (Nat × List Nat)
  | [] => none
  | b :: bs =>
    if b < 128 then some (b, bs)
    else (decodeUnsigned bs).map fun p => (b % 128 + 128 * p.1, p.2)

/-- A signed number at the front of some bytes; bit 6 of the last byte is its sign. -/
def decodeSigned : List Nat → Option (Int × List Nat)
  | [] => none
  | b :: bs =>
    if b < 64 then some (b, bs)
    else if b < 128 then some (b - 128, bs)
    else (decodeSigned bs).map fun p => (b % 128 + 128 * p.1, p.2)

variable {b n : Nat} {v : Int} {l rest : List Nat}

theorem decodeUnsigned_last (hb : b < 128) : decodeUnsigned (b :: rest) = some (b, rest) := by
  rw [decodeUnsigned, if_pos hb]

theorem decodeUnsigned_more (hb : b < 128) (h : decodeUnsigned l = some (n, rest)) :
    decodeUnsigned ((b + 128) :: l) = some (b + 128 * n, rest) := by
  rw [decodeUnsigned, if_neg (by omega), h, Option.map_some, Nat.add_mod_right, Nat.mod_eq_of_lt hb]

theorem decodeSigned_last (hb : b < 128) (hv : v = b ∧ b < 64 ∨ v + 128 = b ∧ 64 ≤ b) :
    decodeSigned (b :: rest) = some (v, rest) := by
  obtain ⟨rfl, hlow⟩ | ⟨hval, hhigh⟩ := hv
  · rw [decodeSigned, if_pos hlow]
  · rw [decodeSigned, if_neg (by omega), if_pos hb, ← hval, Int.add_sub_cancel]

theorem decodeSigned_more (hb : b < 128) (h : decodeSigned l = some (v, rest)) :
    decodeSigned ((b + 128) :: l) = some (b + 128 * v, rest) := by
  rw [decodeSigned, if_neg (by omega), if_neg (by omega), h, Option.map_some]
  congr 3
  omega

theorem decodeUnsigned_lt (h : decodeUnsigned l = some (n, [])) : n < 128 ^ l.length := by
  induction l generalizing n with
  | nil => cases h
  | cons b l ih =>
    rw [decodeUnsigned] at h
    rw [List.length_cons, Nat.pow_succ]
    have hone : 1 ≤ 128 ^ l.length := Nat.one_le_pow _ _ (by decide)
    split at h
    · cases h
      omega
    · obtain ⟨p, hp, heq⟩ := Option.map_eq_some_iff.1 h
      obtain ⟨m, rest⟩ := p
      cases heq
      have hlt := ih hp
      omega

theorem decodeSigned_range (h : decodeSigned l = some (v, [])) :
    -(128 : Int) ^ l.length ≤ 2 * v ∧ 2 * v + 2 ≤ (128 : Int) ^ l.length := by
  induction l generalizing v with
  | nil => cases h
  | cons b l ih =>
    rw [decodeSigned] at h
    rw [List.length_cons, pow_succ]
    have hone : (1 : Int) ≤ 128 ^ l.length := one_le_pow₀ (by decide)
    split at h
    · cases h
      omega
    · split at h
      · cases h
        omega
      · obtain ⟨p, hp, heq⟩ := Option.map_eq_some_iff.1 h
        obtain ⟨m, rest⟩ := p
        cases heq
        obtain ⟨hlow, hhigh⟩ := ih hp
        omega

/-- A number that `n` bytes cannot hold takes more of them. -/
theorem length_of_unsigned (h : decodeUnsigned l = some (n, [])) {k : Nat} (hk : 128 ^ k ≤ n) : k < l.length := by
  have hlt := decodeUnsigned_lt h
  exact (Nat.pow_lt_pow_iff_right (by decide)).1 (Nat.lt_of_le_of_lt hk hlt)

theorem length_of_signed (h : decodeSigned l = some (v, [])) {k : Nat}
    (hk : (128 : Int) ^ k ≤ 2 * v ∨ 2 * v < -(128 : Int) ^ k) : k < l.length := by
  obtain ⟨hlow, hhigh⟩ := decodeSigned_range h
  have hlt : (128 : Int) ^ k < 128 ^ l.length := by
    obtain hk | hk := hk <;> omega
  exact (pow_lt_pow_iff_right₀ (by decide)).1 hlt

end Leb128
