import Mathlib.Data.BitVec

/-! Bytes in memory as a sequence of bits counted from a base address, least significant bit
first; addresses wrap around. -/

namespace Z80Gcc.BitMemory

variable {n : Nat}

abbrev Memory (n : Nat) := BitVec n → BitVec 8

def offsetBy (base : BitVec n) (bytes : Nat) : BitVec n := base + BitVec.ofNat n bytes

def bit (mem : Memory n) (base : BitVec n) (k : Nat) : Bool :=
  (mem (offsetBy base (k / 8))).getLsbD (k % 8)

/-- The word of given bits, the first one least significant. -/
def ofBits (f : Nat → Bool) : (w : Nat) → BitVec w
  | 0 => 0#0
  | w + 1 => BitVec.cons (f w) (ofBits f w)

def load (mem : Memory n) (addr : BitVec n) (w : Nat) : BitVec w := ofBits (bit mem addr) w

/-- The bytes of a value are written from an address, the least significant first. -/
def write {w : Nat} (mem : Memory n) (addr : BitVec n) (x : BitVec w) : Memory n := fun a =>
  if (a - addr).toNat < w / 8 then x.extractLsb' (8 * (a - addr).toNat) 8 else mem a

theorem getLsbD_ofBits (f : Nat → Bool) (w i : Nat) :
    (ofBits f w).getLsbD i = (decide (i < w) && f i) := by
  induction w with
  | zero => simp [ofBits]
  | succ w ih =>
    rw [ofBits, BitVec.getLsbD_cons, ih]
    split
    · next heq => simp [heq]
    · next hne =>
      have hiff : i < w ↔ i < w + 1 := by omega
      simp [hiff]

theorem getLsbD_load (mem : Memory n) (addr : BitVec n) (w i : Nat) :
    (load mem addr w).getLsbD i = (decide (i < w) && bit mem addr i) :=
  getLsbD_ofBits ..

theorem offsetBy_offsetBy (base : BitVec n) (o p : Nat) :
    offsetBy (offsetBy base o) p = offsetBy base (o + p) := by
  simp [offsetBy, BitVec.add_assoc, BitVec.ofNat_add]

theorem bit_offsetBy (mem : Memory n) (base : BitVec n) (o k : Nat) :
    bit mem (offsetBy base o) k = bit mem base (8 * o + k) := by
  rw [bit, bit, offsetBy_offsetBy, show (8 * o + k) / 8 = o + k / 8 by omega,
    show (8 * o + k) % 8 = k % 8 by omega]

theorem offsetBy_sub_toNat (base : BitVec n) {o k : Nat} (ho : o < 2 ^ n) (hk : k < 2 ^ n) :
    (offsetBy base k - offsetBy base o).toNat = if o ≤ k then k - o else 2 ^ n + k - o := by
  have hb := base.isLt
  simp only [offsetBy, BitVec.toNat_sub, BitVec.toNat_add, BitVec.toNat_ofNat,
    Nat.mod_eq_of_lt ho, Nat.mod_eq_of_lt hk, Nat.add_mod_mod]
  have hsub : 2 ^ n - (base.toNat + o) % 2 ^ n + (base.toNat + k) =
      2 ^ n + k - o + (base.toNat + o - (base.toNat + o) % 2 ^ n) := by
    have := Nat.mod_lt (base.toNat + o) (Nat.two_pow_pos n)
    have := Nat.mod_le (base.toNat + o) (2 ^ n)
    omega
  have hdvd : 2 ^ n ∣ base.toNat + o - (base.toNat + o) % 2 ^ n := Nat.dvd_sub_mod _
  obtain ⟨q, hq⟩ := hdvd
  rw [hsub, hq, Nat.add_mul_mod_self_left]
  split
  · rw [show 2 ^ n + k - o = k - o + 2 ^ n by omega, Nat.add_mod_right, Nat.mod_eq_of_lt (by omega)]
  · exact Nat.mod_eq_of_lt (by omega)

/-- The bits behind a write of whole bytes that does not wrap around. -/
theorem bit_write {w : Nat} (mem : Memory n) (base : BitVec n) (o k : Nat) (x : BitVec w)
    (hw : w % 8 = 0) (ho : o + w / 8 ≤ 2 ^ n) (hk : k < 8 * 2 ^ n) :
    bit (write mem (offsetBy base o) x) base k =
      if 8 * o ≤ k ∧ k < 8 * o + w then x.getLsbD (k - 8 * o) else bit mem base k := by
  by_cases hzero : w / 8 = 0
  · rw [bit, write, hzero, if_neg (Nat.not_lt_zero _), if_neg (by omega)]
    rfl
  have hsub := offsetBy_sub_toNat base (show o < 2 ^ n by omega) (show k / 8 < 2 ^ n by omega)
  rw [bit, write, hsub]
  by_cases hin : 8 * o ≤ k ∧ k < 8 * o + w
  · rw [if_pos hin, if_pos (show o ≤ k / 8 by omega), if_pos (by omega),
      BitVec.getLsbD_extractLsb', show 8 * (k / 8 - o) + k % 8 = k - 8 * o by omega]
    simp [Nat.mod_lt k (show 0 < 8 by decide)]
  · rw [if_neg hin, if_neg]
    · rfl
    · split <;> omega

end Z80Gcc.BitMemory
