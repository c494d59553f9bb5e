import Mathlib

/-! Numbers in several words, the most significant one first. What an operation makes of a word, and of the carry that
it passes on, is an equation between numbers; the equation of the whole number follows. -/

namespace Z80Gcc.WordList

variable {w : Nat}

def value : List (BitVec w) → Nat
  | [] => 0
  | x :: xs => x.toNat * (2 ^ w) ^ xs.length + value xs

section Value

variable {xs ys : List (BitVec w)}

@[simp] theorem value_nil : value ([] : List (BitVec w)) = 0 := rfl

theorem value_cons (x : BitVec w) (xs : List (BitVec w)) :
    value (x :: xs) = x.toNat * (2 ^ w) ^ xs.length + value xs := rfl

theorem value_lt (xs : List (BitVec w)) : value xs < (2 ^ w) ^ xs.length := by
  induction xs with
  | nil => exact Nat.one_pos
  | cons x xs ih =>
    have hx : (x.toNat + 1) * (2 ^ w) ^ xs.length ≤ 2 ^ w * (2 ^ w) ^ xs.length := Nat.mul_le_mul_right _ x.isLt
    rw [value_cons, List.length_cons, Nat.pow_succ']
    rw [Nat.succ_mul] at hx
    omega

theorem value_append (xs ys : List (BitVec w)) : value (xs ++ ys) = value xs * (2 ^ w) ^ ys.length + value ys := by
  induction xs with
  | nil => simp
  | cons x xs ih =>
    rw [List.cons_append, value_cons, value_cons, ih, List.length_append, Nat.pow_add]
    ring

theorem value_replicate_zero (n : Nat) : value (List.replicate n (0 : BitVec w)) = 0 := by
  induction n with
  | zero => rfl
  | succ n ih => rw [List.replicate_succ, value_cons, ih, BitVec.ofNat_eq_ofNat, BitVec.toNat_ofNat, Nat.zero_mod,
      Nat.zero_mul]

/-- The first words are the quotient, the others the remainder. -/
theorem value_append_div_mod (xs ys : List (BitVec w)) :
    value (xs ++ ys) / (2 ^ w) ^ ys.length = value xs ∧ value (xs ++ ys) % (2 ^ w) ^ ys.length = value ys := by
  have hpos : 0 < (2 ^ w) ^ ys.length := Nat.pow_pos (Nat.two_pow_pos w)
  rw [value_append, Nat.mul_comm]
  exact ⟨by rw [Nat.mul_add_div hpos, Nat.div_eq_of_lt (value_lt ys), Nat.add_zero],
    by rw [Nat.mul_add_mod, Nat.mod_eq_of_lt (value_lt ys)]⟩

/-- Numbers of as many words are compared at the first word in which they differ. -/
theorem value_lt_of_head {x y : BitVec w} (hlen : xs.length = ys.length) (hxy : x < y) :
    value (x :: xs) < value (y :: ys) := by
  have hmul : (x.toNat + 1) * (2 ^ w) ^ xs.length ≤ y.toNat * (2 ^ w) ^ xs.length := Nat.mul_le_mul_right _ hxy
  have hlt := value_lt xs
  rw [value_cons, value_cons, ← hlen]
  rw [Nat.succ_mul] at hmul
  omega

theorem value_injective (hlen : xs.length = ys.length) (heq : value xs = value ys) : xs = ys := by
  induction xs generalizing ys with
  | nil => exact (List.length_eq_zero_iff.1 hlen.symm).symm
  | cons x xs ih =>
    obtain _ | ⟨y, ys⟩ := ys
    · cases hlen
    have hlen' : xs.length = ys.length := Nat.succ_injective hlen
    have hxy : x = y := by
      by_contra hne
      obtain hlt | hlt := Nat.lt_or_gt_of_ne fun heq => hne (BitVec.eq_of_toNat_eq heq)
      · exact absurd heq (value_lt_of_head hlen' hlt).ne
      · exact absurd heq (value_lt_of_head hlen'.symm hlt).ne'
    subst hxy
    rw [value_cons, value_cons, hlen'] at heq
    rw [ih hlen' (by omega)]

theorem value_eq_zero_iff : value xs = 0 ↔ ∀ x ∈ xs, x = 0 := by
  induction xs with
  | nil => simp
  | cons x xs ih =>
    have hpos : 0 < (2 ^ w) ^ xs.length := Nat.pow_pos (Nat.two_pow_pos w)
    rw [value_cons, Nat.add_eq_zero_iff, Nat.mul_eq_zero, ih, List.forall_mem_cons]
    simp only [hpos.ne', or_false]
    exact and_congr_left fun _ => ⟨fun hx => BitVec.eq_of_toNat_eq hx, fun hx => by rw [hx]; rfl⟩

theorem toNat_getD {k : Nat} (hk : k < xs.length) :
    (xs.getD k 0).toNat = value xs / (2 ^ w) ^ (xs.length - 1 - k) % 2 ^ w := by
  have hsplit : xs = xs.take k ++ (xs.getD k 0 :: xs.drop (k + 1)) := by
    rw [List.getD_eq_getElem xs 0 hk, List.cons_getElem_drop_succ, List.take_append_drop]
  have hlen : (xs.drop (k + 1)).length = xs.length - 1 - k := by
    rw [List.length_drop]
    omega
  generalize xs.getD k 0 = x at hsplit
  have hvalue : value xs = (value (xs.take k) * 2 ^ w + x.toNat) * (2 ^ w) ^ (xs.length - 1 - k) +
      value (xs.drop (k + 1)) := by
    rw [hsplit, value_append, value_cons, ← hsplit, List.length_cons, hlen, Nat.pow_succ]
    ring
  have hlt := value_lt (xs.drop (k + 1))
  rw [hlen] at hlt
  rw [hvalue, Nat.mul_comm _ ((2 ^ w) ^ _), Nat.mul_add_div (Nat.pow_pos (Nat.two_pow_pos w)), Nat.div_eq_of_lt hlt,
    Nat.add_zero, Nat.mul_comm, Nat.mul_add_mod, Nat.mod_eq_of_lt x.isLt]

def ofNat (w : Nat) : (n : Nat) → Nat → List (BitVec w)
  | 0, _ => []
  | n + 1, v => BitVec.ofNat w (v / (2 ^ w) ^ n) :: ofNat w n v

@[simp] theorem length_ofNat (w n v : Nat) : (ofNat w n v).length = n := by
  induction n with
  | zero => rfl
  | succ n ih => rw [ofNat, List.length_cons, ih]

theorem value_ofNat (w n v : Nat) : value (ofNat w n v) = v % (2 ^ w) ^ n := by
  induction n with
  | zero => rw [Nat.pow_zero, Nat.mod_one]; rfl
  | succ n ih => rw [ofNat, value_cons, ih, length_ofNat, BitVec.toNat_ofNat, Nat.pow_succ, Nat.mod_mul, Nat.add_comm,
      Nat.mul_comm]

theorem ofNat_value (xs : List (BitVec w)) : ofNat w xs.length (value xs) = xs :=
  value_injective (length_ofNat _ _ _) (by rw [value_ofNat, Nat.mod_eq_of_lt (value_lt xs)])

end Value

section Up

/-! A carry that goes from the last word up to the first. -/

variable {S α β : Type} {good : S → Prop} {carry : S → Int}

def weigh (w : Nat) (digit : α → Int) : List α → Int
  | [] => 0
  | x :: xs => digit x * (2 ^ w) ^ xs.length + weigh w digit xs

theorem weigh_toNat (xs : List (BitVec w)) : weigh w (fun x => (x.toNat : Int)) xs = value xs := by
  induction xs with
  | nil => rfl
  | cons x xs ih =>
    rw [weigh, value_cons, ih]
    push_cast
    rfl

theorem weigh_mul (k : Int) (digit : α → Int) (xs : List α) :
    weigh w (fun x => k * digit x) xs = k * weigh w digit xs := by
  induction xs with
  | nil => rw [weigh, weigh, Int.mul_zero]
  | cons x xs ih =>
    rw [weigh, weigh, ih]
    ring

theorem mapAccumr_value {f : α → S → S × BitVec w} {digit : α → Int}
    (hstep : ∀ x s, good s → good (f x s).1 ∧ digit x + carry s = carry (f x s).1 * 2 ^ w + (f x s).2.toNat)
    (xs : List α) {s : S} (hs : good s) :
    good (xs.mapAccumr f s).1 ∧ weigh w digit xs + carry s =
      carry (xs.mapAccumr f s).1 * (2 ^ w) ^ xs.length + value (xs.mapAccumr f s).2 := by
  induction xs with
  | nil =>
    refine ⟨hs, ?_⟩
    change weigh w digit [] + carry s = carry s * (2 ^ w) ^ 0 + value ([] : List (BitVec w))
    rw [pow_zero, mul_one, weigh, value_nil, Nat.cast_zero, add_zero, zero_add]
  | cons x xs ih =>
    obtain ⟨hgood, heq⟩ := ih
    obtain ⟨hgood', heq'⟩ := hstep x _ hgood
    refine ⟨hgood', ?_⟩
    change weigh w digit (x :: xs) + carry s = carry (f x (xs.mapAccumr f s).1).1 * (2 ^ w) ^ (xs.length + 1) +
      value ((f x (xs.mapAccumr f s).1).2 :: (xs.mapAccumr f s).2)
    simp only [weigh, value_cons, List.length_mapAccumr]
    push_cast
    rw [add_assoc, heq, ← add_assoc, ← add_mul, heq']
    ring

theorem mapAccumr₂_value {f : α → β → S → S × BitVec w} {digit : α → Int} {digit' : β → Int}
    (hstep : ∀ x y s, good s → good (f x y s).1 ∧
      digit x + digit' y + carry s = carry (f x y s).1 * 2 ^ w + (f x y s).2.toNat)
    {xs : List α} {ys : List β} (hlen : xs.length = ys.length) {s : S} (hs : good s) :
    good (xs.mapAccumr₂ f ys s).1 ∧ weigh w digit xs + weigh w digit' ys + carry s =
      carry (xs.mapAccumr₂ f ys s).1 * (2 ^ w) ^ xs.length + value (xs.mapAccumr₂ f ys s).2 := by
  induction xs generalizing ys with
  | nil =>
    obtain rfl := List.length_eq_zero_iff.1 hlen.symm
    exact ⟨hs, by simp [weigh, List.mapAccumr₂]⟩
  | cons x xs ih =>
    obtain _ | ⟨y, ys⟩ := ys
    · cases hlen
    have hlen' : xs.length = ys.length := Nat.succ_injective hlen
    obtain ⟨hgood, heq⟩ := ih hlen'
    obtain ⟨hgood', heq'⟩ := hstep x y _ hgood
    refine ⟨hgood', ?_⟩
    have hmin : (xs.mapAccumr₂ f ys s).2.length = xs.length := by
      rw [List.length_mapAccumr₂, hlen', Nat.min_self]
    simp only [List.mapAccumr₂, weigh, value_cons, List.length_cons, hmin, ← hlen']
    push_cast
    linear_combination heq + (2 ^ w) ^ xs.length * heq'

end Up

section Down

/-! A rest that goes from the first word down to the last. -/

variable {S : Type} {rest : S → Nat} {d : Nat} {good : S → Prop}

def mapAccuml {α β : Type} (f : α → S → S × β) : List α → S → S × List β
  | [], s => (s, [])
  | x :: xs, s =>
    let r := f x s
    let r' := mapAccuml f xs r.1
    (r'.1, r.2 :: r'.2)

theorem length_mapAccuml {α β : Type} (f : α → S → S × β) (xs : List α) (s : S) :
    (mapAccuml f xs s).2.length = xs.length := by
  induction xs generalizing s with
  | nil => rfl
  | cons x xs ih => exact congrArg (· + 1) (ih (f x s).1)

theorem mapAccuml_value {f : BitVec w → S → S × BitVec w}
    (hstep : ∀ x s, good s → good (f x s).1 ∧ rest s * 2 ^ w + x.toNat = (f x s).2.toNat * d + rest (f x s).1)
    (xs : List (BitVec w)) {s : S} (hs : good s) :
    good (mapAccuml f xs s).1 ∧
      rest s * (2 ^ w) ^ xs.length + value xs = value (mapAccuml f xs s).2 * d + rest (mapAccuml f xs s).1 := by
  induction xs generalizing s with
  | nil => exact ⟨hs, by simp [mapAccuml]⟩
  | cons x xs ih =>
    obtain ⟨hgood, heq⟩ := hstep x s hs
    obtain ⟨hgood', heq'⟩ := ih hgood
    refine ⟨hgood', ?_⟩
    simp only [mapAccuml, value_cons, List.length_cons, length_mapAccuml]
    calc rest s * (2 ^ w) ^ (xs.length + 1) + (x.toNat * (2 ^ w) ^ xs.length + value xs)
        = (rest s * 2 ^ w + x.toNat) * (2 ^ w) ^ xs.length + value xs := by ring
      _ = (f x s).2.toNat * d * (2 ^ w) ^ xs.length + (rest (f x s).1 * (2 ^ w) ^ xs.length + value xs) := by
        rw [heq]
        ring
      _ = _ := by
        rw [heq']
        ring

end Down

end Z80Gcc.WordList
