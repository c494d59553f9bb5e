import Mathlib.Logic.Function.Iterate
import Mathlib.Tactic.Linarith
import Mathlib.Tactic.Ring

/-! Loops `do { body; x = next x; } while (p x)`, with or without the same test at the top, and how often the
body runs. -/

namespace Z80Gcc

/-- A loop over a variable of type `α`. `topTest` is the test at the top. -/
structure DoWhile (α : Type*) where
  topTest : Bool
  first : α
  next : α → α
  again : α → Prop

namespace DoWhile

variable {α : Type*} (l : DoWhile α)

/-- The body is entered for the `k`-th time (from 0) with this value. -/
inductive Enters : Nat → α → Prop
  | start : (l.topTest = true → l.again l.first) → Enters 0 l.first
  | turn {k : Nat} {x : α} : Enters k x → l.again (l.next x) → Enters (k + 1) (l.next x)

def RunsBody (n : Nat) : Prop := ∀ k, (∃ x, l.Enters k x) ↔ k < n

variable {l}

theorem Enters.eq_iterate {k : Nat} {x : α} (h : l.Enters k x) : x = l.next^[k] l.first := by
  induction h with
  | start => rfl
  | turn h _ ih => rw [Function.iterate_succ_apply', ← ih]

theorem Enters.entered {k : Nat} {x : α} (h : l.Enters k x) : l.topTest = true → l.again l.first := by
  induction h with
  | start h => exact h
  | turn _ _ ih => exact ih

theorem enters_iff {k : Nat} : (∃ x, l.Enters k x) ↔
    (l.topTest = true → l.again l.first) ∧ ∀ j < k, l.again (l.next^[j + 1] l.first) := by
  constructor
  · rintro ⟨x, h⟩
    refine ⟨h.entered, ?_⟩
    induction h with
    | start => exact fun j hj => absurd hj (Nat.not_lt_zero j)
    | @turn k x h hagain ih =>
      intro j hj
      obtain hlt | rfl := Nat.lt_succ_iff_lt_or_eq.1 hj
      · exact ih j hlt
      · rw [Function.iterate_succ_apply', ← h.eq_iterate]
        exact hagain
  · rintro ⟨htop, hagain⟩
    induction k with
    | zero => exact ⟨_, .start htop⟩
    | succ k ih =>
      obtain ⟨x, hx⟩ := ih fun j hj => hagain j (Nat.lt_succ_of_lt hj)
      have hnext := hagain k (Nat.lt_succ_self k)
      rw [Function.iterate_succ_apply', ← hx.eq_iterate] at hnext
      exact ⟨_, hx.turn hnext⟩

theorem runsBody_unique {m n : Nat} (hm : l.RunsBody m) (hn : l.RunsBody n) : m = n := by
  obtain hlt | heq | hgt := Nat.lt_trichotomy m n
  · exact absurd ((hm m).1 ((hn m).2 hlt)) (Nat.lt_irrefl m)
  · exact heq
  · exact absurd ((hn n).1 ((hm n).2 hgt)) (Nat.lt_irrefl n)

theorem runsBody_zero (htop : l.topTest = true) (hfirst : ¬l.again l.first) : l.RunsBody 0 := by
  refine fun k => ⟨fun ⟨x, hx⟩ => absurd (hx.entered htop) hfirst, fun hk => absurd hk (Nat.not_lt_zero k)⟩

/-- The loop ends at the first value that does not pass the test. -/
theorem runsBody_succ_iff {n : Nat} : l.RunsBody (n + 1) ↔
    (l.topTest = true → l.again l.first) ∧ (∀ k < n, l.again (l.next^[k + 1] l.first)) ∧
      ¬l.again (l.next^[n + 1] l.first) := by
  constructor
  · intro hruns
    obtain ⟨htop, hagain⟩ := enters_iff.1 ((hruns n).2 (Nat.lt_succ_self n))
    refine ⟨htop, hagain, fun hlast => Nat.lt_irrefl (n + 1) ((hruns (n + 1)).1 (enters_iff.2 ⟨htop, ?_⟩))⟩
    intro j hj
    obtain hlt | rfl := Nat.lt_succ_iff_lt_or_eq.1 hj
    · exact hagain j hlt
    · exact hlast
  · rintro ⟨htop, hagain, hlast⟩ k
    refine enters_iff.trans ⟨fun ⟨_, hk⟩ => ?_, fun hk => ⟨htop, fun j hj => hagain j ?_⟩⟩
    · by_contra hge
      exact hlast (hk n (Nat.lt_of_succ_le (Nat.le_of_not_lt hge)))
    · exact Nat.lt_of_lt_of_le hj (Nat.le_of_lt_succ hk)

/-- A variable that comes back after `m` turns cannot count further than that. -/
theorem RunsBody.le_of_period {m n : Nat} (hperiod : ∀ x, l.next^[m] x = x) (hm : 0 < m) (h : l.RunsBody n) :
    n ≤ m := by
  by_contra hlt
  obtain ⟨k, rfl⟩ := Nat.exists_eq_add_of_lt (Nat.lt_of_not_le hlt)
  obtain ⟨-, hagain, hlast⟩ := runsBody_succ_iff.1 h
  obtain ⟨i, rfl⟩ := Nat.exists_eq_add_of_lt hm
  have hback : l.next^[0 + i + 1 + k + 1] l.first = l.next^[k + 1] l.first := by
    rw [Nat.add_assoc, Function.iterate_add_apply, hperiod]
  rw [hback] at hlast
  exact hlast (hagain k (by omega))

section Counting

variable {g : α → Int} {inc limit : Int} {n : Nat}

/-- The variable counts up as long as it is below a limit. The steps are exact where the body runs. -/
theorem runsBody_up (hinc : 0 < inc) (hagain : ∀ x, g x ≤ g l.first + n * inc → (l.again x ↔ g x < limit))
    (hfirst : g l.first < limit)
    (hnext : ∀ k x, l.Enters k x → g x = g l.first + k * inc → g x < limit → g (l.next x) = g x + inc)
    (hle : limit ≤ g l.first + n * inc) (hlt : g l.first + n * inc < limit + inc) : l.RunsBody n := by
  have hmono : ∀ k : Nat, k ≤ n → (k : Int) * inc ≤ n * inc := fun k hk =>
    Int.mul_le_mul_of_nonneg_right (by omega) (le_of_lt hinc)
  have hzero := hmono 0 (Nat.zero_le n)
  have hstart : l.again l.first := (hagain _ (by linarith)).2 hfirst
  have hvalue : ∀ k, k < n → ∃ x, l.Enters k x ∧ g x = g l.first + k * inc ∧ g x < limit := by
    intro k
    induction k with
    | zero => exact fun _ => ⟨_, .start fun _ => hstart, by simp, hfirst⟩
    | succ k ih =>
      intro hk
      obtain ⟨x, hx, hval, hbelow⟩ := ih (by omega)
      have hstep := hnext k x hx hval hbelow
      have hmul : ((k + 1 : Nat) : Int) * inc = k * inc + inc := by push_cast; ring
      have hnextmul : ((k + 2 : Nat) : Int) * inc = k * inc + inc + inc := by push_cast; ring
      have hlast := hmono (k + 2) hk
      have hnew : g (l.next x) < limit := by linarith
      exact ⟨_, hx.turn ((hagain _ (by linarith)).2 hnew), by linarith, hnew⟩
  obtain ⟨m, rfl⟩ : ∃ m, n = m + 1 := by
    refine Nat.exists_eq_succ_of_ne_zero ?_
    rintro rfl
    simp only [Nat.cast_zero, zero_mul, add_zero] at hle
    linarith
  refine runsBody_succ_iff.2 ⟨fun _ => hstart, fun k hk => ?_, fun hlast => ?_⟩
  · obtain ⟨x, hx, -, hbelow⟩ := hvalue (k + 1) (by omega)
    rw [← hx.eq_iterate]
    exact (hagain x (by linarith)).2 hbelow
  · obtain ⟨x, hx, hval, hbelow⟩ := hvalue m (by omega)
    have hstep := hnext m x hx hval hbelow
    rw [Function.iterate_succ_apply', ← hx.eq_iterate] at hlast
    have hmul : ((m + 1 : Nat) : Int) * inc = m * inc + inc := by push_cast; ring
    have hnew := (hagain _ (by linarith)).1 hlast
    linarith

theorem runsBody_down (hinc : inc < 0) (hagain : ∀ x, g l.first + n * inc ≤ g x → (l.again x ↔ limit < g x))
    (hfirst : limit < g l.first)
    (hnext : ∀ k x, l.Enters k x → g x = g l.first + k * inc → limit < g x → g (l.next x) = g x + inc)
    (hle : g l.first + n * inc ≤ limit) (hlt : limit + inc < g l.first + n * inc) : l.RunsBody n := by
  refine @runsBody_up _ _ (fun x => -g x) (-inc) (-limit) _ (by omega) (fun x hle => ?_) (by omega)
    (fun k x hx hval hbelow => ?_) ?_ ?_
  · rw [hagain x (by linarith)]
    omega
  · have hstep := hnext k x hx (by linarith) (by linarith)
    linarith
  · linarith
  · linarith

end Counting

end DoWhile

end Z80Gcc
