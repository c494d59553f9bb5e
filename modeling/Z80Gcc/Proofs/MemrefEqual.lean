import Z80Gcc.Lib.ObjectAddress
import Z80Gcc.Spec.MemrefConflict

/-! Values of address expressions; expressions that are found to be equal have one value. -/

namespace Z80Gcc.MemrefConflict

open Z80Gcc.ObjectAddress

section Values

variable (place : Symbol → ℤ) (ρ : Nat → ObjAddr Symbol)

/-- The value of an address expression. -/
noncomputable def Addr.value : Addr → ObjAddr Symbol
  | .reg r => ρ r
  | .symbolRef s => .start s
  | .constInt n => .absolute n
  | .const x => x.value
  | .plus x y => x.value.add y.value
  | .mult x y => x.value.mul place y.value
  | .and x y => x.value.land place y.value

/-- The registers have the values that have been found out. -/
structure Consistent (info : AliasInfo) : Prop where
  known : ∀ r x, info.known r = some x → x.value place ρ = ρ r
  invariant : ∀ r x, info.invariant r = some x → x.value place ρ = ρ r

variable {place ρ} {info : AliasInfo}

theorem value_sum (all : Bool) (x : Addr) (c : ℤ) :
    (if all then Addr.const (if c = 0 then x else .plus x (.constInt c))
      else if c = 0 then x else .plus x (.constInt c)).value place ρ =
        (x.value place ρ).add (.absolute c) := by
  have hsum : (if c = 0 then x else .plus x (.constInt c)).value place ρ =
      (x.value place ρ).add (.absolute c) := by
    split
    · next h => rw [h, ObjAddr.add_absolute_zero]
    · rfl
  split
  · exact hsum
  · exact hsum

theorem plusConstantLoop_plus (all : Bool) (x y : Addr) (c : ℤ) (hy : ∀ n, y ≠ .constInt n) :
    plusConstantLoop all (.plus x y) c =
      let sum :=
        if x.isConstant then .plus (if c = 0 then x else plusConstantLoop false x c) y
        else if y.isConstant then .plus x (if c = 0 then y else plusConstantLoop false y c)
        else if c = 0 then .plus x y else .plus (.plus x y) (.constInt c)
      if all then .const sum else sum := by
  cases y with
  | constInt n => exact absurd rfl (hy n)
  | _ => rfl

theorem value_ite_const (all : Bool) (x : Addr) :
    (if all then Addr.const x else x).value place ρ = x.value place ρ := by
  cases all <;> rfl

theorem plusConstantLoop_value (all : Bool) (x : Addr) (c : ℤ) :
    (plusConstantLoop all x c).value place ρ = (x.value place ρ).add (.absolute c) := by
  have hzero : ∀ x : Addr, c = 0 → x.value place ρ = (x.value place ρ).add (.absolute c) := by
    intro x hc
    rw [hc, ObjAddr.add_absolute_zero]
  induction x generalizing all c with
  | reg r => exact value_sum all (.reg r) c
  | symbolRef s =>
    rw [plusConstantLoop]
    split
    · next hc => exact hzero _ hc
    · rfl
  | constInt n => exact (ObjAddr.absolute_add n c).symm
  | const x ih => exact ih true c hzero
  | mult x y => exact value_sum all (.mult x y) c
  | and x y => exact value_sum all (.and x y) c
  | plus x y ihx ihy =>
    by_cases hy : ∃ n, y = .constInt n
    · obtain ⟨n, rfl⟩ := hy
      have hsum := ihx all (c + n) fun x hc => by rw [hc, ObjAddr.add_absolute_zero]
      rw [plusConstantLoop, hsum, Addr.value, Addr.value, ObjAddr.add_assoc, ObjAddr.absolute_add,
        Int.add_comm]
    · rw [plusConstantLoop_plus all x y c fun n hn => hy ⟨n, hn⟩]
      simp only [value_ite_const]
      split
      · rw [Addr.value, Addr.value, ObjAddr.add_assoc, ObjAddr.add_comm _ (.absolute c),
          ← ObjAddr.add_assoc]
        congr 1
        split
        · next hc => exact hzero x hc
        · exact ihx false c hzero
      · split
        · rw [Addr.value, Addr.value, ObjAddr.add_assoc]
          congr 1
          split
          · next hc => exact hzero y hc
          · exact ihy false c hzero
        · exact value_sum false (.plus x y) c

theorem plusConstant_value (x : Addr) (c : ℤ) :
    (plusConstant x c).value place ρ = (x.value place ρ).add (.absolute c) := by
  rw [plusConstant]
  split
  · next hc => rw [hc, ObjAddr.add_absolute_zero]
  · exact plusConstantLoop_value false x c

theorem canonWith_plus {value : Nat → Option Addr} {x y z : Addr}
    (h : canonWith value (.plus x y) = some z) :
    ∃ x₁ y₁, canonWith value x = some x₁ ∧ canonWith value y = some y₁ ∧
      (z = .plus x₁ y₁ ∨ (∃ n, x₁ = .constInt n ∧ z = plusConstant y₁ n) ∨
        ∃ n, y₁ = .constInt n ∧ z = plusConstant x₁ n) := by
  rw [canonWith, Option.bind_eq_bind, Option.bind_eq_some_iff] at h
  obtain ⟨x₁, hx, h⟩ := h
  rw [Option.bind_eq_some_iff] at h
  obtain ⟨y₁, hy, h⟩ := h
  refine ⟨x₁, y₁, hx, hy, ?_⟩
  split at h
  · next hsame =>
    obtain ⟨rfl, rfl⟩ := hsame
    exact .inl (Option.some.inj h).symm
  · split at h
    · exact .inr (.inl ⟨_, rfl, (Option.some.inj h).symm⟩)
    · exact .inr (.inr ⟨_, rfl, (Option.some.inj h).symm⟩)
    · exact .inl (Option.some.inj h).symm

theorem canonWith_value {value : Nat → Option Addr}
    (hvalue : ∀ r x, value r = some x → x.value place ρ = ρ r) {x x' : Addr}
    (h : canonWith value x = some x') : x'.value place ρ = x.value place ρ := by
  induction x generalizing x' with
  | reg r => exact hvalue r x' h
  | plus x y ihx ihy =>
    obtain ⟨x₁, y₁, hx, hy, hz⟩ := canonWith_plus h
    rw [Addr.value, ← ihx hx, ← ihy hy]
    rcases hz with rfl | ⟨n, rfl, rfl⟩ | ⟨n, rfl, rfl⟩
    · rfl
    · rw [plusConstant_value, ObjAddr.add_comm]
      rfl
    · rw [plusConstant_value]
      rfl
  | _ =>
    obtain rfl := Option.some.inj h
    rfl

theorem canonRtx_value (hinfo : Consistent place ρ info) {fuel : Nat} {x x' : Addr}
    (h : canonRtx info fuel x = some x') : x'.value place ρ = x.value place ρ := by
  induction fuel generalizing x x' with
  | zero => exact canonWith_value (fun _ x hx => absurd hx.symm (Option.some_ne_none x)) h
  | succ fuel ih =>
    refine canonWith_value (fun r x hx => ?_) h
    split at hx
    · obtain rfl := Option.some.inj hx
      rfl
    · next y hy => exact (ih hx).trans (hinfo.known r y hy)

end Values

section Canonical

def Canonical (info : AliasInfo) : Addr → Prop
  | .reg r => info.known r = none
  | .plus x y => Canonical info x ∧ Canonical info y
  | _ => True

variable {info : AliasInfo}

theorem canonical_sum {x : Addr} (hx : Canonical info x) (all : Bool) (c : Int) :
    Canonical info (if all then Addr.const (if c = 0 then x else .plus x (.constInt c))
      else if c = 0 then x else .plus x (.constInt c)) := by
  split
  · trivial
  · split
    · exact hx
    · exact ⟨hx, trivial⟩

theorem canonical_ite_const {x : Addr} (hx : Canonical info x) (all : Bool) :
    Canonical info (if all then Addr.const x else x) := by
  split
  · trivial
  · exact hx

theorem plusConstantLoop_canonical {all : Bool} {x : Addr} (hx : all = true ∨ Canonical info x) (c : Int) :
    Canonical info (plusConstantLoop all x c) := by
  induction x generalizing all c with
  | symbolRef s =>
    rw [plusConstantLoop]
    split <;> trivial
  | constInt n => trivial
  | const x ih => exact ih (.inl rfl) c
  | plus x y ihx ihy =>
    by_cases hy : ∃ n, y = .constInt n
    · obtain ⟨n, rfl⟩ := hy
      exact ihx (hx.imp_right And.left) (c + n)
    · rw [plusConstantLoop_plus all x y c fun n hn => hy ⟨n, hn⟩]
      rcases hx with rfl | hx
      · trivial
      · refine canonical_ite_const ?_ all
        split
        · refine ⟨?_, hx.2⟩
          split
          · exact hx.1
          · exact ihx (.inr hx.1) c
        · split
          · refine ⟨hx.1, ?_⟩
            split
            · exact hx.2
            · exact ihy (.inr hx.2) c
          · split
            · exact hx
            · exact ⟨hx, trivial⟩
  | _ =>
    rcases hx with rfl | hx
    · trivial
    · exact canonical_sum hx all c

theorem plusConstant_canonical {x : Addr} (hx : Canonical info x) (c : Int) :
    Canonical info (plusConstant x c) := by
  rw [plusConstant]
  split
  · exact hx
  · exact plusConstantLoop_canonical (.inr hx) c

theorem canonWith_canonical {value : Nat → Option Addr}
    (hvalue : ∀ r x, value r = some x → Canonical info x) {x x' : Addr}
    (h : canonWith value x = some x') : Canonical info x' := by
  induction x generalizing x' with
  | reg r => exact hvalue r x' h
  | plus x y ihx ihy =>
    obtain ⟨x₁, y₁, hx, hy, hz⟩ := canonWith_plus h
    rcases hz with rfl | ⟨n, rfl, rfl⟩ | ⟨n, rfl, rfl⟩
    · exact ⟨ihx hx, ihy hy⟩
    · exact plusConstant_canonical (ihy hy) n
    · exact plusConstant_canonical (ihx hx) n
  | _ =>
    obtain rfl := Option.some.inj h
    trivial

theorem canonRtx_canonical {fuel : Nat} {x x' : Addr} (h : canonRtx info fuel x = some x') :
    Canonical info x' := by
  induction fuel generalizing x x' with
  | zero => exact canonWith_canonical (fun _ x hx => absurd hx.symm (Option.some_ne_none x)) h
  | succ fuel ih =>
    refine canonWith_canonical (fun r x hx => ?_) h
    split at hx
    · next hr =>
      obtain rfl := Option.some.inj hx
      exact hr
    · exact ih hx

theorem canonRtx_self {x : Addr} (hx : Canonical info x) (fuel : Nat) :
    canonRtx info (fuel + 1) x = some x := by
  rw [canonRtx]
  induction x with
  | reg r =>
    rw [canonWith, show info.known r = none from hx]
  | plus x y ihx ihy =>
    rw [canonWith, ihx hx.1, ihy hx.2, Option.bind_eq_bind, Option.bind_some, Option.bind_some,
      if_pos ⟨rfl, rfl⟩]
    rfl
  | _ => rfl

theorem canonWith_mono {value value' : Nat → Option Addr}
    (hvalue : ∀ r x, value r = some x → value' r = some x) {x x' : Addr}
    (h : canonWith value x = some x') : canonWith value' x = some x' := by
  induction x generalizing x' with
  | reg r => exact hvalue r x' h
  | plus x y ihx ihy =>
    rw [canonWith, Option.bind_eq_bind, Option.bind_eq_some_iff] at h
    obtain ⟨x₁, hx, h⟩ := h
    rw [Option.bind_eq_some_iff] at h
    obtain ⟨y₁, hy, h⟩ := h
    rw [canonWith, ihx hx, Option.bind_eq_bind, Option.bind_some, ihy hy]
    exact h
  | _ => exact h

theorem canonRtx_succ {fuel : Nat} {x x' : Addr} (h : canonRtx info fuel x = some x') :
    canonRtx info (fuel + 1) x = some x' := by
  induction fuel generalizing x x' with
  | zero => exact canonWith_mono (fun _ x hx => absurd hx.symm (Option.some_ne_none x)) h
  | succ fuel ih =>
    refine canonWith_mono (fun r x hx => ?_) h
    split at hx
    · exact hx
    · exact ih hx

end Canonical

section Equality

variable {place : Symbol → ℤ} {ρ : Nat → ObjAddr Symbol} {info : AliasInfo}
  {equal equal' : Addr → Addr → Option Bool} {x y x' y' x₀ x₁ y₀ y₁ : Addr} {fuel : Nat}

theorem bothEqual_true (h : bothEqual equal x y x' y' = some true) :
    equal x y = some true ∧ equal x' y' = some true := by
  rw [bothEqual, Option.bind_eq_bind, Option.bind_eq_some_iff] at h
  obtain ⟨b, hb, h⟩ := h
  cases b with
  | true => exact ⟨hb, h⟩
  | false => cases h

theorem bothEqual_false (h : bothEqual equal x y x' y' = some false) :
    equal x y = some false ∨ equal x' y' = some false := by
  rw [bothEqual, Option.bind_eq_bind, Option.bind_eq_some_iff] at h
  obtain ⟨b, hb, h⟩ := h
  cases b with
  | true => exact .inr h
  | false => exact .inl hb

theorem equalInSomeOrder_true (h : equalInSomeOrder equal x₀ x₁ y₀ y₁ = some true) :
    (equal x₀ y₀ = some true ∧ equal x₁ y₁ = some true) ∨
      (equal x₀ y₁ = some true ∧ equal x₁ y₀ = some true) := by
  rw [equalInSomeOrder, Option.bind_eq_bind, Option.bind_eq_some_iff] at h
  obtain ⟨b, hb, h⟩ := h
  cases b with
  | true => exact .inl (bothEqual_true hb)
  | false => exact .inr (bothEqual_true h)

theorem equalInSomeOrder_false (h : equalInSomeOrder equal x₀ x₁ y₀ y₁ = some false) :
    equal x₀ y₀ = some false ∨ equal x₁ y₁ = some false := by
  rw [equalInSomeOrder, Option.bind_eq_bind, Option.bind_eq_some_iff] at h
  obtain ⟨b, hb, h⟩ := h
  cases b with
  | true => cases h
  | false => exact bothEqual_false hb

theorem bothEqual_mono (hequal : ∀ x y b, equal x y = some b → equal' x y = some b) {b : Bool}
    (h : bothEqual equal x y x' y' = some b) : bothEqual equal' x y x' y' = some b := by
  rw [bothEqual, Option.bind_eq_bind, Option.bind_eq_some_iff] at h
  obtain ⟨b', hb, h⟩ := h
  rw [bothEqual, hequal _ _ _ hb, Option.bind_eq_bind, Option.bind_some]
  cases b' with
  | true => exact hequal _ _ _ h
  | false => exact h

theorem equalInSomeOrder_mono (hequal : ∀ x y b, equal x y = some b → equal' x y = some b) {b : Bool}
    (h : equalInSomeOrder equal x₀ x₁ y₀ y₁ = some b) : equalInSomeOrder equal' x₀ x₁ y₀ y₁ = some b := by
  rw [equalInSomeOrder, Option.bind_eq_bind, Option.bind_eq_some_iff] at h
  obtain ⟨b', hb, h⟩ := h
  rw [equalInSomeOrder, bothEqual_mono hequal hb, Option.bind_eq_bind, Option.bind_some]
  cases b' with
  | true => exact h
  | false => exact bothEqual_mono hequal h

theorem equalOperands_mono (hequal : ∀ x y b, equal x y = some b → equal' x y = some b) {b : Bool}
    (h : equalOperands equal x y = some b) : equalOperands equal' x y = some b := by
  unfold equalOperands at h ⊢
  split at h
  · exact h
  · exact h
  · exact h
  · exact hequal _ _ _ h
  · exact equalInSomeOrder_mono hequal h
  · exact equalInSomeOrder_mono hequal h
  · exact equalInSomeOrder_mono hequal h
  · exact h

theorem equalOperands_value (hequal : ∀ x y, equal x y = some true → x.value place ρ = y.value place ρ)
    (h : equalOperands equal x y = some true) : x.value place ρ = y.value place ρ := by
  have hpair : ∀ {x₀ x₁ y₀ y₁ : Addr}, equalInSomeOrder equal x₀ x₁ y₀ y₁ = some true →
      (x₀.value place ρ = y₀.value place ρ ∧ x₁.value place ρ = y₁.value place ρ) ∨
        (x₀.value place ρ = y₁.value place ρ ∧ x₁.value place ρ = y₀.value place ρ) := by
    intro x₀ x₁ y₀ y₁ h
    exact (equalInSomeOrder_true h).imp (fun h => ⟨hequal _ _ h.1, hequal _ _ h.2⟩)
      fun h => ⟨hequal _ _ h.1, hequal _ _ h.2⟩
  revert h
  fun_cases equalOperands equal x y with
  | case1 | case2 | case3 =>
    intro h
    rw [of_decide_eq_true (Option.some.inj h)]
  | case4 x y => exact hequal x y
  | case5 x₀ x₁ y₀ y₁ =>
    intro h
    rw [Addr.value, Addr.value]
    rcases hpair h with ⟨h₀, h₁⟩ | ⟨h₀, h₁⟩
    · rw [h₀, h₁]
    · rw [h₀, h₁, ObjAddr.add_comm]
  | case6 x₀ x₁ y₀ y₁ =>
    intro h
    rw [Addr.value, Addr.value]
    rcases hpair h with ⟨h₀, h₁⟩ | ⟨h₀, h₁⟩
    · rw [h₀, h₁]
    · rw [h₀, h₁, ObjAddr.mul_comm]
  | case7 x₀ x₁ y₀ y₁ =>
    intro h
    rw [Addr.value, Addr.value]
    rcases hpair h with ⟨h₀, h₁⟩ | ⟨h₀, h₁⟩
    · rw [h₀, h₁]
    · rw [h₀, h₁, ObjAddr.land_comm]
  | case8 =>
    intro h
    cases h

theorem rtxEqual_succ_eq (info : AliasInfo) (fuel : Nat) (x y : Addr) :
    rtxEqualForMemrefP info (fuel + 1) x y = (canonRtx info (fuel + 1) x).bind fun x =>
      (canonRtx info (fuel + 1) y).bind fun y => equalOperands (rtxEqualForMemrefP info fuel) x y := rfl

theorem rtxEqual_value (hinfo : Consistent place ρ info)
    (h : rtxEqualForMemrefP info fuel x y = some true) : x.value place ρ = y.value place ρ := by
  induction fuel generalizing x y with
  | zero => cases h
  | succ fuel ih =>
    rw [rtxEqual_succ_eq, Option.bind_eq_some_iff] at h
    obtain ⟨x', hx, h⟩ := h
    rw [Option.bind_eq_some_iff] at h
    obtain ⟨y', hy, h⟩ := h
    rw [← canonRtx_value hinfo hx, ← canonRtx_value hinfo hy]
    exact equalOperands_value (fun _ _ => ih) h

theorem rtxEqual_succ {b : Bool} (h : rtxEqualForMemrefP info fuel x y = some b) :
    rtxEqualForMemrefP info (fuel + 1) x y = some b := by
  induction fuel generalizing x y b with
  | zero => cases h
  | succ fuel ih =>
    rw [rtxEqual_succ_eq, Option.bind_eq_some_iff] at h
    obtain ⟨x', hx, h⟩ := h
    rw [Option.bind_eq_some_iff] at h
    obtain ⟨y', hy, h⟩ := h
    rw [rtxEqual_succ_eq, canonRtx_succ hx, Option.bind_some, canonRtx_succ hy, Option.bind_some]
    exact equalOperands_mono (fun _ _ _ => ih) h

/-- The comparison works with canonical expressions anyway. -/
theorem rtxEqual_canon (hx : canonRtx info (fuel + 1) x = some x')
    (hy : canonRtx info (fuel + 1) y = some y') :
    rtxEqualForMemrefP info (fuel + 1) x' y' = rtxEqualForMemrefP info (fuel + 1) x y := by
  rw [rtxEqual_succ_eq, rtxEqual_succ_eq, hx, hy, canonRtx_self (canonRtx_canonical hx),
    canonRtx_self (canonRtx_canonical hy)]

end Equality

end Z80Gcc.MemrefConflict
