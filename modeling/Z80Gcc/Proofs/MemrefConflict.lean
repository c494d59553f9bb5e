import Mathlib
import Z80Gcc.Proofs.MemrefEqual

/-! No conflict of two memory references is missed. The code takes it for granted that a reference stays in
its object, and that a reference besides an AND is aligned. -/

namespace Z80Gcc.MemrefConflict

open Z80Gcc.ObjectAddress

section Masks

/-- No AND can come up, whatever registers are replaced. -/
inductive AndFree (info : AliasInfo) : Addr → Prop
  | reg (r : Nat) (known : ∀ x, info.known r = some x → AndFree info x)
      (invariant : ∀ x, info.invariant r = some x → AndFree info x) : AndFree info (.reg r)
  | symbolRef (s : Symbol) : AndFree info (.symbolRef s)
  | constInt (n : Int) : AndFree info (.constInt n)
  | const (x : Addr) (hx : AndFree info x) : AndFree info (.const x)
  | plus (x y : Addr) (hx : AndFree info x) (hy : AndFree info y) : AndFree info (.plus x y)
  | mult (x y : Addr) (hx : AndFree info x) (hy : AndFree info y) : AndFree info (.mult x y)

/-- An AND stands outermost only. It aligns the address, and then the other reference, which is at
`position`, is aligned as well if it is as large. -/
def Masked (info : AliasInfo) (x : Addr) (size position : ℤ) : Prop :=
  AndFree info x ∨ ∃ z j, x = .and z (.constInt (-(2 ^ j))) ∧ AndFree info z ∧
    (2 ^ j ≤ size → (2 ^ j : ℤ) ∣ position ∧ (2 ^ j : ℤ) ∣ size)

/-- The same for the canonical expression. -/
def Admissible (info : AliasInfo) (x : Addr) (size position : ℤ) : Prop :=
  ∀ fuel x', canonRtx info fuel x = some x' → Masked info x' size position

variable {info : AliasInfo} {x y : Addr}

theorem AndFree.sum (hx : AndFree info x) (all : Bool) (c : Int) :
    AndFree info (if all then Addr.const (if c = 0 then x else .plus x (.constInt c))
      else if c = 0 then x else .plus x (.constInt c)) := by
  have hsum : AndFree info (if c = 0 then x else .plus x (.constInt c)) := by
    split
    · exact hx
    · exact .plus _ _ hx (.constInt c)
  split
  · exact .const _ hsum
  · exact hsum

theorem AndFree.ite_const (hx : AndFree info x) (all : Bool) :
    AndFree info (if all then Addr.const x else x) := by
  split
  · exact .const _ hx
  · exact hx

theorem AndFree.plusConstantLoop (hx : AndFree info x) (all : Bool) (c : Int) :
    AndFree info (plusConstantLoop all x c) := by
  induction hx generalizing all c with
  | reg r known invariant => exact AndFree.sum (.reg r known invariant) all c
  | symbolRef s =>
    rw [MemrefConflict.plusConstantLoop]
    split
    · exact .symbolRef s
    · exact .const _ (.plus _ _ (.symbolRef s) (.constInt c))
  | constInt n => exact .constInt _
  | const x hx ih => exact ih true c
  | mult x y hx hy => exact AndFree.sum (.mult x y hx hy) all c
  | plus x y hx hy ihx ihy =>
    by_cases hn : ∃ n, y = .constInt n
    · obtain ⟨n, rfl⟩ := hn
      exact ihx all (c + n)
    · rw [plusConstantLoop_plus all x y c fun n h => hn ⟨n, h⟩]
      refine AndFree.ite_const ?_ all
      split
      · refine .plus _ _ ?_ hy
        split
        · exact hx
        · exact ihx false c
      · split
        · refine .plus _ _ hx ?_
          split
          · exact hy
          · exact ihy false c
        · exact AndFree.sum (.plus x y hx hy) false c

theorem AndFree.plusConstant (hx : AndFree info x) (c : Int) : AndFree info (plusConstant x c) := by
  rw [MemrefConflict.plusConstant]
  split
  · exact hx
  · exact hx.plusConstantLoop false c

theorem AndFree.canonWith {value : Nat → Option Addr}
    (hvalue : ∀ r x, AndFree info (.reg r) → value r = some x → AndFree info x) (hx : AndFree info x)
    {x' : Addr} (h : canonWith value x = some x') : AndFree info x' := by
  induction hx generalizing x' with
  | reg r known invariant => exact hvalue r x' (.reg r known invariant) h
  | plus x y hx hy ihx ihy =>
    obtain ⟨x₁, y₁, hx, hy, hz⟩ := canonWith_plus h
    rcases hz with rfl | ⟨n, rfl, rfl⟩ | ⟨n, rfl, rfl⟩
    · exact .plus _ _ (ihx hx) (ihy hy)
    · exact (ihy hy).plusConstant n
    · exact (ihx hx).plusConstant n
  | symbolRef s =>
    obtain rfl := Option.some.inj h
    exact .symbolRef s
  | constInt n =>
    obtain rfl := Option.some.inj h
    exact .constInt n
  | const x hx =>
    obtain rfl := Option.some.inj h
    exact .const x hx
  | mult x y hx hy =>
    obtain rfl := Option.some.inj h
    exact .mult x y hx hy

theorem AndFree.canonRtx {fuel : Nat} (hx : AndFree info x) {x' : Addr}
    (h : canonRtx info fuel x = some x') : AndFree info x' := by
  induction fuel generalizing x x' with
  | zero => exact hx.canonWith (fun _ x _ h => absurd h.symm (Option.some_ne_none x)) h
  | succ fuel ih =>
    refine hx.canonWith (fun r y hr hy => ?_) h
    split at hy
    · obtain rfl := Option.some.inj hy
      exact hr
    · next z hz =>
      cases hr with
      | reg _ known invariant => exact ih (known z hz) hy

theorem AndFree.admissible (hx : AndFree info x) (size position : ℤ) :
    Admissible info x size position :=
  fun _ _ h => .inl (hx.canonRtx h)

theorem Masked.admissible (hx : Canonical info x) {size position : ℤ} (h : Masked info x size position) :
    Admissible info x size position := by
  intro fuel x' hx'
  have hself := canonRtx_self hx fuel
  rw [canonRtx_succ hx', Option.some.injEq] at hself
  rwa [hself]

/-- Nothing is asked for when the size of the other reference is not known. -/
theorem Masked.of_neg {size size' position position' : ℤ} (h : Masked info x size position)
    (hneg : size' ≤ 0) : Masked info x size' position' := by
  refine h.imp_right fun ⟨z, j, hxz, hz, _⟩ => ⟨z, j, hxz, hz, fun hle => ?_⟩
  have hpos : (0 : ℤ) < 2 ^ j := Int.pow_pos (by decide)
  omega

theorem Masked.andFree {size position : ℤ} (h : Masked info x size position)
    (hand : ∀ z w, x ≠ .and z w) : AndFree info x :=
  h.resolve_right fun ⟨z, _, hxz, _⟩ => hand z _ hxz

end Masks

section Division

/-- A division by a common factor that tells the truth: it is exact, or one of the two known sizes is
smaller than the factor. -/
def exactDivision : Divide := fun k xsize ysize c =>
  if 0 < k ∧ (k ∣ xsize ∧ k ∣ ysize ∧ k ∣ c ∨ 0 ≤ xsize ∧ 0 ≤ ysize ∧ (xsize < k ∨ ysize < k)) then
    truncatingDivision k xsize ysize c
  else none

theorem exactDivision_eq {k xsize ysize c : Int} {q : Int × Int × Int}
    (h : exactDivision k xsize ysize c = some q) :
    0 < k ∧ (k ∣ xsize ∧ k ∣ ysize ∧ k ∣ c ∨ 0 ≤ xsize ∧ 0 ≤ ysize ∧ (xsize < k ∨ ysize < k)) ∧
      q = (xsize.tdiv k, ysize.tdiv k, c.tdiv k) := by
  rw [exactDivision] at h
  split at h
  · next hk =>
    rw [truncatingDivision, if_neg (Int.ne_of_gt hk.1)] at h
    exact ⟨hk.1, hk.2, (Option.some.inj h).symm⟩
  · cases h

/-- References that are apart after an exact division were so before. -/
theorem apart_of_division {place : Symbol → ℤ} {k xsize ysize c : Int} {q : Int × Int × Int}
    (h : exactDivision k xsize ysize c = some q) {x y : ObjAddr Symbol}
    (hq : ObjAddr.Apart q.1 x q.2.1 y q.2.2) :
    ObjAddr.Apart xsize (x.mul place (.absolute k)) ysize (y.mul place (.absolute k)) c := by
  obtain ⟨hk, hdiv, rfl⟩ := exactDivision_eq h
  have hscale := hq.scale hk place
  rcases hdiv with ⟨hx, hy, hc⟩ | ⟨hx, hy, hsmall⟩
  · rwa [Int.tdiv_mul_cancel hx, Int.tdiv_mul_cancel hy, Int.tdiv_mul_cancel hc] at hscale
  · refine .inl (hscale.resolve_right ?_)
    rintro ⟨hxk, hyk, -⟩
    rcases hsmall with hlt | hlt
    · rw [Int.tdiv_eq_zero_of_lt hx hlt, Int.zero_mul] at hxk
      exact Int.lt_irrefl _ hxk
    · rw [Int.tdiv_eq_zero_of_lt hy hlt, Int.zero_mul] at hyk
      exact Int.lt_irrefl _ hyk

end Division

section Branches

variable {place : Symbol → ℤ} {ρ : Nat → ObjAddr Symbol} {info : AliasInfo} {fuel : Nat}
  {conflict : Conflict} {xsize ysize c : Int} {x y x₀ x₁ y₀ y₁ : Addr}

def Sound (place : Symbol → ℤ) (ρ : Nat → ObjAddr Symbol) (info : AliasInfo) (conflict : Conflict) : Prop :=
  ∀ xsize x ysize y c, Admissible info x ysize ((y.value place ρ).flat place + c) →
    Admissible info y xsize ((x.value place ρ).flat place - c) → conflict xsize x ysize y c = some false →
      ObjAddr.Apart xsize (x.value place ρ) ysize (y.value place ρ) c

theorem Sound.andFree (hconflict : Sound place ρ info conflict) (hx : AndFree info x) (hy : AndFree info y)
    (h : conflict xsize x ysize y c = some false) :
    ObjAddr.Apart xsize (x.value place ρ) ysize (y.value place ρ) c :=
  hconflict _ _ _ _ _ (hx.admissible _ _) (hy.admissible _ _) h

theorem Sound.swap (hconflict : Sound place ρ info conflict) :
    Sound place ρ info fun ysize y xsize x c => conflict xsize x ysize y (-c) := by
  intro xsize x ysize y c hx hy h
  have hapart := hconflict _ _ _ _ _ hy (by rwa [Int.sub_neg]) h
  have hsymm := hapart.symm
  rwa [Int.neg_neg] at hsymm

theorem apart_of_not_overlaps {a : ObjAddr Symbol}
    (h : (decide (xsize ≤ 0) || decide (ysize ≤ 0) || overlaps xsize ysize c) = false) :
    ObjAddr.Apart xsize a ysize a c := by
  simp only [overlaps, Bool.or_eq_false_iff, Bool.and_eq_false_iff, decide_eq_false_iff_not] at h
  obtain ⟨⟨hx, hy⟩, hc, hc'⟩ := h
  exact .inr ⟨by omega, by omega, by omega⟩

theorem sumsConflict_apart (hinfo : Consistent place ρ info) (hconflict : Sound place ρ info conflict)
    (hx : AndFree info (.plus x₀ x₁)) (hy : AndFree info (.plus y₀ y₁))
    (h : sumsConflict (rtxEqualForMemrefP info fuel) conflict xsize x₀ x₁ ysize y₀ y₁ c = some false) :
    ObjAddr.Apart xsize ((Addr.plus x₀ x₁).value place ρ) ysize ((Addr.plus y₀ y₁).value place ρ) c := by
  have hfreex := hx
  have hfreey := hy
  cases hx with
  | plus _ _ hx₀ hx₁ =>
  cases hy with
  | plus _ _ hy₀ hy₁ =>
  unfold sumsConflict at h
  rw [Option.bind_eq_bind, Option.bind_eq_some_iff] at h
  obtain ⟨b, hb, h⟩ := h
  cases b with
  | true =>
    rw [Addr.value, Addr.value, rtxEqual_value hinfo hb]
    exact (hconflict.andFree hx₀ hy₀ h).add_right _
  | false =>
    rw [if_neg Bool.false_ne_true, Option.bind_eq_some_iff] at h
    obtain ⟨b, hb', h⟩ := h
    cases b with
    | true =>
      rw [Addr.value, Addr.value, rtxEqual_value hinfo hb']
      exact (hconflict.andFree hx₁ hy₁ h).add_left _
    | false =>
      rw [if_neg Bool.false_ne_true] at h
      split at h
      · rw [Int.sub_eq_add_neg, Int.add_right_comm, ← Int.sub_eq_add_neg] at h
        exact (hconflict.andFree hx₀ hy₀ h).add_absolute_left.add_absolute_right
      · exact (hconflict.andFree hx₀ hfreey h).add_absolute_left
      · exact (hconflict.andFree hfreex hy₀ h).add_absolute_right
      · cases h

theorem productsConflict_apart (hinfo : Consistent place ρ info)
    (hconflict : Sound place ρ info conflict) (hx : AndFree info (.mult x₀ x₁))
    (hy : AndFree info (.mult y₀ y₁))
    (hne : rtxEqualForMemrefP info (fuel + 1) (.mult x₀ x₁) (.mult y₀ y₁) = some false)
    (h : productsConflict (canonRtx info (fuel + 1)) (rtxEqualForMemrefP info (fuel + 1)) conflict
      exactDivision xsize x₀ x₁ ysize y₀ y₁ c = some false) :
    ObjAddr.Apart xsize ((Addr.mult x₀ x₁).value place ρ) ysize ((Addr.mult y₀ y₁).value place ρ) c := by
  cases hx with
  | mult _ _ hx₀ hx₁ =>
  cases hy with
  | mult _ _ hy₀ hy₁ =>
  unfold productsConflict at h
  simp only [Option.bind_eq_bind, Option.bind_eq_some_iff] at h
  obtain ⟨x₁', hcx₁, y₁', hcy₁, b, hb, h⟩ := h
  cases b with
  | false => cases h
  | true =>
    simp only [Bool.not_true, Bool.false_eq_true, if_false, Option.bind_eq_some_iff] at h
    obtain ⟨x₀', hcx₀, y₀', hcy₀, b, hb', h⟩ := h
    cases b with
    | true =>
      -- equal factors have been seen before
      rw [rtxEqual_canon hcx₁ hcy₁] at hb
      rw [rtxEqual_canon hcx₀ hcy₀] at hb'
      rcases equalInSomeOrder_false hne with hlow | hlow
      · rw [rtxEqual_succ hlow] at hb'
        cases hb'
      · rw [rtxEqual_succ hlow] at hb
        cases hb
    | false =>
      simp only [Bool.false_eq_true, if_false] at h
      cases x₁' with
      | constInt k =>
        rw [Option.bind_eq_some_iff] at h
        obtain ⟨q, hq, h⟩ := h
        have hx₁value : x₁.value place ρ = .absolute k := (canonRtx_value hinfo hcx₁).symm
        have hy₁value : y₁.value place ρ = .absolute k := by
          rw [← canonRtx_value hinfo hcy₁, ← rtxEqual_value hinfo hb]
          rfl
        have happart := hconflict.andFree (hx₀.canonRtx hcx₀) (hy₀.canonRtx hcy₀) h
        rw [canonRtx_value hinfo hcx₀, canonRtx_value hinfo hcy₀] at happart
        rw [Addr.value, Addr.value, hx₁value, hy₁value]
        exact apart_of_division hq happart
      | _ => cases h

theorem object_ne_of_apart_neg {a b : ObjAddr Symbol} (h : ObjAddr.Apart (-1) a ysize b c) :
    a.object ≠ b.object :=
  h.resolve_right fun h => absurd h.1 (by decide)

theorem land_absolute_object (a : ObjAddr Symbol) (m : ℤ) :
    (a.land place (.absolute m)).object = a.object := add_zero _

/-- An AND on one side; its size is given up unless the other reference is aligned. -/
theorem apart_of_and {z : Addr} {mask : Int} (hconflict : Sound place ρ info conflict)
    (hcy : Canonical info y)
    (hmx : Masked info (.and z (.constInt mask)) ysize ((y.value place ρ).flat place + c))
    {position : ℤ} (hmy : Masked info y xsize position)
    (h : conflict (if y.isAnd || decide (ysize < -mask) then -1 else xsize) z ysize y c =
      some false) :
    ObjAddr.Apart xsize ((Addr.and z (.constInt mask)).value place ρ) ysize (y.value place ρ) c := by
  rcases hmx with hfree | ⟨z', j, heq, hz, halign⟩
  · cases hfree
  cases heq
  split at h
  · have hapart := hconflict _ _ _ _ _ (hz.admissible _ _)
      ((hmy.of_neg (by decide)).admissible hcy) h
    refine .inl ?_
    rw [Addr.value, Addr.value, land_absolute_object]
    exact object_ne_of_apart_neg hapart
  · next hbig =>
    simp only [Bool.or_eq_true, decide_eq_true_eq, not_or, Int.neg_neg, Int.not_lt] at hbig
    have hy : AndFree info y := hmy.andFree fun z w hyz => hbig.1 (by rw [hyz, Addr.isAnd])
    exact (hconflict.andFree hz hy h).align (halign hbig.2).1 (halign hbig.2).2

theorem othersConflict_apart (hinfo : Consistent place ρ info) (hconflict : Sound place ρ info conflict)
    (hcx : Canonical info x) (hcy : Canonical info y)
    (hmx : Masked info x ysize ((y.value place ρ).flat place + c))
    (hmy : Masked info y xsize ((x.value place ρ).flat place - c))
    (hne : rtxEqualForMemrefP info (fuel + 1) x y = some false)
    (h : othersConflict (canonRtx info (fuel + 1)) (rtxEqualForMemrefP info (fuel + 1)) conflict
      xsize x ysize y c = some false) :
    ObjAddr.Apart xsize (x.value place ρ) ysize (y.value place ρ) c := by
  unfold othersConflict at h
  split at h
  · exact apart_of_and hconflict hcy hmx hmy h
  · next y₀ mask hand =>
    have hmy' : Masked info (.and y₀ (.constInt mask)) xsize ((x.value place ρ).flat place + -c) := hmy
    have hapart := apart_of_and hconflict.swap hcx hmy' hmx (by rwa [Int.neg_neg])
    have hsymm := hapart.symm
    rwa [Int.neg_neg] at hsymm
  · next m n =>
    have hapart := @apart_of_not_overlaps _ _ _ (.absolute m) (Option.some.inj h)
    have hn : (ObjAddr.absolute n : ObjAddr Symbol) =
        (ObjAddr.absolute m).add (.absolute (n - m)) := by
      rw [ObjAddr.absolute_add, Int.add_comm, Int.sub_add_cancel]
    rw [Addr.value, Addr.value, hn]
    exact hapart.add_absolute_right
  · next x y _ _ =>
    simp only [Option.bind_eq_bind, Option.bind_eq_some_iff] at h
    obtain ⟨x', hx', y', hy', h⟩ := h
    cases hmx.andFree (by simp) with
    | const _ hx =>
    cases hmy.andFree (by simp) with
    | const _ hy =>
    have hapart := hconflict.andFree (hx.canonRtx hx') (hy.canonRtx hy') h
    rwa [canonRtx_value hinfo hx', canonRtx_value hinfo hy'] at hapart
  · next x y _ _ _ =>
    simp only [Option.bind_eq_bind, Option.bind_eq_some_iff] at h
    obtain ⟨x', hx', h⟩ := h
    cases hmx.andFree (by simp) with
    | const _ hx =>
    have hapart := hconflict _ _ _ _ _ ((hx.canonRtx hx').admissible _ _)
      (by rw [canonRtx_value hinfo hx']; exact hmy.admissible hcy) h
    rwa [canonRtx_value hinfo hx'] at hapart
  · next x y _ _ _ =>
    split at h
    · simp only [Option.bind_eq_bind, Option.bind_eq_some_iff] at h
      obtain ⟨y', hy', h⟩ := h
      cases hmy.andFree (by simp) with
      | const _ hy =>
      have hapart := hconflict _ _ _ _ _
        (by rw [canonRtx_value hinfo hy']; exact hmx.admissible hcx) ((hy.canonRtx hy').admissible _ _) h
      rwa [canonRtx_value hinfo hy'] at hapart
    · cases h
  · next hconstx _ hconsty hnumbers _ =>
    split at h
    · next hconstant =>
      rw [Bool.and_eq_true] at hconstant
      refine .inl fun hobject => ?_
      cases x with
      | symbolRef s =>
        cases y with
        | symbolRef s' =>
          obtain rfl := Finsupp.single_left_injective one_ne_zero hobject
          rw [rtxEqual_succ_eq, canonRtx_self hcx] at hne
          exact absurd (Option.some.inj hne) (by simp)
        | constInt n => exact Finsupp.single_ne_zero.2 one_ne_zero hobject
        | const y => exact hconsty y rfl
        | _ => cases hconstant.2
      | constInt m =>
        cases y with
        | symbolRef s' => exact Finsupp.single_ne_zero.2 one_ne_zero hobject.symm
        | constInt n => exact hnumbers m n rfl rfl
        | const y => exact hconsty y rfl
        | _ => cases hconstant.2
      | const x => exact hconstx x rfl
      | _ => cases hconstant.1
    · cases h

theorem registersConflict_apart (hinfo : Consistent place ρ info) (hconflict : Sound place ρ info conflict)
    {rx ry : Nat} (hx : AndFree info (.reg rx)) (hy : AndFree info (.reg ry))
    (h : registersConflict conflict info xsize rx ysize ry c = some false) :
    ObjAddr.Apart xsize (ρ rx) ysize (ρ ry) c := by
  have hrelated : ∀ r, AndFree info (.reg r) → AndFree info ((info.invariant r).getD (.reg r)) ∧
      ((info.invariant r).getD (.reg r)).value place ρ = ρ r := by
    intro r hr
    cases hi : info.invariant r with
    | none => exact ⟨hr, rfl⟩
    | some z =>
      cases hr with
      | reg _ known invariant => exact ⟨invariant z hi, hinfo.invariant r z hi⟩
  unfold registersConflict at h
  split at h
  · cases h
  · rw [← (hrelated rx hx).2, ← (hrelated ry hy).2]
    exact hconflict.andFree (hrelated rx hx).1 (hrelated ry hy).1 h

theorem unequalConflict_apart (hinfo : Consistent place ρ info) (hconflict : Sound place ρ info conflict)
    (hcx : Canonical info x) (hcy : Canonical info y)
    (hmx : Masked info x ysize ((y.value place ρ).flat place + c))
    (hmy : Masked info y xsize ((x.value place ρ).flat place - c))
    (hne : rtxEqualForMemrefP info (fuel + 1) x y = some false)
    (h : unequalConflict (canonRtx info (fuel + 1)) (rtxEqualForMemrefP info (fuel + 1)) conflict
      exactDivision info xsize x ysize y c = some false) :
    ObjAddr.Apart xsize (x.value place ρ) ysize (y.value place ρ) c := by
  unfold unequalConflict at h
  split at h
  · exact sumsConflict_apart hinfo hconflict (hmx.andFree (by simp))
      (hmy.andFree (by simp)) h
  · next x₀ m _ =>
    cases hmx.andFree (by simp) with
    | plus _ _ hx₀ _ =>
    refine ObjAddr.Apart.add_absolute_left (hconflict _ _ _ _ _ (hx₀.admissible _ _) ?_ h)
    refine Masked.admissible hcy ?_
    rw [Addr.value, ObjAddr.flat_add, Addr.value, ObjAddr.flat_absolute] at hmy
    rwa [show ((x₀.value place ρ).flat place - (c - m)) = (x₀.value place ρ).flat place + m - c by omega]
  · exact othersConflict_apart hinfo hconflict hcx hcy hmx hmy hne h
  · next y₀ n _ =>
    cases hmy.andFree (by simp) with
    | plus _ _ hy₀ _ =>
    refine ObjAddr.Apart.add_absolute_right (hconflict _ _ _ _ _ ?_ (hy₀.admissible _ _) h)
    refine Masked.admissible hcx ?_
    rw [Addr.value, ObjAddr.flat_add, Addr.value, ObjAddr.flat_absolute] at hmx
    rwa [show ((y₀.value place ρ).flat place + (c + n)) = (y₀.value place ρ).flat place + n + c by omega]
  · cases h
  · exact productsConflict_apart hinfo hconflict (hmx.andFree (by simp))
      (hmy.andFree (by simp)) hne h
  · exact registersConflict_apart hinfo hconflict (hmx.andFree (by simp))
      (hmy.andFree (by simp)) h
  · exact othersConflict_apart hinfo hconflict hcx hcy hmx hmy hne h

end Branches

section Conflicts

variable {place : Symbol → ℤ} {ρ : Nat → ObjAddr Symbol} {info : AliasInfo} {fuel : Nat}
  {xsize ysize c : Int} {x y : Addr}

theorem memrefsConflict_sound (hinfo : Consistent place ρ info) (fuel : Nat) :
    Sound place ρ info (memrefsConflictWith exactDivision info fuel) := by
  induction fuel with
  | zero =>
    intro xsize x ysize y c _ _ h
    cases h
  | succ fuel ih =>
    intro xsize x ysize y c hx hy h
    rw [memrefsConflictWith] at h
    simp only [Option.bind_eq_bind, Option.bind_eq_some_iff] at h
    obtain ⟨x', hx', y', hy', b, hb, h⟩ := h
    have hxvalue := canonRtx_value hinfo hx'
    have hyvalue := canonRtx_value hinfo hy'
    rw [← hxvalue, ← hyvalue]
    cases b with
    | true =>
      rw [rtxEqual_value hinfo hb]
      exact apart_of_not_overlaps (Option.some.inj h)
    | false =>
      refine unequalConflict_apart hinfo ih (canonRtx_canonical hx') (canonRtx_canonical hy') ?_ ?_ hb h
      · rw [hyvalue]
        exact hx _ _ hx'
      · rw [hxvalue]
        exact hy _ _ hy'

/-- Wherever `memrefs_conflict_p` divides by a common factor, the division tells the truth. -/
def ExactDivisions (info : AliasInfo) (fuel : Nat) (xsize : Int) (x : Addr) (ysize : Int) (y : Addr)
    (c : Int) : Prop :=
  memrefsConflictWith exactDivision info fuel xsize x ysize y c =
    memrefsConflictP info fuel xsize x ysize y c

/-- A reference stays in its object, or it is outside of all objects. -/
def InObject (place extent : Symbol → ℤ) (a : ObjAddr Symbol) (size : ℤ) : Prop :=
  (∃ s, a.object = Finsupp.single s 1 ∧ 0 ≤ a.offset ∧ a.offset + size ≤ extent s) ∨
    (a.object = 0 ∧ ∀ s, Disjoint (Set.Ico a.offset (a.offset + size))
      (Set.Ico (place s) (place s + extent s)))

theorem flat_single {a : ObjAddr Symbol} {s : Symbol} (h : a.object = Finsupp.single s 1) :
    a.flat place = place s + a.offset := by
  rw [ObjAddr.flat, h, Finsupp.linearCombination_single, one_smul]

theorem flat_zero {a : ObjAddr Symbol} (h : a.object = 0) : a.flat place = a.offset := by
  rw [ObjAddr.flat, h, map_zero, Int.zero_add]

theorem bytes_in_object {extent : Symbol → ℤ} {a : ObjAddr Symbol} {s : Symbol} {size : ℤ}
    (h : a.object = Finsupp.single s 1) (hlow : 0 ≤ a.offset) (hhigh : a.offset + size ≤ extent s) :
    Set.Ico (a.flat place) (a.flat place + size) ⊆ Set.Ico (place s) (place s + extent s) := by
  rw [flat_single h]
  exact Set.Ico_subset_Ico (by omega) (by omega)

/-- References in different objects have no byte in common. -/
theorem disjoint_of_object_ne {extent : Symbol → ℤ}
    (hplace : ∀ s s', s ≠ s' →
      Disjoint (Set.Ico (place s) (place s + extent s)) (Set.Ico (place s') (place s' + extent s')))
    {a b : ObjAddr Symbol} {m n : ℤ} (ha : InObject place extent a m) (hb : InObject place extent b n)
    (hne : a.object ≠ b.object) :
    Disjoint (Set.Ico (a.flat place) (a.flat place + m)) (Set.Ico (b.flat place) (b.flat place + n)) := by
  rcases ha with ⟨s, ha, halow, hahigh⟩ | ⟨ha, haout⟩
  · have hasub := @bytes_in_object place _ _ _ _ ha halow hahigh
    rcases hb with ⟨s', hb, hblow, hbhigh⟩ | ⟨hb, hbout⟩
    · have hss : s ≠ s' := fun heq => hne (by rw [ha, hb, heq])
      exact (hplace s s' hss).mono hasub (bytes_in_object hb hblow hbhigh)
    · rw [flat_zero hb]
      exact (hbout s).symm.mono_left hasub
  · rcases hb with ⟨s', hb, hblow, hbhigh⟩ | ⟨hb, -⟩
    · rw [flat_zero ha]
      exact (haout s').mono_right (bytes_in_object hb hblow hbhigh)
    · exact absurd (ha.trans hb.symm) hne

/-- No conflict is missed between references that stay in their objects. A size that is not positive
stands for any size. -/
theorem memrefs_conflict_sound {extent : Symbol → ℤ}
    (hplace : ∀ s s', s ≠ s' →
      Disjoint (Set.Ico (place s) (place s + extent s)) (Set.Ico (place s') (place s' + extent s')))
    (hinfo : Consistent place ρ info) (hrun : memrefsConflictP info fuel xsize x ysize y c = some false)
    (hexact : ExactDivisions info fuel xsize x ysize y c)
    (hx : Admissible info x ysize ((y.value place ρ).flat place + c))
    (hy : Admissible info y xsize ((x.value place ρ).flat place - c)) {m n : ℤ}
    (hm : 0 < xsize → m = xsize) (hn : 0 < ysize → n = ysize)
    (hxin : InObject place extent (x.value place ρ) m)
    (hyin : InObject place extent ((y.value place ρ).add (.absolute c)) n) :
    Disjoint (Set.Ico ((x.value place ρ).flat place) ((x.value place ρ).flat place + m))
      (Set.Ico ((y.value place ρ).flat place + c) ((y.value place ρ).flat place + c + n)) := by
  have hobject : ((y.value place ρ).add (.absolute c)).object = (y.value place ρ).object := add_zero _
  have hflat : ((y.value place ρ).add (.absolute c)).flat place = (y.value place ρ).flat place + c := by
    rw [ObjAddr.flat_add, ObjAddr.flat_absolute]
  by_cases heq : (x.value place ρ).object = (y.value place ρ).object
  · rcases memrefsConflict_sound hinfo fuel _ _ _ _ _ hx hy (hexact.trans hrun) with
      hne | ⟨hxs, hys, hoff⟩
    · exact absurd heq hne
    obtain rfl := hm hxs
    obtain rfl := hn hys
    rw [Set.disjoint_left]
    intro b hbx hby
    rw [Set.mem_Ico, ObjAddr.flat, heq] at hbx
    rw [Set.mem_Ico, ObjAddr.flat] at hby
    omega
  · rw [← hflat]
    exact disjoint_of_object_ne hplace hxin hyin (by rwa [hobject])

def noInfo : AliasInfo := ⟨fun _ => none, fun _ => none⟩

/-- An address as a number, with one number in all registers. -/
noncomputable def Addr.number (place : Symbol → ℤ) (n : ℤ) (x : Addr) : ℤ :=
  (x.value place fun _ => .absolute n).flat place

theorem consistent_noInfo (place : Symbol → ℤ) (ρ : Nat → ObjAddr Symbol) : Consistent place ρ noInfo :=
  ⟨fun _ _ h => absurd h.symm (Option.some_ne_none _), fun _ _ h => absurd h.symm (Option.some_ne_none _)⟩

/-- An aligned access through an AND, and the one after it; the register is 16. -/
theorem memrefs_conflict_sound_aligned :
    Disjoint (Set.Ico ((Addr.and (.reg 60) (.constInt (-8))).number (fun s => 40 + 10 * (s : ℤ)) 16)
        ((Addr.and (.reg 60) (.constInt (-8))).number (fun s => 40 + 10 * (s : ℤ)) 16 + 8))
      (Set.Ico ((Addr.plus (.reg 60) (.constInt 8)).number (fun s => 40 + 10 * (s : ℤ)) 16 + 0)
        ((Addr.plus (.reg 60) (.constInt 8)).number (fun s => 40 + 10 * (s : ℤ)) 16 + 0 + 8)) := by
  have hreg : AndFree noInfo (.reg 60) :=
    .reg 60 (fun _ h => absurd h.symm (Option.some_ne_none _)) fun _ h => absurd h.symm (Option.some_ne_none _)
  have hplus : AndFree noInfo (.plus (.reg 60) (.constInt 8)) := .plus _ _ hreg (.constInt 8)
  have hand : ((Addr.and (.reg 60) (.constInt (-8))).value (fun s => 40 + 10 * (s : ℤ))
      fun _ => .absolute 16) = .absolute 16 := by
    have hland : Int.land 16 (-8) = 16 := land_neg_two_pow 16 3
    refine ObjAddr.ext (add_zero _) ?_
    simp [Addr.value, ObjAddr.land, ObjAddr.flat, ObjAddr.absolute, hland]
  have hplace : ((Addr.plus (.reg 60) (.constInt 8)).value (fun s => 40 + 10 * (s : ℤ))
      fun _ => .absolute 16) = .absolute 24 := ObjAddr.absolute_add 16 8
  have haligned : Masked noInfo (.and (.reg 60) (.constInt (-8))) 8 (24 + 0) :=
    .inr ⟨.reg 60, 3, rfl, hreg, fun _ => ⟨by decide, by decide⟩⟩
  have hbefore (n : ℤ) (hn : n + 8 ≤ 40) (s : Symbol) :
      Disjoint (Set.Ico n (n + 8)) (Set.Ico (40 + 10 * (s : ℤ)) (40 + 10 * (s : ℤ) + 10)) := by
    rw [Set.disjoint_left]
    intro b hb hb'
    rw [Set.mem_Ico] at hb hb'
    omega
  have hrun : memrefsConflictP noInfo 3 8 (.and (.reg 60) (.constInt (-8))) 8
      (.plus (.reg 60) (.constInt 8)) 0 = some false := by decide
  have hexact : memrefsConflictWith exactDivision noInfo 3 8 (.and (.reg 60) (.constInt (-8))) 8
      (.plus (.reg 60) (.constInt 8)) 0 = some false := by decide
  refine @memrefs_conflict_sound (fun s => 40 + 10 * (s : ℤ)) (fun _ => .absolute 16) noInfo 3 8 8 0
    (.and (.reg 60) (.constInt (-8))) (.plus (.reg 60) (.constInt 8)) (fun _ => 10) (fun s s' hne => ?_)
    (consistent_noInfo _ _) hrun (hexact.trans hrun.symm) ?_ (hplus.admissible _ _) 8 8 (fun _ => rfl)
    (fun _ => rfl) (.inr ⟨?_, ?_⟩) (.inr ⟨?_, ?_⟩)
  · rw [Set.disjoint_left]
    intro b hb hb'
    rw [Set.mem_Ico] at hb hb'
    have hcast : (s : ℤ) ≠ s' := Nat.cast_injective.ne hne
    omega
  · rw [hplace, ObjAddr.flat_absolute]
    exact haligned.admissible (by simp [Canonical])
  · rw [hand, ObjAddr.absolute]
  · rw [hand]
    exact hbefore 16 (by decide)
  · rw [hplace, ObjAddr.absolute_add, ObjAddr.absolute]
  · rw [hplace, ObjAddr.absolute_add]
    exact hbefore 24 (by decide)

/-- References that leave their objects or are not aligned, and a division that is not exact. -/
theorem memrefs_conflict_missed :
    (memrefsConflictP noInfo 3 2 (.const (.plus (.symbolRef 0) (.constInt 2))) 2 (.symbolRef 1) 0 =
        some false ∧
      (Addr.const (.plus (.symbolRef 0) (.constInt 2))).number (fun s => 2 * (s : ℤ)) 9 =
        (Addr.symbolRef 1).number (fun s => 2 * (s : ℤ)) 9) ∧
    (memrefsConflictP noInfo 4 8 (.and (.reg 60) (.constInt (-8))) 8
        (.plus (.reg 60) (.constInt (-8))) 0 = some false ∧
      (Addr.and (.reg 60) (.constInt (-8))).number (fun s => 2 * (s : ℤ)) 9 = 8 ∧
      (Addr.plus (.reg 60) (.constInt (-8))).number (fun s => 2 * (s : ℤ)) 9 = 1) ∧
    memrefsConflictP noInfo 4 4 (.mult (.reg 60) (.constInt 3)) 4
        (.mult (.plus (.reg 60) (.constInt 1)) (.constInt 3)) 0 = some false ∧
      (Addr.mult (.reg 60) (.constInt 3)).number (fun s => 2 * (s : ℤ)) 9 = 27 ∧
      (Addr.mult (.plus (.reg 60) (.constInt 1)) (.constInt 3)).number (fun s => 2 * (s : ℤ)) 9 = 30 := by
  have hand : Int.land 9 (-8) = 8 := land_neg_two_pow 9 3
  refine ⟨⟨rfl, ?_⟩, ⟨rfl, ?_, ?_⟩, rfl, ?_, ?_⟩
  · simp [Addr.number, Addr.value]
  · simp [Addr.number, Addr.value, hand]
  · simp [Addr.number, Addr.value]
  · simp [Addr.number, Addr.value]
  · simp [Addr.number, Addr.value]

end Conflicts

end Z80Gcc.MemrefConflict
