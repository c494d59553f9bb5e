import Z80Gcc.Spec.LegitimateAddress
import Mathlib.Tactic.NormNum

/-! An address that reload accepts reaches all its bytes from IX or IY, and so do the two halves of
the access. -/

namespace Z80Gcc

namespace AddressRtx

variable {h : Host} {renumber : RegRenumber} {x : AddressRtx h} {n size : Nat} {v : Int}

theorem regValidForBase_iff {r : Int} :
    regValidForBase r = true ↔ r = hardIxRegnum ∨ r = hardIyRegnum := by
  simp [regValidForBase, firstPseudoRegister, hardIxRegnum, hardIyRegnum]
  rintro (rfl | rfl) <;> decide

theorem value_of_regnoOkForBase (hn : regnoOkForBase renumber n = true) :
    ∃ r : BaseReg, ∀ m, (reg n : AddressRtx h).value renumber m = some (m.pair r.pair) := by
  have hhard : ∀ regno : Int, regValidForBase regno = true →
      ∃ r : BaseReg, ∀ m, hardReg m regno = some (m.pair r.pair) := by
    intro regno hr
    rcases regValidForBase_iff.mp hr with rfl | rfl
    · exact ⟨.ix, fun m => rfl⟩
    · exact ⟨.iy, fun m => rfl⟩
  unfold regnoOkForBase at hn
  split_ifs at hn with hlt
  · simpa [value, hlt] using hhard n hn
  · cases renumber with
    | none => simp at hn
    | some f => simpa [value, hlt] using hhard (f n) hn

section Accepted

theorem registerIndirect_reg (hn : regnoOkForBase renumber n = true) :
    goIfLegitimateAddress renumber (reg n : AddressRtx h) size true = true := by
  simp [goIfLegitimateAddress, constantP, registerIndirect, regnoOkForBase2, hn]

theorem registerIndirect_plus (hn : regnoOkForBase renumber n = true) (hmin : z80MinOffset ≤ v)
    (hmax : v ≤ z80MaxOffset - (size + 1)) :
    goIfLegitimateAddress renumber (plus (reg n) (constInt v) : AddressRtx h) size true = true := by
  simp [goIfLegitimateAddress, constantP, registerIndirect, validConstantOffset, regnoOkForBase2,
    hn, hmin, hmax]

theorem strict_cases (hx : goIfLegitimateAddress renumber x size true = true) :
    x.constantP = true ∨ x.pushPopAddress = true ∨
      (∃ n, x = reg n ∧ regnoOkForBase renumber n = true) ∨
      ∃ n v, x = plus (reg n) (constInt v) ∧ regnoOkForBase renumber n = true ∧
        z80MinOffset ≤ v ∧ v ≤ z80MaxOffset - (size + 1) := by
  unfold goIfLegitimateAddress at hx
  split_ifs at hx with hc hr
  · exact .inl hc
  · refine .inr (.inr ?_)
    unfold registerIndirect at hr
    split at hr <;> try contradiction
    · next n offset =>
      cases hv : validConstantOffset offset size with
      | false => simp [hv] at hr
      | true =>
        cases offset <;> simp only [validConstantOffset, Bool.false_eq_true] at hv
        rw [Bool.and_eq_true, decide_eq_true_eq, decide_eq_true_eq] at hv
        exact .inr ⟨_, _, rfl, by simpa [validConstantOffset, hv, regnoOkForBase2] using hr, hv⟩
    · exact .inl ⟨_, rfl, hr⟩
  · exact .inr (.inl hx)

theorem nonstrict_of_strict (hx : goIfLegitimateAddress renumber x size true = true) :
    goIfLegitimateAddress renumber x size false = true := by
  rcases strict_cases hx with hc | hp | ⟨n, rfl, hn⟩ | ⟨n, v, rfl, hn, hmin, hmax⟩
  · simp [goIfLegitimateAddress, hc]
  · simp [goIfLegitimateAddress, hp]
  · have hnon : regnoOkForBaseNonstrict renumber n = true := by
      unfold regnoOkForBase at hn
      split_ifs at hn with hlt
      · simp [regnoOkForBaseNonstrict, hn]
      · simp [regnoOkForBaseNonstrict, Nat.le_of_not_lt hlt]
    simp [goIfLegitimateAddress, constantP, registerIndirect, regnoOkForBase2, hnon]
  · simp [goIfLegitimateAddress, constantP, registerIndirect, validConstantOffset, hmin, hmax]

end Accepted

section Bytes

theorem signExtend_ofInt {d : Int} (hmin : -128 ≤ d) (hmax : d ≤ 127) :
    (BitVec.ofInt 8 d).signExtend 16 = BitVec.ofInt 16 d := by
  have h8 : (BitVec.ofInt 8 d).toInt = d := by
    rw [BitVec.toInt_ofInt]
    exact Int.bmod_eq_of_le (by norm_num; omega) (by norm_num; omega)
  rw [BitVec.signExtend, h8]

/-- A base register with a displacement that leaves room for the whole access. -/
theorem indexed_of_value {r : BaseReg} {d : Int} (hmin : -128 ≤ d) (hmax : d + size ≤ 128)
    (hx : ∀ m, x.value renumber m = some (m.pair r.pair + BitVec.ofInt 16 d)) :
    x.Indexed renumber size := by
  refine ⟨r, fun i hi => ⟨BitVec.ofInt 8 (d + i), fun m => ?_⟩⟩
  rw [hx, signExtend_ofInt (by omega) (by omega), BitVec.ofInt_add, ← BitVec.add_assoc]
  rfl

theorem indexed_of_strict (hs : size ≤ 4)
    (hx : goIfLegitimateAddress renumber x size true = true) :
    x.constantP = true ∨ x.pushPopAddress = true ∨ x.Indexed renumber size := by
  rcases strict_cases hx with hc | hp | ⟨n, rfl, hn⟩ | ⟨n, v, rfl, hn, hmin, hmax⟩
  · exact .inl hc
  · exact .inr (.inl hp)
  · obtain ⟨r, hr⟩ := value_of_regnoOkForBase (h := h) hn
    refine .inr (.inr (indexed_of_value (r := r) (d := 0) (by omega) (by omega) ?_))
    intro m
    rw [hr]
    simp
  · obtain ⟨r, hr⟩ := value_of_regnoOkForBase (h := h) hn
    unfold z80MinOffset at hmin
    unfold z80MaxOffset at hmax
    refine .inr (.inr (indexed_of_value (r := r) (d := v) hmin (by omega) ?_))
    intro m
    rw [value, hr]
    rfl

end Bytes

section Halves

/-- The upper half of an access is half its size further on. -/
theorem genHighpart_eq {half : Nat} (hhalf : half = 1 ∨ half = 2) :
    (plus (reg n) (constInt v) : AddressRtx h).genHighpart renumber half (2 * half) =
      changeAddress renumber half (plusConstantEnd (reg n) (half + v) false) := by
  rcases hhalf with rfl | rfl <;> rfl

theorem genLowpart_eq {half : Nat} :
    (plus (reg n) (constInt v) : AddressRtx h).genLowpart renumber half =
      changeAddress renumber half (plus (reg n) (constInt v)) := rfl

theorem changeAddress_of_strict (hx : goIfLegitimateAddress renumber x size true = true) :
    changeAddress renumber size x = some x := by
  rw [changeAddress, if_pos (nonstrict_of_strict hx)]

theorem plusConstantEnd_reg (d : Int) :
    plusConstantEnd (reg n : AddressRtx h) d false =
      if d ≠ 0 then plus (reg n) (constInt d) else reg n := by
  by_cases hd : d = 0 <;> simp [plusConstantEnd, hd]

/-- The two halves of an access through a register with a displacement. -/
theorem halves_of_strict {half : Nat} (hhalf : half = 1 ∨ half = 2)
    (hn : regnoOkForBase renumber n = true) (hmin : z80MinOffset ≤ v)
    (hmax : v ≤ z80MaxOffset - ((2 * half : Nat) + 1)) :
    ∃ low high : AddressRtx h,
      (plus (reg n) (constInt v) : AddressRtx h).genLowpart renumber half = some low ∧
      (plus (reg n) (constInt v) : AddressRtx h).genHighpart renumber half (2 * half) =
        some high ∧
      goIfLegitimateAddress renumber low half true = true ∧
      goIfLegitimateAddress renumber high half true = true ∧
      ∀ m, low.value renumber m = (plus (reg n) (constInt v) : AddressRtx h).value renumber m ∧
        high.value renumber m =
          ((plus (reg n) (constInt v) : AddressRtx h).value renumber m).map
            (· + BitVec.ofNat 16 half) := by
  unfold z80MinOffset at hmin
  unfold z80MaxOffset at hmax
  have hlow : goIfLegitimateAddress renumber (plus (reg n) (constInt v) : AddressRtx h) half true =
      true :=
    registerIndirect_plus hn hmin (by unfold z80MaxOffset; omega)
  have hhigh : goIfLegitimateAddress renumber
      (plusConstantEnd (reg n : AddressRtx h) (half + v) false) half true = true := by
    rw [plusConstantEnd_reg]
    split_ifs with hd
    · exact registerIndirect_plus hn (by unfold z80MinOffset; omega)
        (by unfold z80MaxOffset; omega)
    · exact registerIndirect_reg hn
  obtain ⟨r, hr⟩ := value_of_regnoOkForBase (h := h) hn
  refine ⟨_, _, genLowpart_eq.trans (changeAddress_of_strict hlow),
    (genHighpart_eq hhalf).trans (changeAddress_of_strict hhigh), hlow, hhigh,
    fun m => ⟨rfl, ?_⟩⟩
  have hsum : (plus (reg n) (constInt v) : AddressRtx h).value renumber m =
      some (m.pair r.pair + BitVec.ofInt 16 v) := by
    rw [value, hr]
    rfl
  have hofs : BitVec.ofInt 16 (half + v) = BitVec.ofInt 16 v + BitVec.ofNat 16 half := by
    rw [BitVec.ofInt_add, BitVec.add_comm]
    rfl
  rw [hsum, plusConstantEnd_reg, Option.map_some, BitVec.add_assoc, ← hofs]
  split_ifs with hd
  · rw [value, hr]
    rfl
  · rw [hr, show (half : Int) + v = 0 by omega]
    simp

end Halves

/-- An address that is accepted in strict mode is a constant, a push or pop address or reaches all
its bytes from IX or IY; the halves of an access through a register with a displacement are
accepted for their own size; and it is accepted in non-strict mode. -/
theorem legitimate_address_splits (renumber : RegRenumber) (size : Nat)
    (hsize : size = 1 ∨ size = 2 ∨ size = 4) (x : AddressRtx h)
    (hx : goIfLegitimateAddress renumber x size true = true) :
    (x.constantP = true ∨ x.pushPopAddress = true ∨ x.Indexed renumber size) ∧
      (∀ base offset, x = plus base offset → ∀ half, half = 1 ∨ half = 2 → size = 2 * half →
        ∃ low high, x.genLowpart renumber half = some low ∧
          x.genHighpart renumber half size = some high ∧
          goIfLegitimateAddress renumber low half true = true ∧
          goIfLegitimateAddress renumber high half true = true ∧
          ∀ m, low.value renumber m = x.value renumber m ∧
            high.value renumber m = (x.value renumber m).map (· + BitVec.ofNat 16 half)) ∧
      goIfLegitimateAddress renumber x size false = true := by
  refine ⟨indexed_of_strict (by omega) hx, ?_, nonstrict_of_strict hx⟩
  rintro base offset rfl half hhalf rfl
  rcases strict_cases hx with hc | hp | ⟨n, hn, -⟩ | ⟨n, v, hn, hok, hmin, hmax⟩
  · simp [constantP] at hc
  · simp [pushPopAddress] at hp
  · cases hn
  · cases hn
    exact halves_of_strict hhalf hok hmin hmax

/-- A four-byte access at the lowest displacement from the frame pointer. -/
theorem legitimate_address_splits_frame :
    goIfLegitimateAddress none (plus (reg 5) (constInt (-128)) : AddressRtx host32) 4 false =
      true :=
  (legitimate_address_splits none 4 (by decide) (plus (reg 5) (constInt (-128))) (by decide)).2.2

end AddressRtx

end Z80Gcc
