import Z80Gcc.Lib.Leb128
import Z80Gcc.Proofs.DebugInfo

/-! The LEB128 quantities are read back as they were written, and nothing shorter is. -/

namespace Z80Gcc.Dwarf

theorem decode_outputUleb128 (value : Nat) (rest : List Nat) :
    Leb128.decodeUnsigned (outputUleb128 value ++ rest) = some (value, rest) := by
  induction value using outputUleb128.induct with
  | case1 value hlast =>
    rw [outputUleb128, if_pos hlast, List.singleton_append,
      Leb128.decodeUnsigned_last (Nat.mod_lt _ (by decide))]
    congr 2
    omega
  | case2 value hmore ih =>
    rw [outputUleb128, if_neg hmore, List.cons_append,
      Leb128.decodeUnsigned_more (Nat.mod_lt _ (by decide)) ih, Nat.mod_add_div]

/-- All but the first byte are needed for the rest of the value. -/
theorem outputUleb128_least (value : Nat) :
    (outputUleb128 value).length = 1 ∨ 128 ^ ((outputUleb128 value).length - 1) ≤ value := by
  induction value using outputUleb128.induct with
  | case1 value hlast =>
    left
    rw [outputUleb128, if_pos hlast, List.length_singleton]
  | case2 value hmore ih =>
    right
    rw [outputUleb128, if_neg hmore, List.length_cons, Nat.add_sub_cancel]
    obtain hone | hle := ih
    · rw [hone, pow_one]
      omega
    · obtain ⟨k, hk⟩ : ∃ k, (outputUleb128 (value / 128)).length = k + 1 := by
        refine ⟨(outputUleb128 (value / 128)).length - 1, (Nat.sub_add_cancel ?_).symm⟩
        rw [outputUleb128]
        split <;> simp
      rw [hk, Nat.add_sub_cancel] at hle
      rw [hk, Nat.pow_succ]
      omega

theorem slebDone_iff (value : Int) : slebDone value = true ↔ -64 ≤ value ∧ value < 64 := by
  simp only [slebDone, Bool.or_eq_true, Bool.and_eq_true, decide_eq_true_eq]
  omega

theorem decode_outputSleb128 (value : Int) (rest : List Nat) :
    Leb128.decodeSigned (outputSleb128 value ++ rest) = some (value, rest) := by
  induction value using outputSleb128.induct with
  | case1 value hlast =>
    rw [outputSleb128, dif_pos hlast, List.singleton_append]
    rw [slebDone_iff] at hlast
    refine Leb128.decodeSigned_last (by omega) ?_
    omega
  | case2 value hmore ih =>
    have hlow : (((value % 128).toNat : Nat) : Int) = value % 128 := by omega
    rw [outputSleb128, dif_neg hmore, List.cons_append, Leb128.decodeSigned_more (by omega) ih, hlow,
      Int.emod_add_mul_ediv]

theorem outputSleb128_least (value : Int) :
    (outputSleb128 value).length = 1 ∨ (128 : Int) ^ ((outputSleb128 value).length - 1) ≤ 2 * value ∨
      2 * value + 2 ≤ -(128 : Int) ^ ((outputSleb128 value).length - 1) := by
  induction value using outputSleb128.induct with
  | case1 value hlast =>
    left
    rw [outputSleb128, dif_pos hlast, List.length_singleton]
  | case2 value hmore ih =>
    right
    rw [outputSleb128, dif_neg hmore, List.length_cons, Nat.add_sub_cancel]
    rw [slebDone_iff] at hmore
    obtain hone | hrange := ih
    · rw [hone, pow_one]
      omega
    · obtain ⟨k, hk⟩ : ∃ k, (outputSleb128 (value / 128)).length = k + 1 := by
        refine ⟨(outputSleb128 (value / 128)).length - 1, (Nat.sub_add_cancel ?_).symm⟩
        rw [outputSleb128]
        split <;> simp
      rw [hk, Nat.add_sub_cancel] at hrange
      rw [hk, pow_succ]
      omega

/-- Every value is read back with nothing left over, nothing shorter is read as it, and the lengths are those
that the sizes count. -/
theorem leb128_round_trip :
    (∀ value : Nat, Leb128.decodeUnsigned (outputUleb128 value) = some (value, []) ∧
      (∀ l, Leb128.decodeUnsigned l = some (value, []) → (outputUleb128 value).length ≤ l.length) ∧
      (outputUleb128 value).length = sizeOfUleb128 value) ∧
    ∀ value : Int, Leb128.decodeSigned (outputSleb128 value) = some (value, []) ∧
      (∀ l, Leb128.decodeSigned l = some (value, []) → (outputSleb128 value).length ≤ l.length) ∧
      (outputSleb128 value).length = sizeOfSleb128 value := by
  refine ⟨fun value => ⟨?_, fun l hl => ?_, outputUleb128_length value⟩,
    fun value => ⟨?_, fun l hl => ?_, outputSleb128_length value⟩⟩
  · simpa using decode_outputUleb128 value []
  · have hpos : l.length ≠ 0 := fun h => by
      rw [List.length_eq_zero_iff.1 h] at hl
      cases hl
    obtain hone | hle := outputUleb128_least value
    · omega
    · have hlt := Leb128.length_of_unsigned hl hle
      omega
  · simpa using decode_outputSleb128 value []
  · have hpos : l.length ≠ 0 := fun h => by
      rw [List.length_eq_zero_iff.1 h] at hl
      cases hl
    obtain hone | hrange := outputSleb128_least value
    · omega
    · have hlt := Leb128.length_of_signed hl (hrange.imp id fun h => by omega)
      omega

end Z80Gcc.Dwarf
