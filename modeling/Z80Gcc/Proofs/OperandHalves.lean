import Mathlib.Data.List.GetD
import Z80Gcc.Proofs.FitType
import Z80Gcc.Proofs.LegitimateAddress
import Z80Gcc.Spec.OperandHalves

/-! `z80_gen_lowpart` and `z80_gen_highpart` return the two halves of an operand; of IX and IY both return the high one. -/

namespace Z80Gcc.OperandHalves

open AddressRtx

variable {h : Host}

section Bytes

variable (env : Env)

theorem number_append (l r : List Loc) : env.number (l ++ r) = env.number l + 2 ^ (8 * l.length) * env.number r := by
  induction l with
  | nil => simp [Env.number]
  | cons loc l ih =>
    rw [List.cons_append, Env.number, Env.number, ih, List.length_cons, Nat.mul_succ, Nat.pow_add]
    ring

@[simp] theorem length_cells (a : BitVec 16) (size : Nat) : (cells a size).length = size := by
  rw [cells, List.length_map, List.length_range]

theorem cells_add (a : BitVec 16) (m n : Nat) : cells a (m + n) = cells a m ++ cells (a + BitVec.ofNat 16 m) n := by
  have hshift (i : Nat) : a + BitVec.ofNat 16 (m + i) = a + BitVec.ofNat 16 m + BitVec.ofNat 16 i := by
    rw [BitVec.ofNat_add, BitVec.add_assoc]
  unfold cells
  rw [List.range_add, List.map_append, List.map_map]
  congr 1
  exact List.map_congr_left fun i _ => congrArg Loc.cell (hshift i)

theorem cells_disjoint (a : BitVec 16) {m n : Nat} (hsize : m + n ≤ 2 ^ 16) :
    List.Disjoint (cells a m) (cells (a + BitVec.ofNat 16 m) n) := by
  intro loc hlow hhigh
  obtain ⟨i, hi, rfl⟩ := List.mem_map.1 hlow
  obtain ⟨j, hj, heq⟩ := List.mem_map.1 hhigh
  rw [List.mem_range] at hi hj
  have hofs := Loc.cell.inj heq
  rw [BitVec.add_assoc, BitVec.add_right_inj, ← BitVec.ofNat_add, ← BitVec.toNat_inj, BitVec.toNat_ofNat,
    BitVec.toNat_ofNat, Nat.mod_eq_of_lt (by omega), Nat.mod_eq_of_lt (by omega)] at hofs
  omega

end Bytes

section Addresses

variable (env : Env)

theorem address_plusConstantEnd (x : AddressRtx h) (c : Int) (allConstant : Bool) :
    env.address (plusConstantEnd x c allConstant) = env.address x + BitVec.ofInt 16 c := by
  have hsum : env.address (if c ≠ 0 then plus x (AddressRtx.constInt c) else x) = env.address x + BitVec.ofInt 16 c := by
    split_ifs with hc
    · rfl
    · rw [not_not.1 hc]
      exact (BitVec.add_zero _).symm
  unfold plusConstantEnd
  rw [← hsum]
  generalize (if c ≠ 0 then plus x (AddressRtx.constInt c) else x) = y
  cases y <;> cases allConstant <;> rfl

theorem address_plusConstantRestart (x : AddressRtx h) (c : Int) (allConstant : Bool) :
    env.address (plusConstantRestart x c allConstant) = env.address x + BitVec.ofInt 16 c := by
  have hbits : 16 ≤ h.bits := by
    have hwide := h.wide
    omega
  fun_induction plusConstantRestart x c allConstant with
  | case1 v c allConstant => exact BitVec.ofInt_add v c
  | case2 v c allConstant =>
    change (v.low + BitVec.ofInt h.bits c).setWidth 16 = v.low.setWidth 16 + BitVec.ofInt 16 c
    rw [BitVec.setWidth_add _ _ hbits, setWidth_ofInt hbits]
  | case3 x c allConstant ih => exact ih
  | case4 => exact address_plusConstantEnd env _ _ _
  | case5 => exact address_plusConstantEnd env _ _ _
  | case6 x v c allConstant ih =>
    rw [ih, BitVec.ofInt_add]
    change _ = env.address x + BitVec.ofInt 16 v + BitVec.ofInt 16 c
    rw [BitVec.add_assoc, BitVec.add_comm (BitVec.ofInt 16 c)]
  | case7 x y c allConstant hy hconst ih =>
    have hmoved : env.address (if c = 0 then x else plusConstantRestart x c false) = env.address x + BitVec.ofInt 16 c := by
      split_ifs with hc
      · rw [hc]
        exact (BitVec.add_zero _).symm
      · exact ih
    rw [address_plusConstantEnd]
    change env.address _ + env.address y + 0#16 = env.address x + env.address y + BitVec.ofInt 16 c
    rw [hmoved, BitVec.add_zero, BitVec.add_assoc, BitVec.add_assoc, BitVec.add_comm (BitVec.ofInt 16 c)]
  | case8 x y c allConstant hy hconst hconst' ih =>
    have hmoved : env.address (if c = 0 then y else plusConstantRestart y c false) = env.address y + BitVec.ofInt 16 c := by
      split_ifs with hc
      · rw [hc]
        exact (BitVec.add_zero _).symm
      · exact ih
    rw [address_plusConstantEnd]
    change env.address x + env.address _ + 0#16 = env.address x + env.address y + BitVec.ofInt 16 c
    rw [hmoved, BitVec.add_zero, BitVec.add_assoc]
  | case9 => exact address_plusConstantEnd env _ _ _
  | case10 => exact address_plusConstantEnd env _ _ _

theorem address_plusConstant (x : AddressRtx h) (c : Int) :
    env.address (x.plusConstant c) = env.address x + BitVec.ofInt 16 c := by
  unfold plusConstant
  split_ifs with hc
  · rw [hc]
    exact (BitVec.add_zero _).symm
  · exact address_plusConstantRestart env x c false

end Addresses

section Valid

variable {renumber : RegRenumber} {x : AddressRtx h} {size : Nat} {strict : Bool}

theorem valid_cases (hx : goIfLegitimateAddress renumber x size strict = true) :
    x.constantP = true ∨ (∃ n, x = reg n) ∨ (∃ n v, x = plus (reg n) (AddressRtx.constInt v)) ∨
      ∃ n, x = preDec (reg n) ∨ x = postInc (reg n) := by
  unfold goIfLegitimateAddress at hx
  split_ifs at hx with hconst hindirect
  · exact .inl hconst
  · unfold registerIndirect at hindirect
    split at hindirect <;> try contradiction
    · next n offset =>
      cases offset with
      | constInt v => exact .inr (.inr (.inl ⟨n, v, rfl⟩))
      | _ => simp [validConstantOffset] at hindirect
    · next n => exact .inr (.inl ⟨n, rfl⟩)
  · unfold pushPopAddress at hx
    split at hx <;> try contradiction
    · next n => exact .inr (.inr (.inr ⟨n, .inl rfl⟩))
    · next n => exact .inr (.inr (.inr ⟨n, .inr rfl⟩))

theorem autoInc_of_constantP (hx : x.constantP = true) : x.autoInc = false := by
  cases x <;> first | rfl | cases hx

theorem constantP_plusConstantEnd (c : Int) {allConstant : Bool} (hall : allConstant = true) :
    (plusConstantEnd x c allConstant).constantP = true := by
  subst hall
  unfold plusConstantEnd
  split <;> rfl

theorem constantP_plusConstantRestart (x : AddressRtx h) (c : Int) : (plusConstantRestart x c true).constantP = true := by
  suffices h : ∀ allConstant, allConstant = true → (plusConstantRestart x c allConstant).constantP = true from h true rfl
  intro allConstant hall
  fun_induction plusConstantRestart x c allConstant with
  | case1 => rfl
  | case2 => rfl
  | case3 x c allConstant ih => exact ih rfl
  | case4 => exact constantP_plusConstantEnd _ rfl
  | case5 => exact constantP_plusConstantEnd _ rfl
  | case6 x v c allConstant ih => exact ih hall
  | case7 => exact constantP_plusConstantEnd _ hall
  | case8 => exact constantP_plusConstantEnd _ hall
  | case9 => exact constantP_plusConstantEnd _ hall
  | case10 => exact constantP_plusConstantEnd _ hall

/-- What is added to a constant address leaves it one, but for the two kinds that no sum is built of. -/
theorem plusConstant_of_constantP (hx : x.constantP = true) (c : Int) :
    (x.plusConstant c).autoInc = false ∧
      ((∀ y, x ≠ AddressRtx.high y ∧ x ≠ constantPRtx y) → (x.plusConstant c).constantP = true) := by
  unfold plusConstant
  split_ifs with hc
  · exact ⟨autoInc_of_constantP hx, fun _ => hx⟩
  suffices hcases : (plusConstantRestart x c false).constantP = true ∨
      ∃ y, (x = AddressRtx.high y ∨ x = constantPRtx y) ∧ plusConstantRestart x c false = plus x (AddressRtx.constInt c) by
    obtain hconst | ⟨y, hy, hsum⟩ := hcases
    · exact ⟨autoInc_of_constantP hconst, fun _ => hconst⟩
    · rw [hsum]
      refine ⟨rfl, fun hne => ?_⟩
      obtain rfl | rfl := hy
      · exact absurd rfl (hne y).1
      · exact absurd rfl (hne y).2
  cases x with
  | constInt v => exact .inl rfl
  | constDouble v => exact .inl rfl
  | symbolRef name => exact .inl (constantP_plusConstantEnd c rfl)
  | labelRef label => exact .inl (constantP_plusConstantEnd c rfl)
  | const x => exact .inl (constantP_plusConstantRestart x c)
  | high x =>
    have hsum : plusConstantRestart (AddressRtx.high x) c false = plus (AddressRtx.high x) (AddressRtx.constInt c) := by
      unfold plusConstantRestart plusConstantEnd
      rw [if_pos hc]
      rfl
    exact .inr ⟨x, .inl rfl, hsum⟩
  | constantPRtx x =>
    have hsum : plusConstantRestart (constantPRtx x) c false = plus (constantPRtx x) (AddressRtx.constInt c) := by
      unfold plusConstantRestart plusConstantEnd
      rw [if_pos hc]
      rfl
    exact .inr ⟨x, .inr rfl, hsum⟩
  | reg n => cases hx
  | plus x y => cases hx
  | preInc x => cases hx
  | preDec x => cases hx
  | postInc x => cases hx
  | postDec x => cases hx
  | other n => cases hx

theorem autoInc_plusConstant (hx : goIfLegitimateAddress renumber x size strict = true) (hauto : x.autoInc = false)
    (c : Int) : (x.plusConstant c).autoInc = false := by
  obtain hconst | ⟨n, rfl⟩ | ⟨n, v, rfl⟩ | ⟨n, rfl | rfl⟩ := valid_cases hx
  · exact (plusConstant_of_constantP hconst c).1
  · unfold plusConstant
    split_ifs with hc
    · rfl
    · change (plusConstantEnd (reg n) c false).autoInc = false
      rw [plusConstantEnd_reg, if_pos hc]
      rfl
  · unfold plusConstant
    split_ifs with hc
    · rfl
    · change (plusConstantEnd (reg n) (c + v) false).autoInc = false
      rw [plusConstantEnd_reg]
      split_ifs <;> rfl
  · cases hauto
  · cases hauto

end Valid

section Place

variable {renumber : RegRenumber} {phase : Phase} {size : Nat} {x : AddressRtx h} (env : Env)

theorem place_of_autoInc (hx : x.autoInc = false) (size : Nat) : env.place size x = (env.address x, env) := by
  cases x <;> first | rfl | cases hx

/-- Whatever register an address is put into, the place is the same. -/
theorem changeAddress_place {addr : MemAddress h} (hx : x.autoInc = false)
    (haddr : changeAddress renumber phase size x = some addr) (n : Nat) : addr.place env n = (env.address x, env) := by
  have hdirect : (MemAddress.direct x).place env n = (env.address x, env) := place_of_autoInc env hx n
  have hforced : (MemAddress.forced x).place env n = (env.address x, env) := rfl
  cases phase with
  | reload =>
    unfold changeAddress AddressRtx.changeAddress at haddr
    dsimp only at haddr
    split_ifs at haddr with hvalid
    · cases haddr
      exact hdirect
    · cases haddr
  | expand cseNotExpected forceAddr =>
    have hcases : memoryAddress renumber cseNotExpected forceAddr size x = .direct x ∨
        memoryAddress renumber cseNotExpected forceAddr size x = .forced x := by
      unfold memoryAddress
      by_cases hconst : (!cseNotExpected && x.constantP) = true
      · rw [if_pos hconst]
        exact .inr rfl
      rw [if_neg hconst]
      by_cases hvalid : goIfLegitimateAddress renumber x size false = true
      · rw [if_pos hvalid]
        split
        · exact .inl rfl
        · split_ifs
          · exact .inr rfl
          · exact .inl rfl
      · rw [if_neg hvalid]
        exact .inr rfl
    have haddr := Option.some.inj haddr
    obtain heq | heq := hcases
    · rw [← haddr, heq]
      exact hdirect
    · rw [← haddr, heq]
      exact hforced

end Place

section Halves

variable {renumber : RegRenumber} {phase : Phase} {mode : PartMode} {op : Operand h renumber phase mode}
  {low high : HalfOperand h} {env : Env}

theorem two_mul_size_le (mode : PartMode) : mode.size + mode.size ≤ 2 ^ 16 := by
  cases mode <;> decide

/-- The value of an operand that is kept in bytes follows from where its halves are. -/
theorem areHalves_of_bytes {l r : List Loc} (hlow : (contents op low high env).1 = .bytes l)
    (hhigh : (contents op low high env).2 = .bytes r) (hop : op.content env = .bytes (l ++ r)) (hlen : l.length = mode.size)
    (hdisjoint : List.Disjoint l r) : AreHalves env op low high := by
  refine ⟨?_, ?_, ?_⟩
  · rw [hlow, hhigh]
    exact hdisjoint
  · rw [hlow, hhigh, hop]
    rfl
  · rw [hlow, hhigh, hop]
    change env.number (l ++ r) ≡ env.number r * 2 ^ mode.bits + env.number l [MOD _]
    rw [number_append, hlen, Nat.add_comm (env.number l), Nat.mul_comm (env.number r)]
    rfl

theorem areHalves_of_const {v l r : Nat} (hlow : (contents op low high env).1 = .const l)
    (hhigh : (contents op low high env).2 = .const r) (hop : op.content env = .const v)
    (hvalue : v = r * 2 ^ mode.bits + l) : AreHalves env op low high := by
  refine ⟨?_, ?_, ?_⟩
  · rw [hlow]
    exact List.disjoint_nil_left _
  · rw [hlow, hhigh, hop]
    rfl
  · rw [hlow, hhigh, hop, hvalue]
    rfl

/-- Two accesses of memory, the low one at the place of the whole. -/
theorem areHalves_of_cells {a : BitVec 16} (hlow : (contents op low high env).1 = .bytes (cells a mode.size))
    (hhigh : (contents op low high env).2 = .bytes (cells (a + BitVec.ofNat 16 mode.size) mode.size))
    (hop : op.content env = .bytes (cells a (2 * mode.size))) : AreHalves env op low high := by
  refine areHalves_of_bytes hlow hhigh ?_ (length_cells a _) (cells_disjoint a (two_mul_size_le mode))
  rw [hop, Nat.two_mul, cells_add]

theorem toInt_emod_toNat {n k : Nat} (hk : k ≤ n) (v : BitVec n) : (v.toInt % 2 ^ k).toNat = v.toNat % 2 ^ k := by
  have hset := setWidth_ofInt hk v.toInt
  rw [BitVec.ofInt_toInt] at hset
  have hnat := congrArg BitVec.toNat hset
  rw [BitVec.toNat_setWidth, BitVec.toNat_ofInt] at hnat
  exact_mod_cast hnat.symm

theorem genLowpartConst_mod (hk : mode.bits ≤ h.bits) (v : BitVec h.bits) :
    (genLowpartConst mode v).toNat % 2 ^ mode.bits = v.toNat % 2 ^ mode.bits := by
  have hset : (genLowpartConst mode v).setWidth mode.bits = v.setWidth mode.bits := by
    apply BitVec.eq_of_getLsbD_eq
    intro i hi
    have hindex : h.bits - mode.bits + i - (h.bits - mode.bits) = i := by omega
    rw [BitVec.getLsbD_setWidth, BitVec.getLsbD_setWidth, genLowpartConst, BitVec.getLsbD_sshiftRight,
      BitVec.getLsbD_shiftLeft, hindex]
    simp [show ¬h.bits ≤ i by omega, show h.bits - mode.bits + i < h.bits by omega]
  have hnat := congrArg BitVec.toNat hset
  rwa [BitVec.toNat_setWidth, BitVec.toNat_setWidth] at hnat

theorem sshiftRight_mod {n k : Nat} (hk : 2 * k ≤ n) (v : BitVec n) :
    (v.sshiftRight k).toNat % 2 ^ k = v.toNat / 2 ^ k % 2 ^ k := by
  have hset : (v.sshiftRight k).setWidth k = (v >>> k).setWidth k := by
    apply BitVec.eq_of_getLsbD_eq
    intro i hi
    rw [BitVec.getLsbD_setWidth, BitVec.getLsbD_setWidth, BitVec.getLsbD_sshiftRight, BitVec.getLsbD_ushiftRight]
    simp [show ¬n ≤ i by omega, show k + i < n by omega]
  have hnat := congrArg BitVec.toNat hset
  rwa [BitVec.toNat_setWidth, BitVec.toNat_setWidth, BitVec.toNat_ushiftRight, Nat.shiftRight_eq_div_pow] at hnat

theorem mod_two_mul (v k : Nat) : v % 2 ^ (2 * k) = v / 2 ^ k % 2 ^ k * 2 ^ k + v % 2 ^ k := by
  rw [Nat.two_mul, Nat.pow_add, Nat.mod_mul, Nat.add_comm, Nat.mul_comm]

theorem constInt_halves (v : BitVec h.bits) : HalvesRight (.constInt v : Operand h renumber phase mode) := by
  intro low high hlow hhigh env
  cases hlow
  cases hhigh
  have hbits : 2 * mode.bits ≤ h.bits := by
    have hwide := h.wide
    cases mode <;> exact hwide.trans' (by decide)
  refine areHalves_of_const rfl rfl rfl ?_
  rw [toInt_emod_toNat hbits, toInt_emod_toNat (by omega), toInt_emod_toNat (by omega), genLowpartConst_mod (by omega),
    sshiftRight_mod hbits, mod_two_mul]

theorem constDouble_halves (image : BitVec 32) : HalvesRight (.constDouble image : Operand h renumber phase .hi) := by
  intro low high hlow hhigh env
  cases hlow
  cases hhigh
  have hwide := h.wide
  have hpow : (2 : Nat) ^ 32 ≤ 2 ^ h.bits := Nat.pow_le_pow_right (by decide) hwide
  have himage := image.isLt
  have hpart (w : BitVec 32) : ((w &&& 0xffff).setWidth h.bits).toNat % 2 ^ PartMode.hi.bits = w.toNat % 2 ^ 16 := by
    have hand : (w &&& 0xffff).toNat = w.toNat % 2 ^ 16 := by
      rw [BitVec.toNat_and]
      exact Nat.and_two_pow_sub_one_eq_mod _ 16
    rw [BitVec.toNat_setWidth, hand]
    change w.toNat % 2 ^ 16 % 2 ^ h.bits % 2 ^ 16 = _
    rw [Nat.mod_eq_of_lt (by omega : w.toNat % 2 ^ 16 < 2 ^ h.bits), Nat.mod_mod]
  refine areHalves_of_const rfl rfl rfl ?_
  have hk : PartMode.hi.bits ≤ h.bits := hwide.trans' (by decide)
  rw [toInt_emod_toNat hk, toInt_emod_toNat hk, hpart, hpart, BitVec.toNat_ushiftRight, Nat.shiftRight_eq_div_pow]
  change image.toNat = image.toNat / 2 ^ 16 % 2 ^ 16 * 2 ^ 16 + image.toNat % 2 ^ 16
  omega

@[simp] theorem set_reg (n : Nat) (v : BitVec 16) : (env.set n v).reg n = v := by
  simp [Env.set]

variable {addr : AddressRtx h} {valid : goIfLegitimateAddress renumber addr (2 * mode.size) phase.strict = true}

theorem z80GenLowpart_mem : z80GenLowpart (.mem addr valid : Operand h renumber phase mode) =
    if addr.autoInc then some (.mem (.direct addr))
    else (changeAddress renumber phase mode.size (addr.plusConstant 0)).map .mem := rfl

theorem z80GenHighpart_mem : z80GenHighpart (.mem addr valid : Operand h renumber phase mode) =
    if addr.autoInc then some (.mem (.direct addr))
    else (changeAddress renumber phase mode.size (addr.plusConstant (highpartOffset mode))).map .mem := rfl

theorem highpartOffset_eq (mode : PartMode) : BitVec.ofInt 16 (highpartOffset mode) = BitVec.ofNat 16 mode.size := by
  cases mode <;> decide

/-- A push, which goes down in memory, and a pop, which goes up. -/
theorem autoInc_halves (hauto : addr.autoInc = true) :
    AreHalves env (.mem addr valid : Operand h renumber phase mode) (.mem (.direct addr)) (.mem (.direct addr)) := by
  have htwo : BitVec.ofNat 16 (2 * mode.size) = BitVec.ofNat 16 mode.size + BitVec.ofNat 16 mode.size := by
    rw [Nat.two_mul, BitVec.ofNat_add]
  obtain hconst | ⟨n, rfl⟩ | ⟨n, v, rfl⟩ | ⟨n, rfl | rfl⟩ := valid_cases valid
  · rw [autoInc_of_constantP hconst] at hauto
    cases hauto
  · cases hauto
  · cases hauto
  · -- the high half is pushed first
    have hplace (env : Env) (size : Nat) : (env.place size (preDec (reg n) : AddressRtx h)).1 =
        env.reg n - BitVec.ofNat 16 size := set_reg n _
    have hlow : env.reg n - BitVec.ofNat 16 mode.size - BitVec.ofNat 16 mode.size =
        env.reg n - BitVec.ofNat 16 (2 * mode.size) := by
      rw [htwo]
      grind
    refine areHalves_of_cells (a := env.reg n - BitVec.ofNat 16 (2 * mode.size)) ?_ ?_ ?_
    · change Content.bytes (cells ((env.set n _).place _ (preDec (reg n) : AddressRtx h)).1 _) = _
      rw [hplace, set_reg, hlow]
    · change Content.bytes (cells (env.place _ (preDec (reg n) : AddressRtx h)).1 _) = _
      rw [hplace, ← hlow, BitVec.sub_add_cancel]
    · change Content.bytes (cells (env.place _ (preDec (reg n) : AddressRtx h)).1 _) = _
      rw [hplace]
  · refine areHalves_of_cells (a := env.reg n) rfl ?_ rfl
    change Content.bytes (cells ((env.set n _).reg n) _) = _
    rw [set_reg]

/-- Memory: an address that steps is accessed twice, and otherwise the high half has its own address. -/
theorem mem_halves : HalvesRight (.mem addr valid : Operand h renumber phase mode) := by
  intro low high hlow hhigh env
  rw [z80GenLowpart_mem] at hlow
  rw [z80GenHighpart_mem] at hhigh
  cases hauto : addr.autoInc with
  | true =>
    rw [hauto, if_pos rfl] at hlow hhigh
    cases hlow
    cases hhigh
    exact autoInc_halves hauto
  | false =>
    rw [hauto, if_neg Bool.false_ne_true, Option.map_eq_some_iff] at hlow hhigh
    obtain ⟨a, ha, rfl⟩ := hlow
    obtain ⟨b, hb, rfl⟩ := hhigh
    have hlow := changeAddress_place env (autoInc_plusConstant valid hauto _) ha mode.size
    have hhigh := changeAddress_place env (autoInc_plusConstant valid hauto _) hb mode.size
    rw [address_plusConstant] at hlow hhigh
    rw [highpartOffset_eq] at hhigh
    have hzero : env.address addr + BitVec.ofInt 16 0 = env.address addr := BitVec.add_zero _
    rw [hzero] at hlow
    have hfirst : (Operand.mem addr valid : Operand h renumber phase mode).highFirst = false := by
      cases addr <;> first | rfl | cases hauto
    refine areHalves_of_cells (a := env.address addr) ?_ ?_ ?_
    · rw [contents, hfirst, if_neg Bool.false_ne_true]
      change Content.bytes (cells (a.place env _).1 _) = _
      rw [hlow]
    · rw [contents, hfirst, if_neg Bool.false_ne_true]
      change Content.bytes (cells (b.place (a.place env _).2 _).1 _) = _
      rw [hlow, hhigh]
    · change Content.bytes (cells (env.place _ addr).1 _) = _
      rw [place_of_autoInc env hauto]

theorem regBytes_disjoint {m n : Nat} (hne : m ≠ n) : List.Disjoint (regBytes m) (regBytes n) := by
  intro loc hlow hhigh
  unfold regBytes at hlow hhigh
  rw [List.mem_pair] at hlow hhigh
  obtain rfl | rfl := hlow
  · obtain heq | heq := hhigh
    · exact hne (Loc.regByte.inj heq).1
    · cases heq
  · obtain heq | heq := hhigh
    · cases heq
    · exact hne (Loc.regByte.inj heq).1

theorem longReg_halves (r : LongReg) : HalvesRight (.longReg r : Operand h renumber phase .hi) := by
  intro low high hlow hhigh env
  cases r with
  | hl =>
    cases hlow
    cases hhigh
    exact areHalves_of_bytes rfl rfl rfl rfl (regBytes_disjoint (by decide : 1 ≠ 2))
  | bc =>
    cases hlow
    cases hhigh
    exact areHalves_of_bytes rfl rfl rfl rfl (regBytes_disjoint (by decide : 3 ≠ 4))

theorem reg_halves {p : Pair} (hp : (Operand.reg p : Operand h renumber phase .qi).indexReg = false) :
    HalvesRight (.reg p : Operand h renumber phase .qi) := by
  have hdisjoint (n : Nat) : List.Disjoint [Loc.regByte n .lo] [.regByte n .hi] := by
    intro loc hlow hhigh
    rw [List.mem_singleton] at hlow hhigh
    cases hlow.symm.trans hhigh
  intro low high hlow hhigh env
  cases p with
  | bc =>
    cases hlow
    cases hhigh
    exact areHalves_of_bytes rfl rfl rfl rfl (hdisjoint _)
  | de =>
    cases hlow
    cases hhigh
    exact areHalves_of_bytes rfl rfl rfl rfl (hdisjoint _)
  | hl =>
    cases hlow
    cases hhigh
    exact areHalves_of_bytes rfl rfl rfl rfl (hdisjoint _)
  | ix => cases hp
  | iy => cases hp

theorem not_areHalves_of_same {r : Reg8} : ¬ AreHalves env op (.reg8 r) (.reg8 r) := by
  intro hright
  obtain ⟨loc, hlow, hhigh⟩ : ∃ loc, (contents op (.reg8 r) (.reg8 r) env).1.locs = [loc] ∧
      (contents op (.reg8 r) (.reg8 r) env).2.locs = [loc] := by
    unfold contents
    cases op.highFirst <;> cases r <;> exact ⟨_, rfl, rfl⟩
  have hdisjoint := hright.disjoint
  rw [hlow, hhigh] at hdisjoint
  exact hdisjoint (List.mem_singleton_self loc) (List.mem_singleton_self loc)

end Halves

section Returned

variable {renumber : RegRenumber} {phase : Phase} {mode : PartMode} {x : AddressRtx h}

/-- The addresses of the halves of strictly valid memory are accepted. -/
theorem valid_plusConstant (hx : goIfLegitimateAddress renumber x (2 * mode.size) true = true) (hauto : x.autoInc = false)
    (hne : ∀ y, x ≠ AddressRtx.high y ∧ x ≠ constantPRtx y) {c : Int} (hc : c = 0 ∨ c = mode.size) :
    goIfLegitimateAddress renumber (x.plusConstant c) mode.size false = true := by
  have hsize : mode.size = 1 ∨ mode.size = 2 := by cases mode <;> decide
  obtain hconst | hpush | ⟨n, rfl, hn⟩ | ⟨n, v, rfl, hn, hmin, hmax⟩ := strict_cases hx
  · have hmoved := (plusConstant_of_constantP hconst c).2 hne
    unfold goIfLegitimateAddress
    rw [if_pos hmoved]
  · unfold pushPopAddress at hpush
    split at hpush <;> first | cases hpush | cases hauto
  · have hsum : plusConstant (reg n : AddressRtx h) c = plusConstantEnd (reg n) c false := by
      unfold plusConstant
      split_ifs with h0
      · rw [plusConstantEnd_reg, if_neg (not_not_intro h0)]
      · rfl
    rw [hsum, plusConstantEnd_reg]
    split_ifs
    · exact nonstrict_of_strict (registerIndirect_plus hn (by unfold z80MinOffset; omega) (by unfold z80MaxOffset; omega))
    · exact nonstrict_of_strict (registerIndirect_reg hn)
  · unfold z80MinOffset at hmin
    unfold z80MaxOffset at hmax
    unfold plusConstant
    split_ifs with h0
    · exact nonstrict_of_strict (registerIndirect_plus hn (by unfold z80MinOffset; omega) (by unfold z80MaxOffset; omega))
    · change goIfLegitimateAddress renumber (plusConstantEnd (reg n) (c + v) false) _ _ = _
      rw [plusConstantEnd_reg]
      split_ifs
      · exact nonstrict_of_strict (registerIndirect_plus hn (by unfold z80MinOffset; omega) (by unfold z80MaxOffset; omega))
      · exact nonstrict_of_strict (registerIndirect_reg hn)

/-- The halves of memory are there but for the constants that no sum is built of. -/
theorem halves_returned (op : Operand h renumber phase mode) (hop : op.unsplitConstant = false) :
    ∃ low high, z80GenLowpart op = some low ∧ z80GenHighpart op = some high := by
  cases op with
  | reg p => cases p <;> exact ⟨_, _, rfl, rfl⟩
  | longReg r => cases r <;> exact ⟨_, _, rfl, rfl⟩
  | constInt v => exact ⟨_, _, rfl, rfl⟩
  | constDouble image => exact ⟨_, _, rfl, rfl⟩
  | mem addr valid =>
    rw [z80GenLowpart_mem, z80GenHighpart_mem]
    cases hauto : addr.autoInc with
    | true => exact ⟨_, _, rfl, rfl⟩
    | false =>
      rw [if_neg Bool.false_ne_true, if_neg Bool.false_ne_true]
      cases phase with
      | expand cseNotExpected forceAddr => exact ⟨_, _, rfl, rfl⟩
      | reload =>
        have hne : ∀ y, addr ≠ AddressRtx.high y ∧ addr ≠ constantPRtx y := by
          intro y
          constructor
          · rintro rfl
            cases hop
          · rintro rfl
            cases hop
        have hoffset : highpartOffset mode = mode.size := by cases mode <;> decide
        have hlow := valid_plusConstant valid hauto hne (.inl rfl)
        have hhigh := valid_plusConstant valid hauto hne (.inr hoffset)
        unfold changeAddress AddressRtx.changeAddress
        dsimp only
        rw [if_pos hlow, if_pos hhigh]
        exact ⟨_, _, rfl, rfl⟩

/-- The two functions return the halves of every operand but IX and IY. -/
theorem operand_halves_iff (op : Operand h renumber phase mode) :
    (HalvesRight op ↔ op.indexReg = false) ∧
      (op.unsplitConstant = false → ∃ low high, z80GenLowpart op = some low ∧ z80GenHighpart op = some high) := by
  refine ⟨?_, halves_returned op⟩
  cases op with
  | longReg r => exact iff_of_true (longReg_halves r) rfl
  | constInt v => exact iff_of_true (constInt_halves v) rfl
  | constDouble image => exact iff_of_true (constDouble_halves image) rfl
  | mem addr valid => exact iff_of_true mem_halves rfl
  | reg p =>
    refine ⟨fun hright => ?_, reg_halves⟩
    let env : Env := ⟨fun _ => 0, fun _ => 0, fun _ => 0, fun _ => 0, id, id, fun _ => 0⟩
    cases p with
    | ix => exact absurd (hright _ _ rfl rfl env) not_areHalves_of_same
    | iy => exact absurd (hright _ _ rfl rfl env) not_areHalves_of_same
    | bc => rfl
    | de => rfl
    | hl => rfl

/-- Both halves of IX are its high byte: the low one is wrong whenever the bytes differ. -/
theorem index_register_halves :
    ¬ HalvesRight (.reg .ix : Operand host32 none .reload .qi) := by
  intro hright
  have hvalue := (hright (.reg8 (.half .ix .hi)) (.reg8 (.half .ix .hi)) rfl rfl
    ⟨fun _ => 0x0102, fun _ => 0, fun _ => 0, fun _ => 0, id, id, fun _ => 0⟩).value
  revert hvalue
  decide

end Returned

end Z80Gcc.OperandHalves
