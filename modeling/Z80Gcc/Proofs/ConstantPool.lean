import Mathlib
import Z80Gcc.Proofs.InitializerOutput
import Z80Gcc.Spec.ConstantPool

/-! A constant matches the descriptor of another one if the descriptors are the same. Types that are left out of them
aside, constants that match have the same contents and the same hash code. -/

namespace Z80Gcc.ConstantPool

open Initializer (Byte FieldDecl leBytes length_leBytes imageBit_leBytes)

section Bytes

theorem leBytes_inj {w size : Nat} (hw : w ≤ 8 * size) {x y : BitVec w} (h : leBytes x size = leBytes y size) : x = y := by
  apply BitVec.eq_of_getLsbD_eq
  intro i hi
  have hbit := congrArg (fun bytes => Initializer.imageBit bytes i) h
  rwa [imageBit_leBytes, imageBit_leBytes, decide_eq_true (by omega), Bool.true_and, Bool.true_and] at hbit

theorem length_wordBytes (x : HostWord) : (wordBytes x).length = 4 := length_leBytes x 4

theorem wordBytes_inj {x y : HostWord} (h : wordBytes x = wordBytes y) : x = y := leBytes_inj (by decide) h

theorem wordBytes_append_inj {x y : HostWord} {q r : List Byte} (h : wordBytes x ++ q = wordBytes y ++ r) :
    x = y ∧ q = r := by
  obtain ⟨hword, hrest⟩ := List.append_inj h ((length_wordBytes x).trans (length_wordBytes y).symm)
  exact ⟨wordBytes_inj hword, hrest⟩

theorem IntegerCst.bytes_append_inj {c d : IntegerCst} {q r : List Byte} (h : c.bytes ++ q = d.bytes ++ r) :
    c.low = d.low ∧ c.high = d.high ∧ q = r := by
  rw [IntegerCst.bytes, IntegerCst.bytes, List.append_assoc, List.append_assoc] at h
  obtain ⟨hlow, hrest⟩ := wordBytes_append_inj h
  obtain ⟨hhigh, hrest⟩ := wordBytes_append_inj hrest
  exact ⟨hlow, hhigh, hrest⟩

theorem byte_eq_iff {n : Nat} (hn : n < 128) (b : Byte) : b.toInt = n ↔ b = BitVec.ofNat 8 n := by
  have hof : (BitVec.ofNat 8 n).toInt = n := by
    rw [BitVec.toInt_eq_toNat_cond, BitVec.toNat_ofNat, Nat.mod_eq_of_lt (by omega), if_pos (by omega)]
  rw [← hof, BitVec.toInt_inj]

theorem byte_inj {m n : Nat} (hm : m < 128) (hn : n < 128) (h : BitVec.ofNat 8 m = BitVec.ofNat 8 n) : m = n := by
  have hnat := congrArg BitVec.toNat h
  rwa [BitVec.toNat_ofNat, BitVec.toNat_ofNat, Nat.mod_eq_of_lt (by omega), Nat.mod_eq_of_lt (by omega)] at hnat

theorem IntegerCst.record_append_inj {c d : IntegerCst} (hc : c.precision < 128) (hd : d.precision < 128)
    {q r : List Byte} (h : c.record ++ q = d.record ++ r) : c = d ∧ q = r := by
  obtain ⟨-, h⟩ := List.cons.inj h
  obtain ⟨hprecision, h⟩ := List.cons.inj h
  obtain ⟨hlow, hhigh, hrest⟩ := IntegerCst.bytes_append_inj h
  obtain ⟨p, low, high⟩ := c
  obtain rfl : p = d.precision := byte_inj hc hd hprecision
  obtain rfl : low = d.low := hlow
  obtain rfl : high = d.high := hhigh
  exact ⟨rfl, hrest⟩

theorem Name.append_inj {m n : Name} {q r : List Byte} (h : m.chars ++ 0 :: q = n.chars ++ 0 :: r) : m = n ∧ q = r := by
  obtain ⟨xs, hxs⟩ := m
  obtain ⟨ys, hys⟩ := n
  dsimp only at h
  rw [Name.mk.injEq]
  induction xs generalizing ys with
  | nil =>
    cases ys with
    | nil => exact ⟨rfl, (List.cons.inj h).2⟩
    | cons y ys =>
      obtain ⟨rfl, -⟩ := List.cons.inj h
      exact absurd List.mem_cons_self hys
  | cons x xs ih =>
    cases ys with
    | nil =>
      obtain ⟨rfl, -⟩ := List.cons.inj h
      exact absurd List.mem_cons_self hxs
    | cons y ys =>
      obtain ⟨rfl, htail⟩ := List.cons.inj h
      obtain ⟨heq, hrest⟩ := ih (fun hmem => hxs (List.mem_cons_of_mem _ hmem)) ys
        (fun hmem => hys (List.mem_cons_of_mem _ hmem)) htail
      exact ⟨by rw [heq], hrest⟩

end Bytes

section Reading

variable {env : Env}

theorem readByte_some {ok : Byte → Bool} {p q : List Byte} : readByte ok p = some q ↔ ∃ b, p = b :: q ∧ ok b = true := by
  cases p with
  | nil => exact iff_of_false (fun h => by cases h) fun ⟨b, hb, _⟩ => by cases hb
  | cons b p =>
    rw [readByte]
    split_ifs with hb
    · constructor
      · intro h
        exact ⟨b, by rw [Option.some.inj h], hb⟩
      · rintro ⟨b', heq, -⟩
        rw [(List.cons.inj heq).2]
    · refine iff_of_false (fun h => by cases h) ?_
      rintro ⟨b', heq, hb'⟩
      rw [(List.cons.inj heq).1] at hb
      exact hb hb'

theorem readCode_some {code : Byte} {p q : List Byte} : readByte (· = code) p = some q ↔ p = code :: q := by
  rw [readByte_some]
  constructor
  · rintro ⟨b, rfl, hb⟩
    rw [of_decide_eq_true hb]
  · rintro rfl
    exact ⟨code, rfl, decide_eq_true rfl⟩

theorem readNumber_some {n : Nat} (hn : n < 128) {p q : List Byte} :
    readByte (fun b => decide (b.toInt = (n : Int))) p = some q ↔ p = BitVec.ofNat 8 n :: q := by
  rw [readByte_some]
  constructor
  · rintro ⟨b, rfl, hb⟩
    rw [(byte_eq_iff hn b).1 (of_decide_eq_true hb)]
  · rintro rfl
    exact ⟨_, rfl, decide_eq_true ((byte_eq_iff hn _).2 rfl)⟩

theorem compareBytes_some {strp p q : List Byte} : compareBytes strp p = some q ↔ p = strp ++ q := by
  induction strp generalizing p with
  | nil =>
    rw [compareBytes, Option.some_inj, List.nil_append]
  | cons b strp ih =>
    rw [compareBytes, Option.bind_eq_bind, Option.bind_eq_some_iff]
    constructor
    · rintro ⟨p', hread, hrest⟩
      rw [readCode_some.1 hread, ih.1 hrest]
      rfl
    · rintro rfl
      exact ⟨strp ++ q, readCode_some.2 rfl, ih.2 rfl⟩

theorem IntegerCst.compare_some {c : IntegerCst} (hc : c.precision < 128) {p q : List Byte} :
    c.compare p = some q ↔ p = c.record ++ q := by
  simp only [IntegerCst.compare, Option.bind_eq_bind, Option.bind_eq_some_iff, readCode_some, readNumber_some hc,
    compareBytes_some]
  constructor
  · rintro ⟨_, rfl, _, rfl, rfl⟩
    rfl
  · rintro rfl
    exact ⟨_, rfl, _, rfl, rfl⟩

theorem comparePurpose_some {hp : Bool} {purpose : Option Purpose} (hnarrow : ∀ p ∈ purpose, p.Narrow) {p q : List Byte} :
    comparePurpose hp purpose p = some q ↔ p = recordPurpose hp purpose ++ q := by
  cases purpose with
  | none =>
    cases hp with
    | true => exact compareBytes_some
    | false => rw [comparePurpose, if_neg Bool.false_ne_true, Option.some_inj, recordPurpose, if_neg Bool.false_ne_true,
        List.nil_append]
  | some purpose =>
    have hn := hnarrow purpose rfl
    cases purpose with
    | fieldDecl decl => exact compareBytes_some
    | index i => exact IntegerCst.compare_some hn
    | range lo hi =>
      simp only [comparePurpose, Option.bind_eq_bind, Option.bind_eq_some_iff, readCode_some,
        IntegerCst.compare_some hn.1, IntegerCst.compare_some hn.2]
      constructor
      · rintro ⟨_, rfl, _, rfl, rfl⟩
        simp only [recordPurpose, List.cons_append, List.append_assoc]
      · rintro rfl
        exact ⟨_, rfl, _, List.append_assoc _ _ _, rfl⟩

mutual

theorem compareConstant1_some : ∀ {x : Tree}, x.Narrow → ∀ {p q : List Byte},
    compareConstant1 env x p = some q ↔ ¬ (env.writableStrings = true ∧ x.HasString) ∧ p = recordConstant1 env x ++ q
  | .missing, _, p, q => by
    rw [compareConstant1, compareBytes_some]
    exact (and_iff_right fun h => h.2).symm
  | .integerCst c, hn, p, q => by
    rw [compareConstant1, IntegerCst.compare_some hn]
    exact (and_iff_right fun h => h.2).symm
  | .realCst precision value, hn, p, q => by
    simp only [compareConstant1, Option.bind_eq_bind, Option.bind_eq_some_iff, readCode_some, readNumber_some hn,
      compareBytes_some]
    refine Iff.trans ?_ (and_iff_right fun h => h.2).symm
    constructor
    · rintro ⟨_, rfl, _, rfl, rfl⟩
      rfl
    · rintro rfl
      exact ⟨_, rfl, _, rfl, rfl⟩
  | .complexCst re im, hn, p, q => by
    simp only [compareConstant1, Option.bind_eq_bind, Option.bind_eq_some_iff, readCode_some,
      compareConstant1_some hn.1, compareConstant1_some hn.2]
    constructor
    · rintro ⟨_, rfl, _, ⟨hre, rfl⟩, him, rfl⟩
      refine ⟨fun h => h.2.elim (fun hs => hre ⟨h.1, hs⟩) fun hs => him ⟨h.1, hs⟩, ?_⟩
      simp only [recordConstant1, List.cons_append, List.append_assoc]
    · rintro ⟨hs, rfl⟩
      exact ⟨_, rfl, _, ⟨fun h => hs ⟨h.1, .inl h.2⟩, List.append_assoc _ _ _⟩, fun h => hs ⟨h.1, .inr h.2⟩, rfl⟩
  | .stringCst mode size chars, _, p, q => by
    rw [compareConstant1, recordConstant1]
    cases env.writableStrings with
    | true =>
      refine iff_of_false ?_ fun h => h.1 ⟨rfl, trivial⟩
      simp only [if_true, Option.bind_eq_bind, Option.bind_eq_some_iff]
      rintro ⟨_, _, h⟩
      cases h
    | false =>
      simp only [Bool.false_eq_true, if_false, Option.bind_eq_bind, Option.bind_eq_some_iff, readCode_some,
        readNumber_some mode.isLt, compareBytes_some, false_and, not_false_eq_true, true_and]
      constructor
      · rintro ⟨_, rfl, _, rfl, _, rfl, rfl⟩
        simp only [List.cons_append, List.append_assoc]
      · rintro rfl
        exact ⟨_, rfl, _, rfl, _, List.append_assoc _ _ _, rfl⟩
  | .addrExpr target, _, p, q => by
    simp only [compareConstant1, Option.bind_eq_bind, Option.bind_eq_some_iff, readCode_some, compareBytes_some]
    refine Iff.trans ?_ (and_iff_right fun h => h.2).symm
    constructor
    · rintro ⟨_, rfl, _, rfl, rfl⟩
      simp only [recordConstant1, List.cons_append, List.append_assoc]
    · rintro rfl
      exact ⟨_, rfl, _, List.append_assoc _ _ _, rfl⟩
  | .sum code type op0 op1, hn, p, q => by
    simp only [compareConstant1, Option.bind_eq_bind, Option.bind_eq_some_iff, readCode_some,
      compareConstant1_some hn.1, compareConstant1_some hn.2]
    constructor
    · rintro ⟨_, rfl, _, ⟨h0, rfl⟩, h1, rfl⟩
      refine ⟨fun h => h.2.elim (fun hs => h0 ⟨h.1, hs⟩) fun hs => h1 ⟨h.1, hs⟩, ?_⟩
      simp only [recordConstant1, List.cons_append, List.append_assoc]
    · rintro ⟨hs, rfl⟩
      exact ⟨_, rfl, _, ⟨fun h => hs ⟨h.1, .inl h.2⟩, List.append_assoc _ _ _⟩, fun h => hs ⟨h.1, .inr h.2⟩, rfl⟩
  | .conversion code type sameType sameMode op, hn, p, q => by
    have hnarrow : op.Narrow := hn
    simp only [compareConstant1, Option.bind_eq_bind, Option.bind_eq_some_iff, readCode_some,
      compareConstant1_some hnarrow]
    constructor
    · rintro ⟨_, rfl, hs, rfl⟩
      exact ⟨hs, rfl⟩
    · rintro ⟨hs, rfl⟩
      exact ⟨_, rfl, hs, rfl⟩
  | .constructor type elts, hn, p, q => by
    have hnarrow : elts.Narrow := hn
    simp only [compareConstant1, Option.bind_eq_bind, Option.bind_eq_some_iff, readCode_some, compareBytes_some,
      compareElts_some hnarrow]
    constructor
    · rintro ⟨_, rfl, _, rfl, hs, rfl⟩
      refine ⟨hs, ?_⟩
      simp only [recordConstant1, List.cons_append, List.append_assoc]
    · rintro ⟨hs, rfl⟩
      exact ⟨_, rfl, _, List.append_assoc _ _ _, hs, rfl⟩

theorem compareElts_some : ∀ {es : Elts}, es.Narrow → ∀ {hp : Bool} {p q : List Byte},
    compareElts env hp es p = some q ↔ ¬ (env.writableStrings = true ∧ es.HasString) ∧ p = recordElts env hp es ++ q
  | .nil, _, hp, p, q => by
    rw [compareElts, Option.some_inj]
    exact (and_iff_right fun h => h.2).symm
  | .cons purpose value rest, hn, hp, p, q => by
    simp only [compareElts, Option.bind_eq_bind, Option.bind_eq_some_iff, compareConstant1_some hn.2.1,
      comparePurpose_some hn.1, compareElts_some hn.2.2]
    constructor
    · rintro ⟨_, ⟨hv, rfl⟩, _, rfl, hr, rfl⟩
      refine ⟨fun h => h.2.elim (fun hs => hv ⟨h.1, hs⟩) fun hs => hr ⟨h.1, hs⟩, ?_⟩
      simp only [recordElts, List.append_assoc]
    · rintro ⟨hs, rfl⟩
      refine ⟨_, ⟨fun h => hs ⟨h.1, .inl h.2⟩, ?_⟩, _, rfl, fun h => hs ⟨h.1, .inr h.2⟩, rfl⟩
      simp only [recordElts, List.append_assoc]

end

end Reading

section Telling

variable {env : Env}

theorem Elts.Alike.length_eq : ∀ {es fs : Elts}, es.Alike env fs → es.length = fs.length
  | .nil, .nil, _ => rfl
  | .cons _ _ _, .cons _ _ _, h => congrArg (· + 1) h.2.2.length_eq

theorem Elts.Alike.havePurpose_eq : ∀ {es fs : Elts}, es.Alike env fs → es.havePurpose = fs.havePurpose
  | .nil, .nil, _ => rfl
  | .cons _ _ _, .cons _ _ _, h => by
    obtain ⟨rfl, -, hrest⟩ := h
    rw [Elts.havePurpose, Elts.havePurpose, hrest.havePurpose_eq]

theorem header_eq {t u : Aggregate} {es fs : Elts} (ht : t.Alike u)
    (hlength : BitVec.ofNat 32 es.length = BitVec.ofNat 32 fs.length)
    (hpurpose : es.havePurpose = fs.havePurpose) : header t es = header u fs := by
  unfold header
  rw [hlength, hpurpose]
  cases t with
  | record t =>
    cases u with
    | record u =>
      obtain rfl : t = u := ht
      rfl
    | _ => cases ht
  | union s =>
    cases u with
    | union s' => rfl
    | _ => cases ht
  | array s lo elt =>
    cases u with
    | array s' lo' elt' =>
      obtain rfl : s = s' := ht
      rfl
    | _ => cases ht

mutual

/-- The types that are left out do not matter. -/
theorem Tree.Alike.record_eq : ∀ {x y : Tree}, x.Alike env y → recordConstant1 env x = recordConstant1 env y
  | .missing, .missing, _ => rfl
  | .integerCst _, .integerCst _, h => congrArg IntegerCst.record h
  | .realCst _ _, .realCst _ _, h => by
    obtain ⟨rfl, rfl⟩ := h
    rfl
  | .complexCst _ _, .complexCst _ _, h => by rw [recordConstant1, recordConstant1, h.1.record_eq, h.2.record_eq]
  | .stringCst _ _ _, .stringCst _ _ _, h => by
    obtain ⟨rfl, rfl⟩ := h
    rfl
  | .addrExpr _, .addrExpr _, h => by rw [recordConstant1, recordConstant1, h.1, h.2]
  | .sum _ _ _ _, .sum _ _ _ _, h => by
    rw [recordConstant1, recordConstant1, h.1, h.2.1.record_eq, h.2.2.record_eq]
  | .conversion _ _ _ _ _, .conversion _ _ _ _ _, h => by rw [recordConstant1, recordConstant1, h.1, h.2.record_eq]
  | .constructor _ _, .constructor _ _, h => by
    rw [recordConstant1, recordConstant1, header_eq h.1 (congrArg _ h.2.length_eq) h.2.havePurpose_eq, h.2.havePurpose_eq,
      h.2.record_eq]

theorem Elts.Alike.record_eq : ∀ {es fs : Elts}, es.Alike env fs → ∀ {hp : Bool},
    recordElts env hp es = recordElts env hp fs
  | .nil, .nil, _, _ => rfl
  | .cons _ _ _, .cons _ _ _, h, _ => by rw [recordElts, recordElts, h.1, h.2.1.record_eq, h.2.2.record_eq]

end

theorem HeadersApart.ne {t u : Aggregate} {es fs : Elts} (h : HeadersApart t es u fs) (q r : List Byte) :
    header t es ++ q ≠ header u fs ++ r := by
  intro heq
  simp only [header, List.append_assoc] at heq
  obtain ⟨hlength, heq⟩ := wordBytes_append_inj heq
  obtain ⟨hpointer, heq⟩ := wordBytes_append_inj heq
  obtain ⟨hpurpose, heq⟩ := wordBytes_append_inj heq
  obtain h | h | h | h := h
  · exact h hlength
  · exact h hpointer
  · refine h ?_
    generalize es.havePurpose = a at hpurpose
    generalize fs.havePurpose = b at hpurpose
    revert a b
    decide
  · cases t with
    | array s lo elt =>
      cases u with
      | array s' lo' elt' => exact h (wordBytes_append_inj heq).1
      | _ => cases h
    | _ => cases h

theorem not_headersApart_eq {t u : Aggregate} {es fs : Elts} (h : ¬ HeadersApart t es u fs) :
    BitVec.ofNat 32 es.length = BitVec.ofNat 32 fs.length ∧ es.havePurpose = fs.havePurpose := by
  obtain ⟨hlength, h⟩ := not_or.1 h
  obtain ⟨-, h⟩ := not_or.1 h
  exact ⟨not_not.1 hlength, not_not.1 (not_or.1 h).1⟩

theorem Purpose.Apart.isSome {p q : Option Purpose} (h : Purpose.Apart p q) : p.isSome = true ∨ q.isSome = true := by
  cases p with
  | some p => exact .inl rfl
  | none =>
    cases q with
    | some q => exact .inr rfl
    | none => cases h

theorem Purpose.Apart.ne {p q : Option Purpose} (h : Purpose.Apart p q) (hp : ∀ a ∈ p, a.Narrow) (hq : ∀ a ∈ q, a.Narrow)
    {purposes : Bool} (hsomep : p.isSome = true → purposes = true) (hsomeq : q.isSome = true → purposes = true)
    (u v : List Byte) : recordPurpose purposes p ++ u ≠ recordPurpose purposes q ++ v := by
  obtain rfl := h.isSome.elim hsomep hsomeq
  intro heq
  cases p with
  | none =>
    cases q with
    | none => cases h
    | some q =>
      cases q with
      | fieldDecl e => exact h (wordBytes_append_inj heq).1.symm
      | index i => cases (List.cons.inj heq).1
      | range lo hi => cases (List.cons.inj heq).1
  | some p =>
    have hnp := hp p rfl
    cases q with
    | none =>
      cases p with
      | fieldDecl d => exact h (wordBytes_append_inj heq).1
      | index i => cases (List.cons.inj heq).1
      | range lo hi => cases (List.cons.inj heq).1
    | some q =>
      have hnq := hq q rfl
      cases p with
      | fieldDecl d =>
        cases q with
        | fieldDecl e => exact h (wordBytes_append_inj heq).1
        | _ => cases h
      | index i =>
        cases q with
        | fieldDecl e => cases h
        | index j => exact h (IntegerCst.record_append_inj hnp hnq heq).1
        | range lo hi => cases (List.cons.inj heq).1
      | range lo hi =>
        cases q with
        | fieldDecl e => cases h
        | index j => cases (List.cons.inj heq).1
        | range lo' hi' =>
          simp only [recordPurpose, List.cons_append, List.append_assoc] at heq
          obtain ⟨hlo, hrest⟩ := IntegerCst.record_append_inj hnp.1 hnq.1 (List.cons.inj heq).2
          obtain ⟨hhi, -⟩ := IntegerCst.record_append_inj hnp.2 hnq.2 hrest
          exact h.elim (fun hne => hne hlo) fun hne => hne hhi

inductive TreeCode where
  | null | integerCst | realCst | complexCst | stringCst | addrExpr | constructor
  | sum (code : SumCode)
  | conversion (code : ConvertCode)
  deriving DecidableEq

def TreeCode.number : TreeCode → Byte
  | null => 0
  | integerCst => 25
  | realCst => 26
  | complexCst => 27
  | stringCst => 28
  | addrExpr => 111
  | constructor => 43
  | sum code => code.number
  | conversion code => code.number

theorem TreeCode.number_inj : ∀ c d : TreeCode, c.number = d.number → c = d := by
  rintro (_ | _ | _ | _ | _ | _ | _ | (_ | _) | (_ | _ | _)) (_ | _ | _ | _ | _ | _ | _ | (_ | _) | (_ | _ | _)) h <;>
    first | rfl | exact absurd h (by decide)

def Tree.code : Tree → TreeCode
  | missing => .null
  | integerCst _ => .integerCst
  | realCst _ _ => .realCst
  | complexCst _ _ => .complexCst
  | stringCst _ _ _ => .stringCst
  | addrExpr _ => .addrExpr
  | sum code _ _ _ => .sum code
  | conversion code _ _ _ _ => .conversion code
  | constructor _ _ => .constructor

theorem Tree.record_eq_cons (x : Tree) : ∃ tail, recordConstant1 env x = x.code.number :: tail := by
  cases x with
  | stringCst mode size chars =>
    rw [recordConstant1]
    split_ifs
    · exact ⟨_, rfl⟩
    · exact ⟨_, rfl⟩
  | _ => exact ⟨_, rfl⟩

theorem Tree.ne_of_code {x y : Tree} (h : x.code ≠ y.code) (q r : List Byte) :
    recordConstant1 env x ++ q ≠ recordConstant1 env y ++ r := by
  obtain ⟨s, hs⟩ := @Tree.record_eq_cons env x
  obtain ⟨t, ht⟩ := @Tree.record_eq_cons env y
  rw [hs, ht]
  exact fun heq => h (TreeCode.number_inj _ _ (List.cons.inj heq).1)

mutual

/-- What tells constants apart is at the same place of both descriptors. -/
theorem Tree.Apart.ne : ∀ {x y : Tree}, x.Apart env y → x.Narrow → y.Narrow →
    ¬ (env.writableStrings = true ∧ x.HasString) → ∀ q r, recordConstant1 env x ++ q ≠ recordConstant1 env y ++ r
  | .missing, y, h, _, _, _, q, r => by
    cases y with
    | missing => cases h
    | _ => exact Tree.ne_of_code (by simp [Tree.code]) q r
  | .integerCst c, y, h, hx, hy, _, q, r => by
    cases y with
    | integerCst d => exact fun heq => h (IntegerCst.record_append_inj hx hy heq).1
    | _ => exact Tree.ne_of_code (by simp [Tree.code]) q r
  | .realCst p v, y, h, hx, hy, _, q, r => by
    cases y with
    | realCst p' v' =>
      intro heq
      obtain ⟨-, heq⟩ := List.cons.inj heq
      obtain ⟨hprecision, heq⟩ := List.cons.inj heq
      obtain ⟨hvalue, -⟩ := List.append_inj heq ((length_leBytes v 8).trans (length_leBytes v' 8).symm)
      exact h.elim (fun hne => hne (byte_inj hx hy hprecision)) fun hne => hne (leBytes_inj (by decide) hvalue)
    | _ => exact Tree.ne_of_code (by simp [Tree.code]) q r
  | .complexCst a b, y, h, hx, hy, hs, q, r => by
    cases y with
    | complexCst c d =>
      have ha : ¬ (env.writableStrings = true ∧ a.HasString) := fun hw => hs ⟨hw.1, .inl hw.2⟩
      have hb : ¬ (env.writableStrings = true ∧ b.HasString) := fun hw => hs ⟨hw.1, .inr hw.2⟩
      simp only [recordConstant1, List.cons_append, List.append_assoc]
      intro heq
      obtain ⟨-, heq⟩ := List.cons.inj heq
      obtain h | ⟨halike, h⟩ := h
      · exact h.ne hx.1 hy.1 ha _ _ heq
      · rw [halike.record_eq] at heq
        exact h.ne hx.2 hy.2 hb _ _ (List.append_cancel_left heq)
    | _ => exact Tree.ne_of_code (by simp [Tree.code]) q r
  | .stringCst m s cs, y, h, _, _, hs, q, r => by
    cases y with
    | stringCst n t ds =>
      have hw : env.writableStrings = false := Bool.eq_false_iff.2 fun hw => hs ⟨hw, trivial⟩
      rw [recordConstant1, recordConstant1, hw, if_neg Bool.false_ne_true, if_neg Bool.false_ne_true]
      simp only [List.cons_append, List.append_assoc]
      intro heq
      obtain ⟨-, heq⟩ := List.cons.inj heq
      obtain ⟨hmode, heq⟩ := List.cons.inj heq
      obtain ⟨hlength, heq⟩ := wordBytes_append_inj heq
      obtain h | h | ⟨hsame, h⟩ := h
      · exact h (Fin.ext (byte_inj m.isLt n.isLt hmode))
      · exact h hlength
      · exact h (List.append_inj heq hsame).1
    | _ => exact Tree.ne_of_code (by simp [Tree.code]) q r
  | .addrExpr t, y, h, _, _, _, q, r => by
    cases y with
    | addrExpr u =>
      simp only [recordConstant1, List.cons_append, List.append_assoc, List.nil_append]
      intro heq
      obtain ⟨-, heq⟩ := List.cons.inj heq
      obtain ⟨hoffset, heq⟩ := wordBytes_append_inj heq
      exact h.elim (fun hne => hne (Name.append_inj heq).1) fun hne => hne hoffset
    | _ => exact Tree.ne_of_code (by simp [Tree.code]) q r
  | .sum c t a b, y, h, hx, hy, hs, q, r => by
    cases y with
    | sum d t' a' b' =>
      have ha : ¬ (env.writableStrings = true ∧ a.HasString) := fun hw => hs ⟨hw.1, .inl hw.2⟩
      have hb : ¬ (env.writableStrings = true ∧ b.HasString) := fun hw => hs ⟨hw.1, .inr hw.2⟩
      by_cases hcode : c = d
      · subst hcode
        simp only [recordConstant1, List.cons_append, List.append_assoc]
        intro heq
        obtain ⟨-, heq⟩ := List.cons.inj heq
        obtain h | h | ⟨halike, h⟩ := h
        · exact h rfl
        · exact h.ne hx.1 hy.1 ha _ _ heq
        · rw [halike.record_eq] at heq
          exact h.ne hx.2 hy.2 hb _ _ (List.append_cancel_left heq)
      · exact Tree.ne_of_code (x := .sum c t a b) (y := .sum d t' a' b') (fun heq => hcode (TreeCode.sum.inj heq)) q r
    | _ => exact Tree.ne_of_code (by simp [Tree.code]) q r
  | .conversion c t s m a, y, h, hx, hy, hs, q, r => by
    cases y with
    | conversion d t' s' m' b =>
      by_cases hcode : c = d
      · intro heq
        exact (h.resolve_left fun hne => hne hcode).ne hx hy hs _ _ (List.cons.inj heq).2
      · exact Tree.ne_of_code (x := .conversion c t s m a) (y := .conversion d t' s' m' b)
          (fun heq => hcode (TreeCode.conversion.inj heq)) q r
    | _ => exact Tree.ne_of_code (by simp [Tree.code]) q r
  | .constructor t es, y, h, hx, hy, hs, q, r => by
    cases y with
    | constructor u fs =>
      simp only [recordConstant1, List.cons_append, List.append_assoc]
      intro heq
      obtain ⟨-, heq⟩ := List.cons.inj heq
      by_cases hheaders : HeadersApart t es u fs
      · exact hheaders.ne _ _ heq
      · obtain ⟨halike, hapart⟩ := h.resolve_left hheaders
        obtain ⟨hlength, hpurpose⟩ := not_headersApart_eq hheaders
        rw [header_eq halike hlength hpurpose, hpurpose] at heq
        refine hapart.ne hx hy hs ?_ id _ _ (List.append_cancel_left heq)
        rw [hpurpose]
        exact id
    | _ => exact Tree.ne_of_code (by simp [Tree.code]) q r

theorem Elts.Apart.ne : ∀ {es fs : Elts}, es.Apart env fs → es.Narrow → fs.Narrow →
    ¬ (env.writableStrings = true ∧ es.HasString) → ∀ {hp : Bool}, (es.havePurpose = true → hp = true) →
      (fs.havePurpose = true → hp = true) → ∀ q r, recordElts env hp es ++ q ≠ recordElts env hp fs ++ r
  | .cons p v es, .cons p' w fs, h, hx, hy, hs, hp, he, hf, q, r => by
    have hv : ¬ (env.writableStrings = true ∧ v.HasString) := fun hw => hs ⟨hw.1, .inl hw.2⟩
    have hes : ¬ (env.writableStrings = true ∧ es.HasString) := fun hw => hs ⟨hw.1, .inr hw.2⟩
    simp only [recordElts, List.append_assoc]
    intro heq
    obtain h | ⟨halike, h⟩ := h
    · exact h.ne hx.2.1 hy.2.1 hv _ _ heq
    · rw [halike.record_eq] at heq
      have heq := List.append_cancel_left heq
      obtain h | ⟨rfl, h⟩ := h
      · refine h.ne hx.1 hy.1 (fun hsome => he ?_) (fun hsome => hf ?_) _ _ heq
        · rw [Elts.havePurpose, hsome, Bool.true_or]
        · rw [Elts.havePurpose, hsome, Bool.true_or]
      · refine h.ne hx.2.2 hy.2.2 hes ?_ ?_ _ _ (List.append_cancel_left heq)
        · exact fun hr => he (by rw [Elts.havePurpose, hr, Bool.or_true])
        · exact fun hr => hf (by rw [Elts.havePurpose, hr, Bool.or_true])

end

end Telling

section Emitting

variable {env : Env}

mutual

theorem Tree.Same.expr_eq : ∀ {x y : Tree}, x.Same y → x.expr = y.expr
  | .missing, .missing, _ => rfl
  | .integerCst _, .integerCst _, h => congrArg Expr.integer h
  | .realCst _ _, .realCst _ _, _ => rfl
  | .complexCst _ _, .complexCst _ _, _ => rfl
  | .stringCst _ _ _, .stringCst _ _ _, _ => rfl
  | .addrExpr _, .addrExpr _, h => by rw [Tree.expr, Tree.expr, h.1, h.2.2]
  | .sum _ _ _ _, .sum _ _ _ _, h => by
    obtain ⟨rfl, rfl, h0, h1⟩ := h
    rw [Tree.expr, Tree.expr, h0.expr_eq, h1.expr_eq]
  | .conversion _ _ _ _ _, .conversion _ _ _ _ _, h => by
    obtain ⟨rfl, rfl, rfl, rfl, h0⟩ := h
    rw [Tree.expr, Tree.expr, h0.expr_eq]
  | .constructor _ _, .constructor _ _, _ => rfl

end

theorem Tree.Same.stripNops : ∀ {x y : Tree}, x.Same y → x.stripNops.Same y.stripNops
  | .missing, .missing, _ => trivial
  | .integerCst _, .integerCst _, h => h
  | .realCst _ _, .realCst _ _, h => h
  | .complexCst _ _, .complexCst _ _, h => h
  | .stringCst _ _ _, .stringCst _ _ _, h => h
  | .addrExpr _, .addrExpr _, h => h
  | .sum _ _ _ _, .sum _ _ _ _, h => h
  | .conversion c t s m _, .conversion _ _ _ _ _, h => by
    obtain ⟨rfl, rfl, rfl, rfl, h0⟩ := h
    rw [Tree.stripNops, Tree.stripNops]
    cases m with
    | true => exact h0.stripNops
    | false => exact ⟨rfl, rfl, rfl, rfl, h0⟩
  | .constructor _ _, .constructor _ _, h => h

theorem Tree.Same.stripAll : ∀ {x y : Tree}, x.Same y → x.stripAll.Same y.stripAll
  | .missing, .missing, _ => trivial
  | .integerCst _, .integerCst _, h => h
  | .realCst _ _, .realCst _ _, h => h
  | .complexCst _ _, .complexCst _ _, h => h
  | .stringCst _ _ _, .stringCst _ _ _, h => h
  | .addrExpr _, .addrExpr _, h => h
  | .sum _ _ _ _, .sum _ _ _ _, h => h
  | .conversion _ _ _ _ _, .conversion _ _ _ _ _, h => h.2.2.2.2.stripAll
  | .constructor _ _, .constructor _ _, h => h

theorem Tree.Same.kind_eq : ∀ {x y : Tree}, x.Same y → x.kind = y.kind
  | .missing, .missing, _ => rfl
  | .integerCst _, .integerCst _, _ => rfl
  | .realCst _ _, .realCst _ _, _ => rfl
  | .complexCst _ _, .complexCst _ _, _ => rfl
  | .stringCst _ _ _, .stringCst _ _ _, _ => rfl
  | .addrExpr _, .addrExpr _, _ => rfl
  | .sum _ _ _ _, .sum _ _ _ _, h => congrArg ValueType.kind h.2.1
  | .conversion _ _ _ _ _, .conversion _ _ _ _ _, h => congrArg ValueType.kind h.2.1
  | .constructor t _, .constructor _ _, h => by
    obtain ⟨rfl, -⟩ := h
    cases t with
    | array size lo elt => rfl
    | _ => rfl

theorem Tree.Same.typeSize_eq : ∀ {x y : Tree}, x.Same y → x.typeSize env = y.typeSize env
  | .missing, .missing, _ => rfl
  | .integerCst _, .integerCst _, h => by rw [show _ = _ from h]
  | .realCst _ _, .realCst _ _, h => by rw [h.1, h.2]
  | .complexCst _ _, .complexCst _ _, h => congrArg (2 * ·) h.1.typeSize_eq
  | .stringCst _ _ _, .stringCst _ _ _, h => h.2.1
  | .addrExpr _, .addrExpr _, _ => rfl
  | .sum _ _ _ _, .sum _ _ _ _, h => congrArg ValueType.size h.2.1
  | .conversion _ _ _ _ _, .conversion _ _ _ _ _, h => congrArg ValueType.size h.2.1
  | .constructor t _, .constructor _ _, h => by
    obtain ⟨rfl, -⟩ := h
    cases t with
    | record type => rfl
    | union size => rfl
    | array size lo elt => rfl

theorem Tree.Same.member_eq : ∀ {x y : Tree}, x.Same y → x.member = y.member
  | .missing, .missing, _ => rfl
  | .integerCst _, .integerCst _, h => by rw [show _ = _ from h]
  | .realCst _ _, .realCst _ _, _ => rfl
  | .complexCst _ _, .complexCst _ _, _ => rfl
  | .stringCst _ _ _, .stringCst _ _ _, _ => rfl
  | .addrExpr _, .addrExpr _, _ => rfl
  | .sum _ _ _ _, .sum _ _ _ _, _ => rfl
  | .conversion _ _ _ _ _, .conversion _ _ _ _ _, _ => rfl
  | .constructor _ _, .constructor _ _, _ => rfl

theorem Tree.Same.outputInteger_eq {x y : Tree} (h : x.Same y) (size : Nat) :
    outputInteger env x size = outputInteger env y size := by
  have hexpr := h.expr_eq
  cases x with
  | integerCst c =>
    cases y with
    | integerCst d => rw [show c = d from h]
    | _ => cases h
  | _ =>
    cases y with
    | integerCst d => cases h
    | _ => exact congrArg (fun e => env.expression e size) hexpr

theorem Tree.Same.outputLeaf_eq {x y : Tree} (h : x.Same y) (kind own : Kind) (size : Nat)
    {out out' : Option (List Byte)} (hout : out = out') :
    outputLeaf env kind own x size out = outputLeaf env kind own y size out' := by
  rw [outputLeaf, outputLeaf, h.outputInteger_eq size, hout]

mutual

theorem Tree.Same.outputAs_eq : ∀ {x y : Tree}, x.Same y → ∀ (kind : Kind) (nops : Bool) (size : Nat),
    outputAs env kind nops x size = outputAs env kind nops y size
  | .missing, .missing, _, kind, nops, size => rfl
  | .integerCst _, .integerCst _, h, kind, nops, size => h.outputLeaf_eq kind .integer size rfl
  | .addrExpr _, .addrExpr _, h, kind, nops, size => h.outputLeaf_eq kind .integer size rfl
  | .sum _ _ _ _, .sum _ _ _ _, h, kind, nops, size => h.outputLeaf_eq kind .integer size rfl
  | .realCst _ _, .realCst _ _, h, kind, nops, size =>
    h.outputLeaf_eq kind .real size (congrArg (env.real · size) h.2)
  | .stringCst _ _ _, .stringCst _ _ _, h, kind, nops, size => by
    obtain ⟨rfl, rfl, rfl⟩ := h
    rfl
  | .complexCst a b, .complexCst c d, h, kind, nops, size => by
    have hre : outputAs env a.kind false a = outputAs env c.kind false c := by
      funext size
      rw [h.1.kind_eq, h.1.outputAs_eq]
    have him : outputAs env b.kind false b = outputAs env d.kind false d := by
      funext size
      rw [h.2.kind_eq, h.2.outputAs_eq]
    rw [outputAs, outputAs, hre, him]
    exact Tree.Same.outputLeaf_eq (x := .complexCst a b) (y := .complexCst c d) h kind .complex size rfl
  | .conversion c t s m a, .conversion _ _ _ _ b, h, kind, nops, size => by
    obtain ⟨rfl, rfl, rfl, rfl, h0⟩ := h
    rw [outputAs, outputAs, h0.outputAs_eq kind true, h0.outputAs_eq kind false, h0.stripAll.outputInteger_eq]
  | .constructor t es, .constructor _ fs, h, kind, nops, size => by
    obtain ⟨rfl, helts⟩ := h
    cases es with
    | nil =>
      cases fs with
      | nil => rfl
      | cons q w fs => cases helts
    | cons p v es =>
      cases fs with
      | nil => cases helts
      | cons q w fs =>
        have hsame : (Tree.constructor t (.cons p v es)).Same (.constructor t (.cons q w fs)) := ⟨rfl, helts⟩
        rw [outputAs, outputAs, helts.outputElts_eq, hsame.kind_eq]
        · exact hsame.outputLeaf_eq kind _ size rfl
        all_goals exact fun heq => by cases heq

theorem Elts.Same.outputElts_eq : ∀ {es fs : Elts}, es.Same fs →
    ∀ {type : Initializer.Aggregate} {field : List FieldDecl} {s : Initializer.State},
      outputElts env type es field s = outputElts env type fs field s
  | .nil, .nil, _, _, _, _ => rfl
  | .cons p v es, .cons q w fs, h, type, field, s => by
    obtain ⟨rfl, hv, hrest⟩ := h
    have hout : outputAs env v.stripNops.kind true v = outputAs env w.stripNops.kind true w := by
      funext size
      rw [hv.stripNops.kind_eq, hv.outputAs_eq]
    rw [outputElts, outputElts, hout, hv.stripNops.typeSize_eq, hv.stripNops.member_eq]
    refine bind_congr fun r => ?_
    exact hrest.outputElts_eq

end

theorem Tree.Same.contents_eq {x y : Tree} (h : x.Same y) : contents env x = contents env y := by
  have hout : outputConstant env x = outputConstant env y := by
    unfold outputConstant
    congr 1
    funext size
    rw [h.kind_eq, h.outputAs_eq]
  unfold contents
  rw [hout]
  congr 1
  cases x with
  | stringCst m s cs =>
    cases y with
    | stringCst n t ds => exact congrArg List.length h.2.2
    | _ => cases h
  | _ =>
    cases y with
    | stringCst n t ds => cases h
    | _ => exact h.typeSize_eq

mutual

theorem Tree.Same.constHash_eq : ∀ {x y : Tree}, x.Same y → constHash x = constHash y
  | .missing, .missing, _ => rfl
  | .integerCst _, .integerCst _, h => by rw [show _ = _ from h]
  | .realCst _ _, .realCst _ _, h => by rw [constHash, constHash, h.2]
  | .complexCst _ _, .complexCst _ _, h => by rw [constHash, constHash, h.1.constHash_eq, h.2.constHash_eq]
  | .stringCst _ _ _, .stringCst _ _ _, h => by rw [constHash, constHash, h.2.2]
  | .addrExpr _, .addrExpr _, h => by rw [constHash, constHash, Target.hash, Target.hash, h.1, h.2.1]
  | .sum _ _ _ _, .sum _ _ _ _, h => by rw [constHash, constHash, h.2.2.1.constHash_eq, h.2.2.2.constHash_eq]
  | .conversion _ _ _ _ _, .conversion _ _ _ _ _, h => by rw [constHash, constHash, h.2.2.2.2.constHash_eq]
  | .constructor _ _, .constructor _ _, h => by rw [constHash, constHash, h.1, h.2.hashElts_eq]

theorem Elts.Same.hashElts_eq : ∀ {es fs : Elts}, es.Same fs → ∀ {hi : HostWord}, hashElts es hi = hashElts fs hi
  | .nil, .nil, _, _ => rfl
  | .cons _ v es, .cons _ w fs, h, hi => by
    obtain ⟨rfl, hv, hrest⟩ := h
    have hhash := hv.constHash_eq
    cases v with
    | missing =>
      cases w with
      | missing => exact hrest.hashElts_eq
      | _ => cases hv
    | _ =>
      cases w with
      | missing => cases hv
      | _ =>
        rw [hashElts, hashElts, hhash]
        · exact hrest.hashElts_eq
        all_goals exact fun heq => by cases heq

end

end Emitting

section Pooling

variable {env : Env} {xs : List Tree}

theorem Told.same_of_match {x y : Tree} (h : Told env x y) (hx : x.Narrow) (hy : y.Narrow) {behind : List Byte}
    (hmatch : compareConstant env x (recordConstant1 env y ++ behind) = true) : x.Same y := by
  obtain ⟨q, hq⟩ := Option.isSome_iff_exists.1 hmatch
  obtain ⟨hstring, heq⟩ := (compareConstant1_some hx).1 hq
  exact h.resolve_right fun hapart => hapart.ne hx hy hstring q behind heq.symm

theorem compareConstant_self {x : Tree} (hx : x.Narrow) (hstring : ¬ (env.writableStrings = true ∧ x.HasString))
    (behind : List Byte) : compareConstant env x (recordConstant1 env x ++ behind) = true :=
  Option.isSome_iff_exists.2 ⟨behind, (compareConstant1_some hx).2 ⟨hstring, rfl⟩⟩

/-- Each descriptor is that of a constant that was asked for, and has the label of it. -/
def Pool.Holds (env : Env) (pool : Pool) (made : List (Tree × Nat)) : Prop :=
  (∀ desc ∈ pool.descriptors, ∃ y behind, (y, desc.label) ∈ made ∧ desc.contents = recordConstant1 env y ++ behind) ∧
    ∀ a ∈ made, a.2 < pool.constLabelno

def OneContents (env : Env) (made : List (Tree × Nat)) : Prop :=
  ∀ a ∈ made, ∀ b ∈ made, a.2 = b.2 → contents env a.1 = contents env b.1

theorem OneContents.cons {made : List (Tree × Nat)} (h : OneContents env made) {x : Tree} {label : Nat}
    (hx : ∀ a ∈ made, a.2 = label → contents env a.1 = contents env x) : OneContents env ((x, label) :: made) := by
  intro a ha b hb hlabel
  obtain rfl | ha := List.mem_cons.1 ha
  · obtain rfl | hb := List.mem_cons.1 hb
    · rfl
    · exact (hx b hb hlabel.symm).symm
  · obtain rfl | hb := List.mem_cons.1 hb
    · exact hx a ha hlabel
    · exact h a ha b hb hlabel

theorem outputConstantDef_holds (htold : ∀ x ∈ xs, ∀ y ∈ xs, Told env x y) (hnarrow : ∀ x ∈ xs, x.Narrow)
    {pool : Pool} {made : List (Tree × Nat)} (hpool : pool.Holds env made) (hone : OneContents env made)
    (hmade : ∀ a ∈ made, a.1 ∈ xs) {x : Tree} (hx : x ∈ xs) (behind : List Byte) :
    (outputConstantDef env behind pool x).2.Holds env ((x, (outputConstantDef env behind pool x).1) :: made) ∧
      OneContents env ((x, (outputConstantDef env behind pool x).1) :: made) := by
  obtain ⟨hdescs, hlabels⟩ := hpool
  unfold outputConstantDef
  cases hfind : pool.descriptors.find? fun desc => desc.hash = bucket x && compareConstant env x desc.contents with
  | some desc =>
    have hdesc := List.mem_of_find?_eq_some hfind
    have hfound := @List.find?_some _ (fun d : Descriptor => decide (d.hash = bucket x) && compareConstant env x d.contents)
      _ _ hfind
    have hmatch := (Bool.and_eq_true_iff.1 hfound).2
    obtain ⟨y, rest, hy, hcontents⟩ := hdescs desc hdesc
    rw [hcontents] at hmatch
    have hsame := (htold x hx y (hmade _ hy)).same_of_match (hnarrow x hx) (hnarrow y (hmade _ hy)) hmatch
    refine ⟨⟨fun d hd => ?_, fun a ha => ?_⟩, hone.cons fun a ha hlabel => ?_⟩
    · obtain ⟨z, rest, hz, hd⟩ := hdescs d hd
      exact ⟨z, rest, List.mem_cons_of_mem _ hz, hd⟩
    · obtain rfl | ha := List.mem_cons.1 ha
      · exact hlabels (y, desc.label) hy
      · exact hlabels a ha
    · rw [hsame.contents_eq]
      exact hone a ha _ hy hlabel
  | none =>
    refine ⟨⟨fun d hd => ?_, fun a ha => ?_⟩, hone.cons fun a ha hlabel => ?_⟩
    · obtain rfl | hd := List.mem_cons.1 hd
      · exact ⟨x, behind, List.mem_cons_self, rfl⟩
      · obtain ⟨z, rest, hz, hd⟩ := hdescs d hd
        exact ⟨z, rest, List.mem_cons_of_mem _ hz, hd⟩
    · obtain rfl | ha := List.mem_cons.1 ha
      · exact Nat.lt_succ_self _
      · exact Nat.lt_succ_of_lt (hlabels a ha)
    · exact absurd hlabel (hlabels a ha).ne

theorem labels_oneContents (htold : ∀ x ∈ xs, ∀ y ∈ xs, Told env x y) (hnarrow : ∀ x ∈ xs, x.Narrow)
    {requests : List (Tree × List Byte)} (hrequests : ∀ r ∈ requests, r.1 ∈ xs) {pool : Pool} {made : List (Tree × Nat)}
    (hpool : pool.Holds env made) (hone : OneContents env made) (hmade : ∀ a ∈ made, a.1 ∈ xs) :
    OneContents env (labels env pool requests ++ made) := by
  induction requests generalizing pool made with
  | nil => exact hone
  | cons r requests ih =>
    obtain ⟨x, behind⟩ := r
    have hx := hrequests _ List.mem_cons_self
    obtain ⟨hpool', hone'⟩ := outputConstantDef_holds htold hnarrow hpool hone hmade hx behind
    have hrest := ih (fun r hr => hrequests r (List.mem_cons_of_mem _ hr)) hpool' hone' fun a ha => by
      obtain rfl | ha := List.mem_cons.1 ha
      · exact hx
      · exact hmade a ha
    have hmove : ∀ a, a ∈ labels env pool ((x, behind) :: requests) ++ made ↔
        a ∈ labels env (outputConstantDef env behind pool x).2 requests ++
          (x, (outputConstantDef env behind pool x).1) :: made := by
      intro a
      rw [labels, List.cons_append, List.mem_cons, List.mem_append, List.mem_append, List.mem_cons]
      tauto
    exact fun a ha b hb => hrest a ((hmove a).1 ha) b ((hmove b).1 hb)

/-- Constants that no type tells apart are interchangeable: one that matches a descriptor is the constant of the
descriptor, with its contents and its hash code, and every label stands for one contents. -/
theorem constants_pooled (htold : ∀ x ∈ xs, ∀ y ∈ xs, Told env x y) (hnarrow : ∀ x ∈ xs, x.Narrow) : PoolRight env xs where
  matched x hx y hy behind hmatch := by
    have hsame := (htold x hx y hy).same_of_match (hnarrow x hx) (hnarrow y hy) hmatch
    exact ⟨hsame.contents_eq, hsame.constHash_eq⟩
  itself x hx hstring behind := compareConstant_self (hnarrow x hx) hstring behind
  labelled requests hrequests := by
    have hempty : Pool.empty.Holds env [] :=
      ⟨fun d hd => absurd hd List.not_mem_nil, fun a ha => absurd ha List.not_mem_nil⟩
    have hnone : OneContents env [] := fun a ha => absurd ha List.not_mem_nil
    have hone := labels_oneContents htold hnarrow hrequests hempty hnone fun a ha => absurd ha List.not_mem_nil
    rwa [List.append_nil] at hone

/-- An environment in which symbols and floating constants have no bytes. -/
def bareEnv : Env := ⟨false, ⟨[], List.not_mem_nil⟩, fun _ => ([], 0), fun _ => (⟨0, 0, false⟩, []), fun _ _ => none,
  fun _ _ => none⟩

def twoStrings (elt : Nat) (first second : Byte) : Tree :=
  .constructor (.array 35 0 elt)
    (.cons (some (.index ⟨16, 0, 0⟩)) (.stringCst 0 elt [first, 0])
      (.cons (some (.index ⟨16, 1, 0⟩)) (.stringCst 0 elt [second, 0]) .nil))

theorem constants_pooled_strings : PoolRight bareEnv [twoStrings 7 97 98, twoStrings 7 97 99] := by
  refine constants_pooled ?_ ?_
  · intro x hx y hy
    obtain rfl | rfl : x = twoStrings 7 97 98 ∨ x = twoStrings 7 97 99 := by simpa using hx
    · obtain rfl | rfl : y = twoStrings 7 97 98 ∨ y = twoStrings 7 97 99 := by simpa using hy
      · exact .inl (by simp [twoStrings, Tree.Same, Elts.Same])
      · exact .inr (by simp [twoStrings, Tree.Apart, Elts.Apart, Tree.Alike, Aggregate.Alike])
    · obtain rfl | rfl : y = twoStrings 7 97 98 ∨ y = twoStrings 7 97 99 := by simpa using hy
      · exact .inr (by simp [twoStrings, Tree.Apart, Elts.Apart, Tree.Alike, Aggregate.Alike])
      · exact .inl (by simp [twoStrings, Tree.Same, Elts.Same])
  · intro x hx
    obtain rfl | rfl : x = twoStrings 7 97 98 ∨ x = twoStrings 7 97 99 := by simpa using hx
    · simp [twoStrings, Tree.Narrow, Elts.Narrow, Purpose.Narrow]
    · simp [twoStrings, Tree.Narrow, Elts.Narrow, Purpose.Narrow]

-- `char a[5][7]` and `char b[7][5]` with the same two strings are given one label, and differ in memory.
example : (labels bareEnv .empty [(twoStrings 7 97 98, []), (twoStrings 5 97 98, [])]).map (·.2) = [0, 0] ∧
    contents bareEnv (twoStrings 7 97 98) ≠ contents bareEnv (twoStrings 5 97 98) := by decide +kernel

end Pooling

end Z80Gcc.ConstantPool
