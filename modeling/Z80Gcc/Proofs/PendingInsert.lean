import Z80Gcc.Lib.AvlLinks
import Z80Gcc.Spec.PendingInit

/-! `add_pending_init` keeps the pending elements in an AVL tree with the right links. -/

namespace Z80Gcc.PendingInit

open Z80Gcc.LinkedTree

namespace State

def child (st : State) (a : Nat) (side : Side) : Option Nat := (st.node a).child side

def parent (st : State) (a : Nat) : Option Nat := (st.node a).parent

def balance (st : State) (a : Nat) : Int := (st.node a).balance

def links (st : State) : Links Nat := ⟨st.child, st.parent, st.balance, st.pendingElts⟩

section Setters

variable (st : State) (a b : Nat) (side : Side) (v : Option Nat) (n : Int)

theorem node_setNode (i : InitNode) :
    (st.setNode a i).node b = if b = a then i else st.node b := by
  by_cases h : b = a <;> simp [setNode, h]

theorem links_setNode (i : InitNode) :
    (st.setNode a i).links = ⟨Function.update st.child a i.child, Function.update st.parent a i.parent,
      Function.update st.balance a i.balance, st.pendingElts⟩ := by
  unfold links
  congr 1
  · funext b d
    by_cases h : b = a <;> simp [child, node_setNode, h]
  · funext b
    by_cases h : b = a <;> simp [parent, node_setNode, h]
  · funext b
    by_cases h : b = a <;> simp [balance, node_setNode, h]

theorem links_setChild : (st.setChild a side v).links = st.links.setChild a side v := by
  rw [setChild, links_setNode]
  congr 1
  · exact Function.update_eq_self ..
  · exact Function.update_eq_self ..

theorem links_setParent : (st.setParent a v).links = st.links.setParent a v := by
  rw [setParent, links_setNode]
  congr 1
  · exact Function.update_eq_self ..
  · exact Function.update_eq_self ..

theorem links_setBalance : (st.setBalance a n).links = st.links.setBalance a n := by
  rw [setBalance, links_setNode]
  congr 1
  · exact Function.update_eq_self ..
  · exact Function.update_eq_self ..

theorem links_adopt : (st.adopt v a).links = st.links.adopt v a := by
  cases v with
  | none => rfl
  | some c => exact links_setParent ..

theorem links_replaceChild : (st.replaceChild v a b).links = st.links.replaceChild v a b := by
  cases v with
  | none => rfl
  | some s => exact links_setChild ..

end Setters

end State

/-- Nothing but links and balances changes. -/
structure Kept (st st' : State) : Prop where
  purpose : ∀ a, (st'.node a).purpose = (st.node a).purpose
  value : ∀ a, (st'.node a).value = (st.node a).value
  allocated : st'.allocated = st.allocated
  unfilled : st'.unfilled = st.unfilled
  bitIndex : st'.bitIndex = st.bitIndex
  elements : st'.elements = st.elements
  out : st'.out = st.out
  duplicates : st'.duplicates = st.duplicates

namespace Kept

theorem refl (st : State) : Kept st st := ⟨fun _ => rfl, fun _ => rfl, rfl, rfl, rfl, rfl, rfl, rfl⟩

theorem trans {st₁ st₂ st₃ : State} (h₁ : Kept st₁ st₂) (h₂ : Kept st₂ st₃) : Kept st₁ st₃ where
  purpose a := (h₂.purpose a).trans (h₁.purpose a)
  value a := (h₂.value a).trans (h₁.value a)
  allocated := h₂.allocated.trans h₁.allocated
  unfilled := h₂.unfilled.trans h₁.unfilled
  bitIndex := h₂.bitIndex.trans h₁.bitIndex
  elements := h₂.elements.trans h₁.elements
  out := h₂.out.trans h₁.out
  duplicates := h₂.duplicates.trans h₁.duplicates

theorem setNode (st : State) (a : Nat) {i : InitNode} (hp : i.purpose = (st.node a).purpose)
    (hv : i.value = (st.node a).value) : Kept st (st.setNode a i) where
  purpose b := by
    rw [State.node_setNode]
    split
    · next h => rw [h, hp]
    · rfl
  value b := by
    rw [State.node_setNode]
    split
    · next h => rw [h, hv]
    · rfl
  allocated := rfl
  unfilled := rfl
  bitIndex := rfl
  elements := rfl
  out := rfl
  duplicates := rfl

variable (st : State) (a b : Nat) (side : Side) (v : Option Nat) (n : Int)

theorem setChild : Kept st (st.setChild a side v) := setNode st a rfl rfl

theorem setParent : Kept st (st.setParent a v) := setNode st a rfl rfl

theorem setBalance : Kept st (st.setBalance a n) := setNode st a rfl rfl

theorem adopt : Kept st (st.adopt v a) := by
  cases v with
  | none => exact .refl st
  | some c => exact .setParent ..

theorem replaceChild : Kept st (st.replaceChild v a b) := by
  cases v with
  | none => exact ⟨fun _ => rfl, fun _ => rfl, rfl, rfl, rfl, rfl, rfl, rfl⟩
  | some s => exact .setChild ..

theorem rotate (r : Nat) : Kept st (rotate side a r st) := by
  unfold PendingInit.rotate
  exact (setChild ..).trans <| (adopt ..).trans <| (setChild ..).trans <| (setBalance ..).trans <|
    (setBalance ..).trans <| (setParent ..).trans <| (setParent ..).trans <| replaceChild ..

theorem rotateTwice (r t : Nat) : Kept st (rotateTwice side a r t st) := by
  unfold PendingInit.rotateTwice
  exact (setChild ..).trans <| (adopt ..).trans <| (setChild ..).trans <| (setChild ..).trans <|
    (adopt ..).trans <| (setChild ..).trans <| (setBalance ..).trans <| (setBalance ..).trans <|
    (setBalance ..).trans <| (setParent ..).trans <| (setParent ..).trans <| (setParent ..).trans <|
    replaceChild ..

end Kept

section Rebalancing

variable {st : State} {side : Side} {p r t : Nat}

/-- The balances that `rotateTwice` gives to `p` and `r`. -/
def innerBalance (side : Side) (b : Int) : Int × Int :=
  (if 0 < side.sign * b then -side.sign else 0, if side.sign * b < 0 then side.sign else 0)

theorem links_rotate (st : State) (side : Side) (p r : Nat) :
    (rotate side p r st).links = st.links.rotate side p r := by
  simp only [rotate, State.links_replaceChild, State.links_setParent, State.links_setBalance,
    State.links_setChild, State.links_adopt]
  rfl

theorem links_rotateTwice (st : State) (side : Side) (p r t : Nat) :
    (rotateTwice side p r t st).links = st.links.rotateTwice innerBalance side p r t := by
  simp only [rotateTwice, State.links_replaceChild, State.links_setParent, State.links_setBalance,
    State.links_setChild, State.links_adopt]
  rfl

/-- The loop of `add_pending_init` is the one for the links alone. -/
theorem rebalance_links {fuel : Nat} {q : Option Nat} {ls : Links Nat}
    (h : st.links.rebalance innerBalance fuel r q = some ls) :
    ∃ st', rebalance fuel r q st = some st' ∧ st'.links = ls ∧ Kept st st' := by
  induction fuel generalizing st r q with
  | zero =>
    cases q with
    | none => exact ⟨st, rfl, Option.some.inj h, .refl st⟩
    | some p => cases h
  | succ fuel ih =>
    cases q with
    | none => exact ⟨st, rfl, Option.some.inj h, .refl st⟩
    | some p =>
      obtain ⟨side, hside⟩ : ∃ side : Side,
        (if (st.node p).child .left = some r then Side.left else .right) = side := ⟨_, rfl⟩
      have hside' : (if st.links.child p .left = some r then Side.left else .right) = side := hside
      rw [Links.rebalance] at h
      rw [rebalance]
      simp only [hside, hside'] at h ⊢
      split
      · next hzero =>
        rw [if_pos (show st.links.balance p = 0 from hzero), ← State.links_setBalance] at h
        obtain ⟨st', hrun, hlinks, hkept⟩ := ih h
        exact ⟨st', hrun, hlinks, (Kept.setBalance ..).trans hkept⟩
      · next hzero =>
        rw [if_neg (show ¬ st.links.balance p = 0 from hzero)] at h
        split
        · next hheavy =>
          rw [if_pos (show 0 < side.sign * st.links.balance p from hheavy)] at h
          split
          · next houter =>
            rw [if_pos (show 0 < side.sign * st.links.balance r from houter), ← links_rotate] at h
            exact ⟨_, rfl, Option.some.inj h, .rotate ..⟩
          · next hinner =>
            rw [if_neg (show ¬ 0 < side.sign * st.links.balance r from hinner),
              show st.links.child r side.other = (st.node r).child side.other from rfl] at h
            cases hc : (st.node r).child side.other with
            | none =>
              rw [hc] at h
              cases h
            | some t =>
              rw [hc] at h
              exact ⟨_, rfl, (links_rotateTwice ..).trans (Option.some.inj h), .rotateTwice ..⟩
        · next hlight =>
          rw [if_neg (show ¬ 0 < side.sign * st.links.balance p from hlight), ← State.links_setBalance] at h
          exact ⟨_, rfl, Option.some.inj h, .setBalance ..⟩

end Rebalancing

section Inserting

variable {type : ConstructorType} {st : State}

/-- The key of a node. -/
def State.key (type : ConstructorType) (st : State) (a : Nat) : Nat := type.position (st.node a).purpose

/-- The keys of a list of nodes increase. -/
def Increasing (type : ConstructorType) (st : State) (elts : List Nat) : Prop :=
  elts.Pairwise fun a b => st.key type a < st.key type b

/-- The pending elements form an AVL tree in order of position, with the links to the parents. -/
def PendingTree (type : ConstructorType) (st : State) : Prop :=
  ∃ t, Linked st.child st.parent none t st.pendingElts ∧ AvlTree st.balance t ∧
    Increasing type st t.toList ∧ t.toList.Perm (List.range st.allocated)

def direction (type : ConstructorType) (st : State) (purpose a : Nat) : Option Side :=
  if type.position purpose < st.key type a then some .left
  else if st.key type a < type.position purpose then some .right
  else none

/-- The search for a place takes these sides, and fails at a node with the same position. -/
theorem findPlace_eq (purpose fuel : Nat) (q : Option Nat) (side : Side) (ptr : Option Nat) :
    findPlace type st.node purpose fuel q side ptr =
      match Links.search (direction type st purpose) st.links fuel q side ptr with
      | some (.free p side) => some (p, side)
      | _ => none := by
  induction fuel generalizing q side ptr with
  | zero => cases ptr <;> rfl
  | succ fuel ih =>
    cases ptr with
    | none => rfl
    | some a =>
      rw [findPlace, Links.search, ih, ih, direction]
      unfold State.key
      split
      · rfl
      · split <;> rfl

theorem direction_left {purpose a : Nat} (h : direction type st purpose a = some .left) :
    type.position purpose < st.key type a := by
  unfold direction at h
  split at h
  · assumption
  · split at h <;> cases h

theorem direction_right {purpose a : Nat} (h : direction type st purpose a = some .right) :
    st.key type a < type.position purpose := by
  unfold direction at h
  split at h
  · cases h
  · split at h
    · assumption
    · cases h

theorem Increasing.directed {elts : List Nat} (h : Increasing type st elts) (purpose : Nat) :
    Links.Directed (direction type st purpose) elts := by
  refine h.imp fun {a b} hab => ⟨fun ha => ?_, fun hb => ?_⟩
  · have hlt := direction_left ha
    exact if_pos (Nat.lt_trans hlt hab)
  · have hlt := Nat.lt_trans hab (direction_right hb)
    exact (if_neg (Nat.lt_asymm hlt)).trans (if_pos hlt)

/-- One more node, and nothing else but links and balances. -/
structure Added (purpose : Nat) (value : List Byte) (st st' : State) : Prop where
  old : ∀ a, a < st.allocated →
    (st'.node a).purpose = (st.node a).purpose ∧ (st'.node a).value = (st.node a).value
  new : (st'.node st.allocated).purpose = purpose ∧ (st'.node st.allocated).value = value
  allocated : st'.allocated = st.allocated + 1
  unfilled : st'.unfilled = st.unfilled
  bitIndex : st'.bitIndex = st.bitIndex
  elements : st'.elements = st.elements
  out : st'.out = st.out
  duplicates : st'.duplicates = st.duplicates

def newNode (purpose : Nat) (value : List Byte) (p : Option Nat) (st : State) : State :=
  { st.setNode st.allocated ⟨purpose, value, fun _ => none, p, 0⟩ with allocated := st.allocated + 1 }

def attach (p : Option Nat) (side : Side) (r : Nat) (st : State) : State :=
  match p with
  | none => { st with pendingElts := some r }
  | some p => st.setChild p side (some r)

theorem addPendingInit_eq (purpose : Nat) (value : List Byte) (st : State) :
    addPendingInit type purpose value st =
      (findPlace type st.node purpose (st.allocated + 1) none .left st.pendingElts).bind fun (p, side) =>
        rebalance (st.allocated + 1) st.allocated p
          (attach p side st.allocated (newNode purpose value p st)) := by
  rw [addPendingInit]
  refine congrArg _ ?_
  funext ⟨p, side⟩
  cases p <;> rfl

theorem added_attach (purpose : Nat) (value : List Byte) (p : Option Nat) (side : Side) :
    Added purpose value st (attach p side st.allocated (newNode purpose value p st)) := by
  have hnew : Added purpose value st (newNode purpose value p st) := by
    refine ⟨fun a ha => ?_, ?_, rfl, rfl, rfl, rfl, rfl, rfl⟩
    · have hnode : (newNode purpose value p st).node a = st.node a :=
        (State.node_setNode ..).trans (if_neg (Nat.ne_of_lt ha))
      rw [hnode]
      exact ⟨rfl, rfl⟩
    · have hnode : (newNode purpose value p st).node st.allocated = ⟨purpose, value, fun _ => none, p, 0⟩ :=
        (State.node_setNode ..).trans (if_pos rfl)
      rw [hnode]
      exact ⟨rfl, rfl⟩
  cases p with
  | none =>
    exact ⟨hnew.old, hnew.new, hnew.allocated, hnew.unfilled, hnew.bitIndex, hnew.elements, hnew.out,
      hnew.duplicates⟩
  | some q =>
    have hkept : Kept (newNode purpose value (some q) st) (attach (some q) side st.allocated _) :=
      .setChild ..
    refine ⟨fun a ha => ?_, ?_, hkept.allocated, hkept.unfilled, hkept.bitIndex, hkept.elements,
      hkept.out, hkept.duplicates⟩
    · rw [hkept.purpose, hkept.value]
      exact hnew.old a ha
    · rw [hkept.purpose, hkept.value]
      exact hnew.new

theorem Added.kept {purpose : Nat} {value : List Byte} {st₁ st₂ : State}
    (h : Added purpose value st st₁) (hk : Kept st₁ st₂) : Added purpose value st st₂ where
  old a ha := by
    rw [hk.purpose, hk.value]
    exact h.old a ha
  new := by
    rw [hk.purpose, hk.value]
    exact h.new
  allocated := hk.allocated.trans h.allocated
  unfilled := hk.unfilled.trans h.unfilled
  bitIndex := hk.bitIndex.trans h.bitIndex
  elements := hk.elements.trans h.elements
  out := hk.out.trans h.out
  duplicates := hk.duplicates.trans h.duplicates

theorem links_attach (purpose : Nat) (value : List Byte) {p : Option Nat} (hp : p ≠ some st.allocated)
    (side : Side) :
    (attach p side st.allocated (newNode purpose value p st)).links =
      st.links.attach p side st.allocated := by
  have hnew : (newNode purpose value p st).links =
      ⟨Function.update st.child st.allocated fun _ => none, Function.update st.parent st.allocated p,
        Function.update st.balance st.allocated 0, st.pendingElts⟩ :=
    st.links_setNode st.allocated ⟨purpose, value, fun _ => none, p, 0⟩
  have hleaf : ∀ ls : Links Nat,
      (((ls.setParent st.allocated p).setChild st.allocated .left none).setChild st.allocated .right
        none).setBalance st.allocated 0 =
      ⟨Function.update ls.child st.allocated fun _ => none, Function.update ls.parent st.allocated p,
        Function.update ls.balance st.allocated 0, ls.root⟩ := by
    intro ls
    ext b d
    · by_cases hb : b = st.allocated <;> cases d <;> simp [hb]
    · rfl
    · rfl
    · rfl
  refine Eq.trans ?_ (hleaf _).symm
  cases p with
  | none => exact congrArg (fun ls : Links Nat => { ls with root := some st.allocated }) hnew
  | some q =>
    have hq : q ≠ st.allocated := fun h => hp (congrArg some h)
    refine (State.links_setChild ..).trans ?_
    rw [hnew]
    ext b d
    · by_cases hb : b = st.allocated
      · subst hb
        simp [hq.symm]
      · simp [hb]
        rfl
    · rfl
    · rfl
    · rfl

theorem addPendingInit_spec (ht : PendingTree type st) {purpose : Nat} (value : List Byte)
    (hfree : ∀ a, a < st.allocated → st.key type a ≠ type.position purpose) :
    ∃ st', addPendingInit type purpose value st = some st' ∧ PendingTree type st' ∧
      Added purpose value st st' := by
  obtain ⟨t, hlinked, havl, hinc, hperm⟩ := ht
  have hmem : ∀ a, a ∈ t.toList ↔ a < st.allocated := fun a => hperm.mem_iff.trans List.mem_range
  have hlen : t.toList.length ≤ st.allocated + 1 := by
    rw [hperm.length_eq, List.length_range]
    exact Nat.le_succ _
  have hfresh : st.allocated ∉ t.toList := fun h => Nat.lt_irrefl _ ((hmem _).1 h)
  have htree : st.links.AvlOf t.toList := ⟨t, hlinked, havl, rfl⟩
  obtain ⟨a, ha, hdir, -⟩ | ⟨p, side, l₁, l₂, ls, hsearch, hsplit, hl₁, hl₂, hp, hrun, htree'⟩ :=
    Links.search_insert .left htree (hperm.nodup_iff.2 List.nodup_range) (hinc.directed purpose) hfresh
      (fun _ _ _ _ => rfl : Links.InnerBalance innerBalance) hlen
  · have hne := hfree a ((hmem a).1 ha)
    unfold direction at hdir
    split at hdir
    · cases hdir
    · split at hdir
      · cases hdir
      · omega
  · have hpne : p ≠ some st.allocated := fun h => hfresh (hp _ h)
    rw [← links_attach purpose value hpne side] at hrun
    obtain ⟨st', hrun', rfl, hkept⟩ := rebalance_links hrun
    have hadded := (added_attach purpose value p side).kept hkept
    obtain ⟨t', hlinked', havl', hlist⟩ := htree'
    have hkey : ∀ a, a < st.allocated → st'.key type a = st.key type a := fun a ha =>
      congrArg type.position (hadded.old a ha).1
    have hkeyNew : st'.key type st.allocated = type.position purpose :=
      congrArg type.position hadded.new.1
    rw [hsplit] at hinc hperm hmem
    have hb : ∀ a ∈ l₁, a < st.allocated := fun a ha => (hmem a).1 (List.mem_append_left _ ha)
    have ha : ∀ a ∈ l₂, a < st.allocated := fun a ha => (hmem a).1 (List.mem_append_right _ ha)
    refine ⟨st', ?_, ⟨t', hlinked', havl', ?_, ?_⟩, hadded⟩
    · rw [addPendingInit_eq, findPlace_eq,
        show Links.search _ st.links _ none .left st.pendingElts = _ from hsearch]
      exact hrun'
    · obtain ⟨hincb, hinca, hcross⟩ := List.pairwise_append.1 hinc
      rw [hlist, Increasing, List.pairwise_append]
      refine ⟨hincb.imp_of_mem fun {a b} hma hmb h => ?_, List.pairwise_cons.2 ⟨fun b hmb => ?_, ?_⟩,
        fun a hma b hmb => ?_⟩
      · rw [hkey a (hb a hma), hkey b (hb b hmb)]
        exact h
      · rw [hkeyNew, hkey b (ha b hmb)]
        exact (direction_left (hl₂ b hmb))
      · refine List.Pairwise.imp_of_mem (fun {a b} hma hmb h => ?_) hinca
        rw [hkey a (ha a hma), hkey b (ha b hmb)]
        exact h
      · obtain rfl | hmb := List.mem_cons.1 hmb
        · rw [hkeyNew, hkey a (hb a hma)]
          exact direction_right (hl₁ a hma)
        · rw [hkey a (hb a hma), hkey b (ha b hmb)]
          exact hcross a hma b hmb
    · rw [hlist, hadded.allocated, List.range_succ]
      have hswap : ([st.allocated] ++ (l₁ ++ l₂)).Perm ((l₁ ++ l₂) ++ [st.allocated]) :=
        List.perm_append_comm
      have hmiddle : (l₁ ++ st.allocated :: l₂).Perm ([st.allocated] ++ (l₁ ++ l₂)) := List.perm_middle
      exact (hmiddle.trans hswap).trans (hperm.append_right _)

theorem addPendingInit_taken (ht : PendingTree type st) {purpose : Nat} (value : List Byte)
    (htaken : ∃ a, a < st.allocated ∧ st.key type a = type.position purpose) :
    addPendingInit type purpose value st = none := by
  obtain ⟨t, hlinked, havl, hinc, hperm⟩ := ht
  obtain ⟨a, ha, hkey⟩ := htaken
  have hmem : ∀ a, a ∈ t.toList ↔ a < st.allocated := fun a => hperm.mem_iff.trans List.mem_range
  have hlen : t.toList.length ≤ st.allocated + 1 := by
    rw [hperm.length_eq, List.length_range]
    exact Nat.le_succ _
  have htree : st.links.AvlOf t.toList := ⟨t, hlinked, havl, rfl⟩
  obtain ⟨b, -, -, hsearch⟩ | ⟨p, side, l₁, l₂, ls, -, hsplit, hl₁, hl₂, -⟩ :=
    Links.search_insert .left htree (hperm.nodup_iff.2 List.nodup_range) (hinc.directed purpose)
      (fun h => Nat.lt_irrefl _ ((hmem st.allocated).1 h))
      (fun _ _ _ _ => rfl : Links.InnerBalance innerBalance) hlen
  · rw [addPendingInit_eq, findPlace_eq,
      show Links.search _ st.links _ none .left st.pendingElts = _ from hsearch]
    rfl
  · rw [hsplit] at hmem
    obtain hal | har := List.mem_append.1 ((hmem a).2 ha)
    · have := direction_right (hl₁ a hal)
      omega
    · have := direction_left (hl₂ a har)
      omega

theorem pendingInitMember_linked {field : Nat} {s : LinkTree Nat} {q ptr : Option Nat} {fuel : Nat}
    (hs : Linked st.child st.parent q s ptr) (hinc : Increasing type st s.toList)
    (hfuel : s.height ≤ fuel) :
    ∃ found, pendingInitMember type st.node field fuel ptr = some found ∧
      (found = true ↔ ∃ a ∈ s.toList, (st.node a).purpose = field) := by
  induction s generalizing q ptr fuel with
  | nil =>
    obtain rfl : ptr = none := hs
    refine ⟨false, ?_, by simp [LinkTree.toList]⟩
    cases fuel <;> rfl
  | node l a r ihl ihr =>
    obtain ⟨rfl, -, hl, hr⟩ := hs
    obtain ⟨fuel, rfl⟩ := Nat.exists_eq_add_of_le' (Nat.le_trans (Nat.succ_le_succ (Nat.zero_le _)) hfuel)
    rw [LinkTree.height, Nat.add_le_add_iff_right] at hfuel
    rw [Increasing, LinkTree.toList, List.pairwise_append, List.pairwise_cons] at hinc
    obtain ⟨hincl, ⟨har, hincr⟩, hlr⟩ := hinc
    have hkey : ∀ b, (st.node b).purpose = field → st.key type b = type.position field :=
      fun b h => congrArg type.position h
    simp only [LinkTree.toList, List.mem_append, List.mem_cons]
    rw [pendingInitMember]
    split
    · next heq => exact ⟨true, rfl, iff_of_true rfl ⟨a, .inr (.inl rfl), heq.symm⟩⟩
    · next hne =>
      split
      · next hlt =>
        obtain ⟨found, hrun, hfound⟩ := ihl hl hincl (Nat.le_trans (Nat.le_max_left _ _) hfuel)
        refine ⟨found, hrun, hfound.trans ⟨?_, ?_⟩⟩
        · rintro ⟨b, hb, h⟩
          exact ⟨b, .inl hb, h⟩
        · rintro ⟨b, hb | rfl | hb, h⟩
          · exact ⟨b, hb, h⟩
          · exact absurd h.symm hne
          · have hab := har b hb
            rw [hkey b h] at hab
            exact absurd (Nat.lt_trans hab hlt) (Nat.lt_irrefl _)
      · next hge =>
        obtain ⟨found, hrun, hfound⟩ := ihr hr hincr (Nat.le_trans (Nat.le_max_right _ _) hfuel)
        refine ⟨found, hrun, hfound.trans ⟨?_, ?_⟩⟩
        · rintro ⟨b, hb, h⟩
          exact ⟨b, .inr (.inr hb), h⟩
        · rintro ⟨b, hb | rfl | hb, h⟩
          · have hba := hlr b hb a (List.mem_cons_self ..)
            rw [hkey b h] at hba
            exact absurd hba hge
          · exact absurd h.symm hne
          · exact ⟨b, hb, h⟩

theorem pendingInitMember_spec (ht : PendingTree type st) (field : Nat) :
    ∃ found, pendingInitMember type st.node field st.allocated st.pendingElts = some found ∧
      (found = true ↔ ∃ a, a < st.allocated ∧ (st.node a).purpose = field) := by
  obtain ⟨t, hlinked, -, hinc, hperm⟩ := ht
  have hheight : t.height ≤ st.allocated := by
    rw [← List.length_range (n := st.allocated), ← hperm.length_eq]
    exact LinkTree.height_le_length t
  obtain ⟨found, hrun, hfound⟩ := @pendingInitMember_linked type st field t none st.pendingElts st.allocated hlinked hinc hheight
  refine ⟨found, hrun, hfound.trans (exists_congr fun a => ?_)⟩
  rw [hperm.mem_iff, List.mem_range]

end Inserting

end Z80Gcc.PendingInit
