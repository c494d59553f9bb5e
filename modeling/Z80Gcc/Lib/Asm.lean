import Mathlib.Data.List.Basic

/-! Assembly listings over an arbitrary instruction set. A listing is read once from top to
bottom; a taken jump skips lines until its label is met. A jump backwards leaves the pass
still looking for its label, and the listing is then read again from the top. -/

namespace Z80Gcc.Asm

/-- One line of a listing: an instruction, a jump under a condition, or a label. -/
inductive Line (ι κ L : Type) where
  | op (i : ι)
  | jump (c : κ) (l : L)
  | label (l : L)
  deriving DecidableEq

/-- What the instructions do to a state, and when a jump is taken. Testing a condition may
change the state, as a decrement-and-jump does. -/
structure Isa (ι κ σ : Type) where
  exec : ι → σ → σ
  branch : κ → σ → Bool × σ

/-- Where control is: `seek = some l` while a taken jump looks for label `l`. -/
@[ext] structure Flow (L σ : Type) where
  seek : Option L
  state : σ
  deriving DecidableEq

variable {ι κ L σ : Type}

def ops (is : List ι) : List (Line ι κ L) := is.map .op

def labels : List (Line ι κ L) → List L
  | [] => []
  | .label l :: rest => l :: labels rest
  | _ :: rest => labels rest

@[simp] theorem labels_ops (is : List ι) : labels (ops (κ := κ) (L := L) is) = [] := by
  induction is with
  | nil => rfl
  | cons i is ih => exact ih

theorem labels_append (a b : List (Line ι κ L)) : labels (a ++ b) = labels a ++ labels b := by
  induction a with
  | nil => rfl
  | cons ln a ih => cases ln <;> simp [labels, ih]

/-- A listing that jumps back to a label at the end of a straight body. -/
def loopAt (pre : List (Line ι κ L)) (l : L) (body : List ι) (k : κ) (post : List (Line ι κ L)) :
    List (Line ι κ L) :=
  pre ++ .label l :: (ops body ++ .jump k l :: post)

theorem labels_loopAt (pre : List (Line ι κ L)) (l : L) (body : List ι) (k : κ)
    (post : List (Line ι κ L)) :
    labels (loopAt pre l body k post) = labels pre ++ l :: labels post := by
  simp [loopAt, labels_append, labels]

/-- The listing is left when control fell off its end or looks for a foreign label. -/
def Flow.Final (f : Flow L σ) (code : List (Line ι κ L)) : Prop :=
  ∀ l, f.seek = some l → l ∉ labels code

theorem Flow.final_fell (code : List (Line ι κ L)) (s : σ) :
    Flow.Final (⟨none, s⟩ : Flow L σ) code := by
  simp [Flow.Final]

variable [DecidableEq L] (isa : Isa ι κ σ)

def Isa.line (f : Flow L σ) (ln : Line ι κ L) : Flow L σ :=
  match f.seek, ln with
  | none, .op i => ⟨none, isa.exec i f.state⟩
  | none, .jump c l =>
      let r := isa.branch c f.state
      ⟨if r.1 then some l else none, r.2⟩
  | none, .label _ => f
  | some l, .label l' => if l = l' then ⟨none, f.state⟩ else f
  | some _, _ => f

def Isa.pass (code : List (Line ι κ L)) (f : Flow L σ) : Flow L σ :=
  code.foldl isa.line f

def Isa.execs (is : List ι) (s : σ) : σ := is.foldl (fun s i => isa.exec i s) s

@[simp] theorem Isa.pass_nil (f : Flow L σ) : isa.pass [] f = f := rfl

@[simp] theorem Isa.pass_cons (ln : Line ι κ L) (code : List (Line ι κ L)) (f : Flow L σ) :
    isa.pass (ln :: code) f = isa.pass code (isa.line f ln) := rfl

theorem Isa.pass_append (a b : List (Line ι κ L)) (f : Flow L σ) :
    isa.pass (a ++ b) f = isa.pass b (isa.pass a f) :=
  List.foldl_append

@[simp] theorem Isa.line_op (i : ι) (s : σ) :
    isa.line (L := L) ⟨none, s⟩ (.op i) = ⟨none, isa.exec i s⟩ := rfl

@[simp] theorem Isa.line_jump (c : κ) (l : L) (s : σ) :
    isa.line ⟨none, s⟩ (.jump c l) =
      ⟨if (isa.branch c s).1 then some l else none, (isa.branch c s).2⟩ := rfl

@[simp] theorem Isa.line_label (l : L) (s : σ) :
    isa.line ⟨none, s⟩ (.label l) = ⟨none, s⟩ := rfl

@[simp] theorem Isa.line_seek_op (l : L) (i : ι) (s : σ) :
    isa.line ⟨some l, s⟩ (.op i) = ⟨some l, s⟩ := rfl

@[simp] theorem Isa.line_seek_jump (l l' : L) (c : κ) (s : σ) :
    isa.line ⟨some l, s⟩ (.jump c l') = ⟨some l, s⟩ := rfl

@[simp] theorem Isa.line_seek_label (l l' : L) (s : σ) :
    isa.line ⟨some l, s⟩ (.label l') = ⟨if l = l' then none else some l, s⟩ := by
  by_cases h : l = l' <;> simp [Isa.line, h]

@[simp] theorem Isa.execs_nil (s : σ) : isa.execs [] s = s := rfl

@[simp] theorem Isa.execs_cons (i : ι) (is : List ι) (s : σ) :
    isa.execs (i :: is) s = isa.execs is (isa.exec i s) := rfl

theorem Isa.execs_append (is js : List ι) (s : σ) :
    isa.execs (is ++ js) s = isa.execs js (isa.execs is s) :=
  List.foldl_append

@[simp] theorem Isa.pass_ops (is : List ι) (s : σ) :
    isa.pass (L := L) (ops is) ⟨none, s⟩ = ⟨none, isa.execs is s⟩ := by
  induction is generalizing s with
  | nil => rfl
  | cons i is ih => exact ih (isa.exec i s)

@[simp] theorem Isa.pass_seek_ops (is : List ι) (l : L) (s : σ) :
    isa.pass (ops is) ⟨some l, s⟩ = ⟨some l, s⟩ := by
  induction is with
  | nil => rfl
  | cons i is ih => exact ih

/-- A label that the listing does not hold is still being looked for at its end. -/
theorem Isa.pass_seek_of_not_mem {code : List (Line ι κ L)} {l : L} (h : l ∉ labels code)
    (s : σ) : isa.pass code ⟨some l, s⟩ = ⟨some l, s⟩ := by
  induction code with
  | nil => rfl
  | cons ln code ih =>
    cases ln with
    | op i => exact ih h
    | jump c l' => exact ih h
    | label l' =>
      simp only [labels, List.mem_cons, not_or] at h
      simp [h.1, ih h.2]

theorem Isa.pass_seek {pre post : List (Line ι κ L)} {l : L} (h : l ∉ labels pre) (s : σ) :
    isa.pass (pre ++ .label l :: post) ⟨some l, s⟩ = isa.pass post ⟨none, s⟩ := by
  rw [isa.pass_append, isa.pass_seek_of_not_mem h]
  simp

/-- Reading the listing again and again until it is left. -/
inductive Isa.Resumes (code : List (Line ι κ L)) : Flow L σ → Flow L σ → Prop
  | done {f} (h : f.Final code) : Isa.Resumes code f f
  | again {l s f} (h : l ∈ labels code) (hr : Isa.Resumes code (isa.pass code ⟨some l, s⟩) f) :
      Isa.Resumes code ⟨some l, s⟩ f

/-- Running the listing from its first line terminates in flow `f`. -/
def Isa.Runs (code : List (Line ι κ L)) (s : σ) (f : Flow L σ) : Prop :=
  isa.Resumes code (isa.pass code ⟨none, s⟩) f

variable {isa}

theorem Isa.Resumes.det {code : List (Line ι κ L)} {f f₁ f₂ : Flow L σ}
    (h₁ : isa.Resumes code f f₁) (h₂ : isa.Resumes code f f₂) : f₁ = f₂ := by
  induction h₁ with
  | done hf =>
    cases h₂ with
    | done => rfl
    | again hl => exact absurd hl (hf _ rfl)
  | again hl _ ih =>
    cases h₂ with
    | done hf => exact absurd hl (hf _ rfl)
    | again _ hr => exact ih hr

theorem Isa.Runs.det {code : List (Line ι κ L)} {s : σ} {f₁ f₂ : Flow L σ}
    (h₁ : isa.Runs code s f₁) (h₂ : isa.Runs code s f₂) : f₁ = f₂ :=
  Isa.Resumes.det h₁ h₂

theorem Isa.Runs.final {code : List (Line ι κ L)} {s : σ} {f : Flow L σ}
    (h : isa.Runs code s f) : f.Final code := by
  unfold Isa.Runs at h
  generalize isa.pass code ⟨none, s⟩ = g at h
  induction h with
  | done hf => exact hf
  | again _ _ ih => exact ih

theorem Isa.Runs.of_pass {code : List (Line ι κ L)} {s : σ} {f : Flow L σ}
    (h : isa.pass code ⟨none, s⟩ = f) (hf : f.Final code) : isa.Runs code s f := by
  unfold Isa.Runs
  rw [h]
  exact .done hf

theorem Isa.Runs.of_pass_fell {code : List (Line ι κ L)} {s t : σ}
    (h : isa.pass code ⟨none, s⟩ = ⟨none, t⟩) : isa.Runs code s ⟨none, t⟩ :=
  .of_pass h (Flow.final_fell code t)

theorem Isa.runs_ops (is : List ι) (s : σ) :
    isa.Runs (L := L) (ops is) s ⟨none, isa.execs is s⟩ :=
  .of_pass_fell (isa.pass_ops is s)

section Loop

variable {pre post : List (Line ι κ L)} {body : List ι} {k : κ} {l : L}

/-- One turn: from the label through the body to the jump. -/
theorem Isa.pass_turn (hpre : l ∉ labels pre) (hpost : l ∉ labels post) (s : σ) :
    isa.pass (loopAt pre l body k post) ⟨some l, s⟩ =
      if (isa.branch k (isa.execs body s)).1 then ⟨some l, (isa.branch k (isa.execs body s)).2⟩
      else isa.pass post ⟨none, (isa.branch k (isa.execs body s)).2⟩ := by
  rw [loopAt, isa.pass_seek hpre, isa.pass_append, isa.pass_ops, isa.pass_cons, isa.line_jump]
  split
  · exact isa.pass_seek_of_not_mem hpost _
  · rfl

/-- The counted loop: if the states `s 0, s 1, …` follow each other through `n` taken jumps and the
next jump is not taken, the run goes on behind the loop. -/
theorem Isa.Resumes.loop (hpre : l ∉ labels pre) (hpost : l ∉ labels post) {n : Nat}
    {s : Nat → σ} {t : σ} {f : Flow L σ}
    (hturn : ∀ i < n, isa.branch k (isa.execs body (s i)) = (true, s (i + 1)))
    (hexit : isa.branch k (isa.execs body (s n)) = (false, t))
    (hrest : isa.pass post ⟨none, t⟩ = f) (hf : f.Final (loopAt pre l body k post)) :
    isa.Resumes (loopAt pre l body k post) ⟨some l, s 0⟩ f := by
  have hmem : l ∈ labels (loopAt pre l body k post) := by simp [labels_loopAt]
  induction n generalizing s with
  | zero =>
    refine .again hmem ?_
    rw [isa.pass_turn hpre hpost, hexit]
    simp only [Bool.false_eq_true, if_false, hrest]
    exact .done hf
  | succ n ih =>
    refine .again hmem ?_
    rw [isa.pass_turn hpre hpost, hturn 0 (Nat.succ_pos n)]
    simp only [if_true]
    exact ih (s := fun i => s (i + 1)) (fun i hi => hturn (i + 1) (Nat.succ_lt_succ hi)) hexit

/-- A run that falls into the loop is a run that looks for its label. -/
theorem Isa.Runs.of_loop (hpre : l ∉ labels pre) {m s : σ} {f : Flow L σ}
    (hin : isa.pass pre ⟨none, m⟩ = ⟨none, s⟩)
    (h : isa.Resumes (loopAt pre l body k post) ⟨some l, s⟩ f) :
    isa.Runs (loopAt pre l body k post) m f := by
  have heq : isa.pass (loopAt pre l body k post) ⟨none, m⟩ =
      isa.pass (loopAt pre l body k post) ⟨some l, s⟩ := by
    rw [loopAt, isa.pass_seek hpre, isa.pass_append, hin, isa.pass_cons, isa.line_label]
  rw [Isa.Runs, heq]
  cases h with
  | done hf => exact absurd (hf l rfl) (by simp [labels_loopAt])
  | again _ hr => exact hr

end Loop

section Invariant

variable {P : σ → Prop}

def Line.Keeps (isa : Isa ι κ σ) (P : σ → Prop) : Line ι κ L → Prop
  | .op i => ∀ s, P s → P (isa.exec i s)
  | .jump k _ => ∀ s, P s → P (isa.branch k s).2
  | .label _ => True

theorem Isa.line_keeps {ln : Line ι κ L} (h : ln.Keeps isa P) {f : Flow L σ} (hf : P f.state) :
    P (isa.line f ln).state := by
  obtain ⟨_ | l, s⟩ := f
  · cases ln with
    | op i => exact h s hf
    | jump k l => exact h s hf
    | label l => exact hf
  · cases ln with
    | op i => exact hf
    | jump k l' => exact hf
    | label l' =>
      rw [isa.line_seek_label]
      exact hf

theorem Isa.pass_keeps {code : List (Line ι κ L)} (h : ∀ ln ∈ code, ln.Keeps isa P) {f : Flow L σ}
    (hf : P f.state) : P (isa.pass code f).state := by
  induction code generalizing f with
  | nil => exact hf
  | cons ln code ih =>
    rw [isa.pass_cons]
    exact ih (fun ln' hln => h ln' (List.mem_cons_of_mem ln hln))
      (isa.line_keeps (h ln List.mem_cons_self) hf)

theorem Isa.Resumes.keeps {code : List (Line ι κ L)} (h : ∀ ln ∈ code, ln.Keeps isa P)
    {f g : Flow L σ} (hr : isa.Resumes code f g) (hf : P f.state) : P g.state := by
  induction hr with
  | done _ => exact hf
  | again _ _ ih => exact ih (isa.pass_keeps h hf)

theorem Isa.Runs.keeps {code : List (Line ι κ L)} (h : ∀ ln ∈ code, ln.Keeps isa P) {s : σ}
    {f : Flow L σ} (hr : isa.Runs code s f) (hs : P s) : P f.state :=
  Isa.Resumes.keeps h hr (isa.pass_keeps h hs)

end Invariant

section Logged

/-- The same instruction set, with a list of the instructions executed so far. -/
def Isa.logged (isa : Isa ι κ σ) : Isa ι κ (σ × List ι) where
  exec i s := (isa.exec i s.1, s.2 ++ [i])
  branch k s := ((isa.branch k s.1).1, (isa.branch k s.1).2, s.2)

theorem Isa.logged_exec (i : ι) (s : σ) (log : List ι) :
    isa.logged.exec i (s, log) = (isa.exec i s, log ++ [i]) := rfl

theorem Isa.logged_branch (k : κ) (s : σ) (log : List ι) :
    isa.logged.branch k (s, log) = ((isa.branch k s).1, (isa.branch k s).2, log) := rfl

theorem Isa.logged_execs (is : List ι) (s : σ) (log : List ι) :
    isa.logged.execs is (s, log) = (isa.execs is s, log ++ is) := by
  induction is generalizing s log with
  | nil => simp
  | cons i is ih =>
    rw [isa.logged.execs_cons, isa.execs_cons, isa.logged_exec, ih]
    simp

def Flow.plain (f : Flow L (σ × List ι)) : Flow L σ := ⟨f.seek, f.state.1⟩

theorem Isa.logged_line (f : Flow L (σ × List ι)) (ln : Line ι κ L) :
    (isa.logged.line f ln).plain = isa.line f.plain ln := by
  obtain ⟨_ | l, s⟩ := f
  · cases ln <;> rfl
  · cases ln with
    | op i => rfl
    | jump k l' => rfl
    | label l' => by_cases h : l = l' <;> simp [Flow.plain, h]

theorem Isa.logged_pass (code : List (Line ι κ L)) (f : Flow L (σ × List ι)) :
    (isa.logged.pass code f).plain = isa.pass code f.plain := by
  induction code generalizing f with
  | nil => rfl
  | cons ln code ih => rw [pass_cons, pass_cons, ih, isa.logged_line]

theorem Isa.Resumes.of_logged {code : List (Line ι κ L)} {f g : Flow L (σ × List ι)}
    (h : isa.logged.Resumes code f g) : isa.Resumes code f.plain g.plain := by
  induction h with
  | done hf => exact .done hf
  | again hl _ ih =>
    rw [isa.logged_pass] at ih
    exact .again hl ih

theorem Isa.Runs.of_logged {code : List (Line ι κ L)} {s t : σ} {log log' : List ι}
    {k : Option L} (h : isa.logged.Runs code (s, log) ⟨k, (t, log')⟩) :
    isa.Runs code s ⟨k, t⟩ := by
  have hr := Isa.Resumes.of_logged h
  rwa [isa.logged_pass] at hr

end Logged

def Isa.Leaves (isa : Isa ι κ σ) (code : List (Line ι κ L)) (s : σ) (l : L) : Prop :=
  ∃ t, isa.Runs code s ⟨some l, t⟩

theorem Isa.leaves_iff_of_pass {code : List (Line ι κ L)} {s : σ} {f : Flow L σ} (l : L)
    (h : isa.pass code ⟨none, s⟩ = f) (hf : f.Final code) :
    isa.Leaves code s l ↔ f.seek = some l := by
  have hr : isa.Runs code s f := .of_pass h hf
  constructor
  · rintro ⟨t, ht⟩
    rw [hr.det ht]
  · intro hs
    exact ⟨f.state, by rw [← hs]; exact hr⟩

end Z80Gcc.Asm
