import MatrixLang.Program.Run
import MatrixLang.Proofs.LineOrder

/-! # Where a run fails

A run is followed by keeping the statements that are being executed: a statement becomes active
when its execution begins, inside of those that are active already, and it stays so until it has
ended (`Followed.within`).  Errors come as the computations give them, without a line, and whatever
was active when one came up stays active.

The line of a failure then is that of the innermost active statement, however many statements are
around it (`follows_program`).  With what is known of the lines of a program, this settles which
lines failures have (`lines_attributed`).
-/

namespace MatrixLang

/-! ## Statements inside each other -/

/-- The statements directly inside a statement. -/
def Statement.inside : Statement → List Statement
  | .choose _ branches otherwise => branches.flatMap Branch.body ++ otherwise.getD []
  | .whileLoop _ _ body | .forLoop _ _ _ _ _ body | .block _ body => body
  | .assign .. | .assignIndex .. | .assignBlock .. | .eval .. => []

/-- Each statement is directly inside the next, and the last is one of `ss`. -/
inductive Nested (ss : List Statement) : List Statement → Prop where
  | outermost {s : Statement} (h : s ∈ ss) : Nested ss [s]
  | inner {s t : Statement} {outer : List Statement} (h : Nested ss (s :: outer))
      (ht : t ∈ s.inside) : Nested ss (t :: s :: outer)

/-! ## Followed runs -/

namespace Followed

/-- A machine with the statements that are being executed, the innermost first. -/
structure Tracked where
  machine : Machine
  active : List Statement

/-- Why a followed run ends before its last statement. -/
inductive Halt where
  /-- An error that has come up. -/
  | error (cause : Error)
  | outOfFuel

end Followed

/-- A part of a followed run. -/
abbrev Followed := ExceptT Followed.Halt (StateM Followed.Tracked)

namespace Followed

variable {α β : Type}

/-- A computation of the innermost statement. -/
def compute (x : Eval α) : Followed α :=
  fun t =>
    match x t.machine.env with
    | (.ok a, env) => (.ok a, { t with machine := { t.machine with env } })
    | (.error cause, env) => (.error (.error cause), { t with machine := { t.machine with env } })

/-- Gives a variable a value. -/
def assign (name : String) (value : Matrix) : Followed Unit :=
  modifyThe Tracked fun t =>
    { t with machine := { t.machine with env := t.machine.env.set name value } }

/-- Notes what is being done. -/
def note (n : Note) : Followed Unit :=
  modifyThe Tracked fun t =>
    { t with machine := { t.machine with notes := n :: t.machine.notes } }

/-- Executes a statement, which is active until that has ended. -/
def within (s : Statement) (x : Followed Unit) : Followed Unit := do
  modifyThe Tracked fun t => { t with active := s :: t.active }
  x
  modifyThe Tracked fun t => { t with active := t.active.tail }

/-- Runs statements one after the other, each by `run`. -/
def all (run : Statement → Followed Unit) : List Statement → Followed Unit
  | [] => return ()
  | s :: ss => do
    run s
    all run ss

/-- Runs the first branch whose condition is true, each statement by `run`, and else the last
body. -/
def firstBranch (run : Statement → Followed Unit) (otherwise : Option (List Statement)) :
    List Branch → Followed Unit
  | [] =>
    match otherwise with
    | none => return ()
    | some body => all run body
  | .mk condition body :: branches => do
    let value ← compute condition.eval
    if value.isTrue then all run body
    else firstBranch run otherwise branches

mutual

/-- Executes the innermost statement. -/
def execute : Nat → Statement → Followed Unit
  | 0, _ => throw .outOfFuel
  | _ + 1, .assign _ target value => do
    let v ← compute value.eval
    assign target v
  | _ + 1, .assignIndex _ target index value => do
    let i ← compute (Run.integer "Index" index)
    let v ← compute value.eval
    compute (Run.change target (·.set i v))
  | _ + 1, .assignBlock _ target row col value => do
    let r ← compute (Run.integer "Row index" row)
    let c ← compute (Run.integer "Column index" col)
    let v ← compute value.eval
    compute (Run.change target (·.setBlock r c v))
  | _ + 1, .eval line value => do
    let v ← compute value.eval
    note (.evaluated line v)
  | fuel + 1, .choose _ branches otherwise =>
    firstBranch (fun s => within s (execute fuel s)) otherwise branches
  | fuel + 1, .whileLoop line condition body => do
    let value ← compute condition.eval
    if value.isTrue then
      all (fun s => within s (execute fuel s)) body
      execute fuel (.whileLoop line condition body)
  | fuel + 1, .forLoop _ counter start limit direction body => do
    let first ← compute start.eval
    assign counter first
    rounds fuel counter limit direction body
  | fuel + 1, .block _ body => all (fun s => within s (execute fuel s)) body

/-- Executes the rounds of a `for` statement whose variable has its value. -/
def rounds : Nat → String → Expr → Direction → List Statement → Followed Unit
  | 0, _, _, _, _ => throw .outOfFuel
  | fuel + 1, counter, limit, direction, body => do
    let current ← compute (Run.number "Loop variable" (.variable counter))
    let last ← compute (Run.number "Loop bound" limit)
    if Run.goesOn direction current last then
      all (fun s => within s (execute fuel s)) body
      let _ ← compute (Eval.update counter (Run.stepBy direction))
      rounds fuel counter limit direction body

end

/-- Runs the statements of a program, each with the same fuel. -/
def program (fuel : Nat) (p : Program) : Followed Unit :=
  all (fun s => do
    note (.running s.line s.kind)
    within s (execute fuel s)) p.statements

end Followed

/-- Runs a program in an environment, and follows it. -/
def Program.follow (fuel : Nat) (p : Program) (env : Environment) :
    Except Followed.Halt Unit × Followed.Tracked :=
  Followed.program fuel p ⟨⟨env, []⟩, []⟩

namespace Followed

variable {α β : Type} {ss active outer body : List Statement} {s : Statement}
  {x : Followed α} {y : Run α} {f : α → Followed β} {k : α → Run β}

/-! ## A run and the followed one -/

/-- What a followed computation gives while `active` are active, a computation `y` gives as well.
What is active is the same in the end; or else an error has come up in the innermost statement,
and `y` fails with it in the line of that statement. -/
def Reports (ss active : List Statement) (y : Except Stop α × Machine) :
    Except Halt α × Tracked → Prop
  | (.ok a, t) => t.active = active ∧ y = (.ok a, t.machine)
  | (.error .outOfFuel, t) => y = (.error .outOfFuel, t.machine)
  | (.error (.error cause), t) => ∃ inner outer, t.active = inner :: outer ∧
      Nested ss (inner :: outer) ∧ y = (.error (.failure ⟨.run, inner.line, cause⟩), t.machine)

/-- A computation `y` and the same one followed, while `active` are active. -/
def Follows (ss active : List Statement) (x : Followed α) (y : Run α) : Prop :=
  ∀ machine, Reports ss active (y machine) (x ⟨machine, active⟩)

theorem follows_pure (a : α) : Follows ss active (pure a) (pure a) :=
  fun _ => ⟨rfl, rfl⟩

theorem Follows.bind (hx : Follows ss active x y)
    (hf : ∀ a, Follows ss active (f a) (k a)) : Follows ss active (x >>= f) (y >>= k) := by
  intro machine
  have hreport := hx machine
  rcases hresult : x ⟨machine, active⟩ with ⟨r, t⟩
  rw [hresult] at hreport
  cases r with
  | ok a =>
    obtain ⟨hactive, hy⟩ := hreport
    rw [bind_of_ok hresult, bind_of_ok hy]
    obtain ⟨machine', active'⟩ := t
    cases hactive
    exact hf a machine'
  | error halt =>
    rw [bind_of_error hresult]
    cases halt with
    | outOfFuel =>
      rw [bind_of_error hreport]
      exact rfl
    | error cause =>
      obtain ⟨inner, outer, hactive, hnested, hy⟩ := hreport
      rw [bind_of_error hy]
      exact ⟨inner, outer, hactive, hnested, rfl⟩

theorem follows_compute (h : Nested ss (s :: outer)) (x : Eval α) :
    Follows ss (s :: outer) (compute x) (Run.atLine s.line x) := by
  intro machine
  unfold compute Run.atLine
  rcases x machine.env with ⟨r, env⟩
  cases r with
  | ok a => exact ⟨rfl, rfl⟩
  | error cause => exact ⟨s, outer, rfl, h, rfl⟩

theorem follows_assign (name : String) (value : Matrix) :
    Follows ss active (assign name value) (Run.assign name value) :=
  fun _ => ⟨rfl, rfl⟩

theorem follows_note (n : Note) : Follows ss active (note n) (Run.note n) :=
  fun _ => ⟨rfl, rfl⟩

/-- A statement is active only while it is being executed. -/
theorem Follows.within {x : Followed Unit} {y : Run Unit} (h : Follows ss (s :: active) x y) :
    Follows ss active (Followed.within s x) y := by
  intro machine
  have hreport := h machine
  have hpush : Followed.within s x ⟨machine, active⟩ =
      (do x; modifyThe Tracked fun t => { t with active := t.active.tail } : Followed Unit)
        ⟨machine, s :: active⟩ := rfl
  rcases hresult : x ⟨machine, s :: active⟩ with ⟨r, t⟩
  rw [hresult] at hreport
  rw [hpush]
  cases r with
  | ok a =>
    obtain ⟨hactive, hy⟩ := hreport
    rw [bind_of_ok hresult]
    exact ⟨congrArg List.tail hactive, hy⟩
  | error halt =>
    rw [bind_of_error hresult]
    cases halt with
    | outOfFuel => exact hreport
    | error cause => exact hreport

theorem follows_all {run : Statement → Followed Unit} {plain : Statement → Run Unit}
    (h : ∀ s ∈ body, Follows ss active (run s) (plain s)) :
    Follows ss active (all run body) (Run.all plain body) := by
  induction body with
  | nil => exact follows_pure ()
  | cons s body ih =>
    obtain ⟨hs, hbody⟩ := List.forall_mem_cons.mp h
    exact hs.bind fun _ => ih hbody

/-! ## Statements -/

/-- What is executed on some fuel is followed. -/
structure FollowsOn (ss : List Statement) (fuel : Nat) : Prop where
  execute : ∀ {s outer}, Nested ss (s :: outer) →
    Follows ss (s :: outer) (execute fuel s) (Run.statement fuel s)
  rounds : ∀ {s outer body}, Nested ss (s :: outer) → (∀ t ∈ body, t ∈ s.inside) →
    ∀ counter limit direction, Follows ss (s :: outer) (rounds fuel counter limit direction body)
      (Run.rounds fuel s.line counter limit direction body)

section

variable {fuel : Nat}

/-- Statements inside the innermost one are executed inside of it. -/
theorem FollowsOn.inside (h : FollowsOn ss fuel) (hs : Nested ss (s :: outer))
    (hbody : ∀ t ∈ body, t ∈ s.inside) :
    Follows ss (s :: outer) (all (fun t => within t (Followed.execute fuel t)) body)
      (Run.all (Run.statement fuel) body) :=
  follows_all fun t ht => (h.execute (hs.inner (hbody t ht))).within

theorem FollowsOn.firstBranch (h : FollowsOn ss fuel) (hs : Nested ss (s :: outer))
    {otherwise : Option (List Statement)} {branches : List Branch}
    (hbranches : ∀ branch ∈ branches, ∀ t ∈ branch.body, t ∈ s.inside)
    (hotherwise : ∀ t ∈ otherwise.getD [], t ∈ s.inside) :
    Follows ss (s :: outer)
      (Followed.firstBranch (fun t => within t (Followed.execute fuel t)) otherwise branches)
      (Run.firstBranch (Run.statement fuel) s.line otherwise branches) := by
  induction branches with
  | nil =>
    cases otherwise with
    | none => exact follows_pure ()
    | some body => exact h.inside hs hotherwise
  | cons branch branches ih =>
    obtain ⟨condition, body⟩ := branch
    obtain ⟨hbranch, hbranches⟩ := List.forall_mem_cons.mp hbranches
    refine (follows_compute hs condition.eval).bind fun value => ?_
    split
    · exact h.inside hs hbranch
    · exact ih hbranches

theorem FollowsOn.execute_succ (h : FollowsOn ss fuel) (hs : Nested ss (s :: outer)) :
    Follows ss (s :: outer) (Followed.execute (fuel + 1) s) (Run.statement (fuel + 1) s) := by
  cases s with
  | assign line target value =>
    rw [Followed.execute, Run.statement]
    exact (follows_compute hs _).bind fun v => follows_assign target v
  | assignIndex line target index value =>
    rw [Followed.execute, Run.statement]
    refine (follows_compute hs _).bind fun i => (follows_compute hs _).bind fun v => ?_
    exact follows_compute hs _
  | assignBlock line target row col value =>
    rw [Followed.execute, Run.statement]
    refine (follows_compute hs _).bind fun r => (follows_compute hs _).bind fun c => ?_
    exact (follows_compute hs _).bind fun v => follows_compute hs _
  | eval line value =>
    rw [Followed.execute, Run.statement]
    exact (follows_compute hs _).bind fun v => follows_note _
  | choose line branches otherwise =>
    rw [Followed.execute, Run.statement]
    refine h.firstBranch hs (fun branch hbranch t ht => ?_) fun t ht => ?_
    · exact List.mem_append_left _ (List.mem_flatMap.mpr ⟨branch, hbranch, ht⟩)
    · exact List.mem_append_right _ ht
  | whileLoop line condition body =>
    rw [Followed.execute, Run.statement]
    refine (follows_compute hs _).bind fun value => ?_
    split
    · exact (h.inside hs fun t ht => ht).bind fun _ => h.execute hs
    · exact follows_pure ()
  | forLoop line counter start limit direction body =>
    rw [Followed.execute, Run.statement]
    refine (follows_compute hs _).bind fun first => (follows_assign counter first).bind fun _ => ?_
    exact h.rounds hs (fun t ht => ht) counter limit direction
  | block line body =>
    rw [Followed.execute, Run.statement]
    exact h.inside hs fun t ht => ht

theorem FollowsOn.rounds_succ (h : FollowsOn ss fuel) (hs : Nested ss (s :: outer))
    (hbody : ∀ t ∈ body, t ∈ s.inside) (counter : String) (limit : Expr) (direction : Direction) :
    Follows ss (s :: outer) (Followed.rounds (fuel + 1) counter limit direction body)
      (Run.rounds (fuel + 1) s.line counter limit direction body) := by
  rw [Followed.rounds, Run.rounds]
  refine (follows_compute hs _).bind fun current => (follows_compute hs _).bind fun last => ?_
  split
  · refine (h.inside hs hbody).bind fun _ => (follows_compute hs _).bind fun _ => ?_
    exact h.rounds hs hbody counter limit direction
  · exact follows_pure ()

end

theorem followsOn (ss : List Statement) (fuel : Nat) : FollowsOn ss fuel := by
  induction fuel with
  | zero =>
    refine ⟨fun _ machine => ?_, fun _ _ _ _ _ machine => ?_⟩
    · rw [execute, Run.statement]
      rfl
    · rw [rounds, Run.rounds]
      rfl
  | succ fuel ih => exact ⟨ih.execute_succ, ih.rounds_succ⟩

/-- **A run fails in the line of the innermost statement.** -/
theorem follows_program (fuel : Nat) (p : Program) :
    Follows p.statements [] (program fuel p) (Run.program fuel p) :=
  follows_all fun _ hs => (follows_note _).bind fun _ =>
    ((followsOn p.statements fuel).execute (.outermost hs)).within

/-- How a followed run ends if the run fails. -/
theorem exists_of_failure {fuel : Nat} {p : Program} {env : Environment} {failure : Failure}
    (h : (p.run fuel env).outcome = .error (.failure failure)) :
    ∃ cause inner outer machine,
      p.follow fuel env = (.error (.error cause), ⟨machine, inner :: outer⟩) ∧
      Nested p.statements (inner :: outer) ∧ machine.env = (p.run fuel env).env ∧
      failure = ⟨.run, inner.line, cause⟩ := by
  have hreport : Reports p.statements [] (Run.program fuel p ⟨env, []⟩) (p.follow fuel env) :=
    follows_program fuel p ⟨env, []⟩
  have hrun : p.run fuel env = ⟨(Run.program fuel p ⟨env, []⟩).1,
      (Run.program fuel p ⟨env, []⟩).2.env, (Run.program fuel p ⟨env, []⟩).2.notes.reverse⟩ := rfl
  rw [hrun] at h ⊢
  generalize Run.program fuel p ⟨env, []⟩ = y at h hreport ⊢
  generalize p.follow fuel env = z at hreport ⊢
  obtain ⟨outcome, machine⟩ := y
  obtain ⟨r, t⟩ := z
  cases h
  cases r with
  | ok a => cases hreport.2
  | error halt =>
    cases halt with
    | outOfFuel => cases hreport
    | error cause =>
      obtain ⟨inner, outer, hactive, hnested, hy⟩ := hreport
      obtain ⟨machine', active⟩ := t
      cases hactive
      cases hy
      exact ⟨cause, inner, outer, machine', rfl, hnested, rfl, rfl⟩

end Followed

/-- **Which lines statements and failures have.**  If a source text compiles, the lines of its
statements, each before those of the statements inside of it, never go back and are lines of the
text.  Where a run fails, an error has come up in the innermost of the statements that are being
executed, and the failure is that error in the line of that statement.  If a source text does not
compile, the failure is in a line of the text. -/
theorem lines_attributed (source : String) :
    (∀ p, compile source = .ok p →
      (Statement.tagsOfBody p.statements).Pairwise (· ≤ ·) ∧
      (∀ n ∈ Statement.tagsOfBody p.statements, 1 ≤ n ∧ n ≤ (Text.lines source.toList).length) ∧
      ∀ fuel env failure, (p.run fuel env).outcome = .error (.failure failure) →
        ∃ cause inner outer machine,
          p.follow fuel env = (.error (.error cause), ⟨machine, inner :: outer⟩) ∧
          Nested p.statements (inner :: outer) ∧ machine.env = (p.run fuel env).env ∧
          failure = ⟨.run, inner.line, cause⟩) ∧
    ∀ failure, compile source = .error failure →
      1 ≤ failure.line ∧ failure.line ≤ (Text.lines source.toList).length := by
  have hlines := line_of_compile source
  refine ⟨fun p hp => ⟨pairwise_tags hp, fun n hn => ?_, fun fuel env failure hrun => ?_⟩,
    fun failure hfailure => ?_⟩
  · exact line_bounds_of_mem_cut (hlines.of_ok hp n hn)
  · exact Followed.exists_of_failure hrun
  · exact line_bounds_of_mem_cut (hlines.of_error hfailure)

/-- A loop with a branch that divides by zero in the second round. -/
def dividesByZero : String :=
  "x = 2\nwhile (x > 0) \x7b\n  if (x == 1) \x7b\n    y = 1 / (x - 1)\n  \x7d\n  x = x - 1\n\x7d"

/-- The run fails in the fourth line, where the assignment stands, and not in those of the loop and
the branch around it. -/
theorem lines_attributed_dividesByZero : ∃ p failure cause inner outer machine,
    compile dividesByZero = .ok p ∧
    Statement.tagsOfBody p.statements = [1, 2, 3, 4, 6] ∧
    (p.run 9 (.empty .zero)).outcome = .error (.failure failure) ∧ failure.line = 4 ∧
    p.follow 9 (.empty .zero) = (.error (.error cause), ⟨machine, inner :: outer⟩) ∧
    Nested p.statements (inner :: outer) ∧ failure = ⟨.run, inner.line, cause⟩ := by
  have hevaluated : (match compile dividesByZero with
      | .ok p => Statement.tagsOfBody p.statements == [1, 2, 3, 4, 6] &&
        match (p.run 9 (.empty .zero)).outcome with
        | .error (.failure failure) => failure.line == 4
        | _ => false
      | .error _ => false) = true := by decide +kernel
  cases hcompile : compile dividesByZero with
  | error failure =>
    rw [hcompile] at hevaluated
    cases hevaluated
  | ok p =>
    rw [hcompile] at hevaluated
    obtain ⟨htags, hends⟩ := Bool.and_eq_true_iff.mp hevaluated
    split at hends
    · rename_i failure hfailure
      obtain ⟨-, -, hruns⟩ := (lines_attributed dividesByZero).1 p hcompile
      obtain ⟨cause, inner, outer, machine, hfollow, hnested, -, hline⟩ := hruns _ _ _ hfailure
      exact ⟨p, failure, cause, inner, outer, machine, rfl, beq_iff_eq.mp htags, hfailure,
        beq_iff_eq.mp hends, hfollow, hnested, hline⟩
    · cases hends

end MatrixLang
