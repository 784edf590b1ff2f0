import MatrixLang.Program.Run
import MatrixLang.Proofs.GuardedOperations
import MatrixLang.Settings

/-! # Guarded runs

Expressions and programs over guarded operations (`Checked.eval`, `Checked.program`).  In an
environment whose values are all valid they do what the plain ones do, no guard fires, and the
environment stays valid, however the evaluation or the run ends (`keeps_eval`,
`keeps_program`).

A session runs programs, evaluates expressions and sets variables, one after the other.  From
any initial environment, and from any valid one, it never reaches for a cell that is not there,
and all that it binds and returns is valid.
-/

namespace MatrixLang

/-! ## Valid environments -/

namespace Environment

variable {env : Environment} {name : String} {value : Matrix}

/-- Every variable has a valid value. -/
def Valid (env : Environment) : Prop :=
  ∀ binding ∈ env.bindings, binding.2.Valid

theorem valid_insertBinding {bindings : List (String × Matrix)}
    (h : ∀ binding ∈ bindings, binding.2.Valid) (hvalue : value.Valid) :
    ∀ binding ∈ insertBinding name value bindings, binding.2.Valid := by
  induction bindings with
  | nil => simpa [insertBinding] using hvalue
  | cons first rest ih =>
    obtain ⟨hfirst, hrest⟩ := List.forall_mem_cons.mp h
    rw [insertBinding]
    split
    · exact List.forall_mem_cons.mpr ⟨hvalue, h⟩
    split
    · exact List.forall_mem_cons.mpr ⟨hvalue, hrest⟩
    · exact List.forall_mem_cons.mpr ⟨hfirst, ih hrest⟩

theorem Valid.set (h : env.Valid) (name : String) (hvalue : value.Valid) :
    (env.set name value).Valid :=
  valid_insertBinding h hvalue

theorem Valid.lookup (h : env.Valid) (hlookup : env.lookup name = .ok value) : value.Valid := by
  rw [Environment.lookup] at hlookup
  split at hlookup
  · rename_i found hget
    cases hlookup
    obtain ⟨before, after, hbindings, -⟩ := List.lookup_eq_some_iff.mp hget
    exact h (name, value) (by simp [hbindings])
  · cases hlookup

theorem valid_initial (settings : Settings) : (initial settings).Valid := by
  have hconstants : ∀ (cs : List (String × Float)) (env : Environment), env.Valid →
      (cs.foldl (fun env c => env.set c.1 (.scalar c.2)) env).Valid := by
    intro cs
    induction cs with
    | nil => exact fun _ h => h
    | cons c cs ih => exact fun env h => ih _ (h.set c.1 (Matrix.valid_scalar c.2))
  have hempty : (empty settings.missing).Valid := nofun
  rw [initial]
  split
  · exact hconstants _ _ hempty
  · exact hempty

end Environment

/-! ## Expressions -/

/-- A computation in an environment, with guards. -/
abbrev GuardedEval := ExceptT Error (StateT Environment Guarded)

namespace Checked

mutual

/-- Evaluates an expression. -/
def eval : Expr → GuardedEval Matrix
  | .literal value => return .scalar value
  | .variable name => unguarded (Eval.lookup name)
  | .matrix rows cols elements => do
    let data ← evalCells elements
    stateless (Guarded.plain (Matrix.ofData ⟨rows, cols⟩ data.toArray))
  | .unary op operand => do
    let m ← eval operand
    liftM (unary op m)
  | .binary op left right => do
    let a ← eval left
    let b ← eval right
    stateless (binary op a b)
  | .call f arguments =>
    match Eval.updateCall? f arguments with
    | some result => unguarded result
    | none => do
      let values ← evalAll arguments
      let env ← unguarded (getThe Environment)
      stateless (builtin env.missing f values)

/-- Evaluates the cells of a matrix literal. -/
def evalCells : List Expr → GuardedEval (List Float)
  | [] => return []
  | e :: es => do
    let m ← eval e
    let x ← stateless (asScalar "Matrix literal element" m)
    return x :: (← evalCells es)

/-- Evaluates the arguments of a call. -/
def evalAll : List Expr → GuardedEval (List Matrix)
  | [] => return []
  | e :: es => do
    let m ← eval e
    return m :: (← evalAll es)

end

theorem keeps_lookup (name : String) :
    Keeps Environment.Valid (unguarded (Eval.lookup name)) (Eval.lookup name) Matrix.Valid :=
  .unguarded fun _ h => ⟨h, fun _ => h.lookup⟩

theorem keeps_update {f : Matrix → Matrix} (hf : ∀ m, m.Valid → (f m).Valid) (name : String) :
    Keeps Environment.Valid (unguarded (Eval.update name f)) (Eval.update name f)
      Matrix.Valid := by
  refine .unguarded fun env h => ?_
  cases hlookup : env.lookup name with
  | error e =>
    rw [Eval.update_of_error hlookup]
    exact ⟨h, nofun⟩
  | ok value =>
    have hvalue := hf value (h.lookup hlookup)
    rw [Eval.update_of_lookup hlookup]
    exact ⟨h.set name hvalue, fun _ ha => Except.ok.inj ha ▸ hvalue⟩

mutual

/-- **The evaluation of an expression stays within its values.** -/
theorem keeps_eval : ∀ e : Expr, Keeps Environment.Valid (eval e) e.eval Matrix.Valid
  | .literal value => by
    rw [eval, Expr.eval]
    exact .pure (Matrix.valid_scalar value)
  | .variable name => by
    rw [eval, Expr.eval]
    exact keeps_lookup name
  | .matrix rows cols elements => by
    rw [eval, Expr.eval]
    refine (keeps_evalCells elements).bind fun data _ => .stateless ?_
    exact .lift fun _ => Matrix.valid_of_ofData
  | .unary op operand => by
    rw [eval, Expr.eval]
    refine (keeps_eval operand).bind fun m hm => ?_
    rw [unary_eq hm op]
    exact .pure (valid_unary hm op)
  | .binary op left right => by
    rw [eval, Expr.eval]
    refine (keeps_eval left).bind fun a ha => (keeps_eval right).bind fun b hb => ?_
    exact .stateless (agrees_binary ha hb op)
  | .call f arguments => by
    rw [eval, Expr.eval]
    cases hupdate : Eval.updateCall? f arguments with
    | some result =>
      obtain ⟨name, change, -, -, rfl⟩ := Eval.updateCall?_eq_some hupdate
      exact keeps_update (fun _ hm => hm.map change) name
    | none =>
      refine (keeps_evalAll arguments).bind fun values hvalues => ?_
      refine (Keeps.unguarded fun env h => ⟨h, fun _ _ => trivial⟩).bind fun env _ => ?_
      exact .stateless (agrees_builtin hvalues env.missing f)

theorem keeps_evalCells : ∀ es : List Expr,
    Keeps Environment.Valid (evalCells es) (Expr.evalCells es) fun _ => True
  | [] => by
    rw [evalCells, Expr.evalCells]
    exact .pure trivial
  | e :: es => by
    rw [evalCells, Expr.evalCells]
    refine (keeps_eval e).bind fun m hm => ?_
    refine (Keeps.stateless (agrees_asScalar hm _)).bind fun x _ => ?_
    exact (keeps_evalCells es).bind fun _ _ => .pure trivial

theorem keeps_evalAll : ∀ es : List Expr,
    Keeps Environment.Valid (evalAll es) (Expr.evalAll es) fun ms => ∀ m ∈ ms, m.Valid
  | [] => by
    rw [evalAll, Expr.evalAll]
    exact .pure nofun
  | e :: es => by
    rw [evalAll, Expr.evalAll]
    refine (keeps_eval e).bind fun m hm => (keeps_evalAll es).bind fun ms hms => ?_
    exact .pure (List.forall_mem_cons.mpr ⟨hm, hms⟩)

end

end Checked

/-! ## Programs -/

/-- A part of a run, with guards. -/
abbrev GuardedRun := ExceptT Stop (StateT Machine Guarded)

/-- The variables of a running program have valid values. -/
def Machine.Valid (machine : Machine) : Prop :=
  machine.env.Valid

namespace Checked

variable {α : Type}

/-- A computation of the statement in a line. -/
def atLine (line : Nat) (x : GuardedEval α) : GuardedRun α :=
  fun machine => do
    match ← x machine.env with
    | (.ok a, env) => return (.ok a, { machine with env })
    | (.error cause, env) => return (.error (.failure ⟨.run, line, cause⟩), { machine with env })

/-- The integer value of an expression. -/
def integer (context : String) (e : Expr) : GuardedEval Int64 := do
  let m ← eval e
  stateless (asInteger context m)

/-- The number that is the value of an expression. -/
def number (context : String) (e : Expr) : GuardedEval Float := do
  let m ← eval e
  stateless (asScalar context m)

/-- Changes the value of a variable by something that may fail. -/
def change (name : String) (f : Matrix → Checked Matrix) : GuardedEval Unit := do
  let value ← unguarded (Eval.lookup name)
  let value ← stateless (f value)
  unguarded (modifyThe Environment (·.set name value))

/-- Runs statements one after the other, each by `run`. -/
def all (run : Statement → GuardedRun Unit) : List Statement → GuardedRun Unit
  | [] => return ()
  | s :: ss => do
    run s
    all run ss

/-- Runs the first branch whose condition is true, and else the last body. -/
def firstBranch (run : Statement → GuardedRun Unit) (line : Nat)
    (otherwise : Option (List Statement)) : List Branch → GuardedRun Unit
  | [] =>
    match otherwise with
    | none => return ()
    | some body => all run body
  | .mk condition body :: branches => do
    let value ← atLine line (eval condition)
    if ← isTrue value then all run body
    else firstBranch run line otherwise branches

mutual

/-- Runs a statement.  The note on the value of an expression shows its text. -/
def statement : Nat → Statement → GuardedRun Unit
  | 0, _ => throw .outOfFuel
  | _ + 1, .assign line target value => do
    let v ← atLine line (eval value)
    unguarded (Run.assign target v)
  | _ + 1, .assignIndex line target index value => do
    let i ← atLine line (integer "Index" index)
    let v ← atLine line (eval value)
    atLine line (change target (set · i v))
  | _ + 1, .assignBlock line target row col value => do
    let r ← atLine line (integer "Row index" row)
    let c ← atLine line (integer "Column index" col)
    let v ← atLine line (eval value)
    atLine line (change target (setBlock · r c v))
  | _ + 1, .eval line value => do
    let v ← atLine line (eval value)
    let _ ← text v
    unguarded (Run.note (.evaluated line v))
  | fuel + 1, .choose line branches otherwise =>
    firstBranch (statement fuel) line otherwise branches
  | fuel + 1, .whileLoop line condition body => do
    let value ← atLine line (eval condition)
    if ← isTrue value then
      all (statement fuel) body
      statement fuel (.whileLoop line condition body)
  | fuel + 1, .forLoop line counter start limit direction body => do
    let first ← atLine line (eval start)
    unguarded (Run.assign counter first)
    rounds fuel line counter limit direction body
  | fuel + 1, .block _ body => all (statement fuel) body

/-- Runs the rounds of a `for` statement whose variable has its value. -/
def rounds : Nat → Nat → String → Expr → Direction → List Statement → GuardedRun Unit
  | 0, _, _, _, _, _ => throw .outOfFuel
  | fuel + 1, line, counter, limit, direction, body => do
    let current ← atLine line (number "Loop variable" (.variable counter))
    let last ← atLine line (number "Loop bound" limit)
    if Run.goesOn direction current last then
      all (statement fuel) body
      let _ ← atLine line (unguarded (Eval.update counter (Run.stepBy direction)))
      rounds fuel line counter limit direction body

end

/-- Runs the statements of a program, each with the same fuel. -/
def program (fuel : Nat) (p : Program) : GuardedRun Unit :=
  all (fun s => do
    unguarded (Run.note (.running s.line s.kind))
    statement fuel s) p.statements

theorem keeps_atLine {x : GuardedEval α} {y : Eval α} {Q : α → Prop}
    (h : Keeps Environment.Valid x y Q) (line : Nat) :
    Keeps Machine.Valid (atLine line x) (Run.atLine line y) Q := by
  intro machine hmachine
  rw [atLine, Run.atLine]
  rcases h machine.env hmachine with hx | ⟨hx, hI, hQ⟩
  · exact .inl (by rw [hx]; rfl)
  · rw [hx]
    cases hy : y machine.env with
    | mk r env =>
      rw [hy] at hI hQ
      cases r with
      | error cause => exact .inr ⟨rfl, hI, nofun⟩
      | ok a => exact .inr ⟨rfl, hI, fun _ hb => Except.ok.inj hb ▸ hQ a rfl⟩

theorem keeps_integer (context : String) (e : Expr) :
    Keeps Environment.Valid (integer context e) (Run.integer context e) fun _ => True :=
  (keeps_eval e).bind fun _ hm => .stateless (agrees_asInteger hm context)

theorem keeps_number (context : String) (e : Expr) :
    Keeps Environment.Valid (number context e) (Run.number context e) fun _ => True :=
  (keeps_eval e).bind fun _ hm => .stateless (agrees_asScalar hm context)

theorem keeps_change {f : Matrix → Checked Matrix} {g : Matrix → Except Error Matrix}
    (h : ∀ m, m.Valid → Agrees (f m) (g m) Matrix.Valid) (name : String) :
    Keeps Environment.Valid (change name f) (Run.change name g) fun _ => True := by
  refine (keeps_lookup name).bind fun m hm => (Keeps.stateless (h m hm)).bind fun value hvalue => ?_
  exact .unguarded fun env henv => ⟨henv.set name hvalue, fun _ _ => trivial⟩

theorem keeps_assign {value : Matrix} (h : value.Valid) (name : String) :
    Keeps Machine.Valid (unguarded (Run.assign name value)) (Run.assign name value)
      fun _ => True :=
  .unguarded fun _ hmachine => ⟨Environment.Valid.set hmachine name h, fun _ _ => trivial⟩

theorem keeps_note (n : Note) :
    Keeps Machine.Valid (unguarded (Run.note n)) (Run.note n) fun _ => True :=
  .unguarded fun _ hmachine => ⟨hmachine, fun _ _ => trivial⟩

section

variable {run : Statement → GuardedRun Unit} {plain : Statement → Run Unit}

theorem keeps_all (h : ∀ s, Keeps Machine.Valid (run s) (plain s) fun _ => True)
    (ss : List Statement) : Keeps Machine.Valid (all run ss) (Run.all plain ss) fun _ => True := by
  induction ss with
  | nil => exact .pure trivial
  | cons s ss ih => exact (h s).bind fun _ _ => ih

theorem keeps_firstBranch (h : ∀ s, Keeps Machine.Valid (run s) (plain s) fun _ => True)
    (line : Nat) (otherwise : Option (List Statement)) (branches : List Branch) :
    Keeps Machine.Valid (firstBranch run line otherwise branches)
      (Run.firstBranch plain line otherwise branches) fun _ => True := by
  induction branches with
  | nil =>
    cases otherwise with
    | none => exact .pure trivial
    | some body => exact keeps_all h body
  | cons branch branches ih =>
    obtain ⟨condition, body⟩ := branch
    refine (keeps_atLine (keeps_eval condition) line).bind fun value hvalue => ?_
    refine .step (isTrue_eq hvalue) ?_
    split
    · exact keeps_all h body
    · exact ih

end

/-- What runs on some fuel stays within its values. -/
structure KeepsOn (fuel : Nat) : Prop where
  statement : ∀ s, Keeps Machine.Valid (statement fuel s) (Run.statement fuel s) fun _ => True
  rounds : ∀ line counter limit direction body,
    Keeps Machine.Valid (rounds fuel line counter limit direction body)
      (Run.rounds fuel line counter limit direction body) fun _ => True

theorem KeepsOn.statement_succ {fuel : Nat} (h : KeepsOn fuel) (s : Statement) :
    Keeps Machine.Valid (Checked.statement (fuel + 1) s) (Run.statement (fuel + 1) s)
      fun _ => True := by
  cases s with
  | assign line target value =>
    rw [Checked.statement, Run.statement]
    exact (keeps_atLine (keeps_eval value) line).bind fun v hv => keeps_assign hv target
  | assignIndex line target index value =>
    rw [Checked.statement, Run.statement]
    refine (keeps_atLine (keeps_integer _ index) line).bind fun i _ => ?_
    refine (keeps_atLine (keeps_eval value) line).bind fun v hv => ?_
    exact keeps_atLine (keeps_change (fun _ hm => agrees_set hm hv i) target) line
  | assignBlock line target row col value =>
    rw [Checked.statement, Run.statement]
    refine (keeps_atLine (keeps_integer _ row) line).bind fun r _ => ?_
    refine (keeps_atLine (keeps_integer _ col) line).bind fun c _ => ?_
    refine (keeps_atLine (keeps_eval value) line).bind fun v hv => ?_
    exact keeps_atLine (keeps_change (fun _ hm => agrees_setBlock hm hv r c) target) line
  | eval line value =>
    rw [Checked.statement, Run.statement]
    refine (keeps_atLine (keeps_eval value) line).bind fun v hv => ?_
    exact .step (text_eq hv) (keeps_note _)
  | choose line branches otherwise =>
    rw [Checked.statement, Run.statement]
    exact keeps_firstBranch h.statement line otherwise branches
  | whileLoop line condition body =>
    rw [Checked.statement, Run.statement]
    refine (keeps_atLine (keeps_eval condition) line).bind fun value hvalue => ?_
    refine .step (isTrue_eq hvalue) ?_
    split
    · exact (keeps_all h.statement body).bind fun _ _ => h.statement _
    · exact .pure trivial
  | forLoop line counter start limit direction body =>
    rw [Checked.statement, Run.statement]
    refine (keeps_atLine (keeps_eval start) line).bind fun first hfirst => ?_
    exact (keeps_assign hfirst counter).bind fun _ _ => h.rounds line counter limit direction body
  | block line body =>
    rw [Checked.statement, Run.statement]
    exact keeps_all h.statement body

theorem valid_stepBy {m : Matrix} (h : m.Valid) (direction : Direction) :
    (Run.stepBy direction m).Valid := by
  cases direction with
  | up => exact h.map _
  | down => exact h.map _

theorem KeepsOn.rounds_succ {fuel : Nat} (h : KeepsOn fuel) (line : Nat) (counter : String)
    (limit : Expr) (direction : Direction) (body : List Statement) :
    Keeps Machine.Valid (Checked.rounds (fuel + 1) line counter limit direction body)
      (Run.rounds (fuel + 1) line counter limit direction body) fun _ => True := by
  rw [Checked.rounds, Run.rounds]
  refine (keeps_atLine (keeps_number _ _) line).bind fun current _ => ?_
  refine (keeps_atLine (keeps_number _ limit) line).bind fun last _ => ?_
  split
  · refine (keeps_all h.statement body).bind fun _ _ => ?_
    refine (keeps_atLine (keeps_update (fun _ hm => valid_stepBy hm direction) counter)
      line).bind fun _ _ => ?_
    exact h.rounds line counter limit direction body
  · exact .pure trivial

theorem keepsOn (fuel : Nat) : KeepsOn fuel := by
  induction fuel with
  | zero =>
    refine ⟨fun s => ?_, fun line counter limit direction body => ?_⟩
    · rw [statement, Run.statement]
      exact .throw _
    · rw [rounds, Run.rounds]
      exact .throw _
  | succ fuel ih => exact ⟨ih.statement_succ, ih.rounds_succ⟩

/-- **A run of a program stays within its values.** -/
theorem keeps_program (fuel : Nat) (p : Program) :
    Keeps Machine.Valid (program fuel p) (Run.program fuel p) fun _ => True :=
  keeps_all (fun s => (keeps_note _).bind fun _ _ => (keepsOn fuel).statement s) p.statements

end Checked

/-! ## Sessions -/

/-- What is done with an environment from outside. -/
inductive Action where
  | run (fuel : Nat) (p : Program)
  | eval (e : Expr)
  | set (name : String) (value : Matrix)

/-- What comes back from an action. -/
inductive Answer where
  /-- How a run ended. -/
  | ended (outcome : Except Stop Unit)
  | evaluated (result : Except Error Matrix)
  | done

/-- Does something with an environment. -/
def Action.perform (action : Action) (env : Environment) : Answer × Environment :=
  match action with
  | .run fuel p => (.ended (p.run fuel env).outcome, (p.run fuel env).env)
  | .eval e => (.evaluated (e.eval env).1, (e.eval env).2)
  | .set name value => (.done, env.set name value)

/-- Does one thing after the other with an environment, whatever comes back. -/
def session : List Action → Environment → List Answer × Environment
  | [], env => ([], env)
  | action :: actions, env =>
    let (answer, env) := action.perform env
    let (answers, env) := session actions env
    (answer :: answers, env)

namespace Checked

/-- Does something with an environment. -/
def perform (action : Action) (env : Environment) : Guarded (Answer × Environment) := do
  match action with
  | .run fuel p =>
    let (outcome, machine) ← program fuel p ⟨env, []⟩
    return (.ended outcome, machine.env)
  | .eval e =>
    let (result, env) ← eval e env
    return (.evaluated result, env)
  | .set name value => return (.done, env.set name value)

/-- Does one thing after the other with an environment. -/
def session : List Action → Environment → Guarded (List Answer × Environment)
  | [], env => return ([], env)
  | action :: actions, env => do
    let (answer, env) ← perform action env
    let (answers, env) ← session actions env
    return (answer :: answers, env)

/-- What a step of a session keeps. -/
theorem perform_eq {action : Action} {env : Environment} (henv : env.Valid)
    (hset : ∀ name value, action = .set name value → value.Valid) :
    perform action env = .error .undefined ∨
      perform action env = .ok (action.perform env) ∧ (action.perform env).2.Valid ∧
        ∀ value, (action.perform env).1 = .evaluated (.ok value) → value.Valid := by
  cases action with
  | run fuel p =>
    rcases keeps_program fuel p ⟨env, []⟩ henv with h | ⟨h, hvalid, -⟩
    · exact .inl (by rw [perform, h]; rfl)
    · exact .inr ⟨by rw [perform, h]; rfl, hvalid, nofun⟩
  | eval e =>
    rcases keeps_eval e env henv with h | ⟨h, hvalid, hresult⟩
    · exact .inl (by rw [perform, h]; rfl)
    · exact .inr ⟨by rw [perform, h]; rfl, hvalid,
        fun value hvalue => hresult value (Answer.evaluated.inj hvalue)⟩
  | set name value => exact .inr ⟨rfl, henv.set name (hset name value rfl), nofun⟩

theorem session_eq {actions : List Action} {env : Environment} (henv : env.Valid)
    (hset : ∀ name value, .set name value ∈ actions → value.Valid) :
    session actions env = .error .undefined ∨
      session actions env = .ok (MatrixLang.session actions env) ∧
        (MatrixLang.session actions env).2.Valid ∧
        ∀ value, .evaluated (.ok value) ∈ (MatrixLang.session actions env).1 → value.Valid := by
  induction actions generalizing env with
  | nil => exact .inr ⟨rfl, henv, nofun⟩
  | cons action actions ih =>
    have hfirst := perform_eq henv fun name value h => hset name value (h ▸ List.mem_cons_self)
    rcases hfirst with h | ⟨h, hvalid, hvalue⟩
    · exact .inl (by rw [session, h]; rfl)
    -- the first action is performed, and leaves a valid environment to the others
    have hstep : session (action :: actions) env = (do
        let rest ← session actions (action.perform env).2
        return ((action.perform env).1 :: rest.1, rest.2)) := by
      rw [session, h]
      rfl
    have hrest := ih hvalid fun name value h => hset name value (List.mem_cons_of_mem action h)
    rcases hrest with h' | ⟨h', hvalid', hvalues⟩
    · exact .inl (by rw [hstep, h']; rfl)
    · refine .inr ⟨by rw [hstep, h']; rfl, hvalid', fun value hmem => ?_⟩
      rcases List.mem_cons.mp hmem with heq | hmem
      · exact hvalue value heq.symm
      · exact hvalues value hmem

end Checked

/-- **A session stays within its values.**  It starts in a valid environment or in an initial
one, and goes on with runs, evaluations and valid values for variables, whether they succeed or
fail.  As long as no identity matrix of a size that is not a number is asked for, no cell is read
or written that is not there, and all values that are bound or returned are valid. -/
theorem session_stays_valid {actions : List Action} {env : Environment}
    (henv : env.Valid ∨ ∃ settings, env = .initial settings)
    (hset : ∀ name value, .set name value ∈ actions → value.Valid)
    (hident : Checked.session actions env ≠ .error .undefined) :
    Checked.session actions env = .ok (session actions env) ∧
      (session actions env).2.Valid ∧
      ∀ value, .evaluated (.ok value) ∈ (session actions env).1 → value.Valid := by
  have hvalid : env.Valid := by
    rcases henv with h | ⟨settings, rfl⟩
    · exact h
    · exact Environment.valid_initial settings
  exact (Checked.session_eq hvalid hset).resolve_left hident

/-- A matrix is set, a loop writes a block into each of its rows, and its product with an identity
matrix is read; then it is read past its last row, which fails. -/
def fillRows : List Action :=
  let fill : Statement := .assignBlock 2 "m" (.variable "i") (.literal 1)
    (.matrix 1 2 [.variable "i", .literal 0.5])
  [.set "m" (.eye 2),
    .run 9 ⟨[.forLoop 1 "i" (.literal 1) (.literal 2) .up [fill]], ["i", "m"]⟩,
    .eval (.binary .mul (.variable "m") (.call .ident [.literal 2])),
    .eval (.binary .index (.variable "m") (.literal 3))]

theorem session_stays_valid_fillRows :
    Checked.session fillRows (.initial .standard) = .ok (session fillRows (.initial .standard)) ∧
      (session fillRows (.initial .standard)).2.Valid ∧
      ∀ value, .evaluated (.ok value) ∈ (session fillRows (.initial .standard)).1 →
        value.Valid := by
  refine session_stays_valid (.inr ⟨.standard, rfl⟩) (fun name value hmem => ?_) (fun h => ?_)
  · simp only [fillRows, List.mem_cons, List.not_mem_nil, Action.set.injEq, reduceCtorEq,
      or_false] at hmem
    rw [hmem.2]
    exact Checked.valid_eye (by decide)
  · have hok : (Checked.session fillRows (.initial .standard)).isOk = true := by decide +kernel
    rw [h] at hok
    cases hok

end MatrixLang
