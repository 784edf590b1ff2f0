import MatrixLang.Proofs.Confinement
import MatrixLang.Proofs.SizeCap

/-! # Counting loops as conditional loops

A `for` statement does what an assignment and a `while` statement do: the assignment gives its
variable the first value, and each round of the `while` statement compares the variable with the
bound, runs the body and takes a step with `inc` or `dec` (`Loop.asWhile`).  The two differ only
where the `for` statement refuses a variable or a bound that is not a single number
(`Loop.FailsItself`), which the comparison does not.

The rounds of the two are compared one by one.  Round for round they have the same environment,
while their notes differ, since the step of a `while` statement is noted.
-/

namespace MatrixLang

/-! ## Notes do not matter -/

/-- Machines that agree up to their notes. -/
def Machine.exceptNotes : Boundary Machine where
  Agree m n := m.env = n.env
  Kept _ _ := True
  refl _ := trivial
  trans _ _ := trivial

namespace Run

open Machine (exceptNotes)

variable {α : Type} {fuel : Nat}

theorem blind_atLine (line : Nat) (x : Eval α) : Confined exceptNotes (atLine line x) where
  agree {m n} h := by
    have henv : m.env = n.env := h
    unfold atLine
    rw [henv]
    rcases x n.env with ⟨r, env⟩
    cases r with
    | error cause => exact ⟨rfl, rfl⟩
    | ok a => exact ⟨rfl, rfl⟩
  kept _ := trivial

theorem blind_assign (name : String) (value : Matrix) :
    Confined exceptNotes (assign name value) where
  agree {m n} h := by
    have henv : m.env = n.env := h
    exact ⟨rfl, congrArg (Environment.set · name value) henv⟩
  kept _ := trivial

theorem blind_note (n : Note) : Confined exceptNotes (note n) where
  agree h := ⟨rfl, h⟩
  kept _ := trivial

section

variable {run : Statement → Run Unit} (h : ∀ s, Confined exceptNotes (run s))
include h

theorem blind_all (ss : List Statement) : Confined exceptNotes (all run ss) := by
  induction ss with
  | nil => exact .pure _
  | cons s ss ih => exact (h s).bind fun _ => ih

theorem blind_firstBranch (line : Nat) (otherwise : Option (List Statement))
    (branches : List Branch) : Confined exceptNotes (firstBranch run line otherwise branches) := by
  induction branches with
  | nil =>
    cases otherwise with
    | none => exact .pure _
    | some body => exact blind_all h body
  | cons branch branches ih =>
    obtain ⟨condition, body⟩ := branch
    refine (blind_atLine line condition.eval).bind fun value => ?_
    split
    · exact blind_all h body
    · exact ih

end

/-- What runs on some fuel does not look at notes. -/
structure BlindOn (fuel : Nat) : Prop where
  statement : ∀ s, Confined exceptNotes (statement fuel s)
  rounds : ∀ line counter limit direction body,
    Confined exceptNotes (rounds fuel line counter limit direction body)

theorem BlindOn.statement_succ (h : BlindOn fuel) (s : Statement) :
    Confined exceptNotes (Run.statement (fuel + 1) s) := by
  cases s with
  | assign line target value =>
    rw [Run.statement]
    exact (blind_atLine line _).bind fun v => blind_assign target v
  | assignIndex line target index value =>
    rw [Run.statement]
    exact (blind_atLine line _).bind fun _ =>
      (blind_atLine line _).bind fun _ => blind_atLine line _
  | assignBlock line target row col value =>
    rw [Run.statement]
    refine (blind_atLine line _).bind fun _ => (blind_atLine line _).bind fun _ => ?_
    exact (blind_atLine line _).bind fun _ => blind_atLine line _
  | eval line value =>
    rw [Run.statement]
    exact (blind_atLine line _).bind fun _ => blind_note _
  | choose line branches otherwise =>
    rw [Run.statement]
    exact blind_firstBranch h.statement line otherwise branches
  | whileLoop line condition body =>
    rw [Run.statement]
    refine (blind_atLine line _).bind fun value => ?_
    split
    · exact (blind_all h.statement body).bind fun _ => h.statement _
    · exact .pure _
  | forLoop line counter start limit direction body =>
    rw [Run.statement]
    refine (blind_atLine line _).bind fun first => (blind_assign counter first).bind fun _ => ?_
    exact h.rounds line counter limit direction body
  | block line body =>
    rw [Run.statement]
    exact blind_all h.statement body

theorem BlindOn.rounds_succ (h : BlindOn fuel) (line : Nat) (counter : String) (limit : Expr)
    (direction : Direction) (body : List Statement) :
    Confined exceptNotes (Run.rounds (fuel + 1) line counter limit direction body) := by
  rw [Run.rounds]
  refine (blind_atLine line _).bind fun current => (blind_atLine line _).bind fun last => ?_
  split
  · refine (blind_all h.statement body).bind fun _ => (blind_atLine line _).bind fun _ => ?_
    exact h.rounds line counter limit direction body
  · exact .pure _

theorem blindOn (fuel : Nat) : BlindOn fuel := by
  induction fuel with
  | zero =>
    constructor
    · intro s
      rw [statement]
      exact .throw _
    · intro line counter limit direction body
      rw [rounds]
      exact .throw _
  | succ fuel ih => exact ⟨ih.statement_succ, ih.rounds_succ⟩

end Run

/-! ## Loops -/

/-- The parts of a `for` statement. -/
structure Loop where
  line : Nat
  counter : String
  start : Expr
  limit : Expr
  direction : Direction
  body : List Statement

namespace Loop

open MatrixLang.Expr (eval_variable)
open Run (atLine_of_ok atLine_of_error)

/-- The `for` statement. -/
def statement (l : Loop) : Statement :=
  .forLoop l.line l.counter l.start l.limit l.direction l.body

/-- The comparison of the variable with the bound. -/
def condition (l : Loop) : Expr :=
  match l.direction with
  | .up => .binary .le (.variable l.counter) l.limit
  | .down => .binary .ge (.variable l.counter) l.limit

/-- The step of the variable. -/
def step (l : Loop) : Statement :=
  match l.direction with
  | .up => .eval l.line (.call .inc [.variable l.counter])
  | .down => .eval l.line (.call .dec [.variable l.counter])

/-- The `while` statement that does the rounds. -/
def conditional (l : Loop) : Statement :=
  .whileLoop l.line l.condition (l.body ++ [l.step])

/-- The assignment and the `while` statement. -/
def asWhile (l : Loop) : List Statement :=
  [.assign l.line l.counter l.start, l.conditional]

/-- The body of the `for` statement, and its step. -/
def turn (l : Loop) (fuel : Nat) : Run Unit := do
  Run.all (Run.statement fuel) l.body
  let _ ← Run.atLine l.line (Eval.update l.counter (Run.stepBy l.direction))

/-- One round of the `for` statement, which tells whether to go on. -/
def round (l : Loop) (fuel : Nat) : Run Bool := do
  let current ← Run.atLine l.line (Run.number "Loop variable" (.variable l.counter))
  let last ← Run.atLine l.line (Run.number "Loop bound" l.limit)
  if Run.goesOn l.direction current last then
    l.turn fuel
    return true
  else return false

/-- The rounds of the `for` statement. -/
def rounds (l : Loop) (fuel : Nat) : Run Unit :=
  Run.rounds fuel l.line l.counter l.limit l.direction l.body

/-- A `for` statement that at the start of some round refuses its variable or its bound. -/
inductive Refuses (l : Loop) : Nat → Machine → Prop where
  | counter {fuel : Nat} {machine : Machine} {value : Matrix}
      (hcounter : machine.env.lookup l.counter = .ok value) (hvalue : value.isScalar = false) :
      Refuses l (fuel + 1) machine
  | limit {fuel : Nat} {machine : Machine} {value bound : Matrix} {env : Environment}
      (hcounter : machine.env.lookup l.counter = .ok value) (hvalue : value.isScalar = true)
      (hlimit : l.limit.eval machine.env = (.ok bound, env)) (hbound : bound.isScalar = false) :
      Refuses l (fuel + 1) machine
  | later {fuel : Nat} {machine next : Machine} (hround : l.round fuel machine = (.ok true, next))
      (hnext : Refuses l fuel next) : Refuses l (fuel + 1) machine

/-- The `for` statement fails because its variable or its bound is not a single number. -/
def FailsItself (l : Loop) (env : Environment) : Prop :=
  ∃ fuel first next, l.start.eval env = (.ok first, next) ∧
    l.Refuses fuel ⟨next.set l.counter first, []⟩

variable {l : Loop} {fuel : Nat} {machine m n : Machine} {env next : Environment}
  {name : String} {value bound : Matrix} {cause : Error}

/-! ## Parts of a round -/

theorem number_of_eval {e : Expr} (h : e.eval env = (.ok value, next)) (context : String) :
    Run.number context e env = (value.asScalar context, next) := by
  rw [Run.number, bind_of_ok h]
  rfl

theorem asScalar_of_isScalar (h : value.isScalar = true) (context : String) :
    value.asScalar context = .ok (value.cell 0 0) :=
  if_pos h

theorem asScalar_of_not_isScalar (h : value.isScalar = false) (context : String) :
    value.asScalar context = .error (.notScalar context value.shape) := by
  rw [Matrix.asScalar, h]
  rfl

theorem isTrue_ofBool (b : Bool) : (Matrix.ofBool b).isTrue = b := by
  cases b with
  | false => decide +kernel
  | true => decide +kernel

/-- A relation holds everywhere between two numbers if it holds between them. -/
theorem everywhere_scalars (rel : Float → Float → Bool) (hvalue : value.isScalar = true)
    (hbound : bound.isScalar = true) (hfilled : bound.Filled) :
    Matrix.everywhere rel value bound = rel (value.cell 0 0) (bound.cell 0 0) := by
  obtain ⟨x, hx⟩ : ∃ x, bound.data = #[x] :=
    Array.size_eq_one_iff.mp (hfilled.size_of_isScalar hbound)
  have hcell : bound.cell 0 0 = x := by
    rw [Matrix.cell, hx]
    simp
  rw [Matrix.everywhere, if_pos hvalue, hcell, hx]
  simp

theorem eval_condition (hcounter : env.lookup l.counter = .ok value)
    (hvalue : value.isScalar = true) (hlimit : l.limit.eval env = (.ok bound, next))
    (hbound : bound.isScalar = true) (hfilled : bound.Filled) :
    l.condition.eval env =
      (.ok (.ofBool (Run.goesOn l.direction (value.cell 0 0) (bound.cell 0 0))), next) := by
  unfold condition
  cases l.direction with
  | up =>
    rw [Expr.eval, bind_of_ok (eval_variable hcounter), bind_of_ok hlimit]
    rw [Eval.lift, BinaryOperator.apply, Matrix.lessEqual,
      everywhere_scalars _ hvalue hbound hfilled]
    rfl
  | down =>
    rw [Expr.eval, bind_of_ok (eval_variable hcounter), bind_of_ok hlimit]
    rw [Eval.lift, BinaryOperator.apply, Matrix.greaterEqual,
      everywhere_scalars _ hvalue hbound hfilled]
    rfl

theorem eval_condition_of_error (hcounter : env.lookup l.counter = .ok value)
    (hlimit : l.limit.eval env = (.error cause, next)) :
    l.condition.eval env = (.error cause, next) := by
  unfold condition
  cases l.direction with
  | up => rw [Expr.eval, bind_of_ok (eval_variable hcounter), bind_of_error hlimit]
  | down => rw [Expr.eval, bind_of_ok (eval_variable hcounter), bind_of_error hlimit]

/-- The step of the `while` statement changes the variable as the `for` statement does. -/
theorem statement_step (h : machine.env.lookup l.counter = .ok value) (fuel : Nat) :
    ∃ notes, Run.statement (fuel + 1) l.step machine =
      (.ok (), ⟨machine.env.set l.counter (Run.stepBy l.direction value), notes⟩) := by
  have hupdate := atLine_of_ok (Eval.update_of_lookup h (Run.stepBy l.direction)) l.line
  refine ⟨.evaluated l.line (Run.stepBy l.direction value) :: machine.notes, ?_⟩
  unfold step
  cases hdirection : l.direction with
  | up =>
    rw [hdirection] at hupdate
    rw [Run.statement, Expr.eval]
    exact bind_of_ok hupdate _
  | down =>
    rw [hdirection] at hupdate
    rw [Run.statement, Expr.eval]
    exact bind_of_ok hupdate _

theorem all_append (run : Statement → Run Unit) (ss ts : List Statement) :
    Run.all run (ss ++ ts) = (do Run.all run ss; Run.all run ts) := by
  induction ss with
  | nil => rfl
  | cons s ss ih =>
    rw [List.cons_append, Run.all, Run.all, ih, bind_assoc]

theorem rounds_succ (l : Loop) (fuel : Nat) : l.rounds (fuel + 1) = (do
    if ← l.round fuel then l.rounds fuel) := by
  rw [rounds, Run.rounds, round]
  simp only [bind_assoc]
  congr 1
  funext current
  congr 1
  funext last
  split
  · simp only [turn, bind_assoc, pure_bind]
    rfl
  · simp only [pure_bind]
    rfl

theorem round_of_scalars (hcounter : m.env.lookup l.counter = .ok value)
    (hvalue : value.isScalar = true) (hlimit : l.limit.eval m.env = (.ok bound, next))
    (hbound : bound.isScalar = true) (fuel : Nat) :
    l.round fuel m =
      (if Run.goesOn l.direction (value.cell 0 0) (bound.cell 0 0) then do
        l.turn fuel
        return true
      else return false : Run Bool) { m with env := next } := by
  have hcurrent := number_of_eval (eval_variable hcounter) "Loop variable"
  have hlast := number_of_eval hlimit "Loop bound"
  rw [asScalar_of_isScalar hvalue] at hcurrent
  rw [asScalar_of_isScalar hbound] at hlast
  rw [round, bind_of_ok (atLine_of_ok hcurrent _), bind_of_ok (atLine_of_ok hlast _)]

theorem round_of_error (hcounter : m.env.lookup l.counter = .ok value)
    (hvalue : value.isScalar = true) (hlimit : l.limit.eval m.env = (.error cause, next))
    (fuel : Nat) : l.round fuel m =
      (.error (.failure ⟨.run, l.line, cause⟩), { m with env := next }) := by
  have hcurrent := number_of_eval (eval_variable hcounter) "Loop variable"
  have hlast : Run.number "Loop bound" l.limit m.env = (.error cause, next) :=
    bind_of_error hlimit _
  rw [asScalar_of_isScalar hvalue] at hcurrent
  rw [round, bind_of_ok (atLine_of_ok hcurrent _), bind_of_error (atLine_of_error hlast _)]

/-- A round that is a turn, and the rounds after it. -/
theorem round_bind (h : l.round fuel m = (do l.turn fuel; return true : Run Bool) n) :
    (do if ← l.round fuel then l.rounds fuel : Run Unit) m =
      (do l.turn fuel; l.rounds fuel : Run Unit) n := by
  rcases hturn : l.turn fuel n with ⟨r, n'⟩
  cases r with
  | error stop =>
    rw [bind_of_error hturn] at h ⊢
    rw [bind_of_error h]
  | ok u =>
    rw [bind_of_ok hturn] at h ⊢
    exact bind_of_ok h _

/-! ## Round for round -/

/-- The variable of the loop has a value, and all values fill their shapes. -/
structure Ready (l : Loop) (env : Environment) : Prop where
  filled : env.AllHave Matrix.Filled
  bound : env.contains l.counter = true

theorem Ready.lookup (h : l.Ready env) : ∃ value, env.lookup l.counter = .ok value := by
  obtain ⟨value, hvalue⟩ := Option.isSome_iff_exists.mp h.bound
  refine ⟨value, ?_⟩
  rw [Environment.lookup, hvalue]
  rfl

theorem filled_eval {e : Expr} (h : env.AllHave Matrix.Filled)
    (he : e.eval env = (.ok value, next)) : value.Filled ∧ next.AllHave Matrix.Filled := by
  obtain ⟨-, hnext, hvalue⟩ := Expr.upholds_eval closed_filled e env h fun _ _ => trivial
  rw [he] at hnext hvalue
  exact ⟨hvalue value rfl, hnext⟩

theorem ready_set (h : env.AllHave Matrix.Filled) (hvalue : value.Filled) :
    l.Ready (env.set l.counter value) where
  filled := h.set l.counter hvalue
  bound := by
    rw [Environment.contains_set, decide_eq_true rfl, Bool.true_or]

theorem Ready.eval {e : Expr} (h : l.Ready env) (he : e.eval env = (.ok value, next)) :
    l.Ready next where
  filled := (filled_eval h.filled he).2
  bound := by
    have hkept := (Expr.confined_eval (List.Subset.refl e.names)).kept env
    rw [he] at hkept
    exact hkept.bound l.counter h.bound

theorem Ready.body (h : l.Ready m.env)
    (hbody : Run.all (Run.statement fuel) l.body m = (.ok (), machine)) : l.Ready machine.env where
  filled := by
    have hall := Run.upholds_all (Run.upholdsOn closed_filled fuel).statement l.body
    obtain ⟨-, hnext, -⟩ := hall m h.filled fun _ _ => trivial
    rw [hbody] at hnext
    exact hnext
  bound := by
    have hkept := Run.contains_body h.bound fuel l.body
    rw [hbody] at hkept
    exact hkept

theorem Ready.step (h : l.Ready env) (hcounter : env.lookup l.counter = .ok value) :
    l.Ready (env.set l.counter (Run.stepBy l.direction value)) := by
  have hvalue : value.Filled := h.filled.lookup hcounter
  refine ready_set h.filled ?_
  cases l.direction with
  | up => exact hvalue.map _
  | down => exact hvalue.map _

/-- Two runs that end in the same way, and with the same environment unless the fuel is out. -/
def SameEnd (p q : Except Stop Unit × Machine) : Prop :=
  p.1 = q.1 ∧ (p.1 = .error .outOfFuel ∨ p.2.env = q.2.env)

theorem conditional_succ (l : Loop) (fuel : Nat) :
    Run.statement (fuel + 1) l.conditional = (do
      let value ← Run.atLine l.line l.condition.eval
      if value.isTrue then
        Run.all (Run.statement fuel) (l.body ++ [l.step])
        Run.statement fuel l.conditional) := by
  rw [conditional, Run.statement]

/-- The body and the step end in the same way in both loops. -/
theorem turn_cases (hready : l.Ready m.env) (henv : m.env = n.env) (fuel : Nat) :
    ∃ m' n' r, l.turn (fuel + 1) m = (r, m') ∧
      Run.all (Run.statement (fuel + 1)) (l.body ++ [l.step]) n = (r, n') ∧ m'.env = n'.env ∧
      (r = .ok () → l.Ready m'.env) := by
  obtain ⟨hresult, hsame⟩ :=
    (Run.blind_all (Run.blindOn (fuel + 1)).statement l.body).agree (s := m) (t := n) henv
  rcases hm : Run.all (Run.statement (fuel + 1)) l.body m with ⟨r, m'⟩
  rcases hn : Run.all (Run.statement (fuel + 1)) l.body n with ⟨r', n'⟩
  rw [hm, hn] at hresult hsame
  subst hresult
  have hsame : m'.env = n'.env := hsame
  rw [turn, all_append]
  cases r with
  | error stop => exact ⟨m', n', .error stop, bind_of_error hm _, bind_of_error hn _, hsame, nofun⟩
  | ok u =>
    have hready' : l.Ready m'.env := hready.body hm
    obtain ⟨value, hcounter⟩ := hready'.lookup
    obtain ⟨notes, hstep⟩ := statement_step (hsame ▸ hcounter) fuel
    have hupdate := atLine_of_ok (Eval.update_of_lookup hcounter (Run.stepBy l.direction)) l.line
    rw [bind_of_ok hm, bind_of_ok hn, bind_of_ok hupdate]
    refine ⟨_, _, .ok (), rfl, bind_of_ok hstep _, ?_, fun _ => hready'.step hcounter⟩
    exact congrArg (·.set l.counter (Run.stepBy l.direction value)) hsame

/-- Nothing runs without fuel. -/
theorem all_zero (s : Statement) (ss : List Statement) (machine : Machine) :
    Run.all (Run.statement 0) (s :: ss) machine = (.error .outOfFuel, machine) := by
  rw [Run.all, Run.statement]
  rfl

theorem turn_zero (hready : l.Ready m.env) :
    ∃ m' r, l.turn 0 m = (r, m') ∧ (r = .ok () ∨ r = .error .outOfFuel) := by
  rw [turn]
  cases l.body with
  | nil =>
    obtain ⟨value, hcounter⟩ := hready.lookup
    have hupdate := atLine_of_ok (Eval.update_of_lookup hcounter (Run.stepBy l.direction)) l.line
    exact ⟨_, _, bind_of_ok hupdate _, .inl rfl⟩
  | cons s body => exact ⟨_, _, bind_of_error (all_zero s body m) _, .inr rfl⟩

/-- The rest of a round and what comes after it, where the rounds after it go in step. -/
theorem sameEnd_turn (hready : l.Ready m.env) (henv : m.env = n.env)
    (hrounds : ∀ m' n', l.turn fuel m = (.ok (), m') → l.Ready m'.env → m'.env = n'.env →
      SameEnd (l.rounds fuel m') (Run.statement fuel l.conditional n')) :
    SameEnd ((do l.turn fuel; l.rounds fuel) m)
      ((do Run.all (Run.statement fuel) (l.body ++ [l.step])
           Run.statement fuel l.conditional) n) := by
  cases fuel with
  | zero =>
    -- the step has no fuel, and so there is none for the next round
    obtain ⟨s, ss, hsplit⟩ : ∃ s ss, l.body ++ [l.step] = s :: ss :=
      List.exists_cons_of_ne_nil (by simp)
    rw [hsplit, bind_of_error (all_zero s ss n)]
    obtain ⟨m', r, hturn, rfl | rfl⟩ := turn_zero hready
    · rw [bind_of_ok hturn, rounds, Run.rounds]
      exact ⟨rfl, .inl rfl⟩
    · rw [bind_of_error hturn]
      exact ⟨rfl, .inl rfl⟩
  | succ fuel =>
    obtain ⟨m', n', r, hturn, hall, hsame, hready'⟩ := turn_cases hready henv fuel
    cases r with
    | error stop =>
      rw [bind_of_error hturn, bind_of_error hall]
      exact ⟨rfl, .inr hsame⟩
    | ok u =>
      rw [bind_of_ok hturn, bind_of_ok hall]
      exact hrounds m' n' hturn (hready' rfl) hsame

/-- The rounds of the two loops go in step, unless the `for` statement refuses. -/
theorem sameEnd_rounds (hready : l.Ready m.env) (henv : m.env = n.env)
    (h : ¬ l.Refuses fuel m) :
    SameEnd (l.rounds fuel m) (Run.statement fuel l.conditional n) := by
  induction fuel generalizing m n with
  | zero =>
    rw [rounds, Run.rounds, Run.statement]
    exact ⟨rfl, .inl rfl⟩
  | succ fuel ih =>
    obtain ⟨value, hcounter⟩ := hready.lookup
    have hvalue : value.isScalar = true :=
      eq_true_of_ne_false fun hne => h (.counter hcounter hne)
    have hcounter' : n.env.lookup l.counter = .ok value := henv ▸ hcounter
    rw [rounds_succ, conditional_succ]
    rcases hlimit : l.limit.eval m.env with ⟨r, next⟩
    have hlimit' : l.limit.eval n.env = (r, next) := henv ▸ hlimit
    cases r with
    | error cause =>
      rw [bind_of_error (round_of_error hcounter hvalue hlimit fuel)]
      rw [bind_of_error (atLine_of_error (eval_condition_of_error hcounter' hlimit') _)]
      exact ⟨rfl, .inr rfl⟩
    | ok bound =>
      have hbound : bound.isScalar = true :=
        eq_true_of_ne_false fun hne => h (.limit hcounter hvalue hlimit hne)
      have hfilled := (filled_eval hready.filled hlimit).1
      have hcondition := eval_condition hcounter' hvalue hlimit' hbound hfilled
      rw [bind_of_ok (atLine_of_ok hcondition _), isTrue_ofBool]
      have hround := round_of_scalars hcounter hvalue hlimit hbound fuel
      by_cases hmore : Run.goesOn l.direction (value.cell 0 0) (bound.cell 0 0) = true
      · rw [if_pos hmore] at hround
        rw [if_pos hmore, round_bind hround]
        refine sameEnd_turn (hready.eval hlimit) rfl fun m' n' hturn hready' hsame => ?_
        refine ih hready' hsame fun hrefuses => h (.later ?_ hrefuses)
        rw [hround, bind_of_ok hturn]
        rfl
      · rw [if_neg hmore] at hround
        rw [if_neg hmore, bind_of_ok hround]
        exact ⟨rfl, .inr rfl⟩

/-! ## Whole statements -/

/-- Runs statements in an environment. -/
def runAll (ss : List Statement) (fuel : Nat) (env : Environment) : Except Stop Unit × Machine :=
  Run.all (Run.statement fuel) ss ⟨env, []⟩

/-- Statements that end in an environment, with success or a failure, and leave `final`. -/
def Ends (ss : List Statement) (env : Environment) (outcome : Except Failure Unit)
    (final : Environment) : Prop :=
  ∃ fuel, (runAll ss fuel env).1 = outcome.mapError Stop.failure ∧
    (runAll ss fuel env).2.env = final

variable {outcome : Except Failure Unit} {final : Environment} {ss ts : List Statement}

/-- Statements end as others do that can be given the fuel to. -/
theorem Ends.of_sameEnd (h : ∀ fuel, ∃ fuel', SameEnd (runAll ss fuel env) (runAll ts fuel' env))
    (hends : Ends ss env outcome final) : Ends ts env outcome final := by
  obtain ⟨fuel, houtcome, hfinal⟩ := hends
  obtain ⟨fuel', hsame, hfuel | henv⟩ := h fuel
  · -- running out of fuel is no way to end
    rw [houtcome] at hfuel
    cases outcome with
    | error failure => cases hfuel
    | ok u => cases hfuel
  · exact ⟨fuel', hsame ▸ houtcome, henv ▸ hfinal⟩

theorem SameEnd.symm {p q : Except Stop Unit × Machine} (h : SameEnd p q) : SameEnd q p := by
  obtain ⟨hresult, hfuel | henv⟩ := h
  · exact ⟨hresult.symm, .inl (hresult ▸ hfuel)⟩
  · exact ⟨hresult.symm, .inr henv.symm⟩

theorem runAll_zero (s : Statement) (ss : List Statement) (env : Environment) :
    runAll (s :: ss) 0 env = (.error .outOfFuel, ⟨env, []⟩) :=
  all_zero s ss ⟨env, []⟩

/-- A first value that cannot be had is missed by both. -/
theorem runAll_of_error (hstart : l.start.eval env = (.error cause, next)) (fuel : Nat) :
    runAll [l.statement] (fuel + 1) env =
        (.error (.failure ⟨.run, l.line, cause⟩), ⟨next, []⟩) ∧
      runAll l.asWhile (fuel + 1) env =
        (.error (.failure ⟨.run, l.line, cause⟩), ⟨next, []⟩) := by
  have hline : Run.atLine l.line l.start.eval ⟨env, []⟩ = _ := atLine_of_error hstart l.line
  constructor
  · rw [runAll, Run.all, statement, Run.statement]
    exact bind_of_error (bind_of_error hline _) _
  · rw [runAll, asWhile, Run.all, Run.statement]
    exact bind_of_error (bind_of_error hline _) _

theorem all_singleton (run : Statement → Run Unit) (s : Statement) : Run.all run [s] = run s :=
  bind_pure (run s)

/-- With its first value, a `for` statement goes as its rounds do. -/
theorem runAll_statement {first : Matrix} (hstart : l.start.eval env = (.ok first, next))
    (fuel : Nat) : runAll [l.statement] (fuel + 1) env =
      l.rounds fuel ⟨next.set l.counter first, []⟩ := by
  have hline : Run.atLine l.line l.start.eval ⟨env, []⟩ = _ := atLine_of_ok hstart l.line
  rw [runAll, all_singleton, statement, Run.statement, bind_of_ok hline]
  rfl

/-- With the first value, the assignment is followed by the `while` statement. -/
theorem runAll_asWhile {first : Matrix} (hstart : l.start.eval env = (.ok first, next))
    (fuel : Nat) : runAll l.asWhile (fuel + 1) env =
      Run.statement (fuel + 1) l.conditional ⟨next.set l.counter first, []⟩ := by
  have hline : Run.atLine l.line l.start.eval ⟨env, []⟩ = _ := atLine_of_ok hstart l.line
  have hassign : Run.statement (fuel + 1) (.assign l.line l.counter l.start) ⟨env, []⟩ =
      (.ok (), ⟨next.set l.counter first, []⟩) := by
    rw [Run.statement, bind_of_ok hline]
    rfl
  rw [runAll, asWhile, Run.all, bind_of_ok hassign, all_singleton]

section

variable (henv : env.AllHave Matrix.Filled) (h : ¬ l.FailsItself env)
include henv h

/-- On one unit of fuel more, the `for` statement ends as the other two do. -/
theorem sameEnd_statement {first : Matrix} (hstart : l.start.eval env = (.ok first, next))
    (fuel : Nat) : SameEnd (runAll [l.statement] (fuel + 1) env) (runAll l.asWhile fuel env) := by
  rw [runAll_statement hstart]
  cases fuel with
  | zero =>
    rw [asWhile, runAll_zero, rounds, Run.rounds]
    exact ⟨rfl, .inl rfl⟩
  | succ fuel =>
    obtain ⟨hfirst, hnext⟩ := filled_eval henv hstart
    rw [runAll_asWhile hstart]
    refine sameEnd_rounds (ready_set hnext hfirst) rfl fun hrefuses => ?_
    exact h ⟨fuel + 1, first, next, hstart, hrefuses⟩

theorem exists_sameEnd_asWhile (fuel : Nat) :
    ∃ fuel', SameEnd (runAll [l.statement] fuel env) (runAll l.asWhile fuel' env) := by
  cases fuel with
  | zero =>
    refine ⟨0, ?_⟩
    rw [asWhile, runAll_zero, runAll_zero]
    exact ⟨rfl, .inl rfl⟩
  | succ fuel =>
    rcases hstart : l.start.eval env with ⟨r, next⟩
    cases r with
    | error cause =>
      obtain ⟨hfor, hwhile⟩ := runAll_of_error hstart fuel
      refine ⟨fuel + 1, ?_⟩
      rw [hfor, hwhile]
      exact ⟨rfl, .inr rfl⟩
    | ok first => exact ⟨fuel, sameEnd_statement henv h hstart fuel⟩

theorem exists_sameEnd_statement (fuel : Nat) :
    ∃ fuel', SameEnd (runAll l.asWhile fuel env) (runAll [l.statement] fuel' env) := by
  rcases hstart : l.start.eval env with ⟨r, next⟩
  cases r with
  | error cause =>
    refine ⟨fuel, ?_⟩
    cases fuel with
    | zero =>
      rw [asWhile, runAll_zero, runAll_zero]
      exact ⟨rfl, .inl rfl⟩
    | succ fuel =>
      obtain ⟨hfor, hwhile⟩ := runAll_of_error hstart fuel
      rw [hfor, hwhile]
      exact ⟨rfl, .inr rfl⟩
  | ok first => exact ⟨fuel + 1, (sameEnd_statement henv h hstart fuel).symm⟩

end

/-- A loop that refuses in some round fails with what it refuses. -/
theorem Refuses.rounds_eq (h : l.Refuses fuel m) :
    ∃ context shape next, (context = "Loop variable" ∨ context = "Loop bound") ∧
      l.rounds fuel m = (.error (.failure ⟨.run, l.line, .notScalar context shape⟩), next) := by
  induction h with
  | counter hcounter hvalue =>
    have hcurrent := number_of_eval (eval_variable hcounter) "Loop variable"
    rw [asScalar_of_not_isScalar hvalue] at hcurrent
    rw [rounds, Run.rounds]
    exact ⟨_, _, _, .inl rfl, bind_of_error (atLine_of_error hcurrent _) _⟩
  | limit hcounter hvalue hlimit hbound =>
    have hcurrent := number_of_eval (eval_variable hcounter) "Loop variable"
    have hlast := number_of_eval hlimit "Loop bound"
    rw [asScalar_of_isScalar hvalue] at hcurrent
    rw [asScalar_of_not_isScalar hbound] at hlast
    rw [rounds, Run.rounds, bind_of_ok (atLine_of_ok hcurrent _)]
    exact ⟨_, _, _, .inr rfl, bind_of_error (atLine_of_error hlast _) _⟩
  | later hround _ ih =>
    obtain ⟨context, shape, next, hcontext, hrounds⟩ := ih
    refine ⟨context, shape, next, hcontext, ?_⟩
    rw [rounds_succ, bind_of_ok hround]
    exact hrounds

/-- **A `for` statement is an assignment and a `while` statement.**  In an environment whose values
fill their shapes, either it fails because its variable or its bound is not a single number, or it
ends if and only if the assignment followed by the `while` statement ends, with the same outcome
and in the same environment. -/
theorem ends_for_iff_ends_while (l : Loop) (env : Environment)
    (henv : env.AllHave Matrix.Filled) :
    (l.FailsItself env → ∃ context shape final,
      (context = "Loop variable" ∨ context = "Loop bound") ∧
      Ends [l.statement] env (.error ⟨.run, l.line, .notScalar context shape⟩) final) ∧
    (¬ l.FailsItself env → ∀ outcome final,
      Ends [l.statement] env outcome final ↔ Ends l.asWhile env outcome final) := by
  constructor
  · rintro ⟨fuel, first, next, hstart, hrefuses⟩
    obtain ⟨context, shape, machine, hcontext, hrounds⟩ := hrefuses.rounds_eq
    refine ⟨context, shape, machine.env, hcontext, fuel + 1, ?_⟩
    rw [runAll_statement hstart, hrounds]
    exact ⟨rfl, rfl⟩
  · intro h outcome final
    exact ⟨.of_sameEnd (exists_sameEnd_asWhile henv h),
      .of_sameEnd (exists_sameEnd_statement henv h)⟩

/-- `for v = 1 to inc(n) { v = v + 1 }`. -/
def skipping : Loop :=
  ⟨3, "v", .literal 1, .call .inc [.variable "n"], .up,
    [.assign 3 "v" (.binary .add (.variable "v") (.literal 1))]⟩

/-- An environment in which `n` is zero. -/
def skippingFrom : Environment :=
  ⟨[("n", .scalar 0)], .standard⟩

/-- A loop with numbers at the start of a round refuses only in a later one. -/
theorem not_refuses (hcounter : m.env.lookup l.counter = .ok value) (hvalue : value.isScalar = true)
    (hlimit : l.limit.eval m.env = (.ok bound, next)) (hbound : bound.isScalar = true)
    (hlater : ∀ fuel m', l.round fuel m = (.ok true, m') → ¬ l.Refuses fuel m') (fuel : Nat) :
    ¬ l.Refuses fuel m := by
  rintro (⟨hcounter', hvalue'⟩ | ⟨-, -, hlimit', hbound'⟩ | ⟨hround, hnext⟩)
  · rw [hcounter] at hcounter'
    cases hcounter'
    rw [hvalue] at hvalue'
    cases hvalue'
  · rw [hlimit] at hlimit'
    cases hlimit'
    rw [hbound] at hbound'
    cases hbound'
  · exact hlater _ _ hround hnext

theorem not_failsItself_skipping : ¬ skipping.FailsItself skippingFrom := by
  rintro ⟨fuel, first, next, hstart, hrefuses⟩
  cases hstart
  refine not_refuses rfl rfl rfl rfl ?_ fuel hrefuses
  -- the first round makes three of `v`
  intro fuel m' hround
  rw [round_of_scalars rfl rfl rfl rfl, if_pos (by decide +kernel)] at hround
  cases fuel with
  | zero => cases hround
  | succ fuel =>
    cases hround
    refine not_refuses rfl rfl rfl rfl ?_ _
    -- the second round finds a bound of two
    intro fuel m' hround
    rw [round_of_scalars rfl rfl rfl rfl, if_neg (by decide +kernel)] at hround
    cases hround

theorem ends_for_iff_ends_while_skipping :
    skippingFrom.AllHave Matrix.Filled ∧ ¬ skipping.FailsItself skippingFrom ∧
      ∃ final, Ends [skipping.statement] skippingFrom (.ok ()) final ∧
        Ends skipping.asWhile skippingFrom (.ok ()) final := by
  have hfilled : skippingFrom.AllHave Matrix.Filled := List.forall_mem_singleton.mpr rfl
  have hok : (runAll [skipping.statement] 3 skippingFrom).1.isOk = true := by decide +kernel
  rcases hr : runAll [skipping.statement] 3 skippingFrom with ⟨r, machine⟩
  rw [hr] at hok
  cases r with
  | error stop => cases hok
  | ok u =>
    have hends : Ends [skipping.statement] skippingFrom (.ok ()) machine.env :=
      ⟨3, by rw [hr]; rfl, by rw [hr]⟩
    have hiff := (ends_for_iff_ends_while skipping skippingFrom hfilled).2 not_failsItself_skipping
    exact ⟨hfilled, not_failsItself_skipping, machine.env, hends, (hiff _ _).mp hends⟩

end Loop

end MatrixLang
