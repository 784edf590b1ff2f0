import MatrixLang.Environment.Eval
import MatrixLang.Program

/-!
# Running programs

Statements run one after the other in an environment.  A failure ends the run with the
line of the statement it arose in, and what was assigned before stays.

A loop may go on for ever, so statements run on fuel: every round of a loop and every
body inside a statement takes one unit.  Running out of it is an outcome of its own, and
tells nothing about the program.
-/

namespace MatrixLang

/-- The environment of a running program and the notes on its run. -/
structure Machine where
  env : Environment
  /-- The notes, the last one first. -/
  notes : List Note
deriving Inhabited

/-- Why a run ends before its last statement. -/
inductive Stop where
  | failure (failure : Failure)
  | outOfFuel
deriving Repr, Inhabited

/-- A part of a run. -/
abbrev Run := ExceptT Stop (StateM Machine)

namespace Run

variable {α : Type}

/-- A computation of the statement in a line. -/
def atLine (line : Nat) (x : Eval α) : Run α :=
  fun machine =>
    match x machine.env with
    | (.ok a, env) => (.ok a, { machine with env })
    | (.error cause, env) => (.error (.failure ⟨.run, line, cause⟩), { machine with env })

theorem atLine_of_ok {x : Eval α} {a : α} {machine : Machine} {next : Environment}
    (h : x machine.env = (.ok a, next)) (line : Nat) :
    atLine line x machine = (.ok a, { machine with env := next }) := by
  unfold atLine
  rw [h]

theorem atLine_of_error {x : Eval α} {cause : Error} {machine : Machine} {next : Environment}
    (h : x machine.env = (.error cause, next)) (line : Nat) :
    atLine line x machine =
      (.error (.failure ⟨.run, line, cause⟩), { machine with env := next }) := by
  unfold atLine
  rw [h]

/-- Gives a variable a value. -/
def assign (name : String) (value : Matrix) : Run Unit :=
  modifyThe Machine fun machine => { machine with env := machine.env.set name value }

/-- Notes what is being done. -/
def note (n : Note) : Run Unit :=
  modifyThe Machine fun machine => { machine with notes := n :: machine.notes }

/-- The integer value of an expression; `context` needs it. -/
def integer (context : String) (e : Expr) : Eval Int64 := do
  let m ← e.eval
  Eval.lift (m.asInteger context)

/-- The number that is the value of an expression; `context` needs it. -/
def number (context : String) (e : Expr) : Eval Float := do
  let m ← e.eval
  Eval.lift (m.asScalar context)

/-- Changes the value of a variable by something that may fail. -/
def change (name : String) (f : Matrix → Except Error Matrix) : Eval Unit := do
  let value ← Eval.lookup name
  let value ← Eval.lift (f value)
  modifyThe Environment (·.set name value)

/-- Runs statements one after the other, each by `run`. -/
def all (run : Statement → Run Unit) : List Statement → Run Unit
  | [] => return ()
  | s :: ss => do
    run s
    all run ss

/-- Runs the first branch whose condition is true, each statement by `run`, and else the
last body. -/
def firstBranch (run : Statement → Run Unit) (line : Nat) (otherwise : Option (List Statement)) :
    List Branch → Run Unit
  | [] =>
    match otherwise with
    | none => return ()
    | some body => all run body
  | .mk condition body :: branches => do
    let value ← atLine line condition.eval
    if value.isTrue then all run body
    else firstBranch run line otherwise branches

/-- Whether a loop in a direction goes on. -/
def goesOn (direction : Direction) (current limit : Float) : Bool :=
  match direction with
  | .up => decide (current ≤ limit)
  | .down => decide (limit ≤ current)

/-- The step of a loop in a direction. -/
def stepBy : Direction → Matrix → Matrix
  | .up => Matrix.increment
  | .down => Matrix.decrement

mutual

/-- Runs a statement. -/
def statement : Nat → Statement → Run Unit
  | 0, _ => throw .outOfFuel
  | _ + 1, .assign line target value => do
    let v ← atLine line value.eval
    assign target v
  | _ + 1, .assignIndex line target index value => do
    let i ← atLine line (integer "Index" index)
    let v ← atLine line value.eval
    atLine line (change target (·.set i v))
  | _ + 1, .assignBlock line target row col value => do
    let r ← atLine line (integer "Row index" row)
    let c ← atLine line (integer "Column index" col)
    let v ← atLine line value.eval
    atLine line (change target (·.setBlock r c v))
  | _ + 1, .eval line value => do
    let v ← atLine line value.eval
    note (.evaluated line v)
  | fuel + 1, .choose line branches otherwise =>
    firstBranch (statement fuel) line otherwise branches
  | fuel + 1, .whileLoop line condition body => do
    let value ← atLine line condition.eval
    if value.isTrue then
      all (statement fuel) body
      statement fuel (.whileLoop line condition body)
  | fuel + 1, .forLoop line counter start limit direction body => do
    let first ← atLine line start.eval
    assign counter first
    rounds fuel line counter limit direction body
  | fuel + 1, .block _ body => all (statement fuel) body

/-- Runs the rounds of a `for` statement whose variable has its value. -/
def rounds : Nat → Nat → String → Expr → Direction → List Statement → Run Unit
  | 0, _, _, _, _, _ => throw .outOfFuel
  | fuel + 1, line, counter, limit, direction, body => do
    let current ← atLine line (number "Loop variable" (.variable counter))
    let last ← atLine line (number "Loop bound" limit)
    if goesOn direction current last then
      all (statement fuel) body
      let _ ← atLine line (Eval.update counter (stepBy direction))
      rounds fuel line counter limit direction body

end

/-- Runs the statements of a program, each with the same fuel. -/
def program (fuel : Nat) (p : Program) : Run Unit :=
  all (fun s => do
    note (.running s.line s.kind)
    statement fuel s) p.statements

end Run

/-- How a run ended, and the environment it left. -/
structure RunResult where
  outcome : Except Stop Unit
  env : Environment
  /-- What was noted, in order. -/
  notes : List Note

/-- Does part of a run in an environment. -/
def Run.on (x : Run Unit) (env : Environment) : RunResult :=
  match x ⟨env, []⟩ with
  | (outcome, machine) => ⟨outcome, machine.env, machine.notes.reverse⟩

/-- Runs a program in an environment. -/
def Program.run (fuel : Nat) (p : Program) (env : Environment) : RunResult :=
  (Run.program fuel p).on env

end MatrixLang
