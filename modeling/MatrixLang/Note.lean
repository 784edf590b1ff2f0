import MatrixLang.Matrix.Basic
import MatrixLang.Postfix

/-!
# Notes

What is noted on the way while a program is compiled and run, for someone who wants to
follow it.  `Noted` is a computation that may fail and leaves notes; what it gives never
hangs on them (`result_bind`).
-/

namespace MatrixLang

/-- How much someone has to want to know to see a note. -/
inductive Level where
  | debug
  | trace
deriving DecidableEq, Repr, Inhabited

/-- What can be noted. -/
inductive Note where
  /-- The prepared tokens of an expression. -/
  | tokens (ts : List Token)
  /-- The postfix code of an expression. -/
  | code (instructions : List Instruction)
  /-- A statement has been compiled. -/
  | compiled (line : Nat) (kind : String)
  /-- A whole program has been compiled. -/
  | finished (statements names : Nat)
  /-- A statement of a program is about to run. -/
  | running (line : Nat) (kind : String)
  /-- An expression statement has been evaluated. -/
  | evaluated (line : Nat) (value : Matrix)
deriving Repr, Inhabited

namespace Note

/-- Single computations are for tracing; statements are of more interest. -/
def level : Note → Level
  | .tokens _ | .code _ | .evaluated .. => .trace
  | .compiled .. | .finished .. | .running .. => .debug

/-- The text of a note. -/
def message : Note → String
  | .tokens ts => s!"tokens: {Token.listing ts}"
  | .code instructions => s!"postfix: {Instruction.listing instructions}"
  | .compiled line kind => s!"line {line}: {kind}"
  | .finished statements names =>
    s!"compiled {statements} top-level statements, {names} variables"
  | .running line kind => s!"executing line {line}: {kind}"
  | .evaluated line value => s!"line {line} evaluated to {value.text}"

end Note

/-- A computation that may fail, and what it noted until it ended. -/
structure Noted (α : Type) where
  notes : List Note
  result : Except Failure α

namespace Noted

variable {α β : Type}

instance : Monad Noted where
  pure a := ⟨[], .ok a⟩
  bind x f :=
    match x.result with
    | .error failure => ⟨x.notes, .error failure⟩
    | .ok a => ⟨x.notes ++ (f a).notes, (f a).result⟩

/-- Leaves one note. -/
def note (n : Note) : Noted Unit :=
  ⟨[n], .ok ()⟩

/-- Fails. -/
def fail (failure : Failure) : Noted α :=
  ⟨[], .error failure⟩

/-- A computation that leaves no notes, as part of compiling a line. -/
def atLine (line : Nat) (x : Except Error α) : Noted α :=
  ⟨[], x.mapError fun cause => ⟨.compile, line, cause⟩⟩

@[simp]
theorem result_pure (a : α) : (pure a : Noted α).result = .ok a :=
  rfl

@[simp]
theorem result_bind (x : Noted α) (f : α → Noted β) :
    (x >>= f).result = x.result >>= fun a => (f a).result := by
  show (match x.result with
    | .error failure => (⟨x.notes, .error failure⟩ : Noted β)
    | .ok a => ⟨x.notes ++ (f a).notes, (f a).result⟩).result = _
  cases x.result <;> rfl

@[simp]
theorem result_note (n : Note) : (note n).result = .ok () :=
  rfl

@[simp]
theorem result_fail (failure : Failure) : (fail failure : Noted α).result = .error failure :=
  rfl

@[simp]
theorem result_atLine (line : Nat) (x : Except Error α) :
    (atLine line x).result = x.mapError fun cause => ⟨.compile, line, cause⟩ :=
  rfl

end Noted

end MatrixLang
