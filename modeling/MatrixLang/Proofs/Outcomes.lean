import MatrixLang.Note
import MatrixLang.Proofs.Except

/-! # Outcomes

What a computation can give and what it can fail with.  `Meets P Q x` says that what `x` gives
has the property `P` and what it fails with the property `Q`; it is put together in the order of
the computation, so that one walk through a function settles both.  `MeetsOn` says the same of a
computation with a state, from every state.

The errors fall into two classes.  Some are found in a source text by itself
(`Error.inSource`), all of them but unbalanced braces in one of its statements (`Error.inForm`);
the others come up with values.
-/

namespace MatrixLang

/-- What a computation gives has the property `P`, and what it fails with the property `Q`. -/
def Meets {ε α : Type} (P : α → Prop) (Q : ε → Prop) : Except ε α → Prop
  | .ok a => P a
  | .error e => Q e

namespace Meets

variable {ε ε' α β : Type} {P : α → Prop} {Q : ε → Prop} {R : β → Prop} {x : Except ε α}
  {f : α → Except ε β}

theorem pure {a : α} (h : P a) : Meets P Q (pure a) := h

theorem throw {e : ε} (h : Q e) : Meets P Q (throw e) := h

theorem bind (hx : Meets P Q x) (hf : ∀ a, P a → Meets R Q (f a)) : Meets R Q (x >>= f) := by
  cases x with
  | error e => exact hx
  | ok a => exact hf a hx

theorem mono_ok {P' : α → Prop} (h : Meets P Q x) (hP : ∀ a, P a → P' a) : Meets P' Q x := by
  cases x with
  | error e => exact h
  | ok a => exact hP a h

theorem mono_error {Q' : ε → Prop} (h : Meets P Q x) (hQ : ∀ e, Q e → Q' e) :
    Meets P Q' x := by
  cases x with
  | error e => exact hQ e h
  | ok a => exact h

theorem mapError {Q' : ε' → Prop} {g : ε → ε'} (h : Meets P Q x) (hg : ∀ e, Q e → Q' (g e)) :
    Meets P Q' (x.mapError g) := by
  cases x with
  | error e => exact hg e h
  | ok a => exact h

/-- A computation of which nothing is asked. -/
theorem any (x : Except ε α) : Meets (fun _ => True) (fun _ => True) x := by
  cases x with
  | error e => trivial
  | ok a => trivial

theorem of_forall_ok (h : ∀ a, x = .ok a → P a) : Meets P (fun _ => True) x := by
  cases x with
  | error e => trivial
  | ok a => exact h a rfl

theorem of_ok {a : α} (h : Meets P Q x) (hx : x = .ok a) : P a := by
  subst hx
  exact h

theorem of_error {e : ε} (h : Meets P Q x) (hx : x = .error e) : Q e := by
  subst hx
  exact h

end Meets

/-! ## With a state -/

/-- What a computation gives has the property `P`, and what it fails with the property `Q`, from
whatever state. -/
def MeetsOn {ε σ α : Type} (P : α → Prop) (Q : ε → Prop) (x : ExceptT ε (StateM σ) α) : Prop :=
  ∀ s, Meets P Q (x s).1

namespace MeetsOn

variable {ε σ α β : Type} {P : α → Prop} {Q : ε → Prop} {R : β → Prop}
  {x : ExceptT ε (StateM σ) α} {f : α → ExceptT ε (StateM σ) β}

theorem pure {a : α} (h : P a) : MeetsOn P Q (pure a : ExceptT ε (StateM σ) α) :=
  fun _ => h

theorem throw {e : ε} (h : Q e) : MeetsOn P Q (throw e : ExceptT ε (StateM σ) α) :=
  fun _ => h

theorem bind (hx : MeetsOn P Q x) (hf : ∀ a, P a → MeetsOn R Q (f a)) :
    MeetsOn R Q (x >>= f) := by
  intro s
  have hs : Meets P Q (x s).1 := hx s
  rcases hr : x s with ⟨r, t⟩
  rw [hr] at hs
  cases r with
  | error e =>
    rw [bind_of_error hr]
    exact hs
  | ok a =>
    rw [bind_of_ok hr]
    exact hf a hs t

end MeetsOn

/-! ## Errors -/

namespace Error

/-- Errors in the form of one statement. -/
def inForm : Error → Bool
  | .malformedLiteral _ | .unbalancedParens | .unresolvedArity _ | .illFormed _ => true
  | _ => false

/-- Errors of a source text: in the form of a statement, or braces that do not balance. -/
def inSource : Error → Bool
  | .unbalancedBraces => true
  | e => e.inForm

theorem inSource_of_inForm {e : Error} (h : e.inForm = true) : e.inSource = true := by
  unfold inSource
  split
  · rfl
  · exact h

end Error

/-! ## With notes -/

namespace Noted

variable {α β : Type} {P : α → Prop} {R : β → Prop} {x : Noted α} {f : α → Noted β}

/-- What is compiled has the property `P`, and where nothing is, the form of a statement is
wrong. -/
def Yields (P : α → Prop) (x : Noted α) : Prop :=
  Meets P (fun failure => failure.stage = .compile ∧ failure.cause.inForm = true) x.result

namespace Yields

theorem pure {a : α} (h : P a) : Yields P (pure a) := h

theorem fail {line : Nat} {cause : Error} (h : cause.inForm = true) :
    Yields P (fail ⟨.compile, line, cause⟩) :=
  ⟨rfl, h⟩

theorem bind (hx : Yields P x) (hf : ∀ a, P a → Yields R (f a)) : Yields R (x >>= f) := by
  rw [Yields, result_bind]
  exact Meets.bind hx hf

theorem note {n : Note} (h : Yields P x) : Yields P (do Noted.note n; x) := by
  rw [Yields, result_bind]
  exact h

theorem atLine {y : Except Error α} (h : Meets P (fun cause => cause.inForm = true) y)
    (line : Nat) : Yields P (atLine line y) :=
  h.mapError fun _ hcause => ⟨rfl, hcause⟩

end Yields

end Noted

end MatrixLang
