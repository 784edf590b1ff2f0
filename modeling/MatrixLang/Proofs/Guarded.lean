import MatrixLang.Proofs.Except
import MatrixLang.Word

/-! # Guarded computations

A guarded computation does what a plain one does, but as a machine does it, by positions, counters
and words, and gives up with a `Fault` where a machine would break down: where a list or a matrix is
read or cut at a position that it does not have, where a counter is decreased below zero, where a
word does not hold a result, or where a value is used that nothing is said about.  Words reach as
far as a `Width` says, which is that of a machine or no limit at all.

`Follows` says that a guarded computation never gives up and does what the plain one does, and
`FollowsUnless` that it does so but for some faults; `GivesUnless` is the same for a single value.
`Agrees` compares the two where undefined values may come up, and `Keeps` where there is also a
state, of which an invariant is kept.  All of them are put together in the order of the computation.
-/

namespace MatrixLang

/-- Why a guarded computation gives up. -/
inductive Fault where
  /-- A list, or the data of a matrix, has no such position. -/
  | outside
  /-- A counter is decreased below zero. -/
  | belowZero
  /-- A result is not in the range of its word. -/
  | overflow (word : Word)
  /-- A loop goes round more often than it has reason to. -/
  | endless
  /-- A literal has more cells than the tokens of its expression allow. -/
  | tooWide
  /-- The identity matrix of a size that is not a number is asked for. -/
  | undefined
deriving DecidableEq, Repr, Inhabited

/-- A computation that may give up. -/
abbrev Guarded := Except Fault

/-- How far words reach. -/
inductive Width where
  /-- As those of a machine. -/
  | machine
  /-- Over all integers, of which sizes are those that are not negative. -/
  | unbounded
deriving DecidableEq, Repr, Inhabited

namespace Width

/-- The numbers that a word holds. -/
def Holds : Width → Word → Int → Prop
  | .machine, word, x => word.Holds x
  | .unbounded, .unsigned64, x => 0 ≤ x
  | .unbounded, _, _ => True

instance : (w : Width) → (word : Word) → (x : Int) → Decidable (w.Holds word x)
  | .machine, word, x => inferInstanceAs (Decidable (word.Holds x))
  | .unbounded, .unsigned64, x => inferInstanceAs (Decidable (0 ≤ x))
  | .unbounded, .signed32, _ => .isTrue trivial
  | .unbounded, .signed64, _ => .isTrue trivial

end Width

namespace Guarded

variable {α : Type} {w : Width} {x : Int}

/-! ## Words -/

/-- A result that has to be a word. -/
def fit (w : Width) (word : Word) (x : Int) : Guarded Int :=
  if w.Holds word x then return x else throw (.overflow word)

/-- A result that has to be a signed word. -/
def signed (w : Width) (x : Int) : Guarded Int :=
  fit w .signed64 x

/-- A result that has to be a size. -/
def unsigned (w : Width) (x : Int) : Guarded Nat := do
  return (← fit w .unsigned64 x).toNat

theorem fit_machine (word : Word) (x : Int) :
    fit .machine word x = (word.fit x).mapError fun o => .overflow o.word := by
  rw [fit, Word.fit]
  by_cases h : word.Holds x
  · rw [if_pos (show Width.machine.Holds word x from h), if_pos h]
    rfl
  · rw [if_neg (show ¬ Width.machine.Holds word x from h), if_neg h]
    rfl

theorem signed_eq
    (h : w = .machine → -9223372036854775808 ≤ x ∧ x ≤ 9223372036854775807) :
    signed w x = .ok x := by
  cases w with
  | machine => exact if_pos (h rfl)
  | unbounded => rfl

theorem unsigned_eq (hlow : 0 ≤ x) (hhigh : w = .machine → x < 18446744073709551616) :
    unsigned w x = .ok x.toNat := by
  have hfit : fit w .unsigned64 x = .ok x := by
    cases w with
    | machine => exact if_pos ⟨hlow, Int.le_sub_one_of_lt (hhigh rfl)⟩
    | unbounded => exact if_pos hlow
  rw [unsigned, hfit]
  rfl

theorem unsigned_natCast {n : Nat} (h : w = .machine → n < 18446744073709551616) :
    unsigned w n = .ok n :=
  unsigned_eq (Int.natCast_nonneg n) fun hw => Int.ofNat_lt.mpr (h hw)

/-! ## Positions and counters -/

/-- The difference of two numbers. -/
def minus (a b : Nat) : Guarded Nat :=
  if b ≤ a then return a - b else throw .belowZero

/-- The item at a position. -/
def item (xs : List α) (i : Nat) : Guarded α :=
  match xs[i]? with
  | some x => return x
  | none => throw .outside

/-- Puts an item at a position. -/
def put (xs : List α) (i : Nat) (x : α) : Guarded (List α) :=
  if i < xs.length then return xs.set i x else throw .outside

/-- The items from position `a` up to position `b`. -/
def slice (xs : List α) (a b : Nat) : Guarded (List α) :=
  if a ≤ b ∧ b ≤ xs.length then return (xs.take b).drop a else throw .outside

/-- A computation with nothing to guard. -/
def plain {ε : Type} (y : Except ε α) : ExceptT ε Guarded α :=
  ExceptT.mk (.ok y)

theorem minus_eq {a b : Nat} (h : b ≤ a) : minus a b = .ok (a - b) :=
  if_pos h

theorem item_append (before after : List α) (x : α) :
    item (before ++ x :: after) before.length = .ok x := by
  rw [item, List.getElem?_append_right (Nat.le_refl _), Nat.sub_self]
  rfl

theorem put_append (before after : List α) (x y : α) :
    put (before ++ x :: after) before.length y = .ok (before ++ y :: after) := by
  have hlength : before.length < (before ++ x :: after).length := by simp
  rw [put, if_pos hlength, List.set_append_right _ _ (Nat.le_refl _), Nat.sub_self]
  rfl

/-- A part of a list, with the part before it and the part after it. -/
theorem slice_append (before inside after : List α) {b : Nat}
    (hb : b = before.length + inside.length) :
    slice (before ++ (inside ++ after)) before.length b = .ok inside := by
  subst hb
  have hbounds : before.length ≤ before.length + inside.length ∧
      before.length + inside.length ≤ (before ++ (inside ++ after)).length := by
    simp only [List.length_append]
    omega
  rw [slice, if_pos hbounds, List.take_length_add_append, List.take_left', List.drop_left']
  all_goals rfl

theorem slice_from (before after : List α) :
    slice (before ++ after) before.length (before ++ after).length = .ok after := by
  have hslice := slice_append before after [] (b := (before ++ after).length) (by simp)
  rwa [List.append_nil] at hslice

theorem slice_upTo (before after : List α) :
    slice (before ++ after) 0 before.length = .ok before :=
  slice_append [] before after (by simp)

/-- What comes after an item. -/
theorem slice_after (before after : List α) (x : α) :
    slice (before ++ x :: after) (before.length + 1) (before ++ x :: after).length =
      .ok after := by
  have hslice := slice_from (before ++ [x]) after
  rwa [List.append_assoc, List.length_append] at hslice

/-- What comes between two items. -/
theorem slice_between (before inside after : List α) (x y : α) :
    slice (before ++ x :: (inside ++ y :: after)) (before.length + 1)
      (before.length + 1 + inside.length) = .ok inside := by
  have hslice := slice_append (before ++ [x]) inside (y :: after)
    (b := before.length + 1 + inside.length) (by rw [List.length_append]; rfl)
  rwa [List.append_assoc, List.length_append] at hslice

end Guarded

/-! ## Guarded and plain -/

/-- A guarded computation that does what `y` does. -/
def Follows {ε α : Type} (x : ExceptT ε Guarded α) (y : Except ε α) : Prop :=
  x.run = .ok y

namespace Follows

variable {ε ε' α β : Type} {x : ExceptT ε Guarded α} {y : Except ε α} {a : α}
  {f : α → ExceptT ε Guarded β} {g : α → Except ε β}

theorem pure (a : α) : Follows (pure a : ExceptT ε Guarded α) (pure a) := rfl

theorem throw (e : ε) : Follows (throw e : ExceptT ε Guarded α) (throw e) := rfl

theorem plain (y : Except ε α) : Follows (Guarded.plain y) y := rfl

theorem bind (hx : Follows x y) (hf : ∀ a, y = .ok a → Follows (f a) (g a)) :
    Follows (x >>= f) (y >>= g) := by
  have hrun : (x >>= f).run = x.run >>= ExceptT.bindCont f := rfl
  rw [Follows, hrun, hx]
  cases y with
  | error e => rfl
  | ok a => exact hf a rfl

/-- A step that is no computation of its own in `z`. -/
theorem step {x : Guarded α} {z : Except ε β} (hx : x = .ok a) (hf : Follows (f a) z) :
    Follows (liftM x >>= f) z := by
  subst hx
  exact hf

end Follows

/-- A computation that gives `a`, or gives up for a fault that is excused. -/
def GivesUnless {α : Type} (excused : Fault → Prop) (x : Guarded α) (a : α) : Prop :=
  x = .ok a ∨ ∃ fault, excused fault ∧ x = .error fault

namespace GivesUnless

variable {α β : Type} {excused : Fault → Prop} {x : Guarded α} {a : α} {f : α → Guarded β} {b : β}

theorem of_eq (h : x = .ok a) : GivesUnless excused x a := .inl h

theorem bind (hx : GivesUnless excused x a) (hf : GivesUnless excused (f a) b) :
    GivesUnless excused (x >>= f) b := by
  rcases hx with rfl | ⟨fault, hfault, rfl⟩
  · exact hf
  · exact .inr ⟨fault, hfault, rfl⟩

end GivesUnless

/-- A guarded computation that does what `y` does, or gives up for a fault that is excused. -/
def FollowsUnless {ε α : Type} (excused : Fault → Prop) (x : ExceptT ε Guarded α)
    (y : Except ε α) : Prop :=
  GivesUnless excused x.run y

namespace FollowsUnless

variable {ε α β : Type} {excused : Fault → Prop} {x : ExceptT ε Guarded α} {y : Except ε α} {a : α}
  {f : α → ExceptT ε Guarded β} {g : α → Except ε β}

theorem of_follows (h : Follows x y) : FollowsUnless excused x y := .of_eq h

theorem bind (hx : FollowsUnless excused x y)
    (hf : ∀ a, y = .ok a → FollowsUnless excused (f a) (g a)) :
    FollowsUnless excused (x >>= f) (y >>= g) := by
  refine GivesUnless.bind hx ?_
  cases y with
  | error e => exact .of_eq rfl
  | ok a => exact hf a rfl

theorem map (hx : FollowsUnless excused x y) (f : α → β) :
    FollowsUnless excused (x >>= fun a => Pure.pure (f a)) (f <$> y) := by
  refine GivesUnless.bind hx ?_
  cases y with
  | error e => exact .of_eq rfl
  | ok a => exact .of_eq rfl

/-- A step that is no computation of its own in `z`. -/
theorem step {x : Guarded α} {z : Except ε β} (hx : GivesUnless excused x a)
    (hf : FollowsUnless excused (f a) z) : FollowsUnless excused (liftM x >>= f) z := by
  rcases hx with rfl | ⟨fault, hfault, rfl⟩
  · exact hf
  · exact .inr ⟨fault, hfault, rfl⟩

end FollowsUnless

/-- A guarded computation that does what `y` does, unless something undefined comes up in it.
What it gives has the property `Q`. -/
def Agrees {ε α : Type} (x : ExceptT ε Guarded α) (y : Except ε α) (Q : α → Prop) : Prop :=
  x.run = .error .undefined ∨ x.run = .ok y ∧ ∀ a, y = .ok a → Q a

namespace Agrees

variable {ε α β : Type} {x : ExceptT ε Guarded α} {y : Except ε α} {a : α} {Q : α → Prop}
  {R : β → Prop} {f : α → ExceptT ε Guarded β} {g : α → Except ε β}

theorem pure (h : Q a) : Agrees (pure a : ExceptT ε Guarded α) (pure a) Q :=
  .inr ⟨rfl, fun _ hb => Except.ok.inj hb ▸ h⟩

theorem throw (e : ε) : Agrees (throw e : ExceptT ε Guarded α) (throw e) Q :=
  .inr ⟨rfl, nofun⟩

/-- A computation that touches no cells. -/
theorem lift (h : ∀ a, y = .ok a → Q a) : Agrees (ExceptT.mk (.ok y)) y Q :=
  .inr ⟨rfl, h⟩

theorem bind (hx : Agrees x y Q) (hf : ∀ a, Q a → Agrees (f a) (g a) R) :
    Agrees (x >>= f) (y >>= g) R := by
  have hrun : (x >>= f).run = x.run >>= ExceptT.bindCont f := rfl
  rcases hx with hx | ⟨hx, hQ⟩
  · exact .inl (by rw [hrun, hx]; rfl)
  · cases y with
    | error e => exact .inr ⟨by rw [hrun, hx]; rfl, nofun⟩
    | ok a =>
      have hstep : (x >>= f).run = (f a).run := by rw [hrun, hx]; rfl
      rw [Agrees, hstep]
      exact hf a (hQ a rfl)

theorem of_follows (h : Follows x y) (hQ : ∀ a, y = .ok a → Q a) : Agrees x y Q :=
  .inr ⟨h, hQ⟩

/-- A step that is no computation of its own in `z`. -/
theorem step {x : Guarded α} {z : Except ε β} (hx : x = .ok a) (hf : Agrees (f a) z R) :
    Agrees (liftM x >>= f) z R := by
  subst hx
  exact hf

end Agrees

/-! ## With a state -/

/-- A computation that needs no state. -/
def stateless {ε σ α : Type} (x : ExceptT ε Guarded α) : ExceptT ε (StateT σ Guarded) α :=
  fun s => do return (← x.run, s)

/-- A computation that touches no cells. -/
def unguarded {ε σ α : Type} (y : ExceptT ε (StateM σ) α) : ExceptT ε (StateT σ Guarded) α :=
  fun s => .ok (y s)

/-- A guarded computation that does what `y` does to a state, unless something undefined comes up
in it.  It keeps `I`, and what it gives has the property `Q`. -/
def Keeps {ε σ α : Type} (I : σ → Prop) (x : ExceptT ε (StateT σ Guarded) α)
    (y : ExceptT ε (StateM σ) α) (Q : α → Prop) : Prop :=
  ∀ s, I s → x s = .error .undefined ∨
    x s = .ok (y s) ∧ I (y s).2 ∧ ∀ a, (y s).1 = .ok a → Q a

namespace Keeps

variable {ε σ α β : Type} {I : σ → Prop} {x : ExceptT ε (StateT σ Guarded) α}
  {y : ExceptT ε (StateM σ) α} {a : α} {Q : α → Prop} {R : β → Prop}
  {f : α → ExceptT ε (StateT σ Guarded) β} {g : α → ExceptT ε (StateM σ) β}

theorem pure (h : Q a) : Keeps I (pure a : ExceptT ε (StateT σ Guarded) α) (pure a) Q :=
  fun _ hs => .inr ⟨rfl, hs, fun _ hb => Except.ok.inj hb ▸ h⟩

theorem throw (e : ε) : Keeps I (throw e : ExceptT ε (StateT σ Guarded) α) (throw e) Q :=
  fun _ hs => .inr ⟨rfl, hs, nofun⟩

theorem bind (hx : Keeps I x y Q) (hf : ∀ a, Q a → Keeps I (f a) (g a) R) :
    Keeps I (x >>= f) (y >>= g) R := by
  intro s hs
  have hrun : (x >>= f) s = x s >>= fun r => ExceptT.bindCont f r.1 r.2 := rfl
  rcases hx s hs with hx | ⟨hx, hI, hQ⟩
  · exact .inl (by rw [hrun, hx]; rfl)
  · cases hy : y s with
    | mk r t =>
      rw [hy] at hx hI hQ
      cases r with
      | error e =>
        rw [bind_of_error hy, hrun, hx]
        exact .inr ⟨rfl, hI, nofun⟩
      | ok a =>
        have hstep : (x >>= f) s = f a t := by rw [hrun, hx]; rfl
        rw [bind_of_ok hy, hstep]
        exact hf a (hQ a rfl) t hI

theorem stateless {x : ExceptT ε Guarded α} {y : Except ε α} (h : Agrees x y Q) :
    Keeps I (MatrixLang.stateless x) (fun s => (y, s)) Q := by
  intro s hs
  have hrun : MatrixLang.stateless x s = x.run >>= fun r => Except.ok (r, s) := rfl
  rw [hrun]
  rcases h with h | ⟨h, hQ⟩
  · exact .inl (by rw [h]; rfl)
  · exact .inr ⟨by rw [h]; rfl, hs, hQ⟩

theorem unguarded (h : ∀ s, I s → I (y s).2 ∧ ∀ a, (y s).1 = .ok a → Q a) :
    Keeps I (MatrixLang.unguarded y) y Q :=
  fun s hs => .inr ⟨rfl, h s hs⟩

/-- A step that is no computation of its own in `z`. -/
theorem step {x : Guarded α} {z : ExceptT ε (StateM σ) β} (hx : x = .ok a)
    (hf : Keeps I (f a) z R) : Keeps I (liftM x >>= f) z R := by
  subst hx
  exact hf

end Keeps

end MatrixLang
