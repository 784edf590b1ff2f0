import MatrixLang.Proofs.Except
import MatrixLang.Program

/-! # Lines as tags

The lines in an outline are tags that compiling only copies: it never computes with them.  So an
outline whose lines are changed by any function `g` is compiled to the statements of the
original with their lines changed by `g`, or fails for the same reason in the changed line
(`retags_statementsFrom`).

`Retags` compares two computations in this way, and is put together in their order.
-/

namespace MatrixLang

/-! ## Changing lines -/

variable {g : Nat → Nat}

/-- A failure with its line changed. -/
def Failure.mapLine (g : Nat → Nat) (failure : Failure) : Failure :=
  { failure with line := g failure.line }

/-- A segment with its line changed. -/
def Segment.mapLine (g : Nat → Nat) : Segment → Segment
  | .text line source => .text (g line) source
  | .opening line => .opening (g line)
  | .closing line => .closing (g line)

/-- An outline with all its lines changed. -/
def Outline.mapLines (g : Nat → Nat) : Outline → Outline
  | .done => .done
  | .text line source rest => .text (g line) source (rest.mapLines g)
  | .block line inside rest => .block (g line) (inside.mapLines g) (rest.mapLines g)

theorem Outline.startsWithBlock_mapLines (o : Outline) :
    (o.mapLines g).startsWithBlock = o.startsWithBlock := by
  cases o <;> rfl

namespace Statement

mutual

/-- A statement with all its lines changed. -/
def mapLines (g : Nat → Nat) : Statement → Statement
  | .assign line target value => .assign (g line) target value
  | .assignIndex line target index value => .assignIndex (g line) target index value
  | .assignBlock line target row col value => .assignBlock (g line) target row col value
  | .eval line value => .eval (g line) value
  | .choose line branches otherwise =>
    .choose (g line) (mapLinesOfBranches g branches)
      (match otherwise with
      | none => none
      | some body => some (mapLinesOfBody g body))
  | .whileLoop line condition body => .whileLoop (g line) condition (mapLinesOfBody g body)
  | .forLoop line counter start limit direction body =>
    .forLoop (g line) counter start limit direction (mapLinesOfBody g body)
  | .block line body => .block (g line) (mapLinesOfBody g body)

/-- Statements with all their lines changed. -/
def mapLinesOfBody (g : Nat → Nat) : List Statement → List Statement
  | [] => []
  | s :: ss => s.mapLines g :: mapLinesOfBody g ss

/-- Branches with all their lines changed. -/
def mapLinesOfBranches (g : Nat → Nat) : List Branch → List Branch
  | [] => []
  | .mk condition body :: branches =>
    .mk condition (mapLinesOfBody g body) :: mapLinesOfBranches g branches

end

theorem mapLinesOfBody_eq_map (body : List Statement) :
    mapLinesOfBody g body = body.map (mapLines g) := by
  induction body with
  | nil => rfl
  | cons s body ih => rw [mapLinesOfBody, ih, List.map_cons]

theorem mapLinesOfBody_append (body more : List Statement) :
    mapLinesOfBody g (body ++ more) = mapLinesOfBody g body ++ mapLinesOfBody g more := by
  simp only [mapLinesOfBody_eq_map, List.map_append]

theorem mapLinesOfBranches_append (branches more : List Branch) :
    mapLinesOfBranches g (branches ++ more) =
      mapLinesOfBranches g branches ++ mapLinesOfBranches g more := by
  induction branches with
  | nil => rfl
  | cons branch branches ih =>
    obtain ⟨condition, body⟩ := branch
    rw [List.cons_append, mapLinesOfBranches, mapLinesOfBranches, ih, List.cons_append]

mutual

/-- The names in a statement are not bound to its lines. -/
theorem names_mapLines (s : Statement) : (s.mapLines g).names = s.names := by
  cases s with
  | choose line branches otherwise =>
    cases otherwise with
    | none => rw [mapLines, names, names, namesOfBranches_mapLines]
    | some body => rw [mapLines, names, names, namesOfBranches_mapLines, namesOfBody_mapLines]
  | whileLoop line condition body => rw [mapLines, names, names, namesOfBody_mapLines]
  | forLoop line counter start limit direction body =>
    rw [mapLines, names, names, namesOfBody_mapLines]
  | block line body => rw [mapLines, names, names, namesOfBody_mapLines]
  | _ => rfl

theorem namesOfBody_mapLines (body : List Statement) :
    namesOfBody (mapLinesOfBody g body) = namesOfBody body := by
  cases body with
  | nil => rfl
  | cons s body =>
    rw [mapLinesOfBody, namesOfBody, namesOfBody, names_mapLines, namesOfBody_mapLines]

theorem namesOfBranches_mapLines (branches : List Branch) :
    namesOfBranches (mapLinesOfBranches g branches) = namesOfBranches branches := by
  cases branches with
  | nil => rfl
  | cons branch branches =>
    obtain ⟨condition, body⟩ := branch
    rw [mapLinesOfBranches, namesOfBranches, namesOfBranches, namesOfBody_mapLines,
      namesOfBranches_mapLines]

end

end Statement

namespace Program

/-- A clause with the lines of its body changed. -/
def Clause.mapLines (g : Nat → Nat) : Clause → Clause
  | .inline condition body => .inline condition (body.mapLines g)
  | .head condition => .head condition

/-- What is open with all its lines changed. -/
def Open.mapLines (g : Nat → Nat) : Open → Open
  | .nothing => .nothing
  | .whileBody line condition => .whileBody (g line) condition
  | .forBody line head => .forBody (g line) head
  | .chain line branches => .chain (g line) (Statement.mapLinesOfBranches g branches)
  | .branchBody line branches here condition =>
    .branchBody (g line) (Statement.mapLinesOfBranches g branches) (g here) condition
  | .elseBody line branches here =>
    .elseBody (g line) (Statement.mapLinesOfBranches g branches) (g here)

/-- What has been read, with all lines changed. -/
def mapLinesSoFar (g : Nat → Nat) (r : List Statement × Open) : List Statement × Open :=
  (Statement.mapLinesOfBody g r.1, r.2.mapLines g)

/-! ## Comparing computations -/

/-- `y` gives what `x` gives, changed by `f`, or fails as `x` does in the line changed by `g`. -/
def Retags {α β : Type} (g : Nat → Nat) (f : α → β) (x : Noted α) (y : Noted β) : Prop :=
  match x.result with
  | .ok a => y.result = .ok (f a)
  | .error failure => y.result = .error (failure.mapLine g)

namespace Retags

variable {α β γ δ : Type} {f : α → β} {k : γ → δ} {x : Noted α} {y : Noted β}
  {u : α → Noted γ} {v : β → Noted δ}

theorem pure {a : α} {b : β} (h : b = f a) : Retags g f (pure a) (pure b) := by
  rw [h]
  rfl

theorem failForm (line : Nat) (fault : FormFault) :
    Retags g f (failForm line fault) (failForm (g line) fault) := rfl

theorem bind (hx : Retags g f x y) (hu : ∀ a, Retags g k (u a) (v (f a))) :
    Retags g k (x >>= u) (y >>= v) := by
  unfold Retags at hx ⊢
  rw [Noted.result_bind, Noted.result_bind]
  cases hresult : x.result with
  | error failure =>
    rw [hresult] at hx
    rw [hx]
    rfl
  | ok a =>
    rw [hresult] at hx
    rw [hx]
    exact hu a

theorem note {m n : Note} (h : Retags g f x y) :
    Retags g f (do Noted.note m; x) (do Noted.note n; y) := by
  unfold Retags
  rw [Noted.result_bind, Noted.result_bind]
  exact h

theorem ok {a : α} (h : Retags g f x y) (hx : x.result = .ok a) : y.result = .ok (f a) := by
  unfold Retags at h
  rwa [hx] at h

theorem atLine (line : Nat) (x : Except Error α) :
    Retags g id (Noted.atLine line x) (Noted.atLine (g line) x) := by
  cases x <;> rfl

end Retags

/-! ## Parts of statements -/

theorem retags_expression (line : Nat) (ts : List Token) :
    Retags g id (expression line ts) (expression (g line) ts) := by
  refine (Retags.atLine line _).bind fun prepared => .note ?_
  refine (Retags.atLine line _).bind fun code => .note ?_
  exact .atLine line _

theorem retags_assignment (line : Nat) (target value : List Token) :
    Retags g (Statement.mapLines g) (assignment line target value)
      (assignment (g line) target value) := by
  unfold assignment
  split
  · exact .failForm _ _
  split
  · split
    · exact .failForm _ _
    · exact (retags_expression line _).bind fun _ => .pure rfl
    · refine (retags_expression line _).bind fun _ => ?_
      exact (retags_expression line _).bind fun _ => .pure rfl
    · refine (retags_expression line _).bind fun _ => (retags_expression line _).bind fun _ => ?_
      exact (retags_expression line _).bind fun _ => .pure rfl
  · exact .failForm _ _

theorem retags_simple (line : Nat) (ts : List Token) :
    Retags g (Statement.mapLines g) (simple line ts) (simple (g line) ts) := by
  unfold simple
  split
  · exact retags_assignment line _ _
  · exact (retags_expression line _).bind fun _ => .pure rfl

theorem retags_clause (line : Nat) (braced : Bool) (ts : List Token) :
    Retags g (Clause.mapLines g) (clause line braced ts) (clause (g line) braced ts) := by
  unfold clause
  split
  · exact .failForm _ _
  split
  · refine (retags_expression line _).bind fun _ => ?_
    exact (retags_simple line _).bind fun _ => .pure rfl
  · exact (retags_expression line _).bind fun _ => .pure rfl

theorem retags_forHead (line : Nat) (ts : List Token) :
    Retags g id (forHead line ts) (forHead (g line) ts) := by
  unfold forHead
  split
  · split
    · exact .failForm _ _
    split
    · exact .failForm _ _
    · refine (retags_expression line _).bind fun _ => ?_
      exact (retags_expression line _).bind fun _ => .pure rfl
  · exact .failForm _ _
  · exact .failForm _ _

/-! ## Statements -/

theorem retags_finish (s : Statement) :
    Retags g (mapLinesSoFar g) (finish s) (finish (s.mapLines g)) :=
  .note (.pure rfl)

theorem retags_branch (line : Nat) (branches : List Branch) (here : Nat) (braced : Bool)
    (ts : List Token) : Retags g (mapLinesSoFar g) (branch line branches here braced ts)
      (branch (g line) (Statement.mapLinesOfBranches g branches) (g here) braced ts) := by
  refine (retags_clause here braced ts).bind fun c => ?_
  cases c with
  | inline condition body =>
    refine .pure ?_
    rw [mapLinesSoFar, Open.mapLines, Statement.mapLinesOfBranches_append]
    rfl
  | head condition => exact .pure rfl

theorem retags_start (line : Nat) (braced : Bool) (ts : List Token) :
    Retags g (mapLinesSoFar g) (start line braced ts) (start (g line) braced ts) := by
  unfold start
  split
  · exact retags_branch line [] line braced _
  · refine (retags_clause line braced _).bind fun c => ?_
    cases c with
    | inline condition body => exact retags_finish (.whileLoop line condition [body])
    | head condition => exact .pure rfl
  · exact (retags_forHead line _).bind fun _ => .pure rfl
  · exact .failForm _ _
  · exact .failForm _ _
  · exact (retags_simple line _).bind retags_finish

theorem retags_settle (opened : Open) :
    Retags g (mapLinesSoFar g) opened.settle (opened.mapLines g).settle := by
  cases opened with
  | nothing => exact .pure rfl
  | chain line branches => exact retags_finish (.choose line branches none)
  | _ => exact .failForm _ _

theorem retags_continueIf (line : Nat) (branches : List Branch) (here : Nat) (braced : Bool)
    (ts : List Token) : Retags g (mapLinesSoFar g) (continueIf line branches here braced ts)
      (continueIf (g line) (Statement.mapLinesOfBranches g branches) (g here) braced ts) := by
  unfold continueIf
  split
  · exact retags_branch line branches here braced _
  · exact retags_branch line branches here braced _
  · exact .pure rfl
  · refine (retags_simple here _).bind fun body => ?_
    exact retags_finish (.choose line branches (some [body]))
  · refine (retags_finish (.choose line branches none)).bind fun closed => ?_
    refine (retags_start here braced _).bind fun ready => .pure ?_
    rw [mapLinesSoFar, Statement.mapLinesOfBody_append]

theorem retags_read (opened : Open) (line : Nat) (source : String) (braced : Bool) :
    Retags g (mapLinesSoFar g) (opened.read line source braced)
      ((opened.mapLines g).read (g line) source braced) := by
  cases opened with
  | nothing => exact (Retags.atLine line _).bind fun ts => retags_start line braced ts
  | chain first branches =>
    exact (Retags.atLine line _).bind fun ts => retags_continueIf first branches line braced ts
  | _ => exact .failForm _ _

theorem retags_enter (opened : Open) :
    Retags g (mapLinesSoFar g) opened.enter (opened.mapLines g).enter := by
  cases opened with
  | chain line branches => exact retags_finish (.choose line branches none)
  | _ => exact .pure rfl

theorem retags_close (opened : Open) (line : Nat) (body : List Statement) :
    Retags g (mapLinesSoFar g) (opened.close line body)
      ((opened.mapLines g).close (g line) (Statement.mapLinesOfBody g body)) := by
  cases opened with
  | nothing => exact .pure rfl
  | whileBody first condition => exact retags_finish (.whileLoop first condition body)
  | forBody first head =>
    exact retags_finish
      (.forLoop first head.counter head.start head.limit head.direction body)
  | branchBody first branches here condition =>
    refine .pure ?_
    rw [mapLinesSoFar, Open.mapLines, Statement.mapLinesOfBranches_append]
    rfl
  | elseBody first branches here => exact retags_finish (.choose first branches (some body))
  | chain first branches =>
    refine (retags_finish (.choose first branches none)).bind fun closed => .pure ?_
    rw [mapLinesSoFar, Statement.mapLinesOfBody_append]
    rfl

/-- Compiling copies lines. -/
theorem retags_statementsFrom (opened : Open) (o : Outline) :
    Retags g (Statement.mapLinesOfBody g) (statementsFrom opened o)
      (statementsFrom (opened.mapLines g) (o.mapLines g)) := by
  induction o generalizing opened with
  | done => exact (retags_settle opened).bind fun _ => .pure rfl
  | text line source rest ih =>
    rw [Outline.mapLines, statementsFrom, statementsFrom, Outline.startsWithBlock_mapLines]
    refine (retags_read opened line source _).bind fun r => (ih r.2).bind fun ss => .pure ?_
    rw [Statement.mapLinesOfBody_append]
  | block line inside rest ihinside ihrest =>
    rw [Outline.mapLines, statementsFrom, statementsFrom]
    refine (retags_enter opened).bind fun r => (ihinside .nothing).bind fun body => ?_
    refine (retags_close r.2 line body).bind fun c => (ihrest c.2).bind fun ss => .pure ?_
    rw [Statement.mapLinesOfBody_append, Statement.mapLinesOfBody_append]

theorem result_mapLines {opened : Open} {o : Outline} {ss : List Statement} (g : Nat → Nat)
    (h : (statementsFrom opened o).result = .ok ss) :
    (statementsFrom (opened.mapLines g) (o.mapLines g)).result =
      .ok (Statement.mapLinesOfBody g ss) :=
  (retags_statementsFrom opened o).ok h

end Program

end MatrixLang
