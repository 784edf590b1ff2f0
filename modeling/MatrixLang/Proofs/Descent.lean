import MatrixLang.Proofs.Braces
import MatrixLang.Proofs.Clauses
import MatrixLang.Proofs.Nesting
import MatrixLang.Proofs.StageSeparation

/-! # Braces and the reader

Compiling fails for unbalanced braces exactly if the braces outside of comments do not balance, and
then in the line of the fault (`braces_checked_exactly`).  After the check of braces a program is
compiled from its outline, in which a block is one thing, and no brace can be out of place.

A program can also be read directly off its segments: statements up to a closing brace are read by
a function that calls itself at each opening one, and the parts of statements look at the next
segment to see whether it is theirs.  Such a reader takes an opening brace for the start of a body
in one place and for a block of its own in another, and it can get out of step with the braces in
two ways: the segments end inside a block, or a closing brace comes outside of all blocks.  Neither
happens to segments that pass the check, whatever their texts are: the reader then gives what
compiling the outline gives (`read_eq`).
-/

namespace MatrixLang.Descent

open Program

/-! ## The reader -/

/-- Why the reader cannot go on. -/
inductive Halt where
  /-- A statement is not well formed. -/
  | failure (failure : Failure)
  /-- The segments end inside a block. -/
  | endInside
  /-- A closing brace in a line is outside of all blocks. -/
  | closingOutside (line : Nat)
  | outOfFuel
deriving Repr

/-- Reads something, and gives it with the segments that are left. -/
abbrev Reader (α : Type) := List Segment → Except Halt (α × List Segment)

/-- A computation that reads no segments. -/
def lift {α : Type} (x : Noted α) : Except Halt α :=
  x.result.mapError .failure

/-- Whether an opening brace comes next. -/
def opensNext : List Segment → Bool
  | .opening _ :: _ => true
  | _ => false

/-- Reads a body in braces, which has to come next; `block` reads what is in the braces and the
closing one. -/
def body (block : Reader (List Statement)) (line : Nat) : Reader (List Statement)
  | .opening _ :: rest => block rest
  | _ => lift (failForm line .missingBody)

/-- Reads a condition with what it guards. -/
def guarded (block : Reader (List Statement)) (line : Nat) (ts : List Token) : Reader Branch :=
  fun segments => do
    match ← lift (clause line (opensNext segments) ts) with
    | .inline condition s => return (.mk condition [s], segments)
    | .head condition =>
      let (inside, rest) ← body block line segments
      return (.mk condition inside, rest)

/-- Reads what may follow the branches of an `if`. -/
def chain (block : Reader (List Statement)) : Nat → Nat → List Branch → Reader Statement
  | 0, _, _, _ => throw .outOfFuel
  | fuel + 1, line, branches, .text here source :: rest => do
    match ← lift (Noted.atLine here (Token.scan source)) with
    | .keyword .elseifWord :: ts =>
      let (b, rest) ← guarded block here ts rest
      chain block fuel line (branches ++ [b]) rest
    | .keyword .elseWord :: .keyword .ifWord :: ts =>
      let (b, rest) ← guarded block here ts rest
      chain block fuel line (branches ++ [b]) rest
    | [.keyword .elseWord] =>
      let (inside, rest) ← body block here rest
      return (.choose line branches (some inside), rest)
    | .keyword .elseWord :: ts =>
      let s ← lift (simple here ts)
      return (.choose line branches (some [s]), rest)
    | _ => return (.choose line branches none, .text here source :: rest)
  | _ + 1, line, branches, segments => return (.choose line branches none, segments)

/-- Reads a statement that starts with a text. -/
def statement (block : Reader (List Statement)) (fuel line : Nat) (ts : List Token) :
    Reader Statement := fun segments => do
  match ts with
  | .keyword .ifWord :: ts =>
    let (b, rest) ← guarded block line ts segments
    chain block fuel line [b] rest
  | .keyword .whileWord :: ts =>
    let (b, rest) ← guarded block line ts segments
    return (.whileLoop line b.condition b.body, rest)
  | .keyword .forWord :: ts =>
    let head ← lift (forHead line ts)
    let (inside, rest) ← body block line segments
    return (.forLoop line head.counter head.start head.limit head.direction inside, rest)
  | .keyword .elseifWord :: _ => lift (failForm line (.noMatchingIf .elseifWord))
  | .keyword .elseWord :: _ => lift (failForm line (.noMatchingIf .elseWord))
  | ts => return (← lift (simple line ts), segments)

/-- Reads statements up to the end, or up to the closing brace if they are `nested` in a block. -/
def statements : Nat → Bool → Reader (List Statement)
  | 0, _, _ => throw .outOfFuel
  | _ + 1, nested, [] => if nested then throw .endInside else return ([], [])
  | _ + 1, nested, .closing line :: rest =>
    if nested then return ([], rest) else throw (.closingOutside line)
  | fuel + 1, nested, .opening line :: rest => do
    let (inside, rest) ← statements fuel true rest
    let (ss, rest) ← statements fuel nested rest
    return (.block line inside :: ss, rest)
  | fuel + 1, nested, .text line source :: rest => do
    let ts ← lift (Noted.atLine line (Token.scan source))
    let (s, rest) ← statement (statements fuel true) fuel line ts rest
    let (ss, rest) ← statements fuel nested rest
    return (s :: ss, rest)

/-- Reads the statements of a whole program. -/
def read (segments : List Segment) : Except Halt (List Statement) := do
  let (ss, _) ← statements (segments.length + 1) false segments
  return ss

/-! ## What a reader should give -/

section

variable {α β : Type}

@[simp] theorem lift_pure (a : α) : lift (pure a : Noted α) = .ok a := rfl

@[simp] theorem lift_bind (x : Noted α) (f : α → Noted β) :
    lift (x >>= f) = lift x >>= fun a => lift (f a) := by
  unfold lift
  rw [Noted.result_bind]
  cases x.result <;> rfl

theorem lift_atLine_ok (line : Nat) (a : α) : lift (Noted.atLine line (.ok a)) = .ok a := rfl

end

/-- What compiling gives, with the segments that are left after it. -/
def outcome (after : List Segment) (x : Noted (List Statement)) :
    Except Halt (List Statement × List Segment) :=
  (·, after) <$> lift x

/-- How the statements of a block or a program end: where `nested` they end at a closing brace,
which is then passed. -/
inductive Ends : Bool → List Segment → List Segment → Prop where
  | outside : Ends false [] []
  | inside (line : Nat) (rest : List Segment) : Ends true (.closing line :: rest) rest

/-- A reader that gives the statements of every outline of less than `n` segments. -/
def Reads (k : Reader (List Statement)) (n : Nat) (tail after : List Segment) : Prop :=
  ∀ {segments : List Segment} {o : Outline}, Nests segments o → segments.length < n →
    k (segments ++ tail) = outcome after (statementsFrom .nothing o)

@[simp] theorem outcome_pure (after : List Segment) (ss : List Statement) :
    outcome after (pure ss) = .ok (ss, after) := rfl

@[simp] theorem outcome_bind {α : Type} (after : List Segment) (x : Noted α)
    (f : α → Noted (List Statement)) :
    outcome after (x >>= f) = lift x >>= fun a => outcome after (f a) := by
  unfold outcome
  rw [lift_bind]
  cases lift x <;> rfl

theorem outcome_then {α : Type} (after : List Segment) (x : Noted (List Statement))
    (f : List Statement × List Segment → Except Halt α) :
    outcome after x >>= f = lift x >>= fun ss => f (ss, after) := by
  unfold outcome
  cases lift x <;> rfl

/-- Nothing is put before what compiling gives. -/
theorem outcome_nil_append (after : List Segment) (x : Noted (List Statement)) :
    outcome after (do return [] ++ (← x)) = outcome after x := by
  rw [outcome_bind, outcome]
  cases lift x <;> rfl

/-- A reader for the inside of blocks and one for what comes after a statement, both of which give
what they should on less than `n` segments. -/
structure Around (block k : Reader (List Statement)) (n : Nat) (nested : Bool)
    (tail after : List Segment) : Prop where
  inside : ∀ last rest, Reads block n (.closing last :: rest) rest
  following : Reads k n tail after
  ends : Ends nested tail after

section

variable {block k : Reader (List Statement)} {nested : Bool} {n : Nat}
  {tail after segments : List Segment} {o : Outline}

theorem opensNext_append (h : Nests segments o) (hends : Ends nested tail after) :
    opensNext (segments ++ tail) = o.startsWithBlock := by
  cases h with
  | done => cases hends <;> rfl
  | text h => rfl
  | block hinside hrest => rfl

/-! ## Bodies -/

/-- What is open needs a body, and without it fails in a line. -/
structure Awaits (opened : Open) (line : Nat) : Prop where
  settle : opened.settle = failForm line .missingBody
  read : ∀ here source braced, opened.read here source braced = failForm line .missingBody
  enter : opened.enter = return ([], opened)

/-- A body is read as the block that comes next. -/
theorem body_bind {opened : Open} {line : Nat} (hopened : Awaits opened line)
    (hr : Around block k n nested tail after) (cont : List Statement → Reader (List Statement))
    (hcont : ∀ {more : List Segment} {p : Outline} (here : Nat) (inside : List Statement),
      Nests more p → more.length < segments.length → cont inside (more ++ tail) =
        outcome after (do
          let (closed, next) ← opened.close here inside
          return closed ++ (← statementsFrom next p)))
    (h : Nests segments o) (hn : segments.length ≤ n) :
    (do let (inside, rest) ← body block line (segments ++ tail); cont inside rest) =
      outcome after (statementsFrom opened o) := by
  cases h with
  | done =>
    rw [statementsFrom, outcome_bind, hopened.settle]
    cases hr.ends <;> rfl
  | text h =>
    rw [statementsFrom, outcome_bind, hopened.read]
    rfl
  | @block here last segments more inside rest hinside hrest =>
    simp only [List.length_cons, List.length_append] at hn hcont
    have hinside := hr.inside last (more ++ tail) hinside (by omega)
    have hrest := fun body => hcont here body hrest (by omega)
    rw [List.cons_append, List.append_assoc, List.cons_append, body, hinside, outcome_then,
      statementsFrom, hopened.enter]
    simp [hrest]

/-- A condition is read with the body that is on its line or comes next. -/
theorem guarded_bind {opened : Expr → Open} {line : Nat}
    (hopened : ∀ condition, Awaits (opened condition) line)
    (hr : Around block k n nested tail after) (cont : Branch → Reader (List Statement))
    {inlined : Expr → Statement → Noted (List Statement)}
    (h : Nests segments o) (hn : segments.length ≤ n)
    (hinline : ∀ condition s,
      cont (.mk condition [s]) (segments ++ tail) = outcome after (inlined condition s))
    (hcont : ∀ {more : List Segment} {p : Outline} (condition : Expr) (here : Nat)
      (inside : List Statement), Nests more p → more.length < segments.length →
      cont (.mk condition inside) (more ++ tail) = outcome after (do
        let (closed, next) ← (opened condition).close here inside
        return closed ++ (← statementsFrom next p)))
    (ts : List Token) :
    (do let (b, rest) ← guarded block line ts (segments ++ tail); cont b rest) =
      outcome after (do
        match ← clause line o.startsWithBlock ts with
        | .inline condition s => inlined condition s
        | .head condition => statementsFrom (opened condition) o) := by
  rw [guarded, opensNext_append h hr.ends, outcome_bind, bind_assoc]
  congr 1
  funext c
  cases c with
  | inline condition s => exact hinline condition s
  | head condition =>
    rw [← body_bind (hopened condition) hr (fun inside => cont (.mk condition inside))
      (hcont condition) h hn]
    simp

/-! ## Statements -/

/-- A statement, and what comes after it. -/
def followed (x : Except Halt (Statement × List Segment)) (k : Reader (List Statement)) :
    Except Halt (List Statement × List Segment) := do
  let (s, rest) ← x
  let (ss, rest) ← k rest
  return (s :: ss, rest)

theorem followed_bind {α : Type} (x : Except Halt α)
    (f : α → Except Halt (Statement × List Segment)) :
    followed (x >>= f) k = x >>= fun a => followed (f a) k :=
  bind_assoc x f _

theorem followed_ok (hk : Reads k n tail after) (h : Nests segments o)
    (hn : segments.length < n) (s : Statement) :
    followed (.ok (s, segments ++ tail)) k =
      outcome after (do return s :: (← statementsFrom .nothing o)) := by
  rw [followed, ok_bind]
  show k (segments ++ tail) >>= _ = _
  rw [hk h hn, outcome_then, outcome_bind]
  rfl

/-! ### What compiling goes on with -/

/-- A finished statement is put before what comes after it. -/
theorem outcome_finish (s : Statement) :
    outcome after (do
        let (ready, next) ← finish s
        return ready ++ (← statementsFrom next o)) =
      outcome after (do return s :: (← statementsFrom .nothing o)) := by
  rw [outcome_bind]
  rfl

theorem outcome_branch (line : Nat) (branches : List Branch) (here : Nat) (braced : Bool)
    (ts : List Token) :
    outcome after (do
        let (ready, next) ← branch line branches here braced ts
        return ready ++ (← statementsFrom next o)) =
      outcome after (do
        match ← clause here braced ts with
        | .inline condition s => statementsFrom (.chain line (branches ++ [.mk condition [s]])) o
        | .head condition => statementsFrom (.branchBody line branches here condition) o) := by
  rw [branch, outcome_bind, lift_bind, bind_assoc, outcome_bind]
  congr 1
  funext c
  cases c <;> exact outcome_nil_append ..

theorem outcome_chain (h : Fresh o) (line : Nat) (branches : List Branch) :
    outcome after (statementsFrom (.chain line branches) o) =
      outcome after (do return .choose line branches none :: (← statementsFrom .nothing o)) := by
  unfold outcome lift
  rw [result_chain h, Noted.result_bind]
  cases (statementsFrom .nothing o).result <;> rfl

theorem outcome_chain_text {source : String} {ts : List Token} (hscan : Token.scan source = .ok ts)
    (line : Nat) (branches : List Branch) (here : Nat) :
    outcome after (statementsFrom (.chain line branches) (.text here source o)) =
      outcome after (do
        let (ready, next) ← continueIf line branches here o.startsWithBlock ts
        return ready ++ (← statementsFrom next o)) := by
  rw [statementsFrom, outcome_bind, Open.read, lift_bind, hscan, lift_atLine_ok, ok_bind,
    outcome_bind]

/-! ### What the reader goes on with -/

/-- A statement on one line. -/
theorem finish_followed (hk : Reads k n tail after) (h : Nests segments o)
    (hn : segments.length < n) (x : Noted Statement) (f : Statement → Statement) :
    followed (do
        let s ← lift x
        return (f s, segments ++ tail)) k =
      outcome after (do
        let (ready, next) ← (do let s ← x; finish (f s))
        return ready ++ (← statementsFrom next o)) := by
  rw [followed_bind, outcome_bind, lift_bind, bind_assoc]
  congr 1
  funext s
  exact (followed_ok hk h hn (f s)).trans (outcome_finish (f s)).symm

/-- A statement that ends with its body. -/
theorem body_followed {opened : Open} {line : Nat} {f : List Statement → Statement}
    (hopened : Awaits opened line)
    (hclose : ∀ here inside, opened.close here inside = finish (f inside))
    (hr : Around block k n nested tail after) (h : Nests segments o) (hn : segments.length ≤ n) :
    followed (do
        let (inside, rest) ← body block line (segments ++ tail)
        return (f inside, rest)) k =
      outcome after (statementsFrom opened o) := by
  rw [followed_bind]
  refine body_bind hopened hr (fun inside rest => followed (.ok (f inside, rest)) k)
    (fun here inside hmore hlen => ?_) h hn
  rw [followed_ok hr.following hmore (by omega), hclose, outcome_finish]

/-- A branch of an `if`, where what may follow it is read as it is compiled. -/
theorem branch_followed {fuel : Nat} (line : Nat) (branches : List Branch) (here : Nat)
    (hchain : ∀ {more : List Segment} {p : Outline} (b : Branch), Nests more p →
      more.length ≤ segments.length →
      followed (chain block fuel line (branches ++ [b]) (more ++ tail)) k =
        outcome after (statementsFrom (.chain line (branches ++ [b])) p))
    (hr : Around block k n nested tail after) (h : Nests segments o) (hn : segments.length ≤ n)
    (ts : List Token) :
    followed (do
        let (b, rest) ← guarded block here ts (segments ++ tail)
        chain block fuel line (branches ++ [b]) rest) k =
      outcome after (do
        let (ready, next) ← branch line branches here o.startsWithBlock ts
        return ready ++ (← statementsFrom next o)) := by
  rw [outcome_branch, followed_bind]
  refine guarded_bind (fun _ => ⟨rfl, fun _ _ _ => rfl, rfl⟩) hr
    (fun b rest => followed (chain block fuel line (branches ++ [b]) rest) k) h hn
    (fun condition s => hchain _ h (Nat.le_refl _)) ?_ ts
  intro more p condition here inside hmore hlen
  rw [hchain _ hmore (Nat.le_of_lt hlen), Open.close]
  exact (outcome_nil_append ..).symm

/-- The rest of an `if` is read as it is compiled. -/
theorem chain_followed (hr : Around block k n nested tail after) {fuel : Nat} (hfuel : fuel ≤ n)
    (h : Nests segments o) (hn : segments.length < fuel) (line : Nat) (branches : List Branch) :
    followed (chain block fuel line branches (segments ++ tail)) k =
      outcome after (statementsFrom (.chain line branches) o) := by
  induction fuel generalizing segments o branches with
  | zero => omega
  | succ fuel ih =>
    have hend (hfresh : Fresh o) : followed (.ok (.choose line branches none, segments ++ tail)) k =
        outcome after (statementsFrom (.chain line branches) o) := by
      rw [followed_ok hr.following h (by omega), outcome_chain hfresh]
    cases h with
    | done => cases hr.ends <;> exact hend trivial
    | block hinside hrest => exact hend trivial
    | @text here source segments o h =>
      simp only [List.length_cons] at hn
      have hbranch := branch_followed line branches here (fun {more p} b hmore hlen =>
        ih (by omega) hmore (by omega) (branches ++ [b])) hr h (by omega)
      rw [List.cons_append, chain]
      cases hscan : Token.scan source with
      | error cause =>
        rw [statementsFrom, outcome_bind, Open.read, lift_bind, hscan]
        rfl
      | ok ts =>
        rw [lift_atLine_ok, ok_bind]
        split
        -- a further branch, by either spelling
        · rw [outcome_chain_text hscan, hbranch]
          rfl
        · rw [outcome_chain_text hscan, hbranch]
          rfl
        -- an `else` whose body comes next, or is on its line
        · rw [outcome_chain_text hscan]
          have hawaits : Awaits (.elseBody line branches here) here :=
            ⟨rfl, fun _ _ _ => rfl, rfl⟩
          exact (body_followed hawaits (f := fun inside => .choose line branches (some inside))
            (fun _ _ => rfl) hr h (by omega)).trans (outcome_nil_append ..).symm
        · rename_i ts hif hempty
          rw [outcome_chain_text hscan, continueIf]
          · exact finish_followed hr.following h (by omega) (simple here ts)
              fun s => .choose line branches (some [s])
          · exact hif
          · exact hempty
        -- any other text: the `if` ends before it, and it is left to be read again
        · rename_i helseif _ _ helse
          refine hend ⟨ts, hscan, ?_, ?_⟩
          · intro hhead
            obtain ⟨us, rfl⟩ := List.head?_eq_some_iff.mp hhead
            exact helseif us rfl
          · intro hhead
            obtain ⟨us, rfl⟩ := List.head?_eq_some_iff.mp hhead
            exact helse us rfl

/-- A statement is read as it is compiled. -/
theorem statement_followed (hr : Around block k n nested tail after)
    (h : Nests segments o) (hn : segments.length < n) (line : Nat) (ts : List Token) :
    followed (statement block n line ts (segments ++ tail)) k =
      outcome after (do
        let (ready, next) ← start line o.startsWithBlock ts
        return ready ++ (← statementsFrom next o)) := by
  unfold statement
  split
  -- `if`
  · exact branch_followed line [] line (fun b hmore hlen =>
      chain_followed hr (Nat.le_refl n) hmore (by omega) line [b]) hr h (by omega) _
  -- `while`
  · have hawaits (condition : Expr) : Awaits (.whileBody line condition) line :=
      ⟨rfl, fun _ _ _ => rfl, rfl⟩
    rw [followed_bind]
    refine (guarded_bind hawaits hr
      (fun b rest => followed (.ok (.whileLoop line b.condition b.body, rest)) k) h (by omega)
      (fun condition s => followed_ok hr.following h hn (.whileLoop line condition [s]))
      (fun condition here inside hmore hlen => ?_) _).trans ?_
    · exact (followed_ok hr.following hmore (by omega) (.whileLoop line condition inside)).trans
        (outcome_finish (.whileLoop line condition inside)).symm
    · rw [start, outcome_bind, outcome_bind, lift_bind, bind_assoc]
      congr 1
      funext c
      cases c with
      | inline condition s => exact (outcome_finish (.whileLoop line condition [s])).symm
      | head condition => exact (outcome_nil_append ..).symm
  -- `for`
  · rw [start, outcome_bind, lift_bind, bind_assoc, followed_bind]
    congr 1
    funext head
    have hawaits : Awaits (.forBody line head) line := ⟨rfl, fun _ _ _ => rfl, rfl⟩
    exact (body_followed hawaits (f := fun inside =>
      .forLoop line head.counter head.start head.limit head.direction inside) (fun _ _ => rfl)
      hr h (by omega)).trans (outcome_nil_append ..).symm
  -- `elseif` and `else`, which fail
  · rfl
  · rfl
  · rw [start]
    · exact finish_followed hr.following h hn (simple line ts) id
    all_goals assumption

/-- Statements are read as they are compiled, on fuel for as many segments. -/
theorem reads_statements (fuel : Nat) (hends : Ends nested tail after) :
    Reads (statements fuel nested) fuel tail after := by
  -- a unit of fuel for each segment is enough: every call is on fewer of them
  induction fuel generalizing nested tail after with
  | zero =>
    intro segments o h hn
    cases hn
  | succ fuel ih =>
    intro segments o h hn
    cases h with
    | done => cases hends <;> rfl
    | @block line last segments more inside rest hinside hrest =>
      simp only [List.length_cons, List.length_append] at hn
      have hinside := ih (.inside last (more ++ tail)) hinside (by omega)
      rw [List.cons_append, List.append_assoc, List.cons_append, statements, hinside,
        outcome_then, statementsFrom, outcome_bind]
      show _ = outcome after (statementsFrom .nothing inside >>= _)
      rw [outcome_bind]
      congr 1
      funext body
      exact followed_ok (ih hends) hrest (by omega) (.block line body)
    | @text line source segments o h =>
      simp only [List.length_cons] at hn
      have hr : Around (statements fuel true) (statements fuel nested) fuel nested tail after :=
        ⟨fun last rest => ih (.inside last rest), ih hends, hends⟩
      have hstatement := statement_followed hr h (by omega) line
      rw [List.cons_append, statements, statementsFrom, outcome_bind, Open.read, lift_bind,
        bind_assoc]
      congr 1
      funext ts
      rw [← outcome_bind]
      exact hstatement ts

/-- Segments that pass the check of braces are read to the statements that their outline is
compiled to, or to the failure that this ends in. -/
theorem read_eq (h : Segment.checkBraces [] segments = .ok ()) :
    read segments =
      (statementsFrom .nothing (Outline.ofSegments segments)).result.mapError .failure := by
  have hread := reads_statements (segments.length + 1) .outside (nests_ofSegments h)
    (Nat.lt_succ_self _)
  rw [List.append_nil] at hread
  rw [read, hread, outcome_then]
  show lift _ >>= pure = _
  rw [bind_pure]
  rfl

end

/-- Without the check the reader can get out of step. -/
example : read [.opening 1] = .error .endInside ∧ read [.closing 1] = .error (.closingOutside 1) :=
  ⟨rfl, rfl⟩

end MatrixLang.Descent

namespace MatrixLang

/-! ## Compiling -/

theorem not_unbalancedBraces {segments : List Segment} {failure : Failure}
    (h : (Program.statementsFrom .nothing (Outline.ofSegments segments)).result =
      .error failure) : failure.cause ≠ .unbalancedBraces := by
  have hnothing : Program.Open.nothing.WellShaped := trivial
  have hform := ((Program.yields_statementsFrom hnothing _).of_error h).2
  intro hcause
  rw [hcause] at hform
  cases hform

/-- Compiling fails for unbalanced braces where the check of braces fails. -/
theorem compile_unbalanced_iff {source : String} {failure : Failure} :
    compile source = .error failure ∧ failure.cause = .unbalancedBraces ↔
      Segment.checkBraces [] (Segment.cut source) = .error failure := by
  rw [compile_eq]
  cases hcheck : Segment.checkBraces [] (Segment.cut source) with
  | error found =>
    constructor
    · rintro ⟨h, -⟩
      cases h
      rfl
    · intro h
      cases h
      exact ⟨rfl, (meets_checkBraces [] _ |>.of_error hcheck).2⟩
  | ok =>
    refine ⟨?_, nofun⟩
    rintro ⟨h, hcause⟩
    cases hresult : (Program.statementsFrom .nothing
        (Outline.ofSegments (Segment.cut source))).result with
    | ok ss =>
      rw [hresult] at h
      cases h
    | error found =>
      rw [hresult] at h
      cases h
      exact absurd hcause (not_unbalancedBraces hresult)

/-- **Braces are checked exactly.**  Compiling fails for unbalanced braces if and only if those
outside of comments do not pair up, and then in the line of the first closing brace at which none
is open, or, if there is none, of the last opening one that is never closed.  Segments that pass the
check are read by descent as they are compiled: never do they end inside a block, and no closing
brace comes outside of all blocks. -/
theorem braces_checked_exactly (source : String) :
    ((∃ failure, compile source = .error failure ∧ failure.cause = .unbalancedBraces) ↔
      ¬ Brace.Matched (Brace.ofSource source)) ∧
    (∀ failure, compile source = .error failure → failure.cause = .unbalancedBraces →
      Brace.FaultAt (Brace.ofSource source) failure.line) ∧
    ∀ segments, Segment.checkBraces [] segments = .ok () →
      Descent.read segments =
        (Program.statementsFrom .nothing (Outline.ofSegments segments)).result.mapError .failure ∧
      ∀ failure, Descent.read segments = .error (.failure failure) →
        failure.cause ≠ .unbalancedBraces := by
  have hmatched : Segment.checkBraces [] (Segment.cut source) = .ok () ↔
      Brace.Matched (Brace.ofSource source) := by
    rw [Segment.checkBraces_eq_ok_iff, Segment.filterMap_cut]
  refine ⟨?_, ?_, ?_⟩
  · simp only [compile_unbalanced_iff, ← hmatched]
    cases hcheck : Segment.checkBraces [] (Segment.cut source) with
    | ok => simp
    | error failure => simp
  · intro failure hcompile hcause
    have hcheck := compile_unbalanced_iff.mp ⟨hcompile, hcause⟩
    have hfault := Segment.fault_of_checkBraces hcheck
    rwa [Segment.filterMap_cut] at hfault
  · intro segments hcheck
    have hread := Descent.read_eq hcheck
    refine ⟨hread, fun failure hfailure => ?_⟩
    rw [hread] at hfailure
    cases hresult : (Program.statementsFrom .nothing (Outline.ofSegments segments)).result with
    | ok ss =>
      rw [hresult] at hfailure
      cases hfailure
    | error found =>
      rw [hresult] at hfailure
      cases hfailure
      exact not_unbalancedBraces hresult

/-- A brace in a comment, a block that is closed, and one that is not. -/
def lostBrace : String :=
  "x = 1 // \x7d\nwhile (x) \x7b x = 0 \x7d\nif (x) \x7b\n  y = 2 // \x7d\n"

/-- The block in its third line is not closed; with another brace at the end it is. -/
theorem braces_checked_exactly_lostBrace :
    (¬ Brace.Matched (Brace.ofSource lostBrace) ∧
      ∃ failure, compile lostBrace = .error failure ∧ failure.cause = .unbalancedBraces ∧
        failure.line = 3 ∧ Brace.FaultAt (Brace.ofSource lostBrace) failure.line) ∧
    Segment.checkBraces [] (Segment.cut (lostBrace ++ "\x7d")) = .ok () ∧
    ∀ failure, Descent.read (Segment.cut (lostBrace ++ "\x7d")) = .error (.failure failure) →
      failure.cause ≠ .unbalancedBraces := by
  obtain ⟨hiff, hfault, hreads⟩ := braces_checked_exactly lostBrace
  have hrefused : (Segment.checkBraces [] (Segment.cut lostBrace)).mapError Failure.line =
      .error 3 := by decide +kernel
  have hpassed : (Segment.checkBraces [] (Segment.cut (lostBrace ++ "\x7d"))).isOk = true := by
    decide +kernel
  constructor
  · cases hcheck : Segment.checkBraces [] (Segment.cut lostBrace) with
    | ok =>
      rw [hcheck] at hrefused
      cases hrefused
    | error failure =>
      rw [hcheck] at hrefused
      obtain ⟨hcompile, hcause⟩ := compile_unbalanced_iff.mpr hcheck
      exact ⟨hiff.mp ⟨failure, hcompile, hcause⟩, failure, hcompile, hcause,
        Except.error.inj hrefused, hfault failure hcompile hcause⟩
  · cases hcheck : Segment.checkBraces [] (Segment.cut (lostBrace ++ "\x7d")) with
    | ok => exact ⟨rfl, (hreads _ hcheck).2⟩
    | error failure =>
      rw [hcheck] at hpassed
      cases hpassed

end MatrixLang
