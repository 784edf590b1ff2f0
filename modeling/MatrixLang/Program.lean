import MatrixLang.Expr.Build
import MatrixLang.Names
import MatrixLang.Note
import MatrixLang.Segment
import MatrixLang.Statement
import MatrixLang.Token.Scan

/-!
# Compiling programs

A program is compiled from the outline of its source text, one text or block after the
other.  A text is a whole statement, or the head of one whose body is the block that comes
next; an `if` also stays open for the `elseif` and `else` that may follow it.  `Open` is
what has been read of such an unfinished statement.

A clause may have its body on the same line, after a condition in parentheses: it then is
a single assignment or expression.
-/

namespace MatrixLang

/-- A compiled program. -/
structure Program where
  statements : List Statement
  /-- The names that occur in it, in order. -/
  names : List String
deriving Inhabited

namespace Program

/-! ## Parts of a statement -/

/-- What a token does to the number of parentheses and brackets that are open. -/
def depthAfter (depth : Int) : Token → Int
  | .openParen | .openBracket => depth + 1
  | .closeParen | .closeBracket => depth - 1
  | _ => depth

/-- Splits tokens at the first one, outside parentheses and brackets, for which `mark`
gives something. -/
def splitTopLevel {α : Type} (mark : Token → Option α) (depth : Int) :
    List Token → Option (List Token × α × List Token)
  | [] => none
  | t :: ts =>
    match mark t, decide (depth = 0) with
    | some a, true => some ([], a, ts)
    | _, _ =>
      (splitTopLevel mark (depthAfter depth t) ts).map fun (before, a, after) =>
        (t :: before, a, after)

/-- The two sides of an assignment, if tokens hold one. -/
def splitAssign (ts : List Token) : Option (List Token × List Token) :=
  (splitTopLevel (fun | .assign => some () | _ => none) 0 ts).map fun (before, _, after) =>
    (before, after)

/-- The direction that a token names. -/
def directionOf : Token → Option Direction
  | .keyword .toWord => some .up
  | .keyword .downtoWord => some .down
  | _ => none

/-- The coordinates of an assignment target. -/
inductive Coordinates where
  | none
  | one (index : List Token)
  | two (row col : List Token)

/-- The coordinates after the name of a target: up to two groups in brackets. -/
def coordinates? : List Token → Option Coordinates
  | [] => some .none
  | .openBracket :: ts =>
    match Token.splitBrackets ts with
    | some (first, []) => some (.one first)
    | some (first, .openBracket :: ts) =>
      match Token.splitBrackets ts with
      | some (second, []) => some (.two first second)
      | _ => none
    | _ => none
  | _ => none

/-! ## Expressions and simple statements -/

/-- Compiles an expression. -/
def expression (line : Nat) (ts : List Token) : Noted Expr := do
  let prepared ← Noted.atLine line (Token.prepare ts)
  Noted.note (.tokens prepared)
  let code ← Noted.atLine line (Postfix.ofTokens prepared)
  Noted.note (.code code)
  Noted.atLine line (Expr.ofPostfix code)

/-- Fails in a line. -/
def failForm {α : Type} (line : Nat) (fault : FormFault) : Noted α :=
  Noted.fail ⟨.compile, line, .illFormed fault⟩

/-- Compiles an assignment from its two sides. -/
def assignment (line : Nat) (target value : List Token) : Noted Statement := do
  if value.isEmpty then failForm line .missingValue
  else
    match target with
    | .name name :: rest =>
      match coordinates? rest with
      | none => failForm line .invalidTarget
      | some .none => return .assign line name (← expression line value)
      | some (.one index) =>
        let index ← expression line index
        return .assignIndex line name index (← expression line value)
      | some (.two row col) =>
        let row ← expression line row
        let col ← expression line col
        return .assignBlock line name row col (← expression line value)
    | _ => failForm line .invalidTarget

/-- Compiles an assignment or an expression statement. -/
def simple (line : Nat) (ts : List Token) : Noted Statement := do
  match splitAssign ts with
  | some (target, value) => assignment line target value
  | none => return .eval line (← expression line ts)

/-! ## Heads of statements -/

/-- A condition, with its body if that stands on the same line. -/
inductive Clause where
  | inline (condition : Expr) (body : Statement)
  | head (condition : Expr)

/-- The condition in parentheses and the body after it, if tokens are a clause with its
body on the same line.  Where a block follows, only an assignment counts as such a body. -/
def inlineBody? (braced : Bool) (ts : List Token) : Option (List Token × List Token) :=
  match ts with
  | .openParen :: rest =>
    match Token.splitParens rest with
    | some (inside, body) =>
      if !body.isEmpty && ((splitAssign body).isSome || !braced) then
        some (.openParen :: inside ++ [.closeParen], body)
      else none
    | none => none
  | _ => none

/-- Compiles the clause of an `if`, `elseif` or `while`; `braced` says whether a block
comes next. -/
def clause (line : Nat) (braced : Bool) (ts : List Token) : Noted Clause := do
  if ts.isEmpty then failForm line .missingCondition
  else
    match inlineBody? braced ts with
    | some (condition, body) =>
      let condition ← expression line condition
      return .inline condition (← simple line body)
    | none => return .head (← expression line ts)

/-- The head of a `for` statement. -/
structure ForHead where
  counter : String
  start : Expr
  limit : Expr
  direction : Direction

/-- Compiles the head of a `for` statement. -/
def forHead (line : Nat) (ts : List Token) : Noted ForHead := do
  match ts with
  | .name name :: .assign :: rest =>
    match splitTopLevel directionOf 0 rest with
    | none => failForm line (.malformedFor .noDirection)
    | some (start, direction, limit) =>
      if start.isEmpty || limit.isEmpty then failForm line (.malformedFor .noBound)
      else
        let start ← expression line start
        let limit ← expression line limit
        return ⟨name, start, limit, direction⟩
  | .name _ :: _ => failForm line (.malformedFor .noAssign)
  | _ => failForm line (.malformedFor .noVariable)

/-! ## Statements -/

/-- What has been read of the statement that is not finished yet. -/
inductive Open where
  /-- No statement is open. -/
  | nothing
  /-- A `while` whose body comes next. -/
  | whileBody (line : Nat) (condition : Expr)
  /-- A `for` whose body comes next. -/
  | forBody (line : Nat) (head : ForHead)
  /-- An `if` with some branches, which a further one may follow. -/
  | chain (line : Nat) (branches : List Branch)
  /-- An `if` with a condition, from line `here`, whose body comes next. -/
  | branchBody (line : Nat) (branches : List Branch) (here : Nat) (condition : Expr)
  /-- An `if` with an `else`, from line `here`, whose body comes next. -/
  | elseBody (line : Nat) (branches : List Branch) (here : Nat)

/-- Finishes a statement. -/
def finish (s : Statement) : Noted (List Statement × Open) := do
  Noted.note (.compiled s.line s.kind)
  return ([s], .nothing)

/-- Reads the clause of a branch of the `if` in line `line`. -/
def branch (line : Nat) (branches : List Branch) (here : Nat) (braced : Bool)
    (ts : List Token) : Noted (List Statement × Open) := do
  match ← clause here braced ts with
  | .inline condition body => return ([], .chain line (branches ++ [.mk condition [body]]))
  | .head condition => return ([], .branchBody line branches here condition)

/-- Starts a statement. -/
def start (line : Nat) (braced : Bool) (ts : List Token) :
    Noted (List Statement × Open) := do
  match ts with
  | .keyword .ifWord :: ts => branch line [] line braced ts
  | .keyword .whileWord :: ts =>
    match ← clause line braced ts with
    | .inline condition body => finish (.whileLoop line condition [body])
    | .head condition => return ([], .whileBody line condition)
  | .keyword .forWord :: ts => return ([], .forBody line (← forHead line ts))
  | .keyword .elseifWord :: _ => failForm line (.noMatchingIf .elseifWord)
  | .keyword .elseWord :: _ => failForm line (.noMatchingIf .elseWord)
  | ts => finish (← simple line ts)

/-- Fails if the body of a statement has to come next, and finishes an open `if`. -/
def Open.settle : Open → Noted (List Statement × Open)
  | .nothing => return ([], .nothing)
  | .whileBody line _ => failForm line .missingBody
  | .forBody line _ => failForm line .missingBody
  | .branchBody _ _ here _ => failForm here .missingBody
  | .elseBody _ _ here => failForm here .missingBody
  | .chain line branches => finish (.choose line branches none)

/-- Goes on with an open `if` at a text that may belong to it, and starts a new statement
if it does not. -/
def continueIf (line : Nat) (branches : List Branch) (here : Nat) (braced : Bool)
    (ts : List Token) : Noted (List Statement × Open) := do
  match ts with
  | .keyword .elseifWord :: ts => branch line branches here braced ts
  | .keyword .elseWord :: .keyword .ifWord :: ts => branch line branches here braced ts
  | [.keyword .elseWord] => return ([], .elseBody line branches here)
  | .keyword .elseWord :: ts =>
    let body ← simple here ts
    finish (.choose line branches (some [body]))
  | ts =>
    -- The text is no part of the `if`, which ends before it.
    let (closed, _) ← finish (.choose line branches none)
    let (ready, next) ← start here braced ts
    return (closed ++ ready, next)

/-- Reads a text: the statements it finishes and what is open after it. -/
def Open.read (opened : Open) (line : Nat) (text : String) (braced : Bool) :
    Noted (List Statement × Open) := do
  match opened with
  | .nothing =>
    let ts ← Noted.atLine line (Token.scan text)
    start line braced ts
  | .chain first branches =>
    let ts ← Noted.atLine line (Token.scan text)
    continueIf first branches line braced ts
  | opened => opened.settle

/-- Gets ready for a block: an `if` that needs no further body is finished. -/
def Open.enter : Open → Noted (List Statement × Open)
  | .chain line branches => finish (.choose line branches none)
  | opened => return ([], opened)

/-- Reads a block with a given body: the statements it finishes and what is open after
it. -/
def Open.close (opened : Open) (line : Nat) (body : List Statement) :
    Noted (List Statement × Open) := do
  match opened with
  | .nothing => return ([.block line body], .nothing)
  | .whileBody line condition => finish (.whileLoop line condition body)
  | .forBody line head =>
    finish (.forLoop line head.counter head.start head.limit head.direction body)
  | .branchBody line branches _ condition =>
    return ([], .chain line (branches ++ [.mk condition body]))
  | .elseBody line branches _ => finish (.choose line branches (some body))
  | .chain first branches =>
    let (closed, _) ← finish (.choose first branches none)
    return (closed ++ [.block line body], .nothing)

/-- Compiles the statements of an outline, of which `opened` has been read before. -/
def statementsFrom (opened : Open) : Outline → Noted (List Statement)
  | .done => do
    let (ready, _) ← opened.settle
    return ready
  | .text line text rest => do
    let (ready, next) ← opened.read line text rest.startsWithBlock
    return ready ++ (← statementsFrom next rest)
  | .block line inside rest => do
    let (ready, opened) ← opened.enter
    let body ← statementsFrom .nothing inside
    let (closed, next) ← opened.close line body
    return ready ++ closed ++ (← statementsFrom next rest)

/-- Compiles the statements of a source text. -/
def statementsOf (source : String) : Noted (List Statement) := do
  let segments ← (⟨[], segment source⟩ : Noted (List Segment))
  statementsFrom .nothing (Outline.ofSegments segments)

end Program

/-- Compiles a source text, with notes. -/
def compileNoted (source : String) : Noted Program := do
  let statements ← Program.statementsOf source
  let names := Names.ofList (Statement.namesOfBody statements)
  Noted.note (.finished statements.length names.length)
  return ⟨statements, names⟩

/-- Compiles a source text. -/
def compile (source : String) : Except Failure Program :=
  (compileNoted source).result

/-- Without the notes: the braces are checked, the outline is compiled, and the names are
collected. -/
theorem compile_eq (source : String) : compile source = do
    Segment.checkBraces [] (Segment.cut source)
    let statements ←
      (Program.statementsFrom .nothing (Outline.ofSegments (Segment.cut source))).result
    return ⟨statements, Names.ofList (Statement.namesOfBody statements)⟩ := by
  simp only [compile, compileNoted, Program.statementsOf, segment, Noted.result_bind]
  cases Segment.checkBraces [] (Segment.cut source) <;> rfl

theorem compile_eq_ok_iff {source : String} {p : Program} : compile source = .ok p ↔
    Segment.checkBraces [] (Segment.cut source) = .ok () ∧
    (Program.statementsFrom .nothing (Outline.ofSegments (Segment.cut source))).result =
      .ok p.statements ∧
    p.names = Names.ofList (Statement.namesOfBody p.statements) := by
  rw [compile_eq]
  constructor
  · intro h
    rcases hbraces : Segment.checkBraces [] (Segment.cut source) with _ | _
    · rw [hbraces] at h
      cases h
    rcases hstatements : (Program.statementsFrom .nothing
      (Outline.ofSegments (Segment.cut source))).result with _ | ss
    · rw [hbraces, hstatements] at h
      cases h
    · rw [hbraces, hstatements] at h
      cases h
      exact ⟨rfl, rfl, rfl⟩
  · rintro ⟨hbraces, hstatements, hnames⟩
    rw [hbraces, hstatements]
    show Except.ok (Program.mk _ _) = .ok p
    rw [← hnames]

end MatrixLang
