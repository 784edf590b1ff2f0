import MatrixLang.Proofs.Descent
import MatrixLang.Proofs.Mentions

/-! # The names of a program

A compiled program comes with the names that occur in its statements, at any depth, and with no
others (`names_exact`).

Compiling lists them from the finished statements.  They can also be collected on the way: a
reader of segments (`Descent`) then keeps the set of the names so far, and puts the variables of
an expression into it as soon as the expression is compiled, a target after the expressions of its
assignment, and the variable of a loop before the loop's body is read.  Nothing of what such a
reader collects belongs to a statement that is dropped again, and no statement comes in without
its names: both ways give the same program, and fail alike (`compile_eq`).
-/

namespace MatrixLang.Collecting

open Program
open Descent (Halt opensNext)

/-! ## Collecting -/

mutual

/-- Puts the variables of an expression into a set of names. -/
def collect : Expr → List String → List String
  | .literal _, seen => seen
  | .variable name, seen => Names.insert name seen
  | .matrix _ _ elements, seen => collectAll elements seen
  | .unary _ operand, seen => collect operand seen
  | .binary _ left right, seen => collect right (collect left seen)
  | .call _ arguments, seen => collectAll arguments seen

def collectAll : List Expr → List String → List String
  | [], seen => seen
  | e :: es, seen => collectAll es (collect e seen)

end

/-- A computation that can add to the names collected so far. -/
abbrev Collector (α : Type) := StateT (List String) (Except Halt) α

/-- Reads something, and gives it with the segments that are left. -/
abbrev Reader (α : Type) := List Segment → Collector (α × List Segment)

/-- A computation that collects nothing. -/
def lift {α : Type} (x : Noted α) : Collector α :=
  StateT.lift (Descent.lift x)

/-- Adds a name. -/
def add (name : String) : Collector Unit :=
  modify (Names.insert name)

/-- Compiles an expression, and adds its variables. -/
def expression (line : Nat) (ts : List Token) : Collector Expr := do
  let e ← lift (Program.expression line ts)
  modify (collect e)
  return e

/-- Compiles an assignment from its two sides. -/
def assignment (line : Nat) (target value : List Token) : Collector Statement := do
  if value.isEmpty then lift (failForm line .missingValue)
  else
    match target with
    | .name name :: rest =>
      match coordinates? rest with
      | none => lift (failForm line .invalidTarget)
      | some .none =>
        let value ← expression line value
        add name
        return .assign line name value
      | some (.one index) =>
        let index ← expression line index
        let value ← expression line value
        add name
        return .assignIndex line name index value
      | some (.two row col) =>
        let row ← expression line row
        let col ← expression line col
        let value ← expression line value
        add name
        return .assignBlock line name row col value
    | _ => lift (failForm line .invalidTarget)

/-- Compiles an assignment or an expression statement. -/
def simple (line : Nat) (ts : List Token) : Collector Statement := do
  match splitAssign ts with
  | some (target, value) => assignment line target value
  | none => return .eval line (← expression line ts)

/-- Compiles the clause of an `if`, `elseif` or `while`; `braced` says whether a block comes
next. -/
def clause (line : Nat) (braced : Bool) (ts : List Token) : Collector Clause := do
  if ts.isEmpty then lift (failForm line .missingCondition)
  else
    match inlineBody? braced ts with
    | some (condition, body) =>
      let condition ← expression line condition
      return .inline condition (← simple line body)
    | none => return .head (← expression line ts)

/-- Compiles the head of a `for` statement. -/
def forHead (line : Nat) (ts : List Token) : Collector ForHead := do
  match ts with
  | .name name :: .assign :: rest =>
    match splitTopLevel directionOf 0 rest with
    | none => lift (failForm line (.malformedFor .noDirection))
    | some (start, direction, limit) =>
      if start.isEmpty || limit.isEmpty then lift (failForm line (.malformedFor .noBound))
      else
        let start ← expression line start
        let limit ← expression line limit
        add name
        return ⟨name, start, limit, direction⟩
  | .name _ :: _ => lift (failForm line (.malformedFor .noAssign))
  | _ => lift (failForm line (.malformedFor .noVariable))

/-- Reads a body in braces, which has to come next. -/
def body (block : Reader (List Statement)) (line : Nat) : Reader (List Statement)
  | .opening _ :: rest => block rest
  | _ => lift (failForm line .missingBody)

/-- Reads a condition with what it guards. -/
def guarded (block : Reader (List Statement)) (line : Nat) (ts : List Token) : Reader Branch :=
  fun segments => do
    match ← clause line (opensNext segments) ts with
    | .inline condition s => return (.mk condition [s], segments)
    | .head condition =>
      let (inside, rest) ← body block line segments
      return (.mk condition inside, rest)

/-- Reads what may follow the branches of an `if`. -/
def chain (block : Reader (List Statement)) : Nat → Nat → List Branch → Reader Statement
  | 0, _, _, _ => throw .outOfFuel
  | fuel + 1, line, branches, .text here source :: rest => do
    match ← lift (Noted.atLine here (Token.scan source)) with
    | .keyword .elseifWord :: ts =>
      let (b, rest) ← guarded block here ts rest
      chain block fuel line (branches ++ [b]) rest
    | .keyword .elseWord :: .keyword .ifWord :: ts =>
      let (b, rest) ← guarded block here ts rest
      chain block fuel line (branches ++ [b]) rest
    | [.keyword .elseWord] =>
      let (inside, rest) ← body block here rest
      return (.choose line branches (some inside), rest)
    | .keyword .elseWord :: ts =>
      let s ← simple here ts
      return (.choose line branches (some [s]), rest)
    | _ => return (.choose line branches none, .text here source :: rest)
  | _ + 1, line, branches, segments => return (.choose line branches none, segments)

/-- Reads a statement that starts with a text. -/
def statement (block : Reader (List Statement)) (fuel line : Nat) (ts : List Token) :
    Reader Statement := fun segments => do
  match ts with
  | .keyword .ifWord :: ts =>
    let (b, rest) ← guarded block line ts segments
    chain block fuel line [b] rest
  | .keyword .whileWord :: ts =>
    let (b, rest) ← guarded block line ts segments
    return (.whileLoop line b.condition b.body, rest)
  | .keyword .forWord :: ts =>
    let head ← forHead line ts
    let (inside, rest) ← body block line segments
    return (.forLoop line head.counter head.start head.limit head.direction inside, rest)
  | .keyword .elseifWord :: _ => lift (failForm line (.noMatchingIf .elseifWord))
  | .keyword .elseWord :: _ => lift (failForm line (.noMatchingIf .elseWord))
  | ts => return (← simple line ts, segments)

/-- Reads statements up to the end, or up to the closing brace if they are `nested` in a block. -/
def statements : Nat → Bool → Reader (List Statement)
  | 0, _, _ => throw .outOfFuel
  | _ + 1, nested, [] => if nested then throw .endInside else return ([], [])
  | _ + 1, nested, .closing line :: rest =>
    if nested then return ([], rest) else throw (.closingOutside line)
  | fuel + 1, nested, .opening line :: rest => do
    let (inside, rest) ← statements fuel true rest
    let (ss, rest) ← statements fuel nested rest
    return (.block line inside :: ss, rest)
  | fuel + 1, nested, .text line source :: rest => do
    let ts ← lift (Noted.atLine line (Token.scan source))
    let (s, rest) ← statement (statements fuel true) fuel line ts rest
    let (ss, rest) ← statements fuel nested rest
    return (s :: ss, rest)

/-- Compiles a source text, collecting names on the way. -/
def compile (source : String) : Except Halt Program := do
  let segments := Segment.cut source
  (Segment.checkBraces [] segments).mapError .failure
  let ((ss, _), names) ← statements (segments.length + 1) false segments []
  return ⟨ss, names⟩

/-! ## What has been collected -/

mutual

theorem collect_ofList : ∀ (e : Expr) (seen : List String),
    collect e (Names.ofList seen) = Names.ofList (e.names ++ seen)
  | .literal _, _ => rfl
  | .variable _, _ => rfl
  | .matrix _ _ elements, seen => collectAll_ofList elements seen
  | .unary _ operand, seen => collect_ofList operand seen
  | .binary _ left right, seen => by
    rw [collect, collect_ofList left, collect_ofList right]
    exact Names.ofList_congr (by simp [Expr.names, or_left_comm])
  | .call _ arguments, seen => collectAll_ofList arguments seen

theorem collectAll_ofList : ∀ (es : List Expr) (seen : List String),
    collectAll es (Names.ofList seen) = Names.ofList (Expr.namesOfAll es ++ seen)
  | [], _ => rfl
  | e :: es, seen => by
    rw [collectAll, collect_ofList e, collectAll_ofList es]
    exact Names.ofList_congr (by simp [Expr.namesOfAll, or_left_comm])

end

/-- Started with the names `seen`, a collector gives what a computation without names gives, and
has then collected the names `after` says. -/
def Gathers {α : Type} (seen : List String) (x : Collector α) (y : Except Halt α)
    (after : α → List String) : Prop :=
  x (Names.ofList seen) = (fun a => (a, Names.ofList (after a))) <$> y

section

variable {α β : Type} {seen : List String} {after : α → List String} {later : β → List String}

theorem gathers_pure {a : α} (h : ∀ x, x ∈ seen ↔ x ∈ after a) :
    Gathers seen (pure a) (pure a) after := by
  show Except.ok (a, Names.ofList seen) = Except.ok (a, Names.ofList (after a))
  rw [Names.ofList_congr h]

/-- Only the members of a set of names count. -/
theorem Gathers.of_mem_iff {seen' : List String} {x : Collector α} {y : Except Halt α}
    (hx : Gathers seen x y after) (h : ∀ name, name ∈ seen ↔ name ∈ seen') :
    Gathers seen' x y after := by
  unfold Gathers at hx ⊢
  rw [← Names.ofList_congr h, hx]

theorem gathers_throw (halt : Halt) : Gathers seen (throw halt) (throw halt) after :=
  rfl

theorem gathers_fail (line : Nat) (fault : FormFault) :
    Gathers seen (lift (failForm line fault)) (Descent.lift (failForm line fault)) after :=
  rfl

theorem gathers_lift (x : Noted α) : Gathers seen (lift x) (Descent.lift x) fun _ => seen := by
  unfold Gathers lift
  cases Descent.lift x <;> rfl

theorem Gathers.bind {x : Collector α} {y : Except Halt α} {f : α → Collector β}
    {g : α → Except Halt β} (hx : Gathers seen x y after)
    (hf : ∀ a, Gathers (after a) (f a) (g a) later) : Gathers seen (x >>= f) (y >>= g) later := by
  have hrun : (x >>= f) (Names.ofList seen) = x (Names.ofList seen) >>= fun (a, s) => f a s := rfl
  unfold Gathers at hx ⊢
  rw [hrun, hx]
  cases y with
  | error halt => rfl
  | ok a => exact hf a

/-- The same for a computation that reads no segments. -/
theorem Gathers.bind_lift {x : Collector α} {y : Noted α} {f : α → Collector β}
    {g : α → Noted β} (hx : Gathers seen x (Descent.lift y) after)
    (hf : ∀ a, Gathers (after a) (f a) (Descent.lift (g a)) later) :
    Gathers seen (x >>= f) (Descent.lift (y >>= g)) later := by
  rw [Descent.lift_bind]
  exact hx.bind hf

theorem gathers_add {name : String} {a : α} (h : ∀ x, x ∈ name :: seen ↔ x ∈ after a) :
    Gathers seen (do add name; return a) (.ok a) after := by
  show Except.ok (a, Names.ofList (name :: seen)) = Except.ok (a, Names.ofList (after a))
  rw [Names.ofList_congr h]

end

/-! ## Parts of statements -/

section

variable {seen : List String} (line : Nat) (ts : List Token)

theorem gathers_expression : Gathers seen (expression line ts)
    (Descent.lift (Program.expression line ts)) fun e => e.names ++ seen := by
  unfold Gathers expression lift
  cases Descent.lift (Program.expression line ts) with
  | error halt => rfl
  | ok e =>
    show Except.ok (e, collect e (Names.ofList seen)) = Except.ok (e, Names.ofList _)
    rw [collect_ofList]

theorem gathers_assignment (target value : List Token) :
    Gathers seen (assignment line target value)
      (Descent.lift (Program.assignment line target value)) fun s => s.names ++ seen := by
  unfold assignment Program.assignment
  by_cases hempty : value.isEmpty
  · rw [if_pos hempty, if_pos hempty]
    exact gathers_fail ..
  rw [if_neg hempty, if_neg hempty]
  rcases target with _ | ⟨t, rest⟩
  · exact gathers_fail ..
  cases t with
  | name name =>
    dsimp only
    rcases coordinates? rest with _ | (_ | index | ⟨row, col⟩)
    · exact gathers_fail ..
    · refine (gathers_expression ..).bind_lift fun value => gathers_add ?_
      simp [Statement.names]
    · refine (gathers_expression ..).bind_lift fun index => ?_
      refine (gathers_expression ..).bind_lift fun value => gathers_add ?_
      grind [Statement.names]
    · refine (gathers_expression ..).bind_lift fun row => ?_
      refine (gathers_expression ..).bind_lift fun col => ?_
      refine (gathers_expression ..).bind_lift fun value => gathers_add ?_
      grind [Statement.names]
  | _ => exact gathers_fail ..

theorem gathers_simple : Gathers seen (simple line ts) (Descent.lift (Program.simple line ts))
    fun s => s.names ++ seen := by
  unfold simple Program.simple
  rcases splitAssign ts with _ | ⟨target, value⟩
  · exact (gathers_expression ..).bind_lift fun value => gathers_pure fun x => Iff.rfl
  · exact gathers_assignment line target value

/-- The names that occur in a clause. -/
def namesOfClause : Clause → List String
  | .inline condition s => condition.names ++ s.names
  | .head condition => condition.names

theorem gathers_clause (braced : Bool) : Gathers seen (clause line braced ts)
    (Descent.lift (Program.clause line braced ts)) fun c => namesOfClause c ++ seen := by
  unfold clause Program.clause
  by_cases hempty : ts.isEmpty
  · rw [if_pos hempty, if_pos hempty]
    exact gathers_fail ..
  rw [if_neg hempty, if_neg hempty]
  rcases inlineBody? braced ts with _ | ⟨condition, body⟩
  · exact (gathers_expression ..).bind_lift fun value => gathers_pure fun x => Iff.rfl
  · refine (gathers_expression ..).bind_lift fun condition => ?_
    refine (gathers_simple ..).bind_lift fun s => gathers_pure ?_
    grind [namesOfClause]

/-- The names that occur in the head of a `for` statement. -/
def namesOfHead (head : ForHead) : List String :=
  head.counter :: (head.start.names ++ head.limit.names)

theorem gathers_forHead : Gathers seen (forHead line ts)
    (Descent.lift (Program.forHead line ts)) fun head => namesOfHead head ++ seen := by
  unfold forHead Program.forHead
  rcases ts with _ | ⟨t, ts⟩
  · exact gathers_fail ..
  cases t with
  | name name =>
    rcases ts with _ | ⟨t, rest⟩
    · exact gathers_fail ..
    cases t with
    | assign =>
      dsimp only
      rcases splitTopLevel directionOf 0 rest with _ | ⟨start, direction, limit⟩
      · exact gathers_fail ..
      dsimp only
      by_cases hempty : start.isEmpty || limit.isEmpty
      · rw [if_pos hempty, if_pos hempty]
        exact gathers_fail ..
      · rw [if_neg hempty, if_neg hempty]
        refine (gathers_expression ..).bind_lift fun start => ?_
        refine (gathers_expression ..).bind_lift fun limit => gathers_add ?_
        grind [namesOfHead]
    | _ => exact gathers_fail ..
  | _ => exact gathers_fail ..

end

/-! ## Readers -/

/-- A reader that collects reads as one that does not, and adds the names of what it reads to
those of before. -/
def Collects {α : Type} (x : Reader α) (y : Descent.Reader α) (names : α → List String) : Prop :=
  ∀ seen segments, Gathers seen (x segments) (y segments) fun r => names r.1 ++ seen

section

open Statement (namesOfBody namesOfBranches mem_namesOfBranches)

variable {block : Reader (List Statement)} {block' : Descent.Reader (List Statement)}

theorem collects_body (hblock : Collects block block' namesOfBody) (line : Nat) :
    Collects (body block line) (Descent.body block' line) namesOfBody := by
  intro seen segments
  rcases segments with _ | ⟨_ | _ | _, rest⟩
  case cons.opening => exact hblock seen rest
  all_goals exact gathers_fail ..

theorem collects_guarded (hblock : Collects block block' namesOfBody) (line : Nat)
    (ts : List Token) : Collects (guarded block line ts) (Descent.guarded block' line ts)
      fun b => namesOfBranches [b] := by
  intro seen segments
  refine (gathers_clause ..).bind fun c => ?_
  cases c with
  | inline condition s =>
    refine gathers_pure ?_
    grind [namesOfClause, namesOfBranches, namesOfBody]
  | head condition =>
    refine (collects_body hblock line _ segments).bind fun r => gathers_pure ?_
    grind [namesOfClause, namesOfBranches]

theorem mem_namesOfBranches_append {x : String} {a b : List Branch} :
    x ∈ namesOfBranches (a ++ b) ↔ x ∈ namesOfBranches a ∨ x ∈ namesOfBranches b := by
  simp only [mem_namesOfBranches, List.mem_append, or_and_right, exists_or]

/-- Where an `if` goes on, the names of its branches have been collected before. -/
theorem gathers_chain (hblock : Collects block block' namesOfBody) (seen : List String)
    (fuel line : Nat) (branches : List Branch) (segments : List Segment) :
    Gathers (namesOfBranches branches ++ seen) (chain block fuel line branches segments)
      (Descent.chain block' fuel line branches segments) fun r => r.1.names ++ seen := by
  induction fuel generalizing branches segments with
  | zero => exact gathers_throw _
  | succ fuel ih =>
    have hend (rest : List Segment) : Gathers (namesOfBranches branches ++ seen)
        (pure (.choose line branches none, rest)) (pure (.choose line branches none, rest))
        fun r : Statement × List Segment => r.1.names ++ seen :=
      gathers_pure (by simp [Statement.names])
    have hbranch (here : Nat) (ts : List Token) (rest : List Segment) :
        Gathers (namesOfBranches branches ++ seen)
          (do
            let (b, rest) ← guarded block here ts rest
            chain block fuel line (branches ++ [b]) rest)
          (do
            let (b, rest) ← Descent.guarded block' here ts rest
            Descent.chain block' fuel line (branches ++ [b]) rest)
          fun r => r.1.names ++ seen := by
      refine (collects_guarded hblock here ts _ rest).bind fun r => ?_
      refine (ih (branches ++ [r.1]) r.2).of_mem_iff ?_
      simp [mem_namesOfBranches_append, or_left_comm, or_assoc]
    have hsimple (here : Nat) (ts : List Token) (rest : List Segment) :
        Gathers (namesOfBranches branches ++ seen)
          (do
            let s ← simple here ts
            return (.choose line branches (some [s]), rest))
          (do
            let s ← Descent.lift (Program.simple here ts)
            return (.choose line branches (some [s]), rest))
          fun r : Statement × List Segment => r.1.names ++ seen := by
      refine (gathers_simple ..).bind fun s => gathers_pure ?_
      grind [Statement.names, namesOfBody]
    rcases segments with _ | ⟨segment, rest⟩
    · exact hend []
    cases segment with
    | text here source =>
      refine (gathers_lift _).bind fun ts => ?_
      rcases ts with _ | ⟨t, ts⟩
      · exact hend _
      cases t with
      | keyword word =>
        cases word with
        | elseifWord => exact hbranch here ts rest
        | elseWord =>
          rcases ts with _ | ⟨t, ts⟩
          · refine (collects_body hblock here _ rest).bind fun r => gathers_pure ?_
            grind [Statement.names]
          cases t with
          | keyword word =>
            cases word with
            | ifWord => exact hbranch here ts rest
            | _ => exact hsimple ..
          | _ => exact hsimple ..
        | _ => exact hend _
      | _ => exact hend _
    | _ => exact hend _

theorem collects_statement (hblock : Collects block block' namesOfBody) (fuel line : Nat)
    (ts : List Token) : Collects (statement block fuel line ts)
      (Descent.statement block' fuel line ts) Statement.names := by
  intro seen segments
  have hsimple (ts : List Token) : Gathers seen
      (do return (← simple line ts, segments))
      (do return (← Descent.lift (Program.simple line ts), segments))
      fun r : Statement × List Segment => r.1.names ++ seen :=
    (gathers_simple ..).bind fun s => gathers_pure fun x => Iff.rfl
  rcases ts with _ | ⟨t, ts⟩
  · exact hsimple []
  cases t with
  | keyword word =>
    cases word with
    | ifWord =>
      refine (collects_guarded hblock line ts seen segments).bind fun r => ?_
      exact gathers_chain hblock seen fuel line [r.1] r.2
    | whileWord =>
      refine (collects_guarded hblock line ts seen segments).bind fun r => gathers_pure ?_
      simp [Statement.names, mem_namesOfBranches, or_assoc]
    | forWord =>
      refine (gathers_forHead line ts).bind fun head => ?_
      refine (collects_body hblock line _ segments).bind fun r => gathers_pure ?_
      grind [Statement.names, namesOfHead]
    | elseifWord => exact gathers_fail ..
    | elseWord => exact gathers_fail ..
    | _ => exact hsimple _
  | _ => exact hsimple _

theorem collects_statements (fuel : Nat) (nested : Bool) :
    Collects (statements fuel nested) (Descent.statements fuel nested) namesOfBody := by
  induction fuel generalizing nested with
  | zero => exact fun seen segments => gathers_throw _
  | succ fuel ih =>
    intro seen segments
    rcases segments with _ | ⟨segment, rest⟩
    · cases nested with
      | true => exact gathers_throw _
      | false => exact gathers_pure fun x => Iff.rfl
    cases segment with
    | closing line =>
      cases nested with
      | true => exact gathers_pure fun x => Iff.rfl
      | false => exact gathers_throw _
    | opening line =>
      refine (ih true seen rest).bind fun inside => ?_
      refine (ih nested _ inside.2).bind fun following => gathers_pure ?_
      grind [Statement.names, namesOfBody]
    | text line source =>
      refine (gathers_lift _).bind fun ts => ?_
      refine (collects_statement (ih true) fuel line ts seen rest).bind fun s => ?_
      refine (ih nested _ s.2).bind fun following => gathers_pure ?_
      grind [namesOfBody]

end

/-- **Names collected on the way are those of the finished program.**  The two ways to compile
also fail alike. -/
theorem compile_eq (source : String) :
    compile source = (MatrixLang.compile source).mapError .failure := by
  rw [compile, MatrixLang.compile_eq]
  rcases hbraces : Segment.checkBraces [] (Segment.cut source) with failure | _
  · rfl
  have hcollects : statements _ false (Segment.cut source) [] = _ :=
    collects_statements ((Segment.cut source).length + 1) false [] (Segment.cut source)
  have hread := Descent.read_eq hbraces
  rw [Descent.read] at hread
  show statements _ false (Segment.cut source) [] >>= _ = _
  rw [hcollects]
  generalize Descent.statements _ false (Segment.cut source) = read at hread ⊢
  generalize (statementsFrom .nothing _).result = compiled at hread ⊢
  rcases read with halt | ⟨ss, rest⟩ <;> rcases compiled with failure | compiled <;> cases hread
  · rfl
  · show Except.ok (Program.mk ss (Names.ofList (Statement.namesOfBody ss ++ []))) = .ok _
    rw [List.append_nil]

end MatrixLang.Collecting

namespace MatrixLang

/-- **The names of a program are those that occur in its statements.**  They come in order and
once each, and collecting them while the statements are read gives the same ones. -/
theorem names_exact {source : String} {p : Program} (h : compile source = .ok p) :
    (∀ x, x ∈ p.names ↔ ∃ s ∈ p.statements, s.Mentions x) ∧ p.names.Pairwise (· < ·) ∧
      Collecting.compile source = .ok p := by
  obtain ⟨-, -, hnames⟩ := compile_eq_ok_iff.mp h
  refine ⟨fun x => ?_, ?_, ?_⟩
  · rw [hnames, Names.mem_ofList, Statement.mem_namesOfBody]
    simp only [Statement.mem_names_iff_mentions]
  · rw [hnames]
    exact Names.ordered_ofList _
  · rw [Collecting.compile_eq, h]
    rfl

/-- A name in each of the places where one can be. -/
def namesEverywhere : String :=
  "for i = lo to hi \x7b\n  a[k] = b\n  if (c > 0) \x7b m[p][q] = v \x7d\n" ++
    "  elseif (d) e = sin(f)\n  else g\n\x7d\nwhile (w) \x7b w = [u, 1; 2, i] \x7d"

theorem names_exact_namesEverywhere : ∃ p, compile namesEverywhere = .ok p ∧
    p.names = ["a", "b", "c", "d", "e", "f", "g", "hi", "i", "k", "lo", "m", "p", "q", "u", "v",
      "w"] ∧
    (∀ x, x ∈ p.names ↔ ∃ s ∈ p.statements, s.Mentions x) ∧ p.names.Pairwise (· < ·) ∧
      Collecting.compile namesEverywhere = .ok p := by
  have hnames : (compile namesEverywhere).toOption.map Program.names =
      some ["a", "b", "c", "d", "e", "f", "g", "hi", "i", "k", "lo", "m", "p", "q", "u", "v",
        "w"] := by
    decide +kernel
  rcases hp : compile namesEverywhere with failure | p
  · rw [hp] at hnames
    cases hnames
  · rw [hp] at hnames
    exact ⟨p, rfl, Option.some.inj hnames, names_exact hp⟩

end MatrixLang
