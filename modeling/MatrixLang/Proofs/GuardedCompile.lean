import Mathlib.Data.List.Basic
import MatrixLang.Proofs.GuardedPasses
import MatrixLang.Proofs.LineTokens

/-! # Guarded compiling

Compiling once more, by position.  The operands of an instruction are cut off the end of the stack,
the parts of a statement are cut out of its tokens at the positions of the tokens that divide them,
and the coordinates of a target are found by a loop that goes from one bracket to the next.  The
operands of a literal are counted in words of 64 bits, and the depth of brackets in words of 32.

Only that depth can go wrong, in a text with a line of 2147483648 brackets: any other text that
can be addressed is compiled to the program or the failure that `compile` gives
(`front_end_faults_only_when_deep`).  No literal in a text has its shape yet (`Token.Unmarked`), so
all shapes are found by counting, and the tokens of an expression set a bound to the operands of
its literals.
-/

namespace MatrixLang.Guarded

/-! ## Trees -/

section

open MatrixLang.Expr (Operand)

/-- Cuts `n` operands off the end of the stack, whose top comes first; `what` needs them. -/
def popOperands (n : Nat) (what : String) (stack : List Operand) :
    ExceptT Error Guarded (List Operand × List Operand) := do
  if stack.length < n then throw (.illFormed (.missingOperand what))
  else
    let kept ← minus stack.length n
    let operands ← slice stack.reverse kept stack.reverse.length
    let rest ← slice stack.reverse 0 kept
    return (operands, rest.reverse)

/-- Cuts `n` trees off the end of the stack. -/
def popNodes (n : Nat) (what : String) (stack : List Operand) :
    ExceptT Error Guarded (List Expr × List Operand) := do
  let (operands, stack) ← popOperands n what stack
  let es ← plain (Expr.nodes (.illFormed (.misplacedDimension what)) operands)
  return (es, stack)

/-- Applies an operator with one operand. -/
def applyUnary (op : UnaryOperator) (symbol : String) (stack : List Operand) :
    ExceptT Error Guarded (List Operand) := do
  let (es, stack) ← popNodes 1 symbol stack
  let operand ← (item es 0 : Guarded Expr)
  return .node (.unary op operand) :: stack

/-- Applies an operator with two operands. -/
def applyBinary (op : BinaryOperator) (stack : List Operand) :
    ExceptT Error Guarded (List Operand) := do
  match ← popNodes 2 op.symbol stack with
  | ([left, right], stack) => return .node (.binary op left right) :: stack
  | _ => throw (.illFormed (.missingOperand op.symbol))

/-- Makes a matrix literal, whose dimensions are cut off its elements. -/
def applyLiteral (rows cols : Nat) (stack : List Operand) :
    ExceptT Error Guarded (List Operand) := do
  let cells ← unsigned .machine (rows * cols : Nat)
  let needed ← unsigned .machine (cells + 2 : Nat)
  let (operands, stack) ← popOperands needed "#" stack
  let elements ← slice operands 0 cells
  match ← (slice operands cells operands.length : Guarded (List Operand)) with
  | [.dim r, .dim c] =>
    if r = rows ∧ c = cols then
      let elements ← plain (Expr.nodes (.malformedLiteral .dimensionInside) elements)
      return .node (.matrix rows cols elements) :: stack
    else throw (.malformedLiteral (.noDimensions ⟨rows, cols⟩))
  | _ => throw (.malformedLiteral (.noDimensions ⟨rows, cols⟩))

/-- Applies an operator to the operands on the stack. -/
def applyOperator (op : Operator) (stack : List Operand) : ExceptT Error Guarded (List Operand) :=
  match op with
  | .binary op => applyBinary op stack
  | .neg => applyUnary .neg op.symbol stack
  | .transpose => applyUnary .transpose op.symbol stack
  | .not | .bang => applyUnary .not op.symbol stack
  | .literal rows cols => applyLiteral rows cols stack

/-- Calls a function with operands from the stack. -/
def applyCall (f : Builtin) (arity : Nat) (stack : List Operand) :
    ExceptT Error Guarded (List Operand) :=
  if f.accepts arity then do
    let (arguments, stack) ← popNodes arity f.name stack
    return .node (.call f arguments) :: stack
  else throw (.illFormed (.notAccepted f arity))

/-- What an instruction makes of the stack. -/
def step (stack : List Operand) : Instruction → ExceptT Error Guarded (List Operand)
  | .number value => return .node (.literal value) :: stack
  | .variable name => return .node (.variable name) :: stack
  | .dim size => return .dim size :: stack
  | .apply op => applyOperator op stack
  | .call f arity => applyCall f arity stack

/-- What several instructions make of the stack. -/
def steps (stack : List Operand) : List Instruction → ExceptT Error Guarded (List Operand)
  | [] => return stack
  | i :: code => do
    let stack ← step stack i
    steps stack code

/-- The tree of postfix code. -/
def ofPostfix (code : List Instruction) : ExceptT Error Guarded Expr := do
  match ← steps [] code with
  | [.node e] => return e
  | [] => throw (.illFormed .emptyExpression)
  | _ => throw (.illFormed .extraOperands)

theorem follows_popOperands (n : Nat) (what : String) (stack : List Operand) :
    Follows (popOperands n what stack) (Expr.popOperands n what stack) := by
  rw [popOperands, Expr.popOperands]
  by_cases hlength : stack.length < n
  · rw [if_pos hlength, if_pos hlength]
    exact .throw _
  · rw [if_neg hlength, if_neg hlength]
    have hkept : (stack.drop n).reverse.length = stack.length - n := by
      rw [List.length_reverse, List.length_drop]
    -- from the bottom, the operands that are kept come first
    have hreverse : stack.reverse = (stack.drop n).reverse ++ (stack.take n).reverse := by
      rw [← List.reverse_append, List.take_append_drop]
    have hoperands := slice_from (stack.drop n).reverse (stack.take n).reverse
    have hrest := slice_upTo (stack.drop n).reverse (stack.take n).reverse
    rw [← hreverse, hkept] at hoperands hrest
    refine .step (minus_eq (Nat.le_of_not_lt hlength)) (.step hoperands (.step hrest ?_))
    rw [List.reverse_reverse]
    exact .pure _

theorem follows_popNodes (n : Nat) (what : String) (stack : List Operand) :
    Follows (popNodes n what stack) (Expr.popNodes n what stack) :=
  .bind (follows_popOperands n what stack) fun _ _ =>
    .bind (.plain _) fun _ _ => .pure _

theorem follows_applyUnary (op : UnaryOperator) (symbol : String) (stack : List Operand) :
    Follows (applyUnary op symbol stack) (Expr.applyUnary op symbol stack) := by
  refine .bind (follows_popNodes 1 symbol stack) fun r hr => ?_
  obtain ⟨es, rest⟩ := r
  obtain ⟨hlength, -⟩ := (Expr.meets_popNodes_trees 1 symbol stack).of_ok hr
  obtain ⟨e, rfl⟩ := List.length_eq_one_iff.mp hlength
  exact .step rfl (.pure _)

theorem follows_applyBinary (op : BinaryOperator) (stack : List Operand) :
    Follows (applyBinary op stack) (Expr.applyBinary op stack) := by
  refine .bind (follows_popNodes 2 op.symbol stack) fun r hr => ?_
  obtain ⟨es, rest⟩ := r
  obtain ⟨hlength, -⟩ := (Expr.meets_popNodes_trees 2 op.symbol stack).of_ok hr
  obtain ⟨left, right, rfl⟩ := List.length_eq_two.mp hlength
  exact .pure _

/-- Words can count the operands of a literal. -/
def Countable (op : Operator) : Prop :=
  width op < 18446744073709551616

theorem follows_applyLiteral {rows cols : Nat} (h : Countable (.literal rows cols))
    (stack : List Operand) :
    Follows (applyLiteral rows cols stack) (Expr.applyLiteral rows cols stack) := by
  have hcells : unsigned .machine (rows * cols : Nat) = .ok (rows * cols) :=
    unsigned_natCast fun _ => Nat.lt_of_le_of_lt (Nat.le_add_right _ 2) h
  have hneeded : unsigned .machine (rows * cols + 2 : Nat) = .ok (rows * cols + 2) :=
    unsigned_natCast fun _ => h
  refine .step hcells (.step hneeded ?_)
  refine .bind (follows_popOperands (rows * cols + 2) "#" stack) fun r hr => ?_
  obtain ⟨operands, rest⟩ := r
  obtain ⟨hlength, -⟩ :=
    (Expr.meets_popOperands_split (Q := fun _ => True) trivial _ stack).of_ok hr
  dsimp only at hlength ⊢
  have hcells : (operands.take (rows * cols)).length = rows * cols := by
    rw [List.length_take, Nat.min_eq_left (by omega)]
  have hfirst := slice_upTo (operands.take (rows * cols)) (operands.drop (rows * cols))
  have hlast := slice_from (operands.take (rows * cols)) (operands.drop (rows * cols))
  rw [List.take_append_drop, hcells] at hfirst hlast
  refine .step hfirst (.step hlast ?_)
  have hdimensions : (operands.drop (rows * cols)).length = 2 := by
    rw [List.length_drop]
    omega
  obtain ⟨x, y, hxy⟩ := List.length_eq_two.mp hdimensions
  rw [hxy]
  cases x with
  | node => exact .throw _
  | dim r =>
    cases y with
    | node => exact .throw _
    | dim c =>
      dsimp only
      by_cases hshape : r = rows ∧ c = cols
      · rw [if_pos hshape, if_pos hshape]
        exact .bind (.plain _) fun _ _ => .pure _
      · rw [if_neg hshape, if_neg hshape]
        exact .throw _

theorem follows_applyOperator {op : Operator} (h : Countable op) (stack : List Operand) :
    Follows (applyOperator op stack) (Expr.applyOperator op stack) := by
  cases op with
  | binary op => exact follows_applyBinary op stack
  | neg | transpose | not | bang => exact follows_applyUnary _ _ stack
  | literal rows cols => exact follows_applyLiteral h stack

theorem follows_applyCall (f : Builtin) (arity : Nat) (stack : List Operand) :
    Follows (applyCall f arity stack) (Expr.applyCall f arity stack) := by
  rw [applyCall, Expr.applyCall]
  by_cases haccepts : f.accepts arity = true
  · rw [if_pos haccepts, if_pos haccepts]
    exact .bind (follows_popNodes arity f.name stack) fun _ _ => .pure _
  · rw [if_neg haccepts, if_neg haccepts]
    exact .throw _

theorem follows_step {i : Instruction} (h : i.Applies Countable) (stack : List Operand) :
    Follows (step stack i) (Expr.step stack i) := by
  cases i with
  | apply op => exact follows_applyOperator h stack
  | call f arity => exact follows_applyCall f arity stack
  | _ => exact .pure _

theorem follows_steps {code : List Instruction} (h : ∀ i ∈ code, i.Applies Countable)
    (stack : List Operand) : Follows (steps stack code) (Expr.steps stack code) := by
  induction code generalizing stack with
  | nil => exact .pure _
  | cons i code ih =>
    obtain ⟨hi, hcode⟩ := List.forall_mem_cons.mp h
    exact .bind (follows_step hi stack) fun stack _ => ih hcode stack

/-- **Building a tree never asks for operands that are not there.** -/
theorem follows_ofPostfix {code : List Instruction} (h : ∀ i ∈ code, i.Applies Countable) :
    Follows (ofPostfix code) (Expr.ofPostfix code) := by
  refine .bind (follows_steps h []) fun stack _ => ?_
  rcases stack with _ | ⟨e | size, _ | ⟨o, stack⟩⟩
  · exact .throw _
  · exact .pure _
  all_goals exact .throw _

end

/-! ## Parts of a statement -/

open Fault (TooDeep)
open Token (isBracket resolveBrackets splitBrackets splitParens)
open Program (Coordinates splitTopLevel)

/-- The position of the first token, outside parentheses and brackets, for which `mark` gives
something, and what it gives; `i` is the position of the first of the tokens. -/
def topLevelFrom {α : Type} (mark : Token → Option α) (i : Nat) (depth : Int) :
    List Token → Guarded (Option (Nat × α))
  | [] => return none
  | t :: ts =>
    match mark t, decide (depth = 0) with
    | some a, true => return some (i, a)
    | _, _ => do
      let depth ← fit .machine .signed32 (Program.depthAfter depth t)
      topLevelFrom mark (i + 1) depth ts

/-- Cuts tokens at the first one, outside parentheses and brackets, for which `mark` gives
something. -/
def cutTopLevel {α : Type} (mark : Token → Option α) (ts : List Token) :
    Guarded (Option (List Token × α × List Token)) := do
  match ← topLevelFrom mark 0 0 ts with
  | none => return none
  | some (i, a) =>
    let before ← slice ts 0 i
    let after ← slice ts (i + 1) ts.length
    return some (before, a, after)

theorem natAbs_depthAfter_le (depth : Int) (t : Token) (ts : List Token) :
    (Program.depthAfter depth t).natAbs + ts.countP isBracket ≤
      depth.natAbs + (t :: ts).countP isBracket := by
  rw [List.countP_cons]
  cases t with
  | openParen | closeParen | openBracket | closeBracket =>
    simp only [Program.depthAfter, isBracket, if_true]
    omega
  | _ => exact Nat.add_le_add_left (Nat.le_add_right _ _) _

section

variable {reason : Prop} {ts : List Token}

theorem givesUnless_topLevelFrom {α : Type} (mark : Token → Option α) (i : Nat) (depth : Int)
    (h : 2147483648 ≤ depth.natAbs + ts.countP isBracket → reason) :
    GivesUnless (TooDeep reason) (topLevelFrom mark i depth ts)
      ((splitTopLevel mark depth ts).map fun r => (i + r.1.length, r.2.1)) := by
  induction ts generalizing i depth with
  | nil => exact .of_eq rfl
  | cons t ts ih =>
    have hmore : GivesUnless (TooDeep reason)
        (do
          let depth ← fit .machine .signed32 (Program.depthAfter depth t)
          topLevelFrom mark (i + 1) depth ts)
        (((splitTopLevel mark (Program.depthAfter depth t) ts).map fun r =>
          (t :: r.1, r.2.1, r.2.2)).map fun r => (i + r.1.length, r.2.1)) := by
      have hnext := natAbs_depthAfter_le depth t ts
      refine .bind (givesUnless_depth fun hdeep => h (by omega)) ?_
      rw [Option.map_map]
      have hrest := ih (i + 1) (Program.depthAfter depth t) fun hdeep => h (by omega)
      simp only [Nat.add_assoc, Nat.add_comm 1] at hrest
      exact hrest
    rw [topLevelFrom, splitTopLevel]
    cases mark t with
    | none => exact hmore
    | some a =>
      by_cases hdepth : depth = 0
      · rw [decide_eq_true hdepth]
        exact .of_eq rfl
      · rw [decide_eq_false hdepth]
        exact hmore

theorem givesUnless_topLevel {α : Type} (h : Held reason ts) (mark : Token → Option α) :
    GivesUnless (TooDeep reason) (topLevelFrom mark 0 0 ts)
      ((splitTopLevel mark 0 ts).map fun r => (0 + r.1.length, r.2.1)) :=
  givesUnless_topLevelFrom mark 0 0 fun hdeep =>
    h.brackets (by rwa [Int.natAbs_zero, Nat.zero_add] at hdeep)

theorem givesUnless_cutTopLevel {α : Type} (h : Held reason ts) (mark : Token → Option α) :
    GivesUnless (TooDeep reason) (cutTopLevel mark ts) (splitTopLevel mark 0 ts) := by
  refine .bind (givesUnless_topLevel h mark) (.of_eq ?_)
  cases hsplit : splitTopLevel mark 0 ts with
  | none => rfl
  | some r =>
    obtain ⟨before, a, after⟩ := r
    obtain ⟨t, rfl⟩ := Program.splitTopLevel_eq_some hsplit
    dsimp only [Option.map_some]
    rw [Nat.zero_add, slice_upTo, slice_after]
    rfl

end

/-- The groups in brackets from position `i` on, if there is nothing else. -/
def groupsFrom (ts : List Token) : (fuel i : Nat) → Guarded (Option (List (List Token)))
  | 0, _ => throw .endless
  | fuel + 1, i =>
    if i < ts.length then do
      let t ← item ts i
      if t.isOpenBracket then
        match ← closingBracket ts i with
        | none => return none
        | some close =>
          let group ← slice ts (i + 1) close
          let groups ← groupsFrom ts fuel (close + 1)
          return groups.map (group :: ·)
      else return none
    else return some []

/-- One group before the coordinates. -/
def extend (group : List Token) : Coordinates → Option Coordinates
  | .none => some (.one group)
  | .one col => some (.two group col)
  | .two .. => none

/-- The coordinates that groups in brackets are. -/
def toCoordinates : List (List Token) → Option Coordinates
  | [] => some .none
  | group :: groups => (toCoordinates groups).bind (extend group)

/-- The coordinates after the name of a target. -/
def coordinates? (ts : List Token) : Guarded (Option Coordinates) := do
  let groups ← groupsFrom ts (ts.length + 1) 0
  return groups.bind toCoordinates

theorem coordinates?_openBracket (ts : List Token) : Program.coordinates? (.openBracket :: ts) =
    (splitBrackets ts).bind fun r => (Program.coordinates? r.2).bind (extend r.1) := by
  rw [Program.coordinates?]
  rcases splitBrackets ts with _ | ⟨row, _ | ⟨t, rest⟩⟩
  · rfl
  · rfl
  · by_cases hopen : t.isOpenBracket = true
    · obtain rfl : t = .openBracket := by cases t <;> cases hopen; rfl
      dsimp only [Option.bind_some]
      rw [Program.coordinates?]
      rcases splitBrackets rest with _ | ⟨col, _ | ⟨u, more⟩⟩
      · rfl
      · rfl
      · by_cases hthird : u.isOpenBracket = true
        · obtain rfl : u = .openBracket := by cases u <;> cases hthird; rfl
          dsimp only
          rcases splitBrackets more with _ | ⟨last, _ | ⟨v, others⟩⟩
          all_goals rfl
        · cases u with
          | openBracket => exact absurd rfl hthird
          | _ => rfl
    · cases t with
      | openBracket => exact absurd rfl hopen
      | _ => rfl

/-- The loop comes to the end of the tokens before its rounds run out. -/
theorem groupsFrom_eq {fuel : Nat} {ts : List Token} (h : ts.length < fuel)
    (before : List Token) : ∃ groups, groupsFrom (before ++ ts) fuel before.length = .ok groups ∧
      groups.bind toCoordinates = Program.coordinates? ts := by
  induction fuel generalizing ts before with
  | zero => exact absurd h (Nat.not_lt_zero _)
  | succ fuel ih =>
    rw [groupsFrom]
    cases ts with
    | nil =>
      rw [List.append_nil, if_neg (Nat.lt_irrefl _)]
      exact ⟨_, rfl, rfl⟩
    | cons t ts =>
      have hlength : before.length < (before ++ t :: ts).length := by simp
      rw [if_pos hlength, item_append, ok_bind]
      by_cases hopen : t.isOpenBracket = true
      · obtain rfl : t = .openBracket := by cases t <;> cases hopen; rfl
        rw [if_pos hopen, closingBracket_eq, ok_bind, coordinates?_openBracket]
        cases hsplit : splitBrackets ts with
        | none => exact ⟨_, rfl, rfl⟩
        | some r =>
          obtain ⟨inside, rest⟩ := r
          obtain ⟨u, -, rfl⟩ := Program.splitGroup_eq_some hsplit
          -- the next round starts behind the bracket that closes the group
          have hshorter : rest.length < fuel := by
            simp only [List.length_cons, List.length_append] at h
            omega
          obtain ⟨groups, hgroups, hrest⟩ := ih hshorter (before ++ .openBracket :: (inside ++ [u]))
          have hwhole : before ++ .openBracket :: (inside ++ [u]) ++ rest =
              before ++ .openBracket :: (inside ++ u :: rest) := by simp
          have hnext : (before ++ .openBracket :: (inside ++ [u])).length =
              before.length + 1 + inside.length + 1 := by
            simp only [List.length_append, List.length_cons, List.length_nil]
            omega
          rw [hwhole, hnext] at hgroups
          dsimp only [Option.map_some, Option.bind_some]
          rw [slice_between, ok_bind, hgroups, ok_bind, ← hrest]
          refine ⟨_, rfl, ?_⟩
          cases groups with
          | none => rfl
          | some groups => rfl
      · rw [if_neg hopen]
        refine ⟨_, rfl, ?_⟩
        cases t with
        | openBracket => exact absurd rfl hopen
        | _ => rfl

theorem coordinates?_eq (ts : List Token) :
    coordinates? ts = .ok (Program.coordinates? ts) := by
  obtain ⟨groups, hgroups, hcoordinates⟩ := groupsFrom_eq (Nat.lt_succ_self ts.length) []
  have hstart : groupsFrom ts (ts.length + 1) 0 = .ok groups := hgroups
  rw [coordinates?, hstart, ← hcoordinates]
  rfl

/-! ## Statements -/

open Program (Clause ForHead Open)

/-- A part of compiling a line. -/
def atLine {α : Type} (line : Nat) (x : ExceptT Error Guarded α) : ExceptT Failure Guarded α :=
  ExceptT.mk ((Except.mapError fun cause => ⟨.compile, line, cause⟩) <$> x.run)

/-- A part of compiling without positions or counters. -/
def ofNoted {α : Type} (y : Noted α) : ExceptT Failure Guarded α :=
  plain y.result

/-- A guarded part of compiling that does what `y` does, unless a depth is out of range, for which
there is a reason. -/
def Tracks {α : Type} (reason : Prop) (x : ExceptT Failure Guarded α) (y : Noted α) : Prop :=
  FollowsUnless (TooDeep reason) x y.result

namespace Tracks

variable {reason : Prop} {α β : Type} {x : ExceptT Failure Guarded α} {y : Noted α} {a : α}
  {f : α → ExceptT Failure Guarded β} {g : α → Noted β}

theorem pure (a : α) : Tracks reason (pure a) (pure a) := .of_eq rfl

theorem ofNoted (y : Noted α) : Tracks reason (ofNoted y) y := .of_eq rfl

theorem bind (hx : Tracks reason x y) (hf : ∀ a, y.result = .ok a → Tracks reason (f a) (g a)) :
    Tracks reason (x >>= f) (y >>= g) := by
  rw [Tracks, Noted.result_bind]
  exact FollowsUnless.bind hx hf

theorem step {x : Guarded α} {z : Noted β} (hx : GivesUnless (TooDeep reason) x a)
    (hf : Tracks reason (f a) z) : Tracks reason (liftM x >>= f) z :=
  FollowsUnless.step hx hf

/-- Notes are left out. -/
theorem note {n : Note} (h : Tracks reason x y) :
    Tracks reason x (Noted.note n >>= fun _ => y) := by
  rw [Tracks, Noted.result_bind]
  exact h

theorem atLine {x : ExceptT Error Guarded α} {y : Except Error α} (h : Follows x y) (line : Nat) :
    Tracks reason (atLine line x) (Noted.atLine line y) := by
  refine .of_eq ?_
  rw [Guarded.atLine, ExceptT.run_mk, h]
  rfl

end Tracks

theorem eq_ok_of_atLine {α : Type} {line : Nat} {x : Except Error α} {a : α}
    (h : (Noted.atLine line x).result = .ok a) : x = .ok a := by
  cases x with
  | error e => cases h
  | ok b =>
    cases h
    rfl

/-- Compiles an expression.  No literal may have more operands than the expression has tokens, nor
more than one above the number of tokens that it was scanned to. -/
def expression (line : Nat) (ts : List Token) : ExceptT Failure Guarded Expr := do
  let prepared ← atLine line (prepare ts)
  -- the tokens once their brackets are settled, and those of the text
  checkWidths (resolveBrackets ts).length prepared
  checkWidths (ts.length + 1) prepared
  let code ← ofNoted (Noted.atLine line (Postfix.ofTokens prepared))
  atLine line (ofPostfix code)

/-- Fails in a line. -/
def failForm {α : Type} (line : Nat) (fault : FormFault) : ExceptT Failure Guarded α :=
  throw ⟨.compile, line, .illFormed fault⟩

/-- Compiles an assignment from its two sides. -/
def assignment (line : Nat) (target value : List Token) : ExceptT Failure Guarded Statement := do
  if value.isEmpty then failForm line .missingValue
  else
    match target.head? with
    | some (.name name) =>
      let rest ← slice target 1 target.length
      match ← (coordinates? rest : Guarded (Option Coordinates)) with
      | none => failForm line .invalidTarget
      | some .none => return .assign line name (← expression line value)
      | some (.one index) =>
        let index ← expression line index
        return .assignIndex line name index (← expression line value)
      | some (.two row col) =>
        let row ← expression line row
        let col ← expression line col
        return .assignBlock line name row col (← expression line value)
    | _ => failForm line .invalidTarget

/-- What an assignment is cut at. -/
def assignMark : Token → Option Unit
  | .assign => some ()
  | _ => none

/-- Compiles an assignment or an expression statement. -/
def simple (line : Nat) (ts : List Token) : ExceptT Failure Guarded Statement := do
  match ← (cutTopLevel assignMark ts : Guarded (Option (List Token × Unit × List Token))) with
  | some (target, _, value) => assignment line target value
  | none => return .eval line (← expression line ts)

/-- The condition in parentheses and the body after it, if tokens are a clause with its body on
the same line. -/
def inlineBody? (braced : Bool) (ts : List Token) : Guarded (Option (List Token × List Token)) := do
  let t ← item ts 0
  if t.isOpenParen then
    match ← closingParen ts 0 with
    | none => return none
    | some close =>
      let body ← slice ts (close + 1) ts.length
      if body.isEmpty then return none
      else
        let place ← topLevelFrom assignMark 0 0 body
        if place.isSome || !braced then
          let condition ← slice ts 0 (close + 1)
          return some (condition, body)
        else return none
  else return none

/-- Compiles the clause of an `if`, `elseif` or `while`. -/
def clause (line : Nat) (braced : Bool) (ts : List Token) : ExceptT Failure Guarded Clause := do
  if ts.isEmpty then failForm line .missingCondition
  else
    match ← (inlineBody? braced ts : Guarded (Option (List Token × List Token))) with
    | some (condition, body) =>
      let condition ← expression line condition
      return .inline condition (← simple line body)
    | none => return .head (← expression line ts)

/-- Compiles the head of a `for` statement. -/
def forHead (line : Nat) (ts : List Token) : ExceptT Failure Guarded ForHead := do
  match ts.head? with
  | some (.name name) =>
    match ts[1]? with
    | some .assign =>
      let rest ← slice ts 2 ts.length
      match ← (cutTopLevel Program.directionOf rest :
          Guarded (Option (List Token × Direction × List Token))) with
      | none => failForm line (.malformedFor .noDirection)
      | some (start, direction, limit) =>
        if start.isEmpty || limit.isEmpty then failForm line (.malformedFor .noBound)
        else
          let start ← expression line start
          let limit ← expression line limit
          return ⟨name, start, limit, direction⟩
    | _ => failForm line (.malformedFor .noAssign)
  | _ => failForm line (.malformedFor .noVariable)

/-- Reads the clause of a branch of the `if` in line `line`. -/
def branch (line : Nat) (branches : List Branch) (here : Nat) (braced : Bool)
    (ts : List Token) : ExceptT Failure Guarded (List Statement × Open) := do
  match ← clause here braced ts with
  | .inline condition body => return ([], .chain line (branches ++ [.mk condition [body]]))
  | .head condition => return ([], .branchBody line branches here condition)

/-- Starts a statement. -/
def start (line : Nat) (braced : Bool) (ts : List Token) :
    ExceptT Failure Guarded (List Statement × Open) := do
  match ts.head? with
  | some (.keyword .ifWord) =>
    let rest ← slice ts 1 ts.length
    branch line [] line braced rest
  | some (.keyword .whileWord) =>
    let rest ← slice ts 1 ts.length
    match ← clause line braced rest with
    | .inline condition body => ofNoted (Program.finish (.whileLoop line condition [body]))
    | .head condition => return ([], .whileBody line condition)
  | some (.keyword .forWord) =>
    let rest ← slice ts 1 ts.length
    return ([], .forBody line (← forHead line rest))
  | some (.keyword .elseifWord) => failForm line (.noMatchingIf .elseifWord)
  | some (.keyword .elseWord) => failForm line (.noMatchingIf .elseWord)
  | _ =>
    let s ← simple line ts
    ofNoted (Program.finish s)

/-- Goes on with an open `if` at a text that may belong to it, and starts a new statement if it
does not. -/
def continueIf (line : Nat) (branches : List Branch) (here : Nat) (braced : Bool)
    (ts : List Token) : ExceptT Failure Guarded (List Statement × Open) := do
  match ts.head? with
  | some (.keyword .elseifWord) =>
    let rest ← slice ts 1 ts.length
    branch line branches here braced rest
  | some (.keyword .elseWord) =>
    let rest ← slice ts 1 ts.length
    match rest.head? with
    | some (.keyword .ifWord) =>
      let rest ← slice rest 1 rest.length
      branch line branches here braced rest
    | none => return ([], .elseBody line branches here)
    | _ =>
      let body ← simple here rest
      ofNoted (Program.finish (.choose line branches (some [body])))
  | _ =>
    let (closed, _) ← ofNoted (Program.finish (.choose line branches none))
    let (ready, next) ← start here braced ts
    return (closed ++ ready, next)

/-- Reads a text: the statements it finishes and what is open after it. -/
def read (opened : Open) (line : Nat) (text : String) (braced : Bool) :
    ExceptT Failure Guarded (List Statement × Open) := do
  match opened with
  | .nothing =>
    let ts ← ofNoted (Noted.atLine line (Token.scan text))
    start line braced ts
  | .chain first branches =>
    let ts ← ofNoted (Noted.atLine line (Token.scan text))
    continueIf first branches line braced ts
  | opened => ofNoted opened.settle

/-- Compiles the statements of an outline, of which `opened` has been read before. -/
def statementsFrom (opened : Open) : Outline → ExceptT Failure Guarded (List Statement)
  | .done => do
    let (ready, _) ← ofNoted opened.settle
    return ready
  | .text line text rest => do
    let (ready, next) ← read opened line text rest.startsWithBlock
    return ready ++ (← statementsFrom next rest)
  | .block line inside rest => do
    let (ready, opened) ← ofNoted opened.enter
    let body ← statementsFrom .nothing inside
    let (closed, next) ← ofNoted (opened.close line body)
    return ready ++ closed ++ (← statementsFrom next rest)

/-- Compiles a source text. -/
def compile (source : String) : ExceptT Failure Guarded Program := do
  let segments ← segment source
  let statements ← statementsFrom .nothing (Outline.ofSegments segments)
  return ⟨statements, Names.ofList (Statement.namesOfBody statements)⟩

section

variable {reason : Prop}

theorem tracks_failForm {α : Type} (line : Nat) (fault : FormFault) :
    Tracks reason (failForm line fault : ExceptT Failure Guarded α)
      (Program.failForm line fault) :=
  .of_eq rfl

theorem tracks_expression {ts : List Token} (h : Held reason ts) (line : Nat) :
    Tracks reason (expression line ts) (Program.expression line ts) := by
  refine .bind (.atLine (follows_prepare ts) line) fun prepared hprepared => ?_
  -- the tokens come from the text, so all shapes have been counted
  obtain ⟨hsettled, hscanned⟩ := allWithin_prepare (eq_ok_of_atLine hprepared) h.unmarked
  refine .step (.of_eq (checkWidths_eq hsettled)) (.step (.of_eq (checkWidths_eq hscanned)) ?_)
  refine .note (.bind (.ofNoted _) fun code hcode => .note ?_)
  have hcountable : ∀ t ∈ prepared, ∀ op, t = .operator op → Countable op := by
    intro t ht op hop
    have hwidth := hscanned t ht op hop
    have hlength := h.length
    rw [Countable]
    omega
  have hneg : Countable .neg := show 0 < 18446744073709551616 by decide
  have hoperators := Postfix.meets_ofTokens hneg hcountable
  exact .atLine (follows_ofPostfix (hoperators.of_ok (eq_ok_of_atLine hcode))) line

theorem slice_tail (t : Token) (ts : List Token) : slice (t :: ts) 1 (t :: ts).length = .ok ts :=
  slice_after [] ts t

theorem tracks_assignment {target value : List Token} (htarget : Held reason target)
    (hvalue : Held reason value) (line : Nat) :
    Tracks reason (assignment line target value) (Program.assignment line target value) := by
  have hlast := tracks_expression hvalue line
  unfold assignment Program.assignment
  by_cases hempty : value.isEmpty = true
  · rw [if_pos hempty, if_pos hempty]
    exact tracks_failForm line _
  · rw [if_neg hempty, if_neg hempty]
    cases target with
    | nil => exact tracks_failForm line _
    | cons t rest =>
      cases t with
      | name name =>
        refine .step (.of_eq (slice_tail _ rest)) (.step (.of_eq (coordinates?_eq rest)) ?_)
        dsimp only
        cases hcoordinates : Program.coordinates? rest with
        | none => exact tracks_failForm line _
        | some coordinates =>
          have hparts := Program.coordinates?_within hcoordinates
          cases coordinates with
          | none => exact .bind hlast fun e _ => .pure _
          | one index =>
            refine .bind (tracks_expression (htarget.tail.sublist hparts) line) fun i _ => ?_
            exact .bind hlast fun e _ => .pure _
          | two row col =>
            refine .bind (tracks_expression (htarget.tail.sublist hparts.1) line) fun r _ => ?_
            refine .bind (tracks_expression (htarget.tail.sublist hparts.2) line) fun c _ => ?_
            exact .bind hlast fun e _ => .pure _
      | _ => exact tracks_failForm line _

theorem splitAssign_eq (ts : List Token) : Program.splitAssign ts =
    (splitTopLevel assignMark 0 ts).map fun r => (r.1, r.2.2) := rfl

theorem tracks_simple {ts : List Token} (h : Held reason ts) (line : Nat) :
    Tracks reason (simple line ts) (Program.simple line ts) := by
  refine .step (givesUnless_cutTopLevel h assignMark) ?_
  rw [Program.simple]
  cases hsplit : Program.splitAssign ts with
  | none =>
    rw [splitAssign_eq] at hsplit
    rw [Option.map_eq_none_iff.mp hsplit]
    exact .bind (tracks_expression h line) fun e _ => .pure _
  | some r =>
    obtain ⟨target, value⟩ := r
    obtain ⟨htarget, hvalue⟩ := Program.splitAssign_sublist hsplit
    rw [splitAssign_eq] at hsplit
    obtain ⟨⟨before, u, after⟩, hcut, heq⟩ := Option.map_eq_some_iff.mp hsplit
    cases heq
    rw [hcut]
    exact tracks_assignment (h.sublist htarget) (h.sublist hvalue) line

theorem givesUnless_inlineBody? {ts : List Token} (h : Held reason ts) (hne : ts ≠ [])
    (braced : Bool) :
    GivesUnless (TooDeep reason) (inlineBody? braced ts) (Program.inlineBody? braced ts) := by
  obtain ⟨t, rest, rfl⟩ := List.exists_cons_of_ne_nil hne
  have hfirst : item (t :: rest) 0 = .ok t := rfl
  rw [inlineBody?, hfirst, ok_bind]
  by_cases hopen : t.isOpenParen = true
  · obtain rfl : t = .openParen := by cases t <;> cases hopen; rfl
    have hclosing : closingParen (.openParen :: rest) 0 =
        .ok ((splitParens rest).map fun r => 1 + r.1.length) := closingParen_eq [] rest
    rw [if_pos hopen, hclosing, ok_bind, Program.inlineBody?]
    cases hsplit : splitParens rest with
    | none => exact .of_eq rfl
    | some r =>
      obtain ⟨inside, body⟩ := r
      have hbody := h.tail.sublist (Program.splitGroup_sublist hsplit).2
      obtain ⟨u, hclose, rfl⟩ := Program.splitGroup_eq_some hsplit
      obtain rfl : u = .closeParen := by cases u <;> cases hclose; rfl
      have hafter : slice (.openParen :: (inside ++ .closeParen :: body)) (inside.length + 1 + 1)
          (.openParen :: (inside ++ .closeParen :: body)).length = .ok body :=
        slice_after (.openParen :: inside) body .closeParen
      have hcondition : slice (.openParen :: (inside ++ .closeParen :: body)) 0
          (inside.length + 1 + 1) = .ok (.openParen :: inside ++ [.closeParen]) := by
        have hslice := slice_upTo (.openParen :: inside ++ [.closeParen]) body
        rw [List.append_assoc, List.length_append] at hslice
        exact hslice
      dsimp only [Option.map_some]
      rw [Nat.add_comm 1, hafter, ok_bind, hcondition]
      by_cases hempty : body.isEmpty = true
      · rw [if_pos hempty, hempty]
        exact .of_eq rfl
      · rw [if_neg hempty, Bool.eq_false_iff.mpr hempty]
        refine .bind (givesUnless_topLevel hbody assignMark) ?_
        rw [Option.isSome_map, splitAssign_eq, Option.isSome_map, Bool.not_false, Bool.true_and]
        by_cases hinline : ((splitTopLevel assignMark 0 body).isSome || !braced) = true
        · rw [if_pos hinline, if_pos hinline]
          exact .of_eq rfl
        · rw [if_neg hinline, if_neg hinline]
          exact .of_eq rfl
  · rw [if_neg hopen]
    cases t with
    | openParen => exact absurd rfl hopen
    | _ => exact .of_eq rfl

theorem tracks_clause {ts : List Token} (h : Held reason ts) (line : Nat) (braced : Bool) :
    Tracks reason (clause line braced ts) (Program.clause line braced ts) := by
  unfold clause Program.clause
  by_cases hempty : ts.isEmpty = true
  · rw [if_pos hempty, if_pos hempty]
    exact tracks_failForm line _
  · rw [if_neg hempty, if_neg hempty]
    refine .step (givesUnless_inlineBody? h (mt List.isEmpty_iff.mpr hempty) braced) ?_
    cases hinline : Program.inlineBody? braced ts with
    | none => exact .bind (tracks_expression h line) fun e _ => .pure _
    | some r =>
      obtain ⟨hcondition, hbody⟩ := Program.inlineBody?_sublist hinline
      refine .bind (tracks_expression (h.sublist hcondition) line) fun e _ => ?_
      exact .bind (tracks_simple (h.sublist hbody) line) fun s _ => .pure _

theorem tracks_forHead {ts : List Token} (h : Held reason ts) (line : Nat) :
    Tracks reason (forHead line ts) (Program.forHead line ts) := by
  rcases ts with _ | ⟨t, _ | ⟨u, rest⟩⟩
  · exact tracks_failForm line _
  · cases t with
    | name name => exact tracks_failForm line _
    | _ => exact tracks_failForm line _
  · cases t with
    | name name =>
      cases u with
      | assign =>
        have hrest := h.tail.tail
        refine .step (.of_eq (slice_after [.name name] rest .assign)) ?_
        refine .step (givesUnless_cutTopLevel hrest Program.directionOf) ?_
        dsimp only [Program.forHead]
        cases hsplit : splitTopLevel Program.directionOf 0 rest with
        | none => exact tracks_failForm line _
        | some r =>
          obtain ⟨start, direction, limit⟩ := r
          obtain ⟨v, rfl⟩ := Program.splitTopLevel_eq_some hsplit
          obtain ⟨hstart, hlimit⟩ := Program.sublist_around start limit v
          dsimp only
          by_cases hempty : (start.isEmpty || limit.isEmpty) = true
          · rw [if_pos hempty, if_pos hempty]
            exact tracks_failForm line _
          · rw [if_neg hempty, if_neg hempty]
            refine .bind (tracks_expression (hrest.sublist hstart) line) fun e _ => ?_
            exact .bind (tracks_expression (hrest.sublist hlimit) line) fun f _ => .pure _
      | _ => exact tracks_failForm line _
    | _ => exact tracks_failForm line _

theorem tracks_branch {ts : List Token} (h : Held reason ts) (line : Nat)
    (branches : List Branch) (here : Nat) (braced : Bool) :
    Tracks reason (branch line branches here braced ts)
      (Program.branch line branches here braced ts) := by
  refine .bind (tracks_clause h here braced) fun c _ => ?_
  cases c with
  | inline condition body => exact .pure _
  | head condition => exact .pure _

theorem tracks_start {ts : List Token} (h : Held reason ts) (line : Nat) (braced : Bool) :
    Tracks reason (start line braced ts) (Program.start line braced ts) := by
  -- all that starts with none of the words below
  have hsimple : Tracks reason (simple line ts >>= fun s => ofNoted (Program.finish s))
      (Program.simple line ts >>= Program.finish) :=
    .bind (tracks_simple h line) fun s _ => .ofNoted _
  cases ts with
  | nil => exact hsimple
  | cons t rest =>
    have hslice := slice_tail t rest
    cases t with
    | keyword word =>
      cases word with
      | ifWord => exact .step (.of_eq hslice) (tracks_branch h.tail line [] line braced)
      | whileWord =>
        refine .step (.of_eq hslice) (.bind (tracks_clause h.tail line braced) fun c _ => ?_)
        cases c with
        | inline condition body => exact .ofNoted _
        | head condition => exact .pure _
      | forWord =>
        exact .step (.of_eq hslice) (.bind (tracks_forHead h.tail line) fun head _ => .pure _)
      | elseifWord | elseWord => exact tracks_failForm line _
      | toWord | downtoWord => exact hsimple
    | _ => exact hsimple

theorem tracks_continueIf {ts : List Token} (h : Held reason ts) (line : Nat)
    (branches : List Branch) (here : Nat) (braced : Bool) :
    Tracks reason (continueIf line branches here braced ts)
      (Program.continueIf line branches here braced ts) := by
  -- the text is no part of the `if`
  have hother : Tracks reason
      (do
        let (closed, _) ← ofNoted (Program.finish (.choose line branches none))
        let (ready, next) ← start here braced ts
        return (closed ++ ready, next))
      (do
        let (closed, _) ← Program.finish (.choose line branches none)
        let (ready, next) ← Program.start here braced ts
        return (closed ++ ready, next)) :=
    .bind (.ofNoted _) fun r _ => .bind (tracks_start h here braced) fun r' _ => .pure _
  cases ts with
  | nil => exact hother
  | cons t rest =>
    have hslice := slice_tail t rest
    cases t with
    | keyword word =>
      cases word with
      | elseifWord =>
        exact .step (.of_eq hslice) (tracks_branch h.tail line branches here braced)
      | elseWord =>
        refine .step (.of_eq hslice) ?_
        have hsimple : Tracks reason
            (do
              let body ← simple here rest
              ofNoted (Program.finish (.choose line branches (some [body]))))
            (do
              let body ← Program.simple here rest
              Program.finish (.choose line branches (some [body]))) :=
          .bind (tracks_simple h.tail here) fun s _ => .ofNoted _
        cases rest with
        | nil => exact .pure _
        | cons u rest =>
          cases u with
          | keyword word =>
            cases word with
            | ifWord =>
              exact .step (.of_eq (slice_tail _ rest))
                (tracks_branch h.tail.tail line branches here braced)
            | _ => exact hsimple
          | _ => exact hsimple
      | _ => exact hother
    | _ => exact hother

theorem tracks_read {text : String} (h : TextHeld reason text) (opened : Open) (line : Nat)
    (braced : Bool) :
    Tracks reason (read opened line text braced) (opened.read line text braced) := by
  cases opened with
  | nothing =>
    exact .bind (.ofNoted _) fun ts hts => tracks_start (h ts (eq_ok_of_atLine hts)) line braced
  | chain first branches =>
    exact .bind (.ofNoted _) fun ts hts =>
      tracks_continueIf (h ts (eq_ok_of_atLine hts)) first branches line braced
  | _ => exact .ofNoted _

/-- Compiling an outline goes from text to text, and each is compiled by its positions. -/
theorem tracks_statementsFrom {segments : List Segment} {o : Outline} (hnests : Nests segments o)
    (h : ∀ line text, .text line text ∈ segments → TextHeld reason text) (opened : Open) :
    Tracks reason (statementsFrom opened o) (Program.statementsFrom opened o) := by
  induction hnests generalizing opened with
  | done => exact .bind (.ofNoted _) fun _ _ => .pure _
  | @text line source segments o hnests ih =>
    have htext := h line source List.mem_cons_self
    refine .bind (tracks_read htext opened line o.startsWithBlock) fun r _ => ?_
    have hrest := ih (fun n text hmem => h n text (List.mem_cons_of_mem _ hmem)) r.2
    exact .bind hrest fun ss _ => .pure _
  | @block line last segments more o p hinside hrest ihinside ihrest =>
    have hfirst := ihinside fun n text hmem => h n text (by simp [hmem])
    have hlast := ihrest fun n text hmem => h n text (by simp [hmem])
    refine .bind (.ofNoted _) fun r _ => .bind (hfirst .nothing) fun body _ => ?_
    exact .bind (.ofNoted _) fun r' _ => .bind (hlast r'.2) fun ss _ => .pure _

end

/-- **Compiling ends as it should, unless a line of the text is too deep.** -/
theorem followsUnless_compile {source : String} (h : Addressable source) :
    FollowsUnless (TooDeep (Segment.Deep source)) (compile source)
      (MatrixLang.compile source) := by
  have hplain : MatrixLang.compile source = do
      let segments ← MatrixLang.segment source
      let statements ← (Program.statementsFrom .nothing (Outline.ofSegments segments)).result
      return ⟨statements, Names.ofList (Statement.namesOfBody statements)⟩ := by
    rw [compile_eq, MatrixLang.segment, bind_assoc]
    rfl
  rw [hplain]
  refine .bind (followsUnless_segment source) fun segments hsegments => ?_
  obtain ⟨_, hbraces, hcut⟩ := exists_of_bind_eq_ok hsegments
  cases hcut
  have hstatements := tracks_statementsFrom (nests_ofSegments hbraces)
    (fun line text hmem => textHeld_of_mem_cut h hmem) .nothing
  exact .bind hstatements fun ss _ => .of_follows (.pure _)

/-- A depth does get out of range. -/
theorem compile_replicate {n : Nat} (h : 2147483648 ≤ n) :
    (compile (String.ofList (List.replicate n '('))).run = .error (.overflow .signed32) := by
  have hsegment := segment_replicate h
  show (segment (String.ofList (List.replicate n '('))).run >>= _ = _
  rw [hsegment]
  rfl

end MatrixLang.Guarded

namespace MatrixLang

/-- **The front end gives up only where brackets are too deep.**  On any tokens whatsoever, and on
any source text that can be addressed, positions lie inside of the lists that they are used with,
counters stay above zero, loops end, words hold the operands of literals, and those are bounded by
the tokens of their expression: guarded computations end, and as the plain ones do.  The one thing
that may go wrong is the depth of brackets, which has 32 bits, on a line with 2147483648 of them. -/
theorem front_end_faults_only_when_deep :
    (∀ ts, (Guarded.resolveLiterals ts).run = .ok (Token.resolveLiterals ts)) ∧
    (∀ ts, (Guarded.resolveArity ts).run = .ok (Token.resolveArity ts)) ∧
    ∀ source, Addressable source →
      (Guarded.compile source).run = .ok (compile source) ∨
      (Guarded.compile source).run = .error (.overflow .signed32) ∧ Segment.Deep source := by
  refine ⟨Guarded.follows_resolveLiterals, Guarded.follows_resolveArity, fun source h => ?_⟩
  rcases Guarded.followsUnless_compile h with hok | ⟨fault, ⟨rfl, hdeep⟩, herror⟩
  · exact .inl hok
  · exact .inr ⟨herror, hdeep⟩

/-- Brackets of all kinds, in targets, conditions, calls and literals. -/
def bracketed : String :=
  "if (a[1]) \x7b b[1][c(2)] = [1, 2; (3), 4] \x7d\nelse d = min([1], a)\nfor i = (1) to 2 \x7b\x7d"

theorem front_end_faults_only_when_deep_bracketed :
    Addressable bracketed ∧ (Guarded.compile bracketed).run = .ok (compile bracketed) := by
  have haddressable : Addressable bracketed := by decide +kernel
  refine ⟨haddressable, ?_⟩
  rcases front_end_faults_only_when_deep.2.2 bracketed haddressable with hok | ⟨-, hdeep⟩
  · exact hok
  · exact absurd hdeep (by decide +kernel)

/-- Two bounds that do not hold: the three tokens of a literal without numbers make one of two
cells, which takes four operands; and a line of 2147483648 parentheses gets out of the depth. -/
theorem literal_wider_than_its_text :
    (∃ ts rs, Token.scan "[,]" = .ok ts ∧ Token.prepare ts = .ok rs ∧
      .operator (.literal 1 2) ∈ rs ∧ ts.length < 1 * 2 + 2) ∧
    (Guarded.compile (String.ofList (List.replicate 2147483648 '('))).run =
      .error (.overflow .signed32) := by
  have hscan : Token.Scans "[,]".toList [.openBracket, .comma, .closeBracket] :=
    Token.lexes_openBracket.scans (Token.lexes_comma.scans Token.lexes_closeBracket.toScans)
  refine ⟨⟨_, _, hscan.scan, rfl, ?_, by decide⟩,
    Guarded.compile_replicate (Nat.le_refl 2147483648)⟩
  exact List.mem_cons_self

end MatrixLang
