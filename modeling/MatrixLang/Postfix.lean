import MatrixLang.Error

/-!
# Postfix code

The tokens of an expression in the order in which they are applied.  Operators wait on
a stack until one arrives that binds no tighter than they do, so that equal ones apply
from left to right.  An operator that stands before its operand pushes nothing off the
stack: `2^-1` is `2^(-1)`, while the power in `-2^2` finds the minus on the stack and
makes it `(-2)^2`.
-/

namespace MatrixLang

/-- One step of postfix code. -/
inductive Instruction where
  | number (value : Float)
  /-- The value of a variable. -/
  | variable (name : String)
  /-- A dimension of the literal that follows. -/
  | dim (size : Nat)
  /-- An operator, applied to the operands before it. -/
  | apply (op : Operator)
  /-- A function, applied to the operands before it. -/
  | call (f : Builtin) (arity : Nat)
deriving Repr, Inhabited

namespace Instruction

/-- The text of an instruction in a listing. -/
def text : Instruction → String
  | .number value => Number.text value
  | .variable name => name
  | .dim size => s!"<{size}>"
  | .apply op => op.text
  | .call f arity => s!"{f.name}/{arity}"

/-- The texts of several instructions, divided by blanks. -/
def listing (code : List Instruction) : String :=
  " ".intercalate (code.map text)

end Instruction

namespace Postfix

/-- What waits on the operator stack. -/
inductive Pending where
  /-- An open parenthesis. -/
  | paren
  | operator (op : Operator)
  | call (f : Builtin) (arity : Nat)
deriving Repr, Inhabited

namespace Pending

/-- Whether this is an open parenthesis. -/
def isParen : Pending → Bool
  | .paren => true
  | _ => false

/-- Whether the operator `op` takes what was pending as part of its left operand. -/
def yieldsTo (op : Operator) : Pending → Bool
  | .paren => false
  | .call .. => true
  | .operator pending => decide (pending.priority ≤ op.priority)

/-- The code of what leaves the stack. -/
def code : Pending → List Instruction
  | .paren => []
  | .operator op => [.apply op]
  | .call f arity => [.call f arity]

end Pending

/-- Whether a minus after the token `last`, parentheses left aside, has no operand on
its left. -/
def minusIsUnary : Option Token → Bool
  | none => true
  | some (.operator op) => op != .transpose
  | some (.function ..) | some .comma | some .semicolon => true
  | some _ => false

/-- The operator that an operator token stands for. -/
def operatorAfter (last : Option Token) (op : Operator) : Operator :=
  if op = .binary .sub ∧ minusIsUnary last then .neg else op

/-- The code that leaves the stack when `op` arrives, and the stack after it. -/
def push (op : Operator) (stack : List Pending) : List Instruction × List Pending :=
  if op.standsBefore then ([], .operator op :: stack)
  else
    ((stack.takeWhile (·.yieldsTo op)).flatMap Pending.code,
      .operator op :: stack.dropWhile (·.yieldsTo op))

/-- The code of all that waits above the innermost open parenthesis, and the stack
from that parenthesis on; nothing if none is open. -/
def unwind? (stack : List Pending) : Option (List Instruction × List Pending) :=
  match stack.dropWhile (!·.isParen) with
  | [] => none
  | rest => some ((stack.takeWhile (!·.isParen)).flatMap Pending.code, rest)

/-- The code for the remaining tokens, with `last` before them and `stack` waiting. -/
def convert (last : Option Token) (stack : List Pending) :
    List Token → Except Error (List Instruction)
  | [] =>
    if stack.any Pending.isParen then throw .unbalancedParens
    else return stack.flatMap Pending.code
  | .number value :: ts => do
    let rest ← convert (some (.number value)) stack ts
    return .number value :: rest
  | .name name :: ts => do
    let rest ← convert (some (.name name)) stack ts
    return .variable name :: rest
  | .dim size :: ts => do
    let rest ← convert (some (.dim size)) stack ts
    return .dim size :: rest
  | .function f (some arity) :: ts =>
    convert (some (.function f (some arity))) (.call f arity :: stack) ts
  | .function f none :: _ => throw (.unresolvedArity f)
  | .operator op :: ts => do
    let (code, stack) := push (operatorAfter last op) stack
    let rest ← convert (some (.operator op)) stack ts
    return code ++ rest
  | .openParen :: ts => convert last (.paren :: stack) ts
  | .closeParen :: ts =>
    match unwind? stack with
    | none => throw .unbalancedParens
    | some (code, stack) => do
      let rest ← convert (some .closeParen) stack.tail ts
      return code ++ rest
  | .comma :: ts =>
    match unwind? stack with
    | none => throw (.illFormed .separatorOutside)
    | some (code, stack) => do
      let rest ← convert (some .comma) stack ts
      return code ++ rest
  | .semicolon :: ts =>
    match unwind? stack with
    | none => throw (.illFormed .separatorOutside)
    | some (code, stack) => do
      let rest ← convert (some .semicolon) stack ts
      return code ++ rest
  | t :: _ => throw (.illFormed (.unexpectedToken t))

/-- The postfix code of prepared tokens. -/
def ofTokens (ts : List Token) : Except Error (List Instruction) :=
  convert none [] ts

end Postfix

end MatrixLang
