import MatrixLang.Expr
import MatrixLang.Postfix
import MatrixLang.Token.Arity

/-!
# Trees from postfix code

Postfix code is read with a stack of operands.  Each instruction takes its operands off
the stack and puts its result there; well-formed code leaves one tree.
-/

namespace MatrixLang.Expr

/-- What the operand stack holds: trees, and the dimensions of a literal to come. -/
inductive Operand where
  | node (e : Expr)
  | dim (size : Nat)
deriving Repr, Inhabited

/-- Takes `n` operands off the stack, in source order; `what` needs them. -/
def popOperands (n : Nat) (what : String) (stack : List Operand) :
    Except Error (List Operand × List Operand) :=
  if stack.length < n then throw (.illFormed (.missingOperand what))
  else return ((stack.take n).reverse, stack.drop n)

/-- The trees among operands that all have to be trees; `fault` says what a dimension
there means. -/
def nodes (fault : Error) : List Operand → Except Error (List Expr)
  | [] => return []
  | .node e :: rest => do
    let es ← nodes fault rest
    return e :: es
  | .dim _ :: _ => throw fault

/-- Takes `n` trees off the stack, in source order; `what` needs them. -/
def popNodes (n : Nat) (what : String) (stack : List Operand) :
    Except Error (List Expr × List Operand) := do
  let (operands, stack) ← popOperands n what stack
  let es ← nodes (.illFormed (.misplacedDimension what)) operands
  return (es, stack)

/-- Applies an operator with one operand. -/
def applyUnary (op : UnaryOperator) (symbol : String) (stack : List Operand) :
    Except Error (List Operand) := do
  match ← popNodes 1 symbol stack with
  | ([operand], stack) => return .node (.unary op operand) :: stack
  | _ => throw (.illFormed (.missingOperand symbol))

/-- Applies an operator with two operands. -/
def applyBinary (op : BinaryOperator) (stack : List Operand) : Except Error (List Operand) := do
  match ← popNodes 2 op.symbol stack with
  | ([left, right], stack) => return .node (.binary op left right) :: stack
  | _ => throw (.illFormed (.missingOperand op.symbol))

/-- Makes a matrix literal of its elements, which its dimensions follow. -/
def applyLiteral (rows cols : Nat) (stack : List Operand) : Except Error (List Operand) := do
  let (operands, stack) ← popOperands (rows * cols + 2) "#" stack
  match operands.drop (rows * cols) with
  | [.dim r, .dim c] =>
    if r = rows ∧ c = cols then
      let elements ← nodes (.malformedLiteral .dimensionInside) (operands.take (rows * cols))
      return .node (.matrix rows cols elements) :: stack
    else throw (.malformedLiteral (.noDimensions ⟨rows, cols⟩))
  | _ => throw (.malformedLiteral (.noDimensions ⟨rows, cols⟩))

/-- Applies an operator to the operands on the stack. -/
def applyOperator (op : Operator) (stack : List Operand) : Except Error (List Operand) :=
  match op with
  | .binary op => applyBinary op stack
  | .neg => applyUnary .neg op.symbol stack
  | .transpose => applyUnary .transpose op.symbol stack
  | .not | .bang => applyUnary .not op.symbol stack
  | .literal rows cols => applyLiteral rows cols stack

/-- Calls a function with operands from the stack. -/
def applyCall (f : Builtin) (arity : Nat) (stack : List Operand) :
    Except Error (List Operand) :=
  if f.accepts arity then do
    let (arguments, stack) ← popNodes arity f.name stack
    return .node (.call f arguments) :: stack
  else throw (.illFormed (.notAccepted f arity))

/-- What an instruction makes of the stack. -/
def step (stack : List Operand) : Instruction → Except Error (List Operand)
  | .number value => return .node (.literal value) :: stack
  | .variable name => return .node (.variable name) :: stack
  | .dim size => return .dim size :: stack
  | .apply op => applyOperator op stack
  | .call f arity => applyCall f arity stack

/-- What several instructions make of the stack. -/
def steps (stack : List Operand) : List Instruction → Except Error (List Operand)
  | [] => return stack
  | i :: code => do
    let stack ← step stack i
    steps stack code

/-- The tree on the stack, which has to be all there is. -/
def ofStack : List Operand → Except Error Expr
  | [.node e] => return e
  | [] => throw (.illFormed .emptyExpression)
  | _ => throw (.illFormed .extraOperands)

theorem ofStack_eq_ok_iff {stack : List Operand} {e : Expr} :
    ofStack stack = .ok e ↔ stack = [.node e] := by
  constructor
  · intro h
    unfold ofStack at h
    split at h
    · cases h
      rfl
    · cases h
    · cases h
  · rintro rfl
    rfl

/-- The tree of postfix code. -/
def ofPostfix (code : List Instruction) : Except Error Expr := do
  let stack ← steps [] code
  ofStack stack

/-! ## Counting in words -/

/-- Counts the operands of an instruction, if it has to. -/
def countOperands : Instruction → Except Overflow Unit
  | .apply op => discard op.arity
  | _ => return ()

/-- What several instructions make of the stack, where each first counts its operands. -/
def countedSteps (stack : List Operand) :
    List Instruction → Except Overflow (Except Error (List Operand))
  | [] => return .ok stack
  | i :: code => do
    countOperands i
    match step stack i with
    | .ok stack => countedSteps stack code
    | .error e => return .error e

/-- The tree of postfix code that need not come from an expression, so that a literal may name a
shape with more cells than a word can count. -/
def build (code : List Instruction) : Except Overflow (Except Error Expr) := do
  let stack ← countedSteps [] code
  return stack >>= ofStack

/-! ## From tokens -/

/-- The tree of the tokens of an expression. -/
def ofTokens (ts : List Token) : Except Error Expr := do
  let ts ← Token.prepare ts
  let code ← Postfix.ofTokens ts
  ofPostfix code

end MatrixLang.Expr
