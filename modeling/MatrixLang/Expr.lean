import MatrixLang.Builtin
import MatrixLang.Number.Text
import MatrixLang.Operator

/-!
# Expressions

Expression trees, their text with every operation in parentheses, and the variables
they read.
-/

namespace MatrixLang

/-- Expressions. -/
inductive Expr where
  | literal (value : Float)
  | variable (name : String)
  /-- A matrix literal with its elements row by row. -/
  | matrix (rows cols : Nat) (elements : List Expr)
  | unary (op : UnaryOperator) (operand : Expr)
  | binary (op : BinaryOperator) (left right : Expr)
  | call (f : Builtin) (arguments : List Expr)
deriving Repr, Inhabited

namespace Expr

mutual

/-- The text of an expression. -/
def text : Expr → String
  | .literal value => Number.text value
  | .variable name => name
  | .matrix _ cols elements => "[" ++ textOfCells cols 0 elements ++ "]"
  | .unary .neg operand => "(-" ++ operand.text ++ ")"
  | .unary .transpose operand => "(" ++ operand.text ++ "')"
  | .unary .not operand => "(not " ++ operand.text ++ ")"
  | .binary .index left right => left.text ++ "[" ++ right.text ++ "]"
  | .binary op left right => "(" ++ left.text ++ " " ++ op.symbol ++ " " ++ right.text ++ ")"
  | .call f arguments => f.name ++ "(" ++ textOfArguments arguments ++ ")"

/-- The cells of a literal from number `i` on: a semicolon starts a new row. -/
def textOfCells (cols : Nat) (i : Nat) : List Expr → String
  | [] => ""
  | e :: es =>
    (if i = 0 then "" else if i % cols = 0 then "; " else ", ") ++ e.text ++
      textOfCells cols (i + 1) es

/-- The arguments of a call, divided by commas. -/
def textOfArguments : List Expr → String
  | [] => ""
  | [e] => e.text
  | e :: es => e.text ++ ", " ++ textOfArguments es

end

mutual

/-- The variables that an expression reads, in the order of the text. -/
def names : Expr → List String
  | .literal _ => []
  | .variable name => [name]
  | .matrix _ _ elements => namesOfAll elements
  | .unary _ operand => operand.names
  | .binary _ left right => left.names ++ right.names
  | .call _ arguments => namesOfAll arguments

/-- The variables that several expressions read. -/
def namesOfAll : List Expr → List String
  | [] => []
  | e :: es => e.names ++ namesOfAll es

end

end Expr

end MatrixLang
