import MatrixLang.Shape
import MatrixLang.Token

/-!
# Errors

Everything that can go wrong when a program is compiled or run, as causes: each
constructor carries what was found, and `Error.message` is the one place where it is
put into words.  A `Failure` is an error with the line of the statement it arose in.
-/

namespace MatrixLang

/-- What is wrong with a matrix literal. -/
inductive LiteralFault where
  /-- The start of a literal with no opening bracket after it. -/
  | noBracket
  | empty
  /-- A row whose length is not that of the first. -/
  | ragged (row length expected : Nat)
  /-- Postfix code of a literal whose last two operands are not its dimensions. -/
  | noDimensions (shape : Shape)
  /-- Postfix code of a literal with a dimension among its elements. -/
  | dimensionInside
deriving Repr, Inhabited

/-- What is wrong with the head of a `for` statement. -/
inductive ForFault where
  | noVariable
  | noAssign
  | noDirection
  | noBound
deriving DecidableEq, Repr, Inhabited

/-- What is wrong with the form of a statement or an expression. -/
inductive FormFault where
  /-- A character that starts no token, and the byte it stands at, from one. -/
  | unknownChar (c : Char) (column : Nat)
  | separatorOutside
  | unexpectedToken (token : Token)
  /-- A call that names more or fewer arguments than the function has. -/
  | notAccepted (f : Builtin) (count : Nat)
  /-- A function applied to more or fewer values than it has arguments. -/
  | undefinedFor (f : Builtin) (count : Nat)
  | missingOperand (what : String)
  | misplacedDimension (what : String)
  | emptyExpression
  | extraOperands
  | noMatchingIf (word : Keyword)
  | missingCondition
  | missingBody
  | malformedFor (fault : ForFault)
  | missingValue
  | invalidTarget
deriving Repr, Inhabited

/-- What is wrong with an argument of an operation on matrices. -/
inductive ArgumentFault where
  /-- More cells than a matrix may have. -/
  | tooManyCells (shape : Shape)
  /-- No row or no column. -/
  | noCells (shape : Shape)
  /-- A number of cells that does not fit the shape. -/
  | cellCount (shape : Shape) (needed found : Nat)
  | unknownPolicy (code : Int)
  | exponentTooLarge (n : Int)
  | negativeExponent
  /-- A dimension below one. -/
  | tooSmall (what : String) (value : Float)
  | rangeTooLong (first last : Float)
  /-- A size that is neither a number nor a pair of them. -/
  | sizeShape (shape : Shape)
  | blockSize (height width : Int)
  | blockArguments
  | tooFewRepetitions (n : Int)
  | tooManyRepetitions (shape : Shape) (n : Int)
deriving Repr, Inhabited

/-- The causes of failure. -/
inductive Error where
  | malformedLiteral (fault : LiteralFault)
  | unbalancedParens
  | unbalancedBraces
  /-- A function name that no closed argument list follows. -/
  | unresolvedArity (f : Builtin)
  /-- A statement or an expression that is not well formed. -/
  | illFormed (fault : FormFault)
  | shapeMismatch (operation : String) (left right : Shape)
  | incompatibleConcat (left right : Shape)
  | divideByZero
  | notScalar (context : String) (shape : Shape)
  | undeclared (name : String)
  | outOfBounds (index : Int) (length : Nat)
  | invalidArgument (fault : ArgumentFault)
deriving Repr, Inhabited

/-! ## Wording -/

/-- What is wrong with a matrix literal, in words. -/
def LiteralFault.message : LiteralFault → String
  | .noBracket => "expected '[' after literal start"
  | .empty => "empty matrix literal"
  | .ragged row length expected =>
    s!"row {row} has {length} elements, expected {expected}"
  | .noDimensions shape => s!"{shape.text} literal does not end with its dimensions"
  | .dimensionInside => "dimension inside literal elements"

/-- What a counting loop lacks, in words. -/
def ForFault.message : ForFault → String
  | .noVariable => "expected a loop variable"
  | .noAssign => "expected '=' after the loop variable"
  | .noDirection => "expected 'to' or 'downto'"
  | .noBound => "missing loop bound"

/-- What is wrong with the form of a program, in words. -/
def FormFault.message : FormFault → String
  | .unknownChar c column => s!"unexpected '{c}' at column {column}"
  | .separatorOutside => "argument separator outside parentheses"
  | .unexpectedToken token => s!"unexpected '{token.text}' in expression"
  | .notAccepted f 1 => s!"{f.name} does not take 1 argument"
  | .notAccepted f count => s!"{f.name} does not take {count} arguments"
  | .undefinedFor f count => s!"{f.name} does not take {count} arguments"
  | .missingOperand what => s!"missing operand for '{what}'"
  | .misplacedDimension what => s!"misplaced matrix dimension near '{what}'"
  | .emptyExpression => "empty expression"
  | .extraOperands => "expression leaves extra operands"
  | .noMatchingIf word => s!"'{word.text}' without a matching 'if'"
  | .missingCondition => "missing condition"
  | .missingBody => "expected '\x7b' to open the body"
  | .malformedFor fault => s!"malformed for statement: {fault.message}"
  | .missingValue => "missing value after '='"
  | .invalidTarget => "invalid assignment target"

/-- The largest number of cells of a matrix. -/
def maxCells : Nat := Nat.pow 2 28

/-- What is wrong with an argument, in words. -/
def ArgumentFault.message : ArgumentFault → String
  | .tooManyCells shape =>
    s!"{shape.text} value exceeds the limit of {maxCells} elements"
  | .noCells shape =>
    s!"a value needs at least one row and one column, got {shape.text}"
  | .cellCount shape needed found =>
    s!"{shape.text} value needs {needed} elements, got {found}"
  | .unknownPolicy code =>
    s!"unknown missing-value policy {code}, expected 0 (zero), 1 (wrap) or 2 (clamp)"
  | .exponentTooLarge n => s!"exponent {n} is too large"
  | .negativeExponent => "matrix power needs a non-negative exponent"
  | .tooSmall what value => s!"{what} must be at least 1, got {Number.text value}"
  | .rangeTooLong first last =>
    s!"range {Number.text first} : {Number.text last} has too many elements"
  | .sizeShape shape => s!"size must be a scalar or a 2-element vector, got {shape.text}"
  | .blockSize height width => s!"submatrix size must be positive, got {height}x{width}"
  | .blockArguments => "sub expects two scalars or two 2-element vectors"
  | .tooFewRepetitions n => s!"repetition count must be at least 1, got {n}"
  | .tooManyRepetitions shape n => s!"cannot repeat a {shape.text} value {n} times"

/-- The text of an error. -/
def Error.message : Error → String
  | .malformedLiteral fault => s!"Malformed matrix literal: {fault.message}"
  | .unbalancedParens => "Unbalanced parentheses"
  | .unbalancedBraces => "Unbalanced braces"
  | .unresolvedArity f => s!"Cannot resolve the number of arguments of '{f.name}'"
  | .illFormed fault => s!"Parser error: {fault.message}"
  | .shapeMismatch operation left right =>
    s!"Shape mismatch in {operation}: {left.text} and {right.text}"
  | .incompatibleConcat left right => s!"Cannot concatenate {left.text} with {right.text}"
  | .divideByZero => "Division by zero"
  | .notScalar context shape => s!"{context} requires a scalar, got {shape.text}"
  | .undeclared name => s!"Undeclared variable: {name}"
  | .outOfBounds index length => s!"Index {index} out of bounds for length {length}"
  | .invalidArgument fault => s!"Invalid argument: {fault.message}"

/-! ## Failures of a program -/

/-- When a program failed. -/
inductive Stage where
  | compile
  | run
deriving DecidableEq, Repr, Inhabited

/-- An error with the line of the statement it arose in. -/
structure Failure where
  stage : Stage
  /-- The line, counted from one. -/
  line : Nat
  cause : Error
deriving Repr, Inhabited

/-- The text of a failure. -/
def Failure.message (failure : Failure) : String :=
  match failure.stage with
  | .compile => s!"Compile error in line {failure.line}: {failure.cause.message}"
  | .run => s!"Runtime error in line {failure.line}: {failure.cause.message}"

end MatrixLang
