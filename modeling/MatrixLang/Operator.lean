import MatrixLang.Word

/-!
# Operators

Operators of the matrix language with their texts, binding strengths and numbers of
operands.  An operator of a lower priority binds tighter.

Three of them are never written as such in a source text: `~` stands for the unary
minus in listings, `$` for the indexing that an opening bracket after an operand
means, and `#` for a matrix literal, which carries the shape of the literal.
-/

namespace MatrixLang

/-- Operators with an operand on either side. -/
inductive BinaryOperator where
  | add
  | sub
  | mul
  /-- Cell by cell, like the three after it. -/
  | cellMul
  | cellDiv
  | cellPow
  | cellMod
  | div
  | pow
  | mod
  /-- Joins the rows of two matrices. -/
  | beside
  /-- Joins the columns of two matrices. -/
  | below
  /-- Several copies beside each other. -/
  | repeatBeside
  /-- Several copies below each other. -/
  | repeatBelow
  /-- All whole steps from one number to another. -/
  | range
  /-- An element of a vector or a row of a matrix. -/
  | index
  | eq
  | ne
  | lt
  | gt
  | le
  | ge
  | and
  | or
deriving DecidableEq, Repr, Inhabited

/-- Operators with one operand, as an expression holds them. -/
inductive UnaryOperator where
  | neg
  | transpose
  | not
deriving DecidableEq, Repr, Inhabited

/-- Operators, as a token holds them. -/
inductive Operator where
  /-- An operator between two operands. -/
  | binary (op : BinaryOperator)
  /-- The unary minus. -/
  | neg
  /-- The quote after an operand. -/
  | transpose
  /-- The word for the logical complement. -/
  | not
  /-- The sign for the logical complement, which binds as tightly as a power. -/
  | bang
  /-- The start of a matrix literal of the given shape. -/
  | literal (rows cols : Nat)
deriving DecidableEq, Repr, Inhabited

/-- The text of an operator. -/
def BinaryOperator.symbol : BinaryOperator → String
  | .add => "+"
  | .sub => "-"
  | .mul => "*"
  | .cellMul => ".*"
  | .cellDiv => "./"
  | .cellPow => ".^"
  | .cellMod => ".%"
  | .div => "/"
  | .pow => "^"
  | .mod => "%"
  | .beside => "|"
  | .below => "_"
  | .repeatBeside => "*|"
  | .repeatBelow => "*_"
  | .range => ":"
  | .index => "$"
  | .eq => "=="
  | .ne => "!="
  | .lt => "<"
  | .gt => ">"
  | .le => "<="
  | .ge => ">="
  | .and => "and"
  | .or => "or"

/-- How tightly an operator binds; the lower, the tighter. -/
def BinaryOperator.priority : BinaryOperator → Nat
  | .and | .or => 11
  | .eq | .ne | .lt | .gt | .le | .ge => 10
  | .add | .sub => 3
  | .mul | .cellMul | .div | .cellDiv | .mod | .cellMod => 2
  | .beside | .below | .repeatBeside | .repeatBelow => 2
  | .pow | .cellPow | .range => 1
  | .index => 0

namespace Operator

/-- The text of an operator, without the shape of a literal. -/
def symbol : Operator → String
  | .binary op => op.symbol
  | .neg => "~"
  | .transpose => "'"
  | .not => "not"
  | .bang => "!"
  | .literal .. => "#"

/-- The text of an operator in a listing. -/
def text : Operator → String
  | .literal rows cols => s!"#{rows}x{cols}"
  | op => op.symbol

/-- How tightly an operator binds; the lower, the tighter. -/
def priority : Operator → Nat
  | .binary op => op.priority
  | .not => 11
  | .neg | .transpose | .bang => 1
  | .literal .. => 0

/-- The number of operands, which is kept in a word: a literal has its elements and its two
dimensions. -/
def arity : Operator → Except Overflow Nat
  | .binary _ => return 2
  | .neg | .transpose | .not | .bang => return 1
  | .literal rows cols => do
    let cells ← Word.unsigned64.fit (rows * cols : Nat)
    let operands ← Word.unsigned64.fit (cells + 2)
    return operands.toNat

/-- Whether an operator stands before its operand, with nothing to bind on its
left. -/
def standsBefore : Operator → Bool
  | .neg | .not | .bang => true
  | _ => false

end Operator

end MatrixLang
