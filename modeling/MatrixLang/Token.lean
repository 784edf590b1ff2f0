import MatrixLang.Builtin
import MatrixLang.Number.Text
import MatrixLang.Operator

/-!
# Tokens

A statement is a list of tokens.  Three kinds of token do not come from the text of
a statement but from the passes that resolve what its brackets and calls mean: the
start of a literal, a dimension of one, and a function that knows how many arguments
it is called with.
-/

namespace MatrixLang

/-- The words that start or divide a statement. -/
inductive Keyword where
  | ifWord
  | elseifWord
  | elseWord
  | whileWord
  | forWord
  | toWord
  | downtoWord
deriving DecidableEq, Repr, Inhabited

namespace Keyword

/-- Every keyword. -/
def all : List Keyword :=
  [.ifWord, .elseifWord, .elseWord, .whileWord, .forWord, .toWord, .downtoWord]

/-- The text of a keyword. -/
def text : Keyword → String
  | .ifWord => "if"
  | .elseifWord => "elseif"
  | .elseWord => "else"
  | .whileWord => "while"
  | .forWord => "for"
  | .toWord => "to"
  | .downtoWord => "downto"

/-- The keyword of a given text. -/
def ofText? (text : String) : Option Keyword :=
  all.find? (·.text == text)

end Keyword

/-- Tokens of a statement. -/
inductive Token where
  /-- A numeric literal. -/
  | number (value : Float)
  /-- The name of a variable. -/
  | name (text : String)
  /-- A built-in function, with the number of its arguments once that is known. -/
  | function (f : Builtin) (arity : Option Nat)
  | operator (op : Operator)
  | keyword (word : Keyword)
  /-- The sign of an assignment. -/
  | assign
  | openParen
  | closeParen
  | openBracket
  | closeBracket
  | openBrace
  | closeBrace
  | comma
  | semicolon
  /-- A bracket that opens a matrix literal whose shape is not known yet. -/
  | literalStart
  /-- A dimension, written after the elements of a resolved literal. -/
  | dim (size : Nat)
deriving Repr, Inhabited

namespace Token

/-- The text of a token in a listing. -/
def text : Token → String
  | .number value => Number.text value
  | .name text => text
  | .function f none => f.name
  | .function f (some n) => s!"{f.name}/{n}"
  | .operator op => op.text
  | .keyword word => word.text
  | .assign => "="
  | .openParen => "("
  | .closeParen => ")"
  | .openBracket => "["
  | .closeBracket => "]"
  | .openBrace => "\x7b"
  | .closeBrace => "\x7d"
  | .comma => ","
  | .semicolon => ";"
  | .literalStart => "#["
  | .dim size => s!"<{size}>"

/-- The texts of several tokens, divided by blanks. -/
def listing (ts : List Token) : String :=
  " ".intercalate (ts.map text)

/-! ## Groups -/

/-- Whether a token opens parentheses. -/
def isOpenParen : Token → Bool
  | .openParen => true
  | _ => false

/-- Whether a token closes parentheses. -/
def isCloseParen : Token → Bool
  | .closeParen => true
  | _ => false

/-- Whether a token opens brackets. -/
def isOpenBracket : Token → Bool
  | .openBracket => true
  | _ => false

/-- Whether a token closes brackets. -/
def isCloseBracket : Token → Bool
  | .closeBracket => true
  | _ => false

/-- Splits what follows an opening token into what it encloses and what comes after
the token that closes it; `depth` counts the groups opened since and not yet
closed. -/
def splitGroup (opens closes : Token → Bool) : Nat → List Token → Option (List Token × List Token)
  | _, [] => none
  | depth, t :: ts =>
    if closes t then
      match depth with
      | 0 => some ([], ts)
      | depth + 1 =>
        (splitGroup opens closes depth ts).map fun (inside, rest) => (t :: inside, rest)
    else
      let depth := if opens t then depth + 1 else depth
      (splitGroup opens closes depth ts).map fun (inside, rest) => (t :: inside, rest)

/-- What an opening parenthesis before `ts` encloses, and what comes after it. -/
def splitParens (ts : List Token) : Option (List Token × List Token) :=
  splitGroup isOpenParen isCloseParen 0 ts

/-- What an opening bracket before `ts` encloses, and what comes after it. -/
def splitBrackets (ts : List Token) : Option (List Token × List Token) :=
  splitGroup isOpenBracket isCloseBracket 0 ts

end Token

end MatrixLang
