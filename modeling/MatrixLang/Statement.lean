import MatrixLang.Expr

/-!
# Statements

Statements with the line each was compiled from, their texts, and the names that occur in
them.
-/

namespace MatrixLang

/-- Which way the variable of a `for` statement goes. -/
inductive Direction where
  /-- Up by one while it is at most the bound. -/
  | up
  /-- Down by one while it is at least the bound. -/
  | down
deriving DecidableEq, Repr, Inhabited

mutual

/-- Statements; each starts with its line. -/
inductive Statement where
  | assign (line : Nat) (target : String) (value : Expr)
  /-- Assigns to an element, a row or a column. -/
  | assignIndex (line : Nat) (target : String) (index value : Expr)
  /-- Assigns to the block that starts at a row and a column. -/
  | assignBlock (line : Nat) (target : String) (row col value : Expr)
  /-- Evaluates an expression for its effect. -/
  | eval (line : Nat) (value : Expr)
  /-- Runs the first branch whose condition is true, or else the last body. -/
  | choose (line : Nat) (branches : List Branch) (otherwise : Option (List Statement))
  | whileLoop (line : Nat) (condition : Expr) (body : List Statement)
  | forLoop (line : Nat) (counter : String) (start limit : Expr) (direction : Direction)
      (body : List Statement)
  | block (line : Nat) (body : List Statement)

/-- A condition with the statements it guards. -/
inductive Branch where
  | mk (condition : Expr) (body : List Statement)

end

instance : Inhabited Statement :=
  ⟨.block 0 []⟩

namespace Branch

/-- What has to be true for the branch to be taken. -/
def condition : Branch → Expr
  | .mk condition _ => condition

/-- What the branch does. -/
def body : Branch → List Statement
  | .mk _ body => body

end Branch

/-- The word for a direction. -/
def Direction.text : Direction → String
  | .up => "to"
  | .down => "downto"

namespace Statement

/-- The line that a statement was compiled from. -/
def line : Statement → Nat
  | .assign line .. | .assignIndex line .. | .assignBlock line .. | .eval line .. => line
  | .choose line .. | .whileLoop line .. | .forLoop line .. | .block line .. => line

/-- What kind of statement it is, in a word or two. -/
def kind : Statement → String
  | .assign .. => "assignment"
  | .assignIndex .. => "indexed assignment"
  | .assignBlock .. => "block assignment"
  | .eval .. => "expression"
  | .choose .. => "if"
  | .whileLoop .. => "while"
  | .forLoop .. => "for"
  | .block .. => "block"

/-! ## Text -/

mutual

/-- The text of a statement on one line. -/
def text : Statement → String
  | .assign _ target value => target ++ " = " ++ value.text
  | .assignIndex _ target index value => target ++ "[" ++ index.text ++ "] = " ++ value.text
  | .assignBlock _ target row col value =>
    target ++ "[" ++ row.text ++ "][" ++ col.text ++ "] = " ++ value.text
  | .eval _ value => value.text
  | .choose _ branches otherwise =>
    textOfBranches "if " branches ++
      match otherwise with
      | none => ""
      | some body => " else " ++ textOfBody body
  | .whileLoop _ condition body => "while " ++ condition.text ++ " " ++ textOfBody body
  | .forLoop _ counter start limit direction body =>
    "for " ++ counter ++ " = " ++ start.text ++ " " ++ direction.text ++ " " ++ limit.text ++
      " " ++ textOfBody body
  | .block _ body => textOfBody body

/-- Statements in braces. -/
def textOfBody (body : List Statement) : String :=
  "\x7b " ++ textOfStatements body ++ "\x7d"

/-- Statements with a semicolon after each. -/
def textOfStatements : List Statement → String
  | [] => ""
  | s :: ss => s.text ++ "; " ++ textOfStatements ss

/-- Branches, the first after the word `lead`. -/
def textOfBranches (lead : String) : List Branch → String
  | [] => ""
  | .mk condition body :: branches =>
    lead ++ condition.text ++ " " ++ textOfBody body ++ textOfBranches " elseif " branches

end

/-! ## Names -/

mutual

/-- The names that occur in a statement, as targets, as variables of loops and in
expressions. -/
def names : Statement → List String
  | .assign _ target value => target :: value.names
  | .assignIndex _ target index value => target :: (index.names ++ value.names)
  | .assignBlock _ target row col value => target :: (row.names ++ col.names ++ value.names)
  | .eval _ value => value.names
  | .choose _ branches otherwise =>
    namesOfBranches branches ++
      match otherwise with
      | none => []
      | some body => namesOfBody body
  | .whileLoop _ condition body => condition.names ++ namesOfBody body
  | .forLoop _ counter start limit _ body =>
    counter :: (start.names ++ limit.names ++ namesOfBody body)
  | .block _ body => namesOfBody body

/-- The names that occur in several statements. -/
def namesOfBody : List Statement → List String
  | [] => []
  | s :: ss => s.names ++ namesOfBody ss

/-- The names that occur in branches. -/
def namesOfBranches : List Branch → List String
  | [] => []
  | .mk condition body :: branches =>
    condition.names ++ namesOfBody body ++ namesOfBranches branches

end

end Statement

end MatrixLang
