import MatrixLang.Token

/-!
# Brackets

An opening bracket starts a matrix literal where an operand is expected, and indexes
the operand before it otherwise.  After that is settled every bracket is a
parenthesis.
-/

namespace MatrixLang.Token

/-- Whether a bracket after the token `last` opens a matrix literal: nothing that
could be indexed comes before it. -/
def opensLiteral : Option Token → Bool
  | none => true
  | some (.operator op) => op != .transpose
  | some .openParen | some .comma | some .semicolon | some .assign => true
  | some (.keyword _) | some .literalStart => true
  | some _ => false

/-- Settles the brackets of the tokens that come after `last`. -/
def resolveBracketsAfter : Option Token → List Token → List Token
  | _, [] => []
  | last, .openBracket :: ts =>
    (if opensLiteral last then .literalStart else .operator (.binary .index)) :: .openParen ::
      resolveBracketsAfter (some .openParen) ts
  | _, .closeBracket :: ts => .closeParen :: resolveBracketsAfter (some .closeParen) ts
  | _, t :: ts => t :: resolveBracketsAfter (some t) ts

/-- Tells literals from indexing and turns every bracket into a parenthesis. -/
def resolveBrackets (ts : List Token) : List Token :=
  resolveBracketsAfter none ts

end MatrixLang.Token
