import MatrixLang.Error

/-!
# Shapes of matrix literals

The rows of a literal are divided by semicolons and the cells of a row by commas;
every row has as many cells as the first.  Once its shape is known, the start of a
literal carries it, its two dimensions are written after its last cell, and all
semicolons become commas.
-/

namespace MatrixLang.Token

/-- The lengths of the rows of a literal, from what its parentheses enclose: `depth`
counts the groups that are open inside it, `length` the cells of the current row. -/
def rowLengths : (depth length : Nat) → List Token → List Nat
  | _, length, [] => [length]
  | depth, length, .openParen :: ts => rowLengths (depth + 1) length ts
  | depth, length, .closeParen :: ts => rowLengths (depth - 1) length ts
  | 0, length, .comma :: ts => rowLengths 0 (length + 1) ts
  | 0, length, .semicolon :: ts => length :: rowLengths 0 1 ts
  | depth, length, _ :: ts => rowLengths depth length ts

/-- The first of the given rows whose length is not `expected`, as a fault; `row` is
the number of the first of them. -/
def raggedRow? (expected : Nat) : (row : Nat) → List Nat → Option LiteralFault
  | _, [] => none
  | row, length :: lengths =>
    if length = expected then raggedRow? expected (row + 1) lengths
    else some (.ragged row length expected)

/-- The shape of the literal that a parenthesis before `ts` opens. -/
def literalShape (ts : List Token) : Except Error Shape :=
  match splitParens ts with
  | none => throw .unbalancedParens
  | some ([], _) => throw (.malformedLiteral .empty)
  | some (inside, _) =>
    let lengths := rowLengths 0 1 inside
    let cols := lengths.headD 1
    match raggedRow? cols 1 lengths with
    | some fault => throw (.malformedLiteral fault)
    | none => return ⟨lengths.length, cols⟩

/-- The dimensions that end a literal, if a group is one. -/
def dimensions : Option Shape → List Token
  | none => []
  | some shape => [.comma, .dim shape.rows, .comma, .dim shape.cols]

/-- Resolves the literals among some tokens, where `groups` are the parentheses that
are open before them, the innermost first, with the shapes of those that enclose a
literal. -/
def resolveLiteralsIn (groups : List (Option Shape)) : List Token → Except Error (List Token)
  | [] => return []
  | .literalStart :: .openParen :: ts => do
    let shape ← literalShape ts
    let rest ← resolveLiteralsIn (some shape :: groups) ts
    return .operator (.literal shape.rows shape.cols) :: .openParen :: rest
  | .literalStart :: _ => throw (.malformedLiteral .noBracket)
  | .openParen :: ts => do
    let rest ← resolveLiteralsIn (none :: groups) ts
    return .openParen :: rest
  | .closeParen :: ts => do
    let rest ← resolveLiteralsIn groups.tail ts
    return dimensions (groups.headD none) ++ .closeParen :: rest
  | .semicolon :: ts => do
    let rest ← resolveLiteralsIn groups ts
    return .comma :: rest
  | t :: ts => do
    let rest ← resolveLiteralsIn groups ts
    return t :: rest

/-- Gives every matrix literal its shape. -/
def resolveLiterals (ts : List Token) : Except Error (List Token) :=
  resolveLiteralsIn [] ts

end MatrixLang.Token
