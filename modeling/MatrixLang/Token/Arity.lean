import MatrixLang.Token.Brackets
import MatrixLang.Token.Literals

/-!
# Argument counts

A function is called with a parenthesised list of arguments, and has to know how many
there are.  With that, the tokens of an expression are ready to be put into postfix
order (`prepare`).
-/

namespace MatrixLang.Token

/-- The number of commas outside the groups of some tokens, of which `depth` are
open. -/
def topLevelCommas : (depth : Nat) → List Token → Nat
  | _, [] => 0
  | depth, .openParen :: ts => topLevelCommas (depth + 1) ts
  | depth, .closeParen :: ts => topLevelCommas (depth - 1) ts
  | 0, .comma :: ts => topLevelCommas 0 ts + 1
  | depth, _ :: ts => topLevelCommas depth ts

/-- The number of arguments in what the parentheses of a call enclose. -/
def argumentCount (inside : List Token) : Nat :=
  if inside.isEmpty then 0 else topLevelCommas 0 inside + 1

/-- The number of arguments of a call of `f` that the tokens `ts` follow. -/
def callArity (f : Builtin) (ts : List Token) : Except Error Nat :=
  match ts with
  | .openParen :: rest =>
    match splitParens rest with
    | some (inside, _) => return argumentCount inside
    | none => throw (.unresolvedArity f)
  | _ => throw (.unresolvedArity f)

/-- Tells every function how many arguments it is called with. -/
def resolveArity : List Token → Except Error (List Token)
  | [] => return []
  | .function f none :: ts => do
    let arity ← callArity f ts
    let rest ← resolveArity ts
    return .function f (some arity) :: rest
  | t :: ts => do
    let rest ← resolveArity ts
    return t :: rest

/-- Resolves the brackets, literals and calls of an expression. -/
def prepare (ts : List Token) : Except Error (List Token) := do
  let ts ← resolveLiterals (resolveBrackets ts)
  resolveArity ts

end MatrixLang.Token
