/-!
# Shapes

The shape of a matrix: how many rows and columns it has.
-/

namespace MatrixLang

/-- Numbers of rows and columns. -/
structure Shape where
  rows : Nat
  cols : Nat
deriving DecidableEq, Repr, Inhabited

/-- The text of a shape, such as `2x3`. -/
def Shape.text (s : Shape) : String :=
  s!"{s.rows}x{s.cols}"

end MatrixLang
