import MatrixLang.Matrix.Basic

/-!
# Joining matrices

Two matrices are joined beside each other if they have equally many rows, and below each
other if they have equally many columns.  A matrix can also be joined with copies of
itself.
-/

namespace MatrixLang

/-- Where the second of two joined matrices goes. -/
inductive Side where
  /-- To the right of the first. -/
  | beside
  /-- Under the first. -/
  | below
deriving DecidableEq, Repr, Inhabited

namespace Matrix

/-- Joins two matrices. -/
def concat (side : Side) (a b : Matrix) : Except Error Matrix :=
  match side with
  | .beside =>
    if a.rows = b.rows then
      return tabulate a.rows (a.cols + b.cols) fun i j =>
        if j < a.cols then a.cell i j else b.cell i (j - a.cols)
    else throw (.incompatibleConcat a.shape b.shape)
  | .below =>
    if a.cols = b.cols then return ⟨a.rows + b.rows, a.cols, a.data ++ b.data⟩
    else throw (.incompatibleConcat a.shape b.shape)

/-- The shape of `n` copies of a matrix. -/
def repeatedShape (side : Side) (m : Matrix) (n : Nat) : Shape :=
  match side with
  | .beside => ⟨m.rows, m.cols * n⟩
  | .below => ⟨m.rows * n, m.cols⟩

/-- A matrix joined with copies of itself, as often as a number says.  A dimension of
the result has to be below `2 ^ 64` before its number of cells is looked at. -/
def replicate (side : Side) (m times : Matrix) : Except Error Matrix := do
  let n := (← times.asInteger "Repetition count").toInt
  if n < 1 then throw (.invalidArgument (.tooFewRepetitions n))
  let shape := repeatedShape side m n.toNat
  if UInt64.size ≤ shape.rows ∨ UInt64.size ≤ shape.cols then
    throw (.invalidArgument (.tooManyRepetitions m.shape n))
  checkSize shape
  return tabulate shape.rows shape.cols fun i j => m.cell (i % m.rows) (j % m.cols)

end Matrix

end MatrixLang
