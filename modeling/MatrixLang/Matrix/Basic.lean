import MatrixLang.Error
import MatrixLang.Number.Arithmetic

/-!
# Matrices

The one kind of value of the language: a matrix of doubles, kept row by row.  A number
is a matrix with one cell, a vector one with a single row or column.

Cells are counted from zero here, and from one in programs.  `tabulate` builds a matrix
from a function on coordinates and `cell` reads it back; nearly every operation is one
`tabulate` or one `map`.  A matrix is `Valid` when it has at least one row and one
column and its cells fill its shape; every operation of the language keeps that.
-/

namespace MatrixLang

/-- A matrix with its cells row by row. -/
structure Matrix where
  rows : Nat
  cols : Nat
  data : Array Float
deriving Repr, Inhabited

namespace Matrix

/-- The cells fill the shape, which has at least one row and one column. -/
structure Valid (m : Matrix) : Prop where
  rows_pos : 0 < m.rows
  cols_pos : 0 < m.cols
  size_data : m.data.size = m.rows * m.cols

/-- The numbers of rows and columns. -/
def shape (m : Matrix) : Shape :=
  ⟨m.rows, m.cols⟩

/-- The number of cells. -/
def size (m : Matrix) : Nat :=
  m.data.size

/-- The cell in row `i` and column `j`, counted from zero. -/
def cell (m : Matrix) (i j : Nat) : Float :=
  m.data.getD (i * m.cols + j) 0

/-- The matrix with cell `f i j` in row `i` and column `j`. -/
def tabulate (rows cols : Nat) (f : Nat → Nat → Float) : Matrix :=
  ⟨rows, cols, Array.ofFn fun k : Fin (rows * cols) => f (k / cols) (k % cols)⟩

/-- Applies a function to every cell. -/
def map (f : Float → Float) (m : Matrix) : Matrix :=
  ⟨m.rows, m.cols, m.data.map f⟩

/-- A single number. -/
def scalar (x : Float) : Matrix :=
  ⟨1, 1, #[x]⟩

/-- A truth value: one for true, zero for false. -/
def ofBool (b : Bool) : Matrix :=
  scalar (if b then 1 else 0)

/-! ## Checked construction -/

/-- Refuses shapes with more cells than a matrix may have. -/
def checkSize (shape : Shape) : Except Error Unit :=
  if shape.rows * shape.cols ≤ maxCells then return ()
  else throw (.invalidArgument (.tooManyCells shape))

/-- A matrix of a given shape with given cells, row by row. -/
def ofData (shape : Shape) (data : Array Float) : Except Error Matrix := do
  if shape.rows = 0 ∨ shape.cols = 0 then throw (.invalidArgument (.noCells shape))
  checkSize shape
  let needed := shape.rows * shape.cols
  if data.size = needed then return ⟨shape.rows, shape.cols, data⟩
  else throw (.invalidArgument (.cellCount shape needed data.size))

/-- A single row. -/
def rowVector (data : Array Float) : Except Error Matrix :=
  ofData ⟨1, data.size⟩ data

/-- A matrix of a given shape with the same number in every cell. -/
def filled (shape : Shape) (x : Float) : Except Error Matrix := do
  if shape.rows = 0 ∨ shape.cols = 0 then throw (.invalidArgument (.noCells shape))
  checkSize shape
  return tabulate shape.rows shape.cols fun _ _ => x

/-! ## Kinds of matrices -/

/-- A single number. -/
def isScalar (m : Matrix) : Bool :=
  m.rows == 1 && m.cols == 1

/-- A single row or column, a single number included. -/
def isVector (m : Matrix) : Bool :=
  m.rows == 1 || m.cols == 1

/-- Only a single number other than zero counts as true. -/
def isTrue (m : Matrix) : Bool :=
  m.isScalar && m.cell 0 0 != 0

/-- The number in a matrix that has to be a single one; `context` needs it. -/
def asScalar (context : String) (m : Matrix) : Except Error Float :=
  if m.isScalar then return m.cell 0 0
  else throw (.notScalar context m.shape)

/-- The integer that a single number is cut to; `context` needs it. -/
def asInteger (context : String) (m : Matrix) : Except Error Int64 :=
  return Number.toInt64 (← m.asScalar context)

/-- Same shape and equal cells, where NaN equals nothing and the two zeros are equal. -/
def same (a b : Matrix) : Bool :=
  a.shape == b.shape && a.data == b.data

/-! ## Text -/

/-- The cells, row by row. -/
def toRows (m : Matrix) : List (List Float) :=
  (List.range m.rows).map fun i => (List.range m.cols).map fun j => m.cell i j

/-- The text of a matrix, which is also an expression for it: a number by itself, and
brackets around anything larger. -/
def text (m : Matrix) : String :=
  if m.isScalar then Number.text (m.cell 0 0)
  else
    let row (xs : List Float) : String := ", ".intercalate (xs.map Number.text)
    "[" ++ "; ".intercalate (m.toRows.map row) ++ "]"

end Matrix

end MatrixLang
