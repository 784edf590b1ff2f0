import MatrixLang.Matrix.Arithmetic

/-!
# Reductions, functions of cells, and new matrices

Numbers computed from all cells of a matrix, functions applied to every cell, and
matrices made from sizes and bounds.
-/

namespace MatrixLang.Matrix

/-! ## Reductions -/

/-- The sum of all cells, from the first to the last. -/
def total (m : Matrix) : Float :=
  m.data.foldl (· + ·) sumStart

/-- The sum of all cells. -/
def sum (m : Matrix) : Matrix :=
  scalar m.total

/-- The product of all cells, from the first to the last. -/
def prod (m : Matrix) : Matrix :=
  scalar (m.data.foldl (· * ·) 1)

/-- The number of cells. -/
def count (m : Matrix) : Matrix :=
  scalar (Number.ofNat m.size)

/-- The numbers of rows and columns. -/
def dimensions (m : Matrix) : Matrix :=
  ⟨1, 2, #[Number.ofNat m.rows, Number.ofNat m.cols]⟩

/-- The mean of all cells. -/
def mean (m : Matrix) : Matrix :=
  scalar (m.total / Number.ofNat m.size)

/-- The largest cell; NaN is passed over. -/
def maximum (m : Matrix) : Matrix :=
  scalar (m.data.foldl Number.larger (-Number.infinity))

/-- The smallest cell; NaN is passed over. -/
def minimum (m : Matrix) : Matrix :=
  scalar (m.data.foldl Number.smaller Number.infinity)

/-! ## Functions of cells -/

/-- The square root of every cell. -/
def sqrt (m : Matrix) : Matrix :=
  m.map Float.sqrt

/-- The absolute value of every cell. -/
def abs (m : Matrix) : Matrix :=
  m.map Float.abs

/-- The sine of every cell. -/
def sin (m : Matrix) : Matrix :=
  m.map Float.sin

/-- The cosine of every cell. -/
def cos (m : Matrix) : Matrix :=
  m.map Float.cos

/-- The tangent of every cell. -/
def tan (m : Matrix) : Matrix :=
  m.map Float.tan

/-- The cotangent of every cell. -/
def cot (m : Matrix) : Matrix :=
  m.map fun x => 1 / Float.tan x

/-- The exponential of every cell. -/
def exp (m : Matrix) : Matrix :=
  m.map Float.exp

/-- Every cell rounded up to a whole number. -/
def ceil (m : Matrix) : Matrix :=
  m.map Float.ceil

/-- All cells in one row. -/
def vectorize (m : Matrix) : Matrix :=
  ⟨1, m.size, m.data⟩

/-! ## New matrices -/

/-- All numbers from one to another in whole steps, the first included. -/
def range (a b : Matrix) : Except Error Matrix := do
  let first ← a.asScalar "Range start"
  let last ← b.asScalar "Range end"
  let span := (last - first).abs
  if !Number.isFinite span ∨ maxCells ≤ Number.toSize span then
    throw (.invalidArgument (.rangeTooLong first last))
  let step : Float := if first ≤ last then 1 else -1
  rowVector (Array.ofFn fun k : Fin (Number.toSize span + 1) => first + step * Number.ofNat k)

/-- The dimension that a number is cut to, which has to be at least one. -/
def dimension (what : String) (x : Float) : Except Error Nat :=
  if x < 1 then throw (.invalidArgument (.tooSmall what x))
  else return Number.toSize x

/-- The shape that a size names: a number of columns, or a pair of dimensions. -/
def shapeFrom (size : Matrix) : Except Error Shape := do
  if size.isScalar then return ⟨1, ← dimension "size" (size.cell 0 0)⟩
  else if size.isVector ∧ size.size = 2 then
    let rows ← dimension "row count" (size.data.getD 0 0)
    let cols ← dimension "column count" (size.data.getD 1 0)
    return ⟨rows, cols⟩
  else throw (.invalidArgument (.sizeShape size.shape))

/-- The shape that two numbers name. -/
def shapeFromPair (rows cols : Matrix) : Except Error Shape := do
  let rows ← dimension "row count" (← rows.asScalar "Row count")
  let cols ← dimension "column count" (← cols.asScalar "Column count")
  return ⟨rows, cols⟩

/-- The identity matrix of a given size. -/
def identity (size : Matrix) : Except Error Matrix := do
  let n ← dimension "identity size" (← size.asScalar "Identity size")
  checkSize ⟨n, n⟩
  return eye n

end MatrixLang.Matrix
