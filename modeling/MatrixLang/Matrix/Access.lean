import MatrixLang.Matrix.Basic
import MatrixLang.Word

/-!
# Reading and writing parts of a matrix

Elements, rows, columns and blocks, at coordinates that count from one and may be any
64-bit integer.  Writing gives the changed matrix, or an error and no change.
-/

namespace MatrixLang

/-- How a cell outside a matrix is read. -/
inductive MissingPolicy where
  /-- As zero. -/
  | zero
  /-- As if copies of the matrix lay next to each other without end. -/
  | wrap
  /-- As the nearest cell. -/
  | clamp
deriving DecidableEq, Repr, Inhabited

namespace MissingPolicy

/-- The policy that is taken where none is given. -/
def standard : MissingPolicy :=
  .clamp

/-- The name of a policy. -/
def name : MissingPolicy → String
  | .zero => "zero"
  | .wrap => "wrap"
  | .clamp => "clamp"

/-- The policy of a given name. -/
def ofName? (name : String) : Option MissingPolicy :=
  [MissingPolicy.zero, .wrap, .clamp].find? (·.name == name)

/-- The policy that a program names by a number. -/
def ofCode (code : Int64) : Except Error MissingPolicy :=
  if code = 0 then return .zero
  else if code = 1 then return .wrap
  else if code = 2 then return .clamp
  else throw (.invalidArgument (.unknownPolicy code.toInt))

end MissingPolicy

namespace Matrix

/-! ## Single cells -/

/-- The cell at a row and column that count from one, by `policy` if they lie outside. -/
def cellAt (m : Matrix) (row col : Int64) (policy : MissingPolicy) : Float :=
  match policy with
  | .zero =>
    if row.toInt < 1 ∨ col.toInt < 1 ∨ m.rows < row.toInt ∨ m.cols < col.toInt then 0
    else m.cell (row.toInt - 1).toNat (col.toInt - 1).toNat
  | .wrap => m.cell ((row.toInt - 1) % m.rows).toNat ((col.toInt - 1) % m.cols).toNat
  | .clamp =>
    let nearest (index : Int64) (length : Nat) : Nat :=
      (max 1 (min index.toInt length) - 1).toNat
    m.cell (nearest row m.rows) (nearest col m.cols)

/-- The cell at a row and column, in words.  Wrapping takes one off both before anything else,
and the smallest word has none before it. -/
def getAt (m : Matrix) (row col : Int64) (policy : MissingPolicy) : Except Overflow Float := do
  if policy = .wrap then
    discard (Word.signed64.fit (row.toInt - 1))
    discard (Word.signed64.fit (col.toInt - 1))
  return m.cellAt row col policy

/-- A position from zero for an index from one, if it is within a length. -/
def checkIndex (index : Int64) (length : Nat) : Except Error Nat :=
  if index.toInt < 1 ∨ length < index.toInt then throw (.outOfBounds index.toInt length)
  else return (index.toInt - 1).toNat

/-! ## Elements and rows -/

/-- One row as a matrix. -/
def row (m : Matrix) (i : Nat) : Matrix :=
  tabulate 1 m.cols fun _ j => m.cell i j

/-- An element of a vector or a row of a matrix.  A single number is its own element
at any index. -/
def get (m : Matrix) (index : Int64) : Except Error Matrix := do
  if m.isScalar then return m
  else if m.isVector then
    let i ← checkIndex index m.size
    return scalar (m.data.getD i 0)
  else
    let i ← checkIndex index m.rows
    return m.row i

/-- Replaces an element of a vector, or a row or column of a matrix by one of the same
length. -/
def set (m : Matrix) (index : Int64) (v : Matrix) : Except Error Matrix := do
  if m.isVector then
    let i ← checkIndex index m.size
    let x ← v.asScalar "Vector element assignment"
    return { m with data := m.data.setIfInBounds i x }
  else if v.rows = 1 ∧ v.cols = m.cols then
    let r ← checkIndex index m.rows
    return tabulate m.rows m.cols fun i j => if i = r then v.cell 0 j else m.cell i j
  else if v.cols = 1 ∧ v.rows = m.rows then
    let c ← checkIndex index m.cols
    return tabulate m.rows m.cols fun i j => if j = c then v.cell i 0 else m.cell i j
  else throw (.shapeMismatch "row assignment" m.shape v.shape)

/-! ## Blocks -/

/-- Replaces the block of the shape of `v` whose first cell is in row `top` and column
`left`, counted from zero. -/
def overlay (m : Matrix) (top left : Nat) (v : Matrix) : Matrix :=
  tabulate m.rows m.cols fun i j =>
    if top ≤ i ∧ i < top + v.rows ∧ left ≤ j ∧ j < left + v.cols then
      v.cell (i - top) (j - left)
    else m.cell i j

/-- Replaces a block whose first cell is at a row and column that count from one. -/
def setBlock (m : Matrix) (row col : Int64) (v : Matrix) : Except Error Matrix := do
  let top ← checkIndex row m.rows
  let left ← checkIndex col m.cols
  if m.rows < top + v.rows then throw (.outOfBounds (top + v.rows : Nat) m.rows)
  else if m.cols < left + v.cols then throw (.outOfBounds (left + v.cols : Nat) m.cols)
  else return m.overlay top left v

/-- The index of the last of `extent` places from `first` on, or the largest index if
there is no such one. -/
def lastIndex (first extent : Int64) : Int :=
  min (first.toInt + (extent.toInt - 1)) Int64.maxValue.toInt

/-- Refuses a run of `extent` places from `first` on that is not within a length. -/
def checkRun (first extent : Int64) (length : Nat) : Except Error Unit :=
  if first.toInt < 1 then throw (.outOfBounds first.toInt length)
  else if length < first.toInt + (extent.toInt - 1) then
    throw (.outOfBounds (lastIndex first extent) length)
  else return ()

/-- The block of a given height and width whose first cell is at a row and column that
count from one. -/
def submatrix (m : Matrix) (row col height width : Int64) : Except Error Matrix := do
  if height.toInt < 1 ∨ width.toInt < 1 then
    throw (.invalidArgument (.blockSize height.toInt width.toInt))
  checkRun row height m.rows
  checkRun col width m.cols
  let top := (row.toInt - 1).toNat
  let left := (col.toInt - 1).toNat
  return tabulate height.toInt.toNat width.toInt.toNat fun i j => m.cell (top + i) (left + j)

/-- A block by its origin and extent: two numbers take whole rows, two pairs of numbers
rows and columns. -/
def sub (m : Matrix) (origin extent : Matrix) : Except Error Matrix := do
  if origin.isScalar ∧ extent.isScalar then
    let row ← origin.asInteger "Row"
    let height ← extent.asInteger "Height"
    m.submatrix row 1 height (Int64.ofNat m.cols)
  else if origin.isVector ∧ origin.size = 2 ∧ extent.isVector ∧ extent.size = 2 then
    let part (v : Matrix) (k : Nat) : Int64 := Number.toInt64 (v.data.getD k 0)
    m.submatrix (part origin 0) (part origin 1) (part extent 0) (part extent 1)
  else throw (.invalidArgument .blockArguments)

end Matrix

end MatrixLang
