import MatrixLang.Json.Codec
import MatrixLang.Matrix.Basic

/-!
# Matrices in JSON

A matrix is an object with its numbers of rows and columns and its cells row by row, or the
array of these three.  Fields that are none of them are passed over when it is read.
-/

namespace MatrixLang.Matrix

variable (codec : Json.Codec)

/-- A cell in JSON; what is no number is left out. -/
def cellJson (x : Float) : Json :=
  match codec.ofFloat? x with
  | some n => .number n
  | none => .null

/-- A matrix in JSON. -/
def toJson (m : Matrix) : Json :=
  .ofFields [("rows", .number (codec.ofSize m.rows)), ("cols", .number (codec.ofSize m.cols)),
    ("data", .array (m.data.toList.map (cellJson codec)))]

/-- The text of a matrix in JSON. -/
def jsonText (m : Matrix) : String :=
  codec.text (m.toJson codec)

/-- A dimension from JSON. -/
def dimensionOfJson? : Json → Option Nat
  | .number n => codec.toSize? n
  | _ => none

/-- A cell from JSON. -/
def cellOfJson? : Json → Option Float
  | .number n => codec.toFloat? n
  | _ => none

/-- The cells of a matrix from JSON. -/
def dataOfJson? : Json → Option (List Float)
  | .array items => items.mapM (cellOfJson? codec)
  | _ => none

/-- A matrix from its parts in JSON. -/
def ofJsonParts? (rows cols data : Json) : Option Matrix := do
  let rows ← dimensionOfJson? codec rows
  let cols ← dimensionOfJson? codec cols
  let data ← dataOfJson? codec data
  (ofData ⟨rows, cols⟩ data.toArray).toOption

/-- A matrix from JSON. -/
def ofJson? : Json → Option Matrix
  | .array [rows, cols, data] => ofJsonParts? codec rows cols data
  | .object fields => do
    guard (Json.keysAreTexts fields)
    let rows ← ← Json.field? "rows" fields
    let cols ← ← Json.field? "cols" fields
    let data ← ← Json.field? "data" fields
    ofJsonParts? codec rows cols data
  | _ => none

/-- The matrix that a text in JSON holds. -/
def ofJsonText? (text : String) : Option Matrix :=
  (codec.read? text).bind (ofJson? codec)

end MatrixLang.Matrix
