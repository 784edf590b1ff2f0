import MatrixLang.Json.Number
import MatrixLang.Json.Read

/-!
# Codecs for JSON

What matrices have to do with JSON does not depend on how its texts are written and read, nor
on the literals that numbers have in them.  A codec does all this; `Json.Codec.standard` is the
one that runs.
-/

namespace MatrixLang.Json

/-- A way to write and read JSON. -/
structure Codec where
  /-- The text of a value. -/
  text : Json → String
  /-- The value that a text holds, if it holds one and nothing else. -/
  read? : String → Option Json
  /-- The literal of a number, if it has one. -/
  ofFloat? : Float → Option JsonNumber
  /-- The number that a literal is read as, if it is not refused. -/
  toFloat? : JsonNumber → Option Float
  /-- The literal of a size. -/
  ofSize : Nat → JsonNumber
  /-- The size that a literal is read as, if it is one. -/
  toSize? : JsonNumber → Option Nat

/-- Texts on one line, numbers with the fewest digits, and numbers that are read in the
arithmetic of doubles. -/
def Codec.standard : Codec where
  text := Json.text
  read? := Json.read?
  ofFloat? := JsonNumber.ofFloat?
  toFloat? := JsonNumber.toFloat?
  ofSize := JsonNumber.ofNat
  toSize? := JsonNumber.toSize?

end MatrixLang.Json
