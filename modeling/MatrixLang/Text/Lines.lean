/-!
# Lines

A text is cut into lines at its line feeds.  A carriage return right before a line feed
belongs to it, and a line feed at the very end starts no further line.
-/

namespace MatrixLang.Text

/-- A reversed line without the carriage return at its end. -/
def dropReturn : List Char → List Char
  | '\r' :: cs => cs
  | cs => cs

/-- The lines of a text, where `current` is the line so far, reversed. -/
def linesFrom (current : List Char) : List Char → List (List Char)
  | [] => if current = [] then [] else [current.reverse]
  | '\n' :: cs => (dropReturn current).reverse :: linesFrom [] cs
  | c :: cs => linesFrom (c :: current) cs

/-- The lines of a text. -/
def lines (cs : List Char) : List (List Char) :=
  linesFrom [] cs

end MatrixLang.Text
