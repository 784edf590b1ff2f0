import MatrixLang.Error
import MatrixLang.Text.Blank
import MatrixLang.Text.Lines

/-!
# Segments and outlines

A source text is cut into segments: the texts of statements and the braces around them,
each with its line.  A statement ends at a brace, at the end of its line, and at a
semicolon that is not inside parentheses or brackets; two slashes start a comment that
runs to the end of the line.

Braces have to balance (`checkBraces`).  The segments of a text in which they do are
folded into its outline, in which every block holds what is inside its braces.
-/

namespace MatrixLang

/-- The pieces of a source text, each with its line. -/
inductive Segment where
  /-- The text of a statement or of its head. -/
  | text (line : Nat) (text : String)
  /-- An opening brace. -/
  | opening (line : Nat)
  /-- A closing brace. -/
  | closing (line : Nat)
deriving DecidableEq, Repr, Inhabited

namespace Segment

/-- A line without its comment. -/
def stripComment : List Char → List Char
  | '/' :: '/' :: _ => []
  | c :: cs => c :: stripComment cs
  | [] => []

/-- The segment of the reversed characters of a statement, if there is more to it than
white space. -/
def flush (line : Nat) (current : List Char) : List Segment :=
  match Text.trim current.reverse with
  | [] => []
  | cs => [.text line (String.ofList cs)]

/-- The change of depth at a character: parentheses and brackets keep a semicolon from
ending a statement. -/
def depthAfter (depth : Int) (c : Char) : Int :=
  if c = '(' ∨ c = '[' then depth + 1
  else if c = ')' ∨ c = ']' then depth - 1
  else depth

/-- The segments of the rest of a line, after the reversed characters `current` of a
statement and with `depth` parentheses and brackets open. -/
def cutLine (line : Nat) (depth : Int) (current : List Char) : List Char → List Segment
  | [] => flush line current
  | c :: cs =>
    if c = '{' then flush line current ++ .opening line :: cutLine line depth [] cs
    else if c = '}' then flush line current ++ .closing line :: cutLine line depth [] cs
    else if c = ';' ∧ depth ≤ 0 then flush line current ++ cutLine line depth [] cs
    else cutLine line (depthAfter depth c) (c :: current) cs

/-- The segments of several lines, the first of which has number `line`. -/
def cutLines (line : Nat) : List (List Char) → List Segment
  | [] => []
  | l :: ls => cutLine line 0 [] (stripComment l) ++ cutLines (line + 1) ls

/-- The segments of a source text. -/
def cut (source : String) : List Segment :=
  cutLines 1 (Text.lines source.toList)

/-- Refuses braces that do not balance, where `opened` are the lines of the braces that
are open, the innermost first: the fault is at the first closing brace too many, or else
at the last opening one that is not closed. -/
def checkBraces (opened : List Nat) : List Segment → Except Failure Unit
  | [] =>
    match opened with
    | [] => return ()
    | line :: _ => throw ⟨.compile, line, .unbalancedBraces⟩
  | .text .. :: segments => checkBraces opened segments
  | .opening line :: segments => checkBraces (line :: opened) segments
  | .closing line :: segments =>
    match opened with
    | [] => throw ⟨.compile, line, .unbalancedBraces⟩
    | _ :: opened => checkBraces opened segments

end Segment

/-- The segments of a source text, if its braces balance. -/
def segment (source : String) : Except Failure (List Segment) := do
  Segment.checkBraces [] (Segment.cut source)
  return Segment.cut source

/-- A source text with its blocks nested: a sequence of statement texts and blocks. -/
inductive Outline where
  /-- The end of the sequence. -/
  | done
  /-- A text, and what comes after it. -/
  | text (line : Nat) (text : String) (rest : Outline)
  /-- A block opened in a line, and what comes after it. -/
  | block (line : Nat) (inside rest : Outline)
deriving DecidableEq, Repr, Inhabited

namespace Outline

/-- Puts a segment before the outlines of what follows it.  The first of them goes on to
the closing brace of the block that the segment is in, the next to that of the block
around it, and so on. -/
def prepend (s : Segment) (following : List Outline) : List Outline :=
  match s, following with
  | .text line source, rest :: outer => .text line source rest :: outer
  | .closing _, outer => .done :: outer
  | .opening line, inside :: rest :: outer => .block line inside rest :: outer
  | .opening line, [inside] => [.block line inside .done]
  | _, [] => []

/-- The outline of segments whose braces balance. -/
def ofSegments (segments : List Segment) : Outline :=
  (segments.foldr prepend [.done]).headD .done

/-- Whether a block comes next. -/
def startsWithBlock : Outline → Bool
  | .block .. => true
  | _ => false

end Outline

end MatrixLang
