import MatrixLang.Number.Text

/-!
# JSON values and their text

JSON as it is written out: on one line without blanks (`Json.text`), or with one item a
line (`Json.pretty`).  Numbers are kept as literals, so nothing is lost between a text and
its value; strings as read may hold half of a surrogate pair, which stands for no
character.
-/

namespace MatrixLang

/-- A numeric literal by its parts. -/
structure JsonNumber where
  negative : Bool
  /-- The digits before the point. -/
  whole : List Char
  /-- The digits after the point; none if there is no point. -/
  fraction : List Char
  /-- The power of ten, if one is written. -/
  exponent : Option Int
deriving DecidableEq, Repr, Inhabited

/-- JSON values. -/
inductive Json where
  | null
  | bool (b : Bool)
  | number (n : JsonNumber)
  /-- A string; `none` if it holds half of a surrogate pair. -/
  | string (text : Option String)
  | array (items : List Json)
  /-- Keys with their values, as they come. -/
  | object (fields : List (Option String × Json))
deriving Repr, Inhabited

namespace JsonNumber

/-- The text of a literal; the exponent is written with its sign. -/
def chars (n : JsonNumber) : List Char :=
  let fraction := if n.fraction = [] then [] else '.' :: n.fraction
  let exponent :=
    match n.exponent with
    | none => []
    | some e => 'e' :: (if e < 0 then '-' else '+') :: Number.digitsOf e.natAbs
  Number.signed n.negative (n.whole ++ fraction ++ exponent)

/-- A natural number. -/
def ofNat (n : Nat) : JsonNumber :=
  ⟨false, Number.digitsOf n, [], none⟩

end JsonNumber

namespace Json

/-- A string. -/
def ofString (s : String) : Json :=
  .string (some s)

/-- An object with fields in a given order. -/
def ofFields (fields : List (String × Json)) : Json :=
  .object (fields.map fun (key, value) => (some key, value))

/-- One character of a string; what would end the string or cannot be seen is
escaped. -/
def escape (c : Char) : List Char :=
  if c = '"' then ['\\', '"']
  else if c = '\\' then ['\\', '\\']
  else if c = '\n' then ['\\', 'n']
  else if c = '\r' then ['\\', 'r']
  else if c = '\t' then ['\\', 't']
  else if c = '\x08' then ['\\', 'b']
  else if c = '\x0c' then ['\\', 'f']
  else if c.toNat < 32 then
    '\\' :: 'u' :: '0' :: '0' :: Nat.toDigits 16 (c.toNat / 16) ++ Nat.toDigits 16 (c.toNat % 16)
  else [c]

/-- A string in quotes. -/
def quoted (text : Option String) : List Char :=
  '"' :: (text.getD "").toList.flatMap escape ++ ['"']

mutual

/-- The text of a value on one line. -/
def chars : Json → List Char
  | .null => "null".toList
  | .bool b => (if b then "true" else "false").toList
  | .number n => n.chars
  | .string text => quoted text
  | .array items => '[' :: charsOfItems items ++ [']']
  | .object fields => '{' :: charsOfFields fields ++ ['}']

/-- Items with commas between them. -/
def charsOfItems : List Json → List Char
  | [] => []
  | [item] => item.chars
  | item :: items => item.chars ++ ',' :: charsOfItems items

/-- Fields with commas between them. -/
def charsOfFields : List (Option String × Json) → List Char
  | [] => []
  | [(key, value)] => quoted key ++ ':' :: value.chars
  | (key, value) :: fields => quoted key ++ ':' :: value.chars ++ ',' :: charsOfFields fields

end

/-- The text of a value on one line. -/
def text (j : Json) : String :=
  String.ofList j.chars

/-- The start of a line, indented by two blanks for every level. -/
def newLine (level : Nat) : List Char :=
  '\n' :: List.replicate (2 * level) ' '

mutual

/-- The text of a value with one item a line, for a value that stands at a level. -/
def prettyChars (level : Nat) : Json → List Char
  | .array [] => ['[', ']']
  | .array items => '[' :: prettyItems (level + 1) items ++ newLine level ++ [']']
  | .object [] => ['{', '}']
  | .object fields => '{' :: prettyFields (level + 1) fields ++ newLine level ++ ['}']
  | .null => chars .null
  | .bool b => chars (.bool b)
  | .number n => n.chars
  | .string text => quoted text

/-- Items, each on a line of its own. -/
def prettyItems (level : Nat) : List Json → List Char
  | [] => []
  | [item] => newLine level ++ item.prettyChars level
  | item :: items => newLine level ++ item.prettyChars level ++ ',' :: prettyItems level items

/-- Fields, each on a line of its own. -/
def prettyFields (level : Nat) : List (Option String × Json) → List Char
  | [] => []
  | [(key, value)] => newLine level ++ quoted key ++ ':' :: ' ' :: value.prettyChars level
  | (key, value) :: fields =>
    newLine level ++ quoted key ++ ':' :: ' ' :: value.prettyChars level ++
      ',' :: prettyFields level fields

end

/-- The text of a value with one item a line. -/
def pretty (j : Json) : String :=
  String.ofList (j.prettyChars 0)

end Json

end MatrixLang
