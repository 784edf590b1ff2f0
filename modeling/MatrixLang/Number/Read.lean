import MatrixLang.Number.Binary

/-!
# Reading numbers

A decimal literal stands for the double nearest to it.  `Numeral` is such a literal
after its parts have been told apart, and `ofString?` reads a whole text: a literal
with an optional sign, or one of the words for an infinity and for NaN.
-/

namespace MatrixLang.Number

/-- The value of a list of decimal digits. -/
def digitsValue (ds : List Char) : Nat :=
  ds.foldl (fun n c => 10 * n + (c.toNat - '0'.toNat)) 0

/-- The double nearest to `significand * 10 ^ exponent`.  The number of digits shows
at once when that lies far beyond the largest or below the smallest double, so no
huge power of ten is ever formed. -/
def ofDecimal (significand : Nat) (exponent : Int) : Float :=
  let magnitude := (Nat.toDigits 10 significand).length + exponent
  if significand = 0 ∨ magnitude < -400 then nearest 0 1
  else if 400 < magnitude then infinity
  else nearest (significand * Nat.pow 10 exponent.toNat) (Nat.pow 10 (-exponent).toNat)

/-- An unsigned decimal literal: the digits before the point, those after it, and
the power of ten it is scaled by. -/
structure Numeral where
  /-- The digits before the point. -/
  whole : List Char
  /-- The digits after the point. -/
  fraction : List Char
  /-- The power of ten after the `e`, zero if there is none. -/
  exponent : Int
deriving DecidableEq, Repr, Inhabited

/-- The double nearest to a literal. -/
def Numeral.toFloat (n : Numeral) : Float :=
  ofDecimal (digitsValue (n.whole ++ n.fraction)) (n.exponent - n.fraction.length)

/-- Splits a text after its leading digits. -/
def spanDigits (cs : List Char) : List Char × List Char :=
  (cs.takeWhile Char.isDigit, cs.dropWhile Char.isDigit)

/-- An optional sign: whether it is a minus, and what follows it. -/
def takeSign : List Char → Bool × List Char
  | '-' :: cs => (true, cs)
  | '+' :: cs => (false, cs)
  | cs => (false, cs)

/-- The exponent part of a literal that has to end with it: nothing, or an `e`, an
optional sign and at least one digit. -/
def readExponent? : List Char → Option Int
  | [] => some 0
  | c :: cs =>
    if c = 'e' ∨ c = 'E' then
      let (negative, cs) := takeSign cs
      let (digits, rest) := spanDigits cs
      if digits ≠ [] ∧ rest = [] then
        some (if negative then -(digitsValue digits : Int) else digitsValue digits)
      else none
    else none

/-- Reads an unsigned literal; the digits may be missing on one side of the
point. -/
def readNumeral? (cs : List Char) : Option Numeral := do
  let (whole, rest) := spanDigits cs
  let (fraction, rest) :=
    match rest with
    | '.' :: rest => spanDigits rest
    | rest => ([], rest)
  if whole = [] ∧ fraction = [] then none
  else
    let exponent ← readExponent? rest
    return ⟨whole, fraction, exponent⟩

/-- Reads an unsigned number: a literal or a word, in any case of its letters. -/
def readMagnitude? (cs : List Char) : Option Float :=
  match String.ofList (cs.map Char.toLower) with
  | "inf" | "infinity" => some infinity
  | "nan" => some nan
  | _ => (readNumeral? cs).map Numeral.toFloat

/-- Reads a number with an optional sign. -/
def ofString? (s : String) : Option Float :=
  let (negative, cs) := takeSign s.toList
  (readMagnitude? cs).map fun x => if negative then -x else x

end MatrixLang.Number
