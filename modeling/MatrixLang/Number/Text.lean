import MatrixLang.Number.Shortest

/-!
# The text of a number

Numbers are written in plain positional notation, however large or small they
are: `1e21` is a one followed by 21 zeros.  A whole number has no point, the sign of
a negative zero is kept, and an exact tie between two shortest decimals goes up.
-/

namespace MatrixLang.Number

/-- A run of zeros. -/
def zeros (n : Nat) : List Char :=
  List.replicate n '0'

/-- The digits of a natural number. -/
def digitsOf (n : Nat) : List Char :=
  Nat.toDigits 10 n

/-- A decimal in positional notation, without a point if it is whole. -/
def Decimal.positional (d : Decimal) : List Char :=
  let digits := digitsOf d.digits
  if 0 ≤ d.exponent then digits ++ zeros d.exponent.toNat
  else
    let places := (-d.exponent).toNat
    if places < digits.length then
      digits.take (digits.length - places) ++ '.' :: digits.drop (digits.length - places)
    else '0' :: '.' :: zeros (places - digits.length) ++ digits

/-- A minus sign, if one is asked for. -/
def signed (negative : Bool) (body : List Char) : List Char :=
  if negative then '-' :: body else body

/-- The characters of a number's text. -/
def chars (x : Float) : List Char :=
  match Binary.ofFloat x with
  | .nan => "NaN".toList
  | .infinite negative => signed negative "inf".toList
  | .finite negative m q =>
    signed negative (if m = 0 then ['0'] else (shortest .up m q).positional)

/-- The text of a number. -/
def text (x : Float) : String :=
  String.ofList (chars x)

end MatrixLang.Number
