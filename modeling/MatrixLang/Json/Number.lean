import MatrixLang.Json.Basic
import MatrixLang.Number.Read

/-!
# Numbers in JSON

A number is written with the fewest digits that read back, always with a point or an
exponent; an exact tie goes to the even digit.  From `0.00001` up to sixteen digits before
the point the notation is positional, and scientific beyond.  There is no text for NaN and
the infinities.

Reading is not as exact as for literals of the language: as many digits as fit into 64 bits
make a significand, and one multiplication or division of doubles by a power of ten scales
it.  A literal too large for a double is refused.
-/

namespace MatrixLang.JsonNumber

/-! ## Writing -/

/-- The literal with given digits whose last one counts `10 ^ exponent`. -/
def ofDecimal (negative : Bool) (d : Number.Decimal) : JsonNumber :=
  let digits := Number.digitsOf d.digits
  let leading : Int := digits.length - 1 + d.exponent
  if -5 ≤ leading ∧ leading ≤ 15 then
    if 0 ≤ d.exponent then
      ⟨negative, digits ++ Number.zeros d.exponent.toNat, ['0'], none⟩
    else
      let places := (-d.exponent).toNat
      if places < digits.length then
        ⟨negative, digits.take (digits.length - places), digits.drop (digits.length - places), none⟩
      else ⟨negative, ['0'], Number.zeros (places - digits.length) ++ digits, none⟩
  else ⟨negative, digits.take 1, digits.drop 1, some leading⟩

/-- The literal of a number, if it has one. -/
def ofFloat? (x : Float) : Option JsonNumber :=
  match Number.Binary.ofFloat x with
  | .finite negative m q =>
    some (if m = 0 then ⟨negative, ['0'], ['0'], none⟩
      else ofDecimal negative (Number.shortest .even m q))
  | _ => none

/-! ## Reading -/

/-- The digits of a number as they are taken up: those that fit into 64 bits, and the
power of ten that the last of them counts. -/
structure Significand where
  value : Nat
  exponent : Int
deriving DecidableEq, Repr, Inhabited

/-- Whether one more digit fits into 64 bits. -/
def fits (value digit : Nat) : Bool :=
  value * 10 + digit < UInt64.size

/-- Takes up the digits before the point.  After the first that does not fit, each stands
for a zero. -/
def takeWhole (s : Significand) : List Char → Significand
  | [] => s
  | d :: ds =>
    let digit := d.toNat - '0'.toNat
    if fits s.value digit then takeWhole { s with value := s.value * 10 + digit } ds
    else ⟨s.value, ((d :: ds).length : Nat)⟩

/-- Takes up the digits after the point, until the first that does not fit. -/
def takeFraction (s : Significand) : List Char → Significand
  | [] => s
  | d :: ds =>
    let digit := d.toNat - '0'.toNat
    if fits s.value digit then takeFraction ⟨s.value * 10 + digit, s.exponent - 1⟩ ds
    else s

/-- The powers of ten that are doubles. -/
def powerOfTen (n : Nat) : Float :=
  Number.ofDecimal 1 n

/-- `x * 10 ^ exponent`, in as few steps as powers of ten allow; nothing if it is too
large. -/
def scale? (x : Float) (exponent : Int) : Option Float :=
  if exponent < -308 then
    -- There is no power of ten for one step, so it takes several.
    if x == 0 then some x else scale? (x / powerOfTen 308) (exponent + 308)
  else if exponent < 0 then some (x / powerOfTen (-exponent).toNat)
  else if exponent ≤ 308 then
    let y := x * powerOfTen exponent.toNat
    if y.isInf then none else some y
  else if x == 0 then some x else none
termination_by (-exponent).toNat

/-- The number that a literal stands for, if it is not too large. -/
def toFloat? (n : JsonNumber) : Option Float :=
  let s := takeFraction (takeWhole ⟨0, 0⟩ n.whole) n.fraction
  (scale? (Number.ofNat s.value) (s.exponent + n.exponent.getD 0)).map fun x =>
    if n.negative then -x else x

/-- The size below `2 ^ 64` that a literal stands for, if it is written as one. -/
def toSize? (n : JsonNumber) : Option Nat :=
  let value := Number.digitsValue n.whole
  if !n.negative && n.fraction.isEmpty && n.exponent.isNone && value < UInt64.size then some value
  else none

end MatrixLang.JsonNumber
