import MatrixLang.Number.Binary

/-!
# Arithmetic on single numbers

The operations on numbers that doubles do not come with: the exact remainder of a
division, integer powers, the larger and smaller of two numbers, and the integer a
number is cut to.
-/

namespace MatrixLang.Number

/-- Gives a magnitude a sign. -/
def withSign (negative : Bool) (x : Float) : Float :=
  if negative then -x else x

/-- The remainder of `x / y` after the quotient is cut towards zero.  It is exact
and has the sign of `x`.  Nothing is left of an infinity, or over by a zero; a
finite number is its own remainder by an infinity. -/
def remainder (x y : Float) : Float :=
  match Binary.ofFloat x, Binary.ofFloat y with
  | .finite negative m p, .finite _ n q =>
    if n = 0 then nan
    else
      let place := min p q
      let rest := (m * Nat.pow 2 (p - place).toNat) % (n * Nat.pow 2 (q - place).toNat)
      withSign negative (nearest (rest * Nat.pow 2 place.toNat) (Nat.pow 2 (-place).toNat))
  | .finite .., .infinite _ => x
  | _, _ => nan

/-- `result * base ^ n` by repeated squaring, lowest bit of `n` first. -/
def powNat (result base : Float) (n : Nat) : Float :=
  let result := if n % 2 = 1 then result * base else result
  if n / 2 = 0 then result else powNat result (base * base) (n / 2)
termination_by n

/-- An integer power; a negative exponent gives the reciprocal. -/
def powInt (base : Float) (n : Int) : Float :=
  let power := powNat 1 base n.natAbs
  if n < 0 then 1 / power else power

/-- The larger of two numbers; NaN is passed over. -/
def larger (x y : Float) : Float :=
  if x.isNaN then y else if y.isNaN then x else if x < y then y else x

/-- The smaller of two numbers; NaN is passed over. -/
def smaller (x y : Float) : Float :=
  if x.isNaN then y else if y.isNaN then x else if y < x then y else x

/-! ## Cutting to an integer -/

/-- The integer between `low` and `high` that a number is cut to: its fraction is
dropped, what lies outside goes to the nearer end, and NaN counts as 0. -/
def truncate (low high : Int) (x : Float) : Int :=
  match Binary.ofFloat x with
  | .nan => 0
  | .infinite negative => if negative then low else high
  | .finite negative m q =>
    let magnitude : Int := (m * Nat.pow 2 q.toNat / Nat.pow 2 (-q).toNat : Nat)
    max low (min high (if negative then -magnitude else magnitude))

/-- The signed 64-bit integer that a number is cut to. -/
def toInt64 (x : Float) : Int64 :=
  Int64.ofInt (truncate Int64.minValue.toInt Int64.maxValue.toInt x)

/-- The size below `2 ^ 64` that a number is cut to. -/
def toSize (x : Float) : Nat :=
  (truncate 0 (UInt64.size - 1) x).toNat

end MatrixLang.Number
