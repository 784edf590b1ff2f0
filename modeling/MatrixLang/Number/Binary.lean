/-!
# Numbers as exact binary fractions

A number of the matrix language is a double.  Everything that has to be exact
about one (its shortest decimal text, the value of a decimal literal, the
remainder of a division, the integer it is cut to) is computed here and in the
neighbouring modules from the fraction it stands for, `± mantissa * 2 ^ exponent`,
in natural numbers.

* `Binary.ofFloat` takes a double apart.
* `nearest num den` is the double nearest to `num / den`, a half going to the
  even neighbour.
-/

namespace MatrixLang.Number

/-- What a double stands for. -/
inductive Binary where
  /-- Not a number. -/
  | nan
  /-- An infinity. -/
  | infinite (negative : Bool)
  /-- The number `± mantissa * 2 ^ exponent`; the two zeros have mantissa 0. -/
  | finite (negative : Bool) (mantissa : Nat) (exponent : Int)
deriving DecidableEq, Repr, Inhabited

/-- The number of bits of a mantissa that are stored. -/
def fractionBits : Nat := 52

/-- The exponent of the last place of the smallest doubles. -/
def leastExponent : Int := -1074

namespace Binary

/-- Takes a 64-bit pattern apart: a sign bit, eleven bits of exponent and 52 bits
of fraction.  The leading bit of a mantissa is implicit, except in the lowest
binade, and the highest exponent is that of the infinities and of NaN. -/
def ofBits (bits : Nat) : Binary :=
  let negative := decide (Nat.pow 2 63 ≤ bits)
  let biased := bits / Nat.pow 2 fractionBits % 2048
  let fraction := bits % Nat.pow 2 fractionBits
  if biased = 2047 then
    if fraction = 0 then .infinite negative else .nan
  else if biased = 0 then .finite negative fraction leastExponent
  else .finite negative (Nat.pow 2 fractionBits + fraction) (biased + leastExponent - 1)

/-- What the double `x` stands for. -/
def ofFloat (x : Float) : Binary :=
  ofBits x.toBits.toNat

end Binary

/-- The quotient `num / den` rounded to a natural number, a half to the even
neighbour. -/
def roundDiv (num den : Nat) : Nat :=
  let quotient := num / den
  let rest := num % den
  if 2 * rest < den then quotient
  else if den < 2 * rest then quotient + 1
  else if quotient % 2 = 0 then quotient else quotient + 1

/-- The exponent of the last place of the double nearest to `num / den`: the one
that leaves 53 bits before the point, but never below that of the smallest
doubles.  The lengths of `num` and `den` give the binary logarithm of the quotient
but for one, and a comparison settles which. -/
def lastPlace (num den : Nat) : Int :=
  let guess : Int := (num.log2 : Int) - (den.log2 : Int)
  let reached := decide (den * Nat.pow 2 guess.toNat ≤ num * Nat.pow 2 (-guess).toNat)
  max leastExponent (if reached then guess - 52 else guess - 53)

/-- The bit pattern of the double nearest to `num / den`.  A mantissa that rounds
up to the next power of two carries into the exponent, and what is too large
becomes the pattern of the infinity. -/
def nearestBits (num den : Nat) : Nat :=
  if num = 0 then 0
  else
    let place := lastPlace num den
    let mantissa := roundDiv (num * Nat.pow 2 (-place).toNat) (den * Nat.pow 2 place.toNat)
    min ((place - leastExponent).toNat * Nat.pow 2 fractionBits + mantissa)
      (2047 * Nat.pow 2 fractionBits)

/-- The double nearest to `num / den`, where `den` is positive. -/
def nearest (num den : Nat) : Float :=
  Float.ofBits (nearestBits num den).toUInt64

/-- The positive infinity. -/
def infinity : Float :=
  Float.ofBits 0x7ff0000000000000

/-- Not a number. -/
def nan : Float :=
  Float.ofBits 0x7ff8000000000000

/-- The double nearest to a natural number. -/
def ofNat (n : Nat) : Float :=
  nearest n 1

/-- The double nearest to an integer. -/
def ofInt (n : Int) : Float :=
  if n < 0 then -(ofNat n.natAbs) else ofNat n.natAbs

/-- Whether a double is a number other than the infinities. -/
def isFinite (x : Float) : Bool :=
  match Binary.ofFloat x with
  | .finite .. => true
  | _ => false

end MatrixLang.Number
