import MatrixLang.Number.Binary

/-!
# Shortest decimals

The text of a number has the fewest digits that still read back as it.  A decimal
reads back as the double `m * 2 ^ q` when it lies within half a last place of it
(a quarter of one below a power of two, where the doubles are twice as dense); the
ends of that interval belong to it when `m` is even.

If some multiple of `10 ^ e` lies in the interval, so does one of the two
multiples next to the double, so it is enough to try those two, on coarser grids
first (`shortest`).  Of two hits the nearer is taken; the text that is written
decides which way an exact tie goes.
-/

namespace MatrixLang.Number

/-- The decimal `digits * 10 ^ exponent`. -/
structure Decimal where
  /-- The digits, as one number. -/
  digits : Nat
  /-- The power of ten of the last digit. -/
  exponent : Int
deriving DecidableEq, Repr, Inhabited

/-- Which of two equally near decimals is taken. -/
inductive Tie where
  /-- The larger. -/
  | up
  /-- The one whose last digit is even. -/
  | even
deriving DecidableEq, Repr, Inhabited

/-- Of the two neighbours `below` and `below + 1` of a value that lies
`rest / step` above the first, the nearer one. -/
def nearer (tie : Tie) (below rest step : Nat) : Nat :=
  if 2 * rest < step then below
  else if step < 2 * rest then below + 1
  else
    match tie with
    | .up => below + 1
    | .even => if below % 2 = 0 then below else below + 1

/-- Whether the doubles below `m * 2 ^ q` are twice as dense as those above. -/
def isNarrow (m : Nat) (q : Int) : Bool :=
  m == Nat.pow 2 fractionBits && leastExponent < q

/-- The multiple of `10 ^ e` that reads back as `m * 2 ^ q` and is nearest to it, if
there is one.  Lengths are counted in quarters of a last place, `4 * m` of them
making the double, and `step` is the distance of two grid points in the same
unit. -/
def gridPoint? (tie : Tie) (m : Nat) (q e : Int) : Option Nat :=
  let unit := Nat.pow 2 (q - 2).toNat * Nat.pow 10 (-e).toNat
  let step := Nat.pow 2 (2 - q).toNat * Nat.pow 10 e.toNat
  let low := (4 * m - if isNarrow m q then 1 else 2) * unit
  let high := (4 * m + 2) * unit
  let readsBack (c : Nat) : Bool :=
    if m % 2 = 0 then low ≤ c * step && c * step ≤ high
    else low < c * step && c * step < high
  let below := 4 * m * unit / step
  match readsBack below, readsBack (below + 1) with
  | false, false => none
  | true, false => some below
  | false, true => some (below + 1)
  | true, true => some (nearer tie below (4 * m * unit % step) step)

/-- The first hit on the grids `10 ^ e`, `10 ^ (e - 1)`, … of which there are
`count`, and the exact value of `m * 2 ^ q` if none has one. -/
def search (tie : Tie) (m : Nat) (q : Int) : Nat → Int → Decimal
  | 0, _ => ⟨m * Nat.pow 2 q.toNat * Nat.pow 5 (-q).toNat, min q 0⟩
  | count + 1, e =>
    match gridPoint? tie m q e with
    | some digits => ⟨digits, e⟩
    | none => search tie m q count (e - 1)

/-- A power of ten above `m * 2 ^ q`, by more than a factor of ten: 1233/4096 is just
below the decimal logarithm of two. -/
def coarsest (m : Nat) (q : Int) : Int :=
  ((m.log2 : Int) + q + 1) * 1233 / 4096 + 2

/-- The decimal with the fewest digits that reads back as `m * 2 ^ q`, for `m` not 0. -/
def shortest (tie : Tie) (m : Nat) (q : Int) : Decimal :=
  let e := coarsest m q
  search tie m q (e - min q 0).toNat e

end MatrixLang.Number
