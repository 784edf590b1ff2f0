import MatrixLang.Matrix.Basic

/-!
# Arithmetic

Operations that work cell by cell take two matrices of one shape, or a number and a
matrix of any shape, whose cells are all combined with it (`broadcast`).  The product of
matrices is the usual one.
-/

namespace MatrixLang.Matrix

/-! ## Cell by cell -/

/-- Combines two matrices cell by cell, a number with every cell of the other; the
name of the operation is for the error. -/
def broadcast (operation : String) (f : Float → Float → Float) (a b : Matrix) :
    Except Error Matrix :=
  if a.isScalar ∧ ¬ b.isScalar then return b.map (f (a.cell 0 0))
  else if b.isScalar then return a.map (f · (b.cell 0 0))
  else if a.shape = b.shape then
    return ⟨a.rows, a.cols, Array.zipWith f a.data b.data⟩
  else throw (.shapeMismatch operation a.shape b.shape)

/-- Refuses a divisor with a zero among its cells. -/
def checkDivisor (m : Matrix) : Except Error Unit :=
  if m.data.any (· == 0) then throw .divideByZero else return ()

/-- The remainder of a division moved to the range from zero up to the size of the
modulus. -/
def wrapModulo (x modulus : Float) : Float :=
  let rest := Number.remainder x modulus
  if rest ≥ 0 then rest
  else
    let rest := rest + modulus.abs
    -- A tiny negative remainder can round up to the modulus itself.
    if rest ≥ modulus.abs then 0 else rest

/-- The sum, cell by cell. -/
def add (a b : Matrix) : Except Error Matrix :=
  broadcast "addition" (· + ·) a b

/-- The difference, cell by cell. -/
def subtract (a b : Matrix) : Except Error Matrix :=
  broadcast "subtraction" (· - ·) a b

/-- The opposite of every cell. -/
def negate (m : Matrix) : Matrix :=
  m.map (- ·)

/-- The product, cell by cell. -/
def cellMultiply (a b : Matrix) : Except Error Matrix :=
  broadcast "element-wise multiplication" (· * ·) a b

/-- The quotient, cell by cell.  No cell of the divisor may be zero. -/
def cellDivide (a b : Matrix) : Except Error Matrix := do
  checkDivisor b
  broadcast "element-wise division" (· / ·) a b

/-- The power, cell by cell.  Exponents need not be whole. -/
def cellPower (a b : Matrix) : Except Error Matrix :=
  broadcast "element-wise power" Float.pow a b

/-- The remainder, cell by cell and never negative.  No cell of the modulus may be zero. -/
def cellModulo (a b : Matrix) : Except Error Matrix := do
  checkDivisor b
  broadcast "element-wise modulo" wrapModulo a b

/-- The larger of two numbers in every cell. -/
def maxWith (a b : Matrix) : Except Error Matrix :=
  broadcast "max" Number.larger a b

/-- The smaller of two numbers in every cell. -/
def minWith (a b : Matrix) : Except Error Matrix :=
  broadcast "min" Number.smaller a b

/-- The mean of two numbers in every cell. -/
def meanWith (a b : Matrix) : Except Error Matrix :=
  broadcast "mean" (fun x y => (x + y) / 2) a b

/-- Adds one to every cell. -/
def increment (m : Matrix) : Matrix :=
  m.map (· + 1)

/-- Subtracts one from every cell. -/
def decrement (m : Matrix) : Matrix :=
  m.map (· - 1)

/-! ## By a number -/

/-- Division by a number. -/
def divide (a b : Matrix) : Except Error Matrix := do
  let d ← b.asScalar "Divisor"
  if d == 0 then throw .divideByZero
  return a.map (· / d)

/-- The remainder of the division by a number, never negative. -/
def modulo (a b : Matrix) : Except Error Matrix := do
  let d ← b.asScalar "Modulus"
  if d == 0 then throw .divideByZero
  return a.map (wrapModulo · d)

/-! ## Products and powers -/

/-- The zero that sums start from: it leaves a sum of negative zeros negative. -/
def sumStart : Float :=
  Float.ofBits 0x8000000000000000

/-- Rows and columns exchanged. -/
def transpose (m : Matrix) : Matrix :=
  tabulate m.cols m.rows fun i j => m.cell j i

/-- The matrix product, for as many columns in `a` as rows in `b`. -/
def product (a b : Matrix) : Matrix :=
  tabulate a.rows b.cols fun i j =>
    (List.range a.cols).foldl (fun sum k => sum + a.cell i k * b.cell k j) sumStart

/-- The product of matrices, or of a number and a matrix. -/
def multiply (a b : Matrix) : Except Error Matrix :=
  if a.isScalar ∨ b.isScalar then broadcast "multiplication" (· * ·) a b
  else if a.cols = b.rows then return a.product b
  else throw (.shapeMismatch "matrix multiplication" a.shape b.shape)

/-- The square matrix with ones on its diagonal. -/
def eye (n : Nat) : Matrix :=
  tabulate n n fun i j => if i = j then 1 else 0

/-- An integer power of a number or of a square matrix. -/
def power (a b : Matrix) : Except Error Matrix := do
  let n := (← b.asInteger "Exponent").toInt
  if a.isScalar then
    if n < Int32.minValue.toInt ∨ Int32.maxValue.toInt < n then
      throw (.invalidArgument (.exponentTooLarge n))
    return scalar (Number.powInt (a.cell 0 0) n)
  else if a.rows ≠ a.cols then throw (.shapeMismatch "matrix power" a.shape b.shape)
  else if n < 0 then throw (.invalidArgument .negativeExponent)
  else return Nat.repeat a.product n.toNat (eye a.rows)

end MatrixLang.Matrix
