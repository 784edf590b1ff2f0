/-!
# Built-in functions

The names of the functions that come with the language, in the order in which they
are listed, and the numbers of arguments each is defined for.
-/

namespace MatrixLang

/-- Built-in functions. -/
inductive Builtin where
  | min
  | max
  | sum
  /-- The two dimensions of a matrix. -/
  | size
  | mean
  /-- The number of cells. -/
  | count
  | sqrt
  | zeros
  | ones
  /-- An identity matrix. -/
  | ident
  /-- A block of a matrix. -/
  | sub
  /-- All cells in one row. -/
  | vectorize
  /-- Adds one, in place if the argument is a variable. -/
  | inc
  /-- Subtracts one, in place if the argument is a variable. -/
  | dec
  | abs
  /-- The full convolution. -/
  | conv2
  /-- The convolution of the size of the image. -/
  | imconv
  | cos
  | sin
  /-- The tangent. -/
  | tg
  /-- The cotangent. -/
  | ctg
  | exp
  | prod
  | ceil
deriving DecidableEq, Repr, Inhabited

namespace Builtin

/-- Every built-in function, in listing order. -/
def all : List Builtin :=
  [.min, .max, .sum, .size, .mean, .count, .sqrt, .zeros, .ones, .ident, .sub, .vectorize,
    .inc, .dec, .abs, .conv2, .imconv, .cos, .sin, .tg, .ctg, .exp, .prod, .ceil]

/-- The name of a function in a source text. -/
def name : Builtin → String
  | .min => "min"
  | .max => "max"
  | .sum => "sum"
  | .size => "size"
  | .mean => "mean"
  | .count => "count"
  | .sqrt => "sqrt"
  | .zeros => "zeros"
  | .ones => "ones"
  | .ident => "ident"
  | .sub => "sub"
  | .vectorize => "vectorize"
  | .inc => "inc"
  | .dec => "dec"
  | .abs => "abs"
  | .conv2 => "conv2"
  | .imconv => "imconv"
  | .cos => "cos"
  | .sin => "sin"
  | .tg => "tg"
  | .ctg => "ctg"
  | .exp => "exp"
  | .prod => "prod"
  | .ceil => "ceil"

/-- The function of a given name. -/
def ofName? (name : String) : Option Builtin :=
  all.find? (·.name == name)

/-- Whether a function is defined for a number of arguments. -/
def accepts (f : Builtin) (count : Nat) : Bool :=
  match f with
  | .min | .max | .mean | .zeros | .ones => count == 1 || count == 2
  | .sub => count == 3 || count == 5
  | .conv2 => count == 2
  | .imconv => count == 2 || count == 3
  | _ => count == 1

end Builtin

end MatrixLang
