import MatrixLang.Matrix.Access

/-!
# Environments

The variables of a program and their values, in order of their names, and the policy by
which its image filters read what lies outside an image.
-/

namespace MatrixLang

/-- Values of variables. -/
structure Environment where
  /-- Names with their values, in order of the names. -/
  bindings : List (String × Matrix)
  /-- How image filters read cells outside the image. -/
  missing : MissingPolicy
deriving Inhabited

namespace Environment

/-- Puts a value into bindings that are in order, in the place of the one there is. -/
def insertBinding (name : String) (value : Matrix) :
    List (String × Matrix) → List (String × Matrix)
  | [] => [(name, value)]
  | (other, old) :: bindings =>
    if name < other then (name, value) :: (other, old) :: bindings
    else if name = other then (name, value) :: bindings
    else (other, old) :: insertBinding name value bindings

/-- No variables. -/
def empty (missing : MissingPolicy) : Environment :=
  ⟨[], missing⟩

/-- The value of a variable. -/
def get? (env : Environment) (name : String) : Option Matrix :=
  env.bindings.lookup name

/-- Gives a variable a value. -/
def set (env : Environment) (name : String) (value : Matrix) : Environment :=
  { env with bindings := insertBinding name value env.bindings }

/-- Whether a variable has a value. -/
def contains (env : Environment) (name : String) : Bool :=
  (env.get? name).isSome

/-- The names of the variables, in order. -/
def names (env : Environment) : List String :=
  env.bindings.map Prod.fst

/-- The number of variables. -/
def size (env : Environment) : Nat :=
  env.bindings.length

/-- Whether two environments have the same policy and the same variables with equal
values. -/
def same (a b : Environment) : Bool :=
  a.missing == b.missing && a.names == b.names &&
    (List.zipWith (fun x y => Matrix.same x.2 y.2) a.bindings b.bindings).all id

/-- The value of a variable that has to have one. -/
def lookup (env : Environment) (name : String) : Except Error Matrix :=
  match env.get? name with
  | some value => return value
  | none => throw (.undeclared name)

end Environment

end MatrixLang
