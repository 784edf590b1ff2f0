import MatrixLang.Environment
import MatrixLang.Expr
import MatrixLang.Matrix.Compare
import MatrixLang.Matrix.Concat
import MatrixLang.Matrix.Convolution
import MatrixLang.Matrix.Reduce

/-!
# Evaluation of expressions

An expression is evaluated from left to right in an environment.  The only effect it can
have is that `inc` and `dec`, applied to a variable, change its value; such a change stays
even if the evaluation fails later.
-/

namespace MatrixLang

/-! ## Operators and functions on values -/

/-- What an operator makes of its operand. -/
def UnaryOperator.apply (op : UnaryOperator) (m : Matrix) : Matrix :=
  match op with
  | .neg => m.negate
  | .transpose => m.transpose
  | .not => m.complement

/-- What an operator makes of its operands. -/
def BinaryOperator.apply (op : BinaryOperator) (a b : Matrix) : Except Error Matrix :=
  match op with
  | .add => a.add b
  | .sub => a.subtract b
  | .mul => a.multiply b
  | .cellMul => a.cellMultiply b
  | .cellDiv => a.cellDivide b
  | .cellPow => a.cellPower b
  | .cellMod => a.cellModulo b
  | .div => a.divide b
  | .pow => a.power b
  | .mod => a.modulo b
  | .beside => a.concat .beside b
  | .below => a.concat .below b
  | .repeatBeside => a.replicate .beside b
  | .repeatBelow => a.replicate .below b
  | .range => a.range b
  | .index => do a.get (← b.asInteger "Index")
  | .eq => return a.equal b
  | .ne => return a.notEqual b
  | .lt => return a.less b
  | .gt => return a.greater b
  | .le => return a.lessEqual b
  | .ge => return a.greaterEqual b
  | .and => return a.conjunction b
  | .or => return a.disjunction b

namespace Builtin

/-- The shape that the arguments of `zeros` and `ones` name. -/
def shapeOfArguments (f : Builtin) (arguments : List Matrix) : Except Error Shape :=
  match arguments with
  | [extent] => extent.shapeFrom
  | [rows, cols] => Matrix.shapeFromPair rows cols
  | _ => throw (.illFormed (.undefinedFor f arguments.length))

/-- What a function makes of its arguments, where images are read by the policy
`missing`. -/
def apply (missing : MissingPolicy) (f : Builtin) (arguments : List Matrix) :
    Except Error Matrix := do
  match f, arguments with
  | .min, [a] => return a.minimum
  | .min, [a, b] => a.minWith b
  | .max, [a] => return a.maximum
  | .max, [a, b] => a.maxWith b
  | .mean, [a] => return a.mean
  | .mean, [a, b] => a.meanWith b
  | .sum, [a] => return a.sum
  | .prod, [a] => return a.prod
  | .size, [a] => return a.dimensions
  | .count, [a] => return a.count
  | .sqrt, [a] => return a.sqrt
  | .abs, [a] => return a.abs
  | .cos, [a] => return a.cos
  | .sin, [a] => return a.sin
  | .tg, [a] => return a.tan
  | .ctg, [a] => return a.cot
  | .exp, [a] => return a.exp
  | .ceil, [a] => return a.ceil
  | .vectorize, [a] => return a.vectorize
  | .zeros, arguments => Matrix.filled (← shapeOfArguments f arguments) 0
  | .ones, arguments => Matrix.filled (← shapeOfArguments f arguments) 1
  | .ident, [extent] => extent.identity
  | .sub, [m, origin, extent] => m.sub origin extent
  | .sub, [m, row, col, height, width] =>
    let row ← row.asInteger "Row"
    let col ← col.asInteger "Column"
    let height ← height.asInteger "Height"
    let width ← width.asInteger "Width"
    m.submatrix row col height width
  | .inc, [a] => return a.increment
  | .dec, [a] => return a.decrement
  | .conv2, [a, kernel] => return a.convolveFull kernel
  | .imconv, [a, kernel] => return a.convolveSame kernel missing
  | .imconv, [a, kernel, policy] =>
    let policy ← MissingPolicy.ofCode (← policy.asInteger "Missing-value policy")
    return a.convolveSame kernel policy
  | f, arguments => throw (.illFormed (.undefinedFor f arguments.length))

/-- What a function does to a variable that is its only argument, if it changes it. -/
def inPlace? : Builtin → Option (Matrix → Matrix)
  | .inc => some Matrix.increment
  | .dec => some Matrix.decrement
  | _ => none

end Builtin

/-! ## Expressions -/

/-- A computation in an environment, which may fail.  What it did to the environment
before stays. -/
abbrev Eval := ExceptT Error (StateM Environment)

namespace Eval

variable {α : Type}

/-- A computation that needs no environment. -/
def lift (x : Except Error α) : Eval α :=
  fun env => (x, env)

/-- The value of a variable. -/
def lookup (name : String) : Eval Matrix :=
  fun env => (env.lookup name, env)

/-- Changes the value of a variable by `f`, and gives the new value. -/
def update (name : String) (f : Matrix → Matrix) : Eval Matrix := do
  let value ← lookup name
  modifyThe Environment (·.set name (f value))
  return f value

/-- The evaluation of a call that changes the variable it is applied to, if it is one. -/
def updateCall? (f : Builtin) (arguments : List Expr) : Option (Eval Matrix) :=
  match f.inPlace?, arguments with
  | some change, [.variable name] => some (update name change)
  | _, _ => none

theorem update_of_lookup {env : Environment} {name : String} {value : Matrix}
    (h : env.lookup name = .ok value) (f : Matrix → Matrix) :
    update name f env = (.ok (f value), env.set name (f value)) := by
  unfold update lookup
  simp only [bind, ExceptT.bind, ExceptT.mk, StateT.bind, h]
  rfl

theorem update_of_error {env : Environment} {name : String} {e : Error}
    (h : env.lookup name = .error e) (f : Matrix → Matrix) :
    update name f env = (.error e, env) := by
  unfold update lookup
  simp only [bind, ExceptT.bind, ExceptT.mk, StateT.bind, h]
  rfl

/-- A call that changes a variable is `inc` or `dec`, and changes it cell by cell. -/
theorem updateCall?_eq_some {f : Builtin} {arguments : List Expr} {result : Eval Matrix}
    (h : updateCall? f arguments = some result) :
    ∃ name change, (f = .inc ∨ f = .dec) ∧ arguments = [.variable name] ∧
      result = update name (Matrix.map change) := by
  unfold updateCall? at h
  split at h
  · rename_i change name hplace
    cases h
    cases f <;> cases hplace
    · exact ⟨name, (· + 1), .inl rfl, rfl, rfl⟩
    · exact ⟨name, (· - 1), .inr rfl, rfl, rfl⟩
  · cases h

end Eval

namespace Expr

mutual

/-- Evaluates an expression. -/
def eval : Expr → Eval Matrix
  | .literal value => return .scalar value
  | .variable name => Eval.lookup name
  | .matrix rows cols elements => do
    let data ← evalCells elements
    Eval.lift (Matrix.ofData ⟨rows, cols⟩ data.toArray)
  | .unary op operand => return op.apply (← operand.eval)
  | .binary op left right => do
    let a ← left.eval
    let b ← right.eval
    Eval.lift (op.apply a b)
  | .call f arguments =>
    match Eval.updateCall? f arguments with
    | some result => result
    | none => do
      let values ← evalAll arguments
      let env ← getThe Environment
      Eval.lift (f.apply env.missing values)

/-- Evaluates the cells of a matrix literal, which are numbers. -/
def evalCells : List Expr → Eval (List Float)
  | [] => return []
  | e :: es => do
    let m ← e.eval
    let x ← Eval.lift (m.asScalar "Matrix literal element")
    return x :: (← evalCells es)

/-- Evaluates the arguments of a call. -/
def evalAll : List Expr → Eval (List Matrix)
  | [] => return []
  | e :: es => do
    let m ← e.eval
    return m :: (← evalAll es)

end

theorem eval_variable {env : Environment} {name : String} {value : Matrix}
    (h : env.lookup name = .ok value) : (Expr.variable name).eval env = (.ok value, env) := by
  rw [eval, Eval.lookup, h]

end Expr

end MatrixLang
