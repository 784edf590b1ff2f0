import MatrixLang.Proofs.FullConvolution
import MatrixLang.Proofs.NumberBits

/-! # Guarded operators and functions

The operators and built-in functions of the language with guards (`Checked.unary`,
`Checked.binary`, `Checked.builtin`), and that they do on valid matrices what the plain ones do.
-/

namespace MatrixLang.Checked

open Guarded (plain)

variable {a b m : Matrix} {i j k : Nat}

/-! ## Arithmetic -/

/-- Combines two matrices cell by cell, a number with every cell of the other. -/
def broadcast (operation : String) (f : Float → Float → Float) (a b : Matrix) :
    Checked Matrix := do
  if a.isScalar ∧ ¬ b.isScalar then
    let x ← cell a 0 0
    return b.map (f x)
  else if b.isScalar then
    let y ← cell b 0 0
    return a.map (f · y)
  else if a.shape = b.shape then
    return ⟨a.rows, a.cols, Array.zipWith f a.data b.data⟩
  else throw (.shapeMismatch operation a.shape b.shape)

theorem agrees_broadcast (ha : a.Valid) (hb : b.Valid) (operation : String)
    (f : Float → Float → Float) :
    Agrees (broadcast operation f a b) (Matrix.broadcast operation f a b) Matrix.Valid := by
  rw [broadcast, Matrix.broadcast]
  split
  · exact .step (cell_zero ha) (.pure (hb.map _))
  split
  · exact .step (cell_zero hb) (.pure (ha.map _))
  split
  · rename_i hshape
    obtain ⟨hrows, hcols⟩ := Shape.mk.inj hshape
    refine .pure ⟨ha.rows_pos, ha.cols_pos, ?_⟩
    rw [Array.size_zipWith, ha.size_data, hb.size_data, ← hrows, ← hcols, Nat.min_self]
  · exact .throw _

/-- Combines two matrices cell by cell, if no cell of the second is zero. -/
def divided (operation : String) (f : Float → Float → Float) (a b : Matrix) :
    Checked Matrix := do
  plain b.checkDivisor
  broadcast operation f a b

/-- Applies a function to every cell and a number other than zero. -/
def byScalar (context : String) (f : Float → Float → Float) (a b : Matrix) : Checked Matrix := do
  let d ← asScalar context b
  if d == 0 then throw .divideByZero
  return a.map (f · d)

theorem agrees_divided (ha : a.Valid) (hb : b.Valid) (operation : String)
    (f : Float → Float → Float) : Agrees (divided operation f a b)
      (do b.checkDivisor; Matrix.broadcast operation f a b) Matrix.Valid :=
  (Agrees.lift fun _ _ => trivial).bind fun _ _ => agrees_broadcast ha hb operation f

theorem agrees_byScalar (ha : a.Valid) (hb : b.Valid) (context : String)
    (f : Float → Float → Float) : Agrees (byScalar context f a b) (do
      let d ← b.asScalar context
      if d == 0 then throw .divideByZero
      return a.map (f · d)) Matrix.Valid := by
  refine (agrees_asScalar hb context).bind fun d _ => ?_
  dsimp only
  split
  · exact .throw _
  · exact .pure (ha.map _)

/-- Rows and columns exchanged. -/
def transpose (m : Matrix) : Guarded Matrix :=
  tabulate m.cols m.rows fun i j => cell m j i

theorem transpose_eq (h : m.Valid) : transpose m = .ok m.transpose :=
  tabulate_eq fun _ hi _ hj => cell_eq h hj hi

/-- The matrix product. -/
def product (a b : Matrix) : Guarded Matrix :=
  tabulate a.rows b.cols fun i j => (List.range a.cols).foldlM (fun sum k => do
    return sum + (← cell a i k) * (← cell b k j)) Matrix.sumStart

theorem product_eq (ha : a.Valid) (hb : b.Valid) (h : a.cols = b.rows) :
    product a b = .ok (a.product b) := by
  refine tabulate_eq fun i hi j hj => foldlM_ok (fun k hk sum => ?_) _
  have hk := List.mem_range.mp hk
  rw [cell_eq ha hi hk, cell_eq hb (h ▸ hk) hj]
  rfl

/-- The product of matrices, or of a number and a matrix. -/
def multiply (a b : Matrix) : Checked Matrix :=
  if a.isScalar ∨ b.isScalar then broadcast "multiplication" (· * ·) a b
  else if a.cols = b.rows then liftM (product a b)
  else throw (.shapeMismatch "matrix multiplication" a.shape b.shape)

theorem agrees_multiply (ha : a.Valid) (hb : b.Valid) :
    Agrees (multiply a b) (a.multiply b) Matrix.Valid := by
  rw [multiply, Matrix.multiply]
  split
  · exact agrees_broadcast ha hb _ _
  split
  · rename_i h
    rw [product_eq ha hb h]
    exact .pure (Matrix.valid_tabulate ha.rows_pos hb.cols_pos _)
  · exact .throw _

/-- A power of a square matrix, by repeated products. -/
def powers (a : Matrix) : Nat → Guarded Matrix
  | 0 => return .eye a.rows
  | n + 1 => do product a (← powers a n)

theorem valid_eye {n : Nat} (h : 0 < n) : (Matrix.eye n).Valid :=
  Matrix.valid_tabulate h h _

theorem powers_eq (ha : a.Valid) (hsquare : a.rows = a.cols) (n : Nat) :
    ∃ r, powers a n = .ok r ∧ Nat.repeat a.product n (.eye a.rows) = r ∧ r.Valid ∧
      r.rows = a.rows := by
  induction n with
  | zero => exact ⟨.eye a.rows, rfl, rfl, valid_eye ha.rows_pos, rfl⟩
  | succ n ih =>
    obtain ⟨r, hpowers, hrepeat, hvalid, hrows⟩ := ih
    refine ⟨a.product r, ?_, congrArg a.product hrepeat,
      Matrix.valid_tabulate ha.rows_pos hvalid.cols_pos _, rfl⟩
    rw [powers, hpowers, ok_bind, product_eq ha hvalid (by omega)]

/-- An integer power of a number or of a square matrix. -/
def power (a b : Matrix) : Checked Matrix := do
  let n := (← asInteger "Exponent" b).toInt
  if a.isScalar then
    if n < Int32.minValue.toInt ∨ Int32.maxValue.toInt < n then
      throw (.invalidArgument (.exponentTooLarge n))
    return .scalar (Number.powInt (← cell a 0 0) n)
  else if a.rows ≠ a.cols then throw (.shapeMismatch "matrix power" a.shape b.shape)
  else if n < 0 then throw (.invalidArgument .negativeExponent)
  else powers a n.toNat

theorem agrees_power (ha : a.Valid) (hb : b.Valid) :
    Agrees (power a b) (a.power b) Matrix.Valid := by
  refine (agrees_asInteger hb _).bind fun exponent _ => ?_
  generalize exponent.toInt = n
  dsimp only
  split
  · split
    · exact .throw _
    · exact .step (cell_zero ha) (.pure (Matrix.valid_scalar _))
  split
  · exact .throw _
  split
  · exact .throw _
  · rename_i hsquare _
    obtain ⟨r, hpowers, hrepeat, hvalid, -⟩ := powers_eq ha (by omega) n.toNat
    rw [hpowers, hrepeat]
    exact .pure hvalid

/-! ## Comparison and logic -/

/-- Whether a relation holds in every cell. -/
def everywhere (rel : Float → Float → Bool) (a b : Matrix) : Guarded Bool := do
  if a.isScalar then
    let x ← cell a 0 0
    return b.data.all (rel x)
  else if b.isScalar then
    let y ← cell b 0 0
    return a.data.all (rel · y)
  else return a.shape == b.shape && (Array.zipWith rel a.data b.data).all id

theorem everywhere_eq (ha : a.Valid) (hb : b.Valid) (rel : Float → Float → Bool) :
    everywhere rel a b = .ok (Matrix.everywhere rel a b) := by
  rw [everywhere, Matrix.everywhere, cell_zero ha, cell_zero hb]
  split
  · rfl
  split
  · rfl
  · rfl

/-- The truth value of a relation. -/
def relation (rel : Float → Float → Bool) (a b : Matrix) : Guarded Matrix := do
  return .ofBool (← everywhere rel a b)

theorem agrees_relation (ha : a.Valid) (hb : b.Valid) (rel : Float → Float → Bool) :
    Agrees (liftM (relation rel a b) : Checked Matrix)
      (return .ofBool (Matrix.everywhere rel a b)) Matrix.Valid := by
  rw [relation, everywhere_eq ha hb]
  exact .pure (Matrix.valid_ofBool _)

/-- The truth value of a combination of two truth values. -/
def logical (f : Bool → Bool → Bool) (a b : Matrix) : Guarded Matrix := do
  return .ofBool (f (← isTrue a) (← isTrue b))

theorem agrees_logical (ha : a.Valid) (hb : b.Valid) (f : Bool → Bool → Bool) :
    Agrees (liftM (logical f a b) : Checked Matrix) (return .ofBool (f a.isTrue b.isTrue))
      Matrix.Valid := by
  rw [logical, isTrue_eq ha, isTrue_eq hb]
  exact .pure (Matrix.valid_ofBool _)

/-! ## Joining -/

/-- Joins two matrices. -/
def concat (side : Side) (a b : Matrix) : Checked Matrix :=
  match side with
  | .beside =>
    if a.rows = b.rows then
      liftM (tabulate a.rows (a.cols + b.cols) fun i j =>
        if j < a.cols then cell a i j else cell b i (j - a.cols))
    else throw (.incompatibleConcat a.shape b.shape)
  | .below =>
    if a.cols = b.cols then return ⟨a.rows + b.rows, a.cols, a.data ++ b.data⟩
    else throw (.incompatibleConcat a.shape b.shape)

theorem agrees_concat (ha : a.Valid) (hb : b.Valid) (side : Side) :
    Agrees (concat side a b) (a.concat side b) Matrix.Valid := by
  have hrows := ha.rows_pos
  have hcols := ha.cols_pos
  cases side with
  | beside =>
    rw [concat, Matrix.concat]
    split
    · refine agrees_tabulate (fun i hi j hj => ?_) hrows (by omega)
      split
      · exact cell_eq ha hi ‹_›
      · exact cell_eq hb (by omega) (by omega)
    · exact .throw _
  | below =>
    rw [concat, Matrix.concat]
    split
    · rename_i h
      refine .pure ⟨by simp only; omega, hcols, ?_⟩
      rw [Array.size_append, ha.size_data, hb.size_data, Nat.add_mul, h]
    · exact .throw _

/-- A matrix joined with copies of itself. -/
def replicate (side : Side) (m times : Matrix) : Checked Matrix := do
  let n := (← asInteger "Repetition count" times).toInt
  if n < 1 then throw (.invalidArgument (.tooFewRepetitions n))
  let shape := Matrix.repeatedShape side m n.toNat
  if UInt64.size ≤ shape.rows ∨ UInt64.size ≤ shape.cols then
    throw (.invalidArgument (.tooManyRepetitions m.shape n))
  plain (Matrix.checkSize shape)
  tabulate shape.rows shape.cols fun i j => cell m (i % m.rows) (j % m.cols)

theorem agrees_replicate {times : Matrix} (hm : m.Valid) (ht : times.Valid) (side : Side) :
    Agrees (replicate side m times) (m.replicate side times) Matrix.Valid := by
  have hrows := hm.rows_pos
  have hcols := hm.cols_pos
  refine (agrees_asInteger ht _).bind fun count _ => ?_
  generalize count.toInt = n
  dsimp only
  split
  · exact .throw _
  split
  · exact .throw _
  refine (Agrees.lift fun _ _ => trivial).bind fun _ _ => ?_
  -- every cell is read at its place in the one copy there is
  have hn : 0 < n.toNat := by omega
  refine agrees_tabulate (fun i _ j _ => cell_eq hm (Nat.mod_lt i hrows) (Nat.mod_lt j hcols)) ?_ ?_
  · cases side with
    | beside => exact hrows
    | below => exact Nat.mul_pos hrows hn
  · cases side with
    | beside => exact Nat.mul_pos hcols hn
    | below => exact hcols

/-! ## Convolutions -/

theorem agrees_convolveFull {kernel : Matrix} (hm : m.Valid) (hk : kernel.Valid) :
    Agrees (liftM (convolveFull m kernel) : Checked Matrix) (return m.convolveFull kernel)
      Matrix.Valid := by
  have hmrows := hm.rows_pos
  have hmcols := hm.cols_pos
  have hkrows := hk.rows_pos
  have hkcols := hk.cols_pos
  rw [convolveFull_eq hm hk]
  exact .pure (Matrix.valid_tabulate (by omega) (by omega) _)

/-- The source filtered with a kernel. -/
def convolveSame (m kernel : Matrix) (policy : MissingPolicy) : Guarded Matrix :=
  tabulate m.rows m.cols fun i j =>
    (List.range kernel.rows).foldlM (fun sum k =>
      (List.range kernel.cols).foldlM (fun sum l => do
        let x ← cellAt .unbounded m (Matrix.sourceIndex i k kernel.rows)
          (Matrix.sourceIndex j l kernel.cols) policy
        return sum + x * (← cell kernel k l)) sum) 0

theorem agrees_convolveSame {kernel : Matrix} (hm : m.Valid) (hk : kernel.Valid)
    (policy : MissingPolicy) : Agrees (liftM (convolveSame m kernel policy) : Checked Matrix)
      (return m.convolveSame kernel policy) Matrix.Valid := by
  refine agrees_tabulate (fun i _ j _ => foldlM_ok (fun k hmem sum => ?_) _) hm.rows_pos hm.cols_pos
  refine foldlM_ok (fun l hl sum => ?_) _
  rw [cellAt_eq hm m.storableIn_unbounded fun _ => ⟨rfl, rfl⟩,
    cell_eq hk (List.mem_range.mp hmem) (List.mem_range.mp hl)]
  rfl

/-! ## New matrices -/

/-- All numbers from one to another in whole steps. -/
def range (a b : Matrix) : Checked Matrix := do
  let first ← asScalar "Range start" a
  let last ← asScalar "Range end" b
  let span := (last - first).abs
  if !Number.isFinite span ∨ maxCells ≤ Number.toSize span then
    throw (.invalidArgument (.rangeTooLong first last))
  let step : Float := if first ≤ last then 1 else -1
  plain (Matrix.rowVector
    (Array.ofFn fun k : Fin (Number.toSize span + 1) => first + step * Number.ofNat k))

theorem agrees_range (ha : a.Valid) (hb : b.Valid) :
    Agrees (range a b) (a.range b) Matrix.Valid := by
  refine (agrees_asScalar ha _).bind fun first _ => (agrees_asScalar hb _).bind fun last _ => ?_
  dsimp only
  split
  · exact .throw _
  · exact .lift fun _ => Matrix.valid_of_ofData

/-- The shape that a size names. -/
def shapeFrom (size : Matrix) : Checked Shape := do
  if size.isScalar then
    let cols ← cell size 0 0
    return ⟨1, ← plain (Matrix.dimension "size" cols)⟩
  else if size.isVector ∧ size.size = 2 then
    let x ← datum size 0
    let rows ← plain (Matrix.dimension "row count" x)
    let y ← datum size 1
    let cols ← plain (Matrix.dimension "column count" y)
    return ⟨rows, cols⟩
  else throw (.invalidArgument (.sizeShape size.shape))

theorem agrees_shapeFrom (h : m.Valid) :
    Agrees (shapeFrom m) m.shapeFrom fun _ => True := by
  rw [shapeFrom, Matrix.shapeFrom]
  split
  · exact .step (cell_zero h) ((Agrees.lift fun _ _ => trivial).bind fun _ _ => .pure trivial)
  split
  · rename_i hsize
    refine .step (datum_eq (by omega)) ((Agrees.lift fun _ _ => trivial).bind fun _ _ => ?_)
    refine .step (datum_eq (by omega)) ((Agrees.lift fun _ _ => trivial).bind fun _ _ => ?_)
    exact .pure trivial
  · exact .throw _

/-- The shape that two numbers name. -/
def shapeFromPair (rows cols : Matrix) : Checked Shape := do
  let x ← asScalar "Row count" rows
  let rows ← plain (Matrix.dimension "row count" x)
  let y ← asScalar "Column count" cols
  let cols ← plain (Matrix.dimension "column count" y)
  return ⟨rows, cols⟩

theorem agrees_shapeFromPair (ha : a.Valid) (hb : b.Valid) :
    Agrees (shapeFromPair a b) (Matrix.shapeFromPair a b) fun _ => True := by
  refine (agrees_asScalar ha _).bind fun _ _ => (Agrees.lift fun _ _ => trivial).bind fun _ _ => ?_
  refine (agrees_asScalar hb _).bind fun _ _ => (Agrees.lift fun _ _ => trivial).bind fun _ _ => ?_
  exact .pure trivial

/-- The shape that the arguments of `zeros` and `ones` name. -/
def shapeOfArguments (f : Builtin) (arguments : List Matrix) : Checked Shape :=
  match arguments with
  | [extent] => shapeFrom extent
  | [rows, cols] => shapeFromPair rows cols
  | _ => throw (.illFormed (.undefinedFor f arguments.length))

theorem valid_of_filled {shape : Shape} {x : Float} (h : Matrix.filled shape x = .ok m) :
    m.Valid := by
  rw [Matrix.filled] at h
  split at h
  · cases h
  rename_i hpos
  rw [Matrix.checkSize] at h
  split at h
  · cases h
    rw [not_or] at hpos
    exact Matrix.valid_tabulate (Nat.pos_of_ne_zero hpos.1) (Nat.pos_of_ne_zero hpos.2) _
  · cases h

/-- A matrix of the shape that the arguments name, with the same number in every cell. -/
def filled (f : Builtin) (arguments : List Matrix) (x : Float) : Checked Matrix := do
  let shape ← shapeOfArguments f arguments
  plain (Matrix.filled shape x)

theorem agrees_filled {arguments : List Matrix} (h : ∀ m ∈ arguments, m.Valid) (f : Builtin)
    (x : Float) : Agrees (filled f arguments x)
      (f.shapeOfArguments arguments >>= fun shape => Matrix.filled shape x) Matrix.Valid := by
  have hshape : Agrees (shapeOfArguments f arguments) (f.shapeOfArguments arguments)
      fun _ => True := by
    match arguments with
    | [extent] => exact agrees_shapeFrom (h _ (by simp))
    | [rows, cols] => exact agrees_shapeFromPair (h _ (by simp)) (h _ (by simp))
    | [] => exact .throw _
    | _ :: _ :: _ :: _ => exact .throw _
  exact hshape.bind fun _ _ => .lift fun _ => valid_of_filled

/-- The identity matrix of a given size, which has to be a number. -/
def identity (size : Matrix) : Checked Matrix := do
  let x ← asScalar "Identity size" size
  if x.isNaN then throwThe Fault .undefined
  else
    let n ← plain (Matrix.dimension "identity size" x)
    plain (Matrix.checkSize ⟨n, n⟩)
    return .eye n

theorem pos_of_dimension {what : String} {x : Float} {n : Nat} (hnan : x.isNaN = false)
    (h : Matrix.dimension what x = .ok n) : 0 < n := by
  rw [Matrix.dimension] at h
  split at h
  · cases h
  · cases h
    exact Number.one_le_toSize hnan ‹_›

theorem agrees_identity (h : m.Valid) : Agrees (identity m) m.identity Matrix.Valid := by
  refine (agrees_asScalar h _).bind fun x _ => ?_
  split
  · exact .inl rfl
  · rename_i hnan
    refine (Agrees.lift fun _ => pos_of_dimension (by simpa using hnan)).bind fun n hn => ?_
    exact (Agrees.lift fun _ _ => trivial).bind fun _ _ => .pure (valid_eye hn)

/-! ## Operators -/

/-- What an operator makes of its operand. -/
def unary (op : UnaryOperator) (m : Matrix) : Guarded Matrix :=
  match op with
  | .neg => return m.negate
  | .transpose => transpose m
  | .not => do return .ofBool (!(← isTrue m))

theorem unary_eq (h : m.Valid) (op : UnaryOperator) : unary op m = .ok (op.apply m) := by
  cases op with
  | neg => rfl
  | transpose => exact transpose_eq h
  | not =>
    rw [unary, isTrue_eq h]
    rfl

theorem valid_unary (h : m.Valid) (op : UnaryOperator) : (op.apply m).Valid := by
  cases op with
  | neg => exact h.map _
  | transpose => exact Matrix.valid_tabulate h.cols_pos h.rows_pos fun i j => m.cell j i
  | not => exact Matrix.valid_ofBool _

/-- What an operator makes of its operands. -/
def binary (op : BinaryOperator) (a b : Matrix) : Checked Matrix :=
  match op with
  | .add => broadcast "addition" (· + ·) a b
  | .sub => broadcast "subtraction" (· - ·) a b
  | .mul => multiply a b
  | .cellMul => broadcast "element-wise multiplication" (· * ·) a b
  | .cellDiv => divided "element-wise division" (· / ·) a b
  | .cellPow => broadcast "element-wise power" Float.pow a b
  | .cellMod => divided "element-wise modulo" Matrix.wrapModulo a b
  | .div => byScalar "Divisor" (· / ·) a b
  | .pow => power a b
  | .mod => byScalar "Modulus" Matrix.wrapModulo a b
  | .beside => concat .beside a b
  | .below => concat .below a b
  | .repeatBeside => replicate .beside a b
  | .repeatBelow => replicate .below a b
  | .range => range a b
  | .index => do get a (← asInteger "Index" b)
  | .eq => return a.equal b
  | .ne => return a.notEqual b
  | .lt => relation (fun x y => decide (x < y)) a b
  | .gt => relation (fun x y => decide (y < x)) a b
  | .le => relation (fun x y => decide (x ≤ y)) a b
  | .ge => relation (fun x y => decide (y ≤ x)) a b
  | .and => logical (· && ·) a b
  | .or => logical (· || ·) a b

/-- **An operator stays within its operands.** -/
theorem agrees_binary (ha : a.Valid) (hb : b.Valid) (op : BinaryOperator) :
    Agrees (binary op a b) (op.apply a b) Matrix.Valid := by
  cases op with
  | add | sub | cellMul | cellPow => exact agrees_broadcast ha hb _ _
  | mul => exact agrees_multiply ha hb
  | cellDiv | cellMod => exact agrees_divided ha hb _ _
  | div | mod => exact agrees_byScalar ha hb _ _
  | pow => exact agrees_power ha hb
  | beside => exact agrees_concat ha hb .beside
  | below => exact agrees_concat ha hb .below
  | repeatBeside | repeatBelow => exact agrees_replicate ha hb _
  | range => exact agrees_range ha hb
  | index => exact (agrees_asInteger hb _).bind fun _ _ => agrees_get ha _
  | eq | ne => exact .pure (Matrix.valid_ofBool _)
  | lt | gt | le | ge => exact agrees_relation ha hb _
  | and | or => exact agrees_logical ha hb _

/-! ## Functions -/

/-- What a function makes of its arguments. -/
def builtin (missing : MissingPolicy) (f : Builtin) (arguments : List Matrix) :
    Checked Matrix := do
  match f, arguments with
  | .min, [a] => return a.minimum
  | .min, [a, b] => broadcast "min" Number.smaller a b
  | .max, [a] => return a.maximum
  | .max, [a, b] => broadcast "max" Number.larger a b
  | .mean, [a] => return a.mean
  | .mean, [a, b] => broadcast "mean" (fun x y => (x + y) / 2) a b
  | .sum, [a] => return a.sum
  | .prod, [a] => return a.prod
  | .size, [a] => return a.dimensions
  | .count, [a] => return a.count
  | .sqrt, [a] => return a.sqrt
  | .abs, [a] => return a.abs
  | .cos, [a] => return a.cos
  | .sin, [a] => return a.sin
  | .tg, [a] => return a.tan
  | .ctg, [a] => return a.cot
  | .exp, [a] => return a.exp
  | .ceil, [a] => return a.ceil
  | .vectorize, [a] => return a.vectorize
  | .zeros, arguments => filled f arguments 0
  | .ones, arguments => filled f arguments 1
  | .ident, [extent] => identity extent
  | .sub, [m, origin, extent] => sub m origin extent
  | .sub, [m, row, col, height, width] =>
    let row ← asInteger "Row" row
    let col ← asInteger "Column" col
    let height ← asInteger "Height" height
    let width ← asInteger "Width" width
    submatrix .unbounded m row col height width
  | .inc, [a] => return a.increment
  | .dec, [a] => return a.decrement
  | .conv2, [a, kernel] => convolveFull a kernel
  | .imconv, [a, kernel] => convolveSame a kernel missing
  | .imconv, [a, kernel, policy] =>
    let policy ← asInteger "Missing-value policy" policy
    let policy ← plain (MissingPolicy.ofCode policy)
    convolveSame a kernel policy
  | f, arguments => throw (.illFormed (.undefinedFor f arguments.length))

/-- **A function stays within its arguments**, except for the identity matrix of a size that is
not a number. -/
theorem agrees_builtin {arguments : List Matrix} (h : ∀ m ∈ arguments, m.Valid)
    (missing : MissingPolicy) (f : Builtin) :
    Agrees (builtin missing f arguments) (f.apply missing arguments) Matrix.Valid := by
  cases f with
  | sum | prod | count =>
    match arguments with
    | [a] => exact .pure (Matrix.valid_scalar _)
    | [] | _ :: _ :: _ => exact .throw _
  | size =>
    match arguments with
    | [a] => exact .pure ⟨Nat.one_pos, Nat.two_pos, rfl⟩
    | [] | _ :: _ :: _ => exact .throw _
  | sqrt | abs | cos | sin | tg | ctg | exp | ceil | inc | dec =>
    match arguments with
    | [a] => exact .pure ((h a (by simp)).map _)
    | [] | _ :: _ :: _ => exact .throw _
  | vectorize =>
    match arguments with
    | [a] =>
      have ha := h a (by simp)
      have hsize : 0 < a.data.size := by
        rw [ha.size_data]
        exact Nat.mul_pos ha.rows_pos ha.cols_pos
      exact .pure ⟨Nat.one_pos, hsize, (Nat.one_mul _).symm⟩
    | [] | _ :: _ :: _ => exact .throw _
  | min | max | mean =>
    match arguments with
    | [a] => exact .pure (Matrix.valid_scalar _)
    | [a, b] => exact agrees_broadcast (h a (by simp)) (h b (by simp)) _ _
    | [] | _ :: _ :: _ :: _ => exact .throw _
  | zeros | ones => exact agrees_filled h _ _
  | ident =>
    match arguments with
    | [extent] => exact agrees_identity (h extent (by simp))
    | [] | _ :: _ :: _ => exact .throw _
  | sub =>
    match arguments with
    | [m, origin, extent] =>
      exact agrees_sub (h m (by simp)) (h origin (by simp)) (h extent (by simp))
    | [m, row, col, height, width] =>
      refine (agrees_asInteger (h row (by simp)) _).bind fun _ _ => ?_
      refine (agrees_asInteger (h col (by simp)) _).bind fun _ _ => ?_
      refine (agrees_asInteger (h height (by simp)) _).bind fun _ _ => ?_
      refine (agrees_asInteger (h width (by simp)) _).bind fun _ _ => ?_
      exact agrees_submatrix (h m (by simp)) _ _ _ _
    | [] | [_] | [_, _] | [_, _, _, _] | _ :: _ :: _ :: _ :: _ :: _ :: _ => exact .throw _
  | conv2 =>
    match arguments with
    | [a, kernel] => exact agrees_convolveFull (h a (by simp)) (h kernel (by simp))
    | [] | [_] | _ :: _ :: _ :: _ => exact .throw _
  | imconv =>
    match arguments with
    | [a, kernel] => exact agrees_convolveSame (h a (by simp)) (h kernel (by simp)) _
    | [a, kernel, policy] =>
      refine (agrees_asInteger (h policy (by simp)) _).bind fun _ _ => ?_
      refine (Agrees.lift fun _ _ => trivial).bind fun _ _ => ?_
      exact agrees_convolveSame (h a (by simp)) (h kernel (by simp)) _
    | [] | [_] | _ :: _ :: _ :: _ :: _ => exact .throw _

/-! ## Text -/

/-- The text of a matrix. -/
def text (m : Matrix) : Guarded String := do
  if m.isScalar then return Number.text (← cell m 0 0)
  else
    let rows ← (List.range m.rows).mapM fun i => (List.range m.cols).mapM fun j => cell m i j
    let row (xs : List Float) : String := ", ".intercalate (xs.map Number.text)
    return "[" ++ "; ".intercalate (rows.map row) ++ "]"

theorem text_eq (h : m.Valid) : text m = .ok m.text := by
  have hrows : ((List.range m.rows).mapM fun i => (List.range m.cols).mapM fun j => cell m i j) =
      .ok m.toRows :=
    mapM_ok fun i hi => mapM_ok fun j hj =>
      cell_eq h (List.mem_range.mp hi) (List.mem_range.mp hj)
  rw [text, Matrix.text, hrows, cell_zero h]
  split
  · rfl
  · rfl

end MatrixLang.Checked
