import MatrixLang.Proofs.GuardedMatrix
import MatrixLang.Proofs.MadeValues
import MatrixLang.Proofs.Outcomes

/-! # The cap on sizes

A shape with more than `maxCells` cells is refused where a value is made from numbers: by a
literal, a range, `zeros`, `ones`, `ident` and the repetitions.  All other operations but four
give a value that is no larger than one of those they are given.  The four are the product, the
two ways to join and the full convolution, which give larger values and do not look at the cap
(`Origin.checksSize`).  So the cap holds of a run up to the first value beyond it that one of the
four makes (`capped_of_unchecked`), and a run can bind such a value (`exceeds_below`).
-/

namespace MatrixLang

/-! ## Operations that look at the cap -/

/-- Whether an operator gives no value beyond the cap for operands within it. -/
def BinaryOperator.checksSize : BinaryOperator → Bool
  | .mul | .beside | .below => false
  | _ => true

/-- Whether a function gives no value beyond the cap for arguments within it. -/
def Builtin.checksSize : Builtin → Bool
  | .conv2 => false
  | _ => true

/-- Whether an operation gives no value beyond the cap for values within it. -/
def Origin.checksSize : Origin → Bool
  | .binary op => op.checksSize
  | .call f => f.checksSize
  | .other => true

namespace Matrix

/-- The cells fill the shape. -/
def Filled (m : Matrix) : Prop :=
  m.data.size = m.rows * m.cols

/-- The cells fill the shape and are no more than a value may have. -/
structure Capped (m : Matrix) : Prop where
  filled : m.Filled
  size_le : m.size ≤ maxCells

/-- The cells fill the shape.  If the size is `checked`, they are no more than a value may have
or one of `sources` has. -/
structure Fits (checked : Bool) (sources : List Matrix) (m : Matrix) : Prop where
  filled : m.Filled
  size_le : checked = true → m.size ≤ maxCells ∨ ∃ a ∈ sources, m.size ≤ a.size

/-- What an operation gives, if anything, fits. -/
def FitsIfAny (checked : Bool) (sources : List Matrix) : Except Error Matrix → Prop :=
  Meets (Fits checked sources) fun _ => True

variable {a b m : Matrix} {checked : Bool} {sources : List Matrix} {rows cols : Nat}

theorem filled_tabulate (rows cols : Nat) (f : Nat → Nat → Float) :
    (tabulate rows cols f).Filled :=
  Array.size_ofFn

theorem size_tabulate (rows cols : Nat) (f : Nat → Nat → Float) :
    (tabulate rows cols f).size = rows * cols :=
  Array.size_ofFn

theorem Filled.size_eq (h : m.Filled) : m.size = m.rows * m.cols := h

theorem Filled.map (h : m.Filled) (f : Float → Float) : (m.map f).Filled := by
  show (m.data.map f).size = m.rows * m.cols
  rw [Array.size_map]
  exact h

/-- A single number has one cell. -/
theorem Filled.size_of_isScalar (h : m.Filled) (hscalar : m.isScalar = true) : m.size = 1 := by
  rw [isScalar, Bool.and_eq_true, beq_iff_eq, beq_iff_eq] at hscalar
  rw [h.size_eq, hscalar.1, hscalar.2]

theorem Fits.of_le_cap (h : m.Filled) (hsize : m.size ≤ maxCells) : Fits checked sources m :=
  ⟨h, fun _ => .inl hsize⟩

theorem Fits.of_le_source (h : m.Filled) (ha : a ∈ sources) (hsize : m.size ≤ a.size) :
    Fits checked sources m :=
  ⟨h, fun _ => .inr ⟨a, ha, hsize⟩⟩

theorem fits_scalar (x : Float) : Fits checked sources (scalar x) :=
  .of_le_cap rfl (show 1 ≤ maxCells by decide)

theorem fits_ofBool (b : Bool) : Fits checked sources (ofBool b) :=
  fits_scalar _

theorem fits_map (h : a.Filled) (ha : a ∈ sources) (f : Float → Float) :
    Fits checked sources (a.map f) :=
  .of_le_source (h.map f) ha (Nat.le_of_eq Array.size_map)

theorem fits_tabulate_cap (h : rows * cols ≤ maxCells) (f : Nat → Nat → Float) :
    Fits checked sources (tabulate rows cols f) :=
  .of_le_cap (filled_tabulate rows cols f) (by rwa [size_tabulate])

theorem fits_tabulate (ha : a ∈ sources) (h : rows * cols ≤ a.size) (f : Nat → Nat → Float) :
    Fits checked sources (tabulate rows cols f) :=
  .of_le_source (filled_tabulate rows cols f) ha (by rwa [size_tabulate])

/-- An operation that gives a matrix of the shape of one that it is given. -/
theorem fits_tabulate_shape (h : a.Filled) (ha : a ∈ sources) (f : Nat → Nat → Float) :
    Fits checked sources (tabulate a.rows a.cols f) :=
  fits_tabulate ha (Nat.le_of_eq h.size_eq.symm) f

/-! ## Shapes that are looked at -/

theorem meets_checkSize (shape : Shape) :
    Meets (fun _ => shape.rows * shape.cols ≤ maxCells) (fun _ => True) (checkSize shape) := by
  rw [checkSize]
  split
  · assumption
  · trivial

theorem fits_ofData (shape : Shape) (data : Array Float) :
    FitsIfAny checked sources (ofData shape data) := by
  rw [ofData]
  split
  · trivial
  refine (meets_checkSize shape).bind fun _ hcap => ?_
  dsimp only
  split
  · rename_i hsize
    exact .pure (.of_le_cap hsize (Nat.le_trans (Nat.le_of_eq hsize) hcap))
  · trivial

theorem fits_filled (shape : Shape) (x : Float) :
    FitsIfAny checked sources (filled shape x) := by
  rw [filled]
  split
  · trivial
  exact (meets_checkSize shape).bind fun _ hcap => .pure (fits_tabulate_cap hcap _)

theorem fits_identity (extent : Matrix) : FitsIfAny checked sources extent.identity := by
  refine (Meets.any _).bind fun x _ => (Meets.any _).bind fun n _ => ?_
  exact (meets_checkSize ⟨n, n⟩).bind fun _ hcap => .pure (fits_tabulate_cap hcap _)

theorem fits_range (a b : Matrix) : FitsIfAny checked sources (a.range b) := by
  refine (Meets.any _).bind fun first _ => (Meets.any _).bind fun last _ => ?_
  dsimp only
  split
  · trivial
  · exact fits_ofData _ _

theorem fits_replicate (side : Side) (m times : Matrix) :
    FitsIfAny checked sources (m.replicate side times) := by
  refine (Meets.any _).bind fun n _ => ?_
  dsimp only
  split
  · trivial
  split
  · trivial
  · exact (meets_checkSize _).bind fun _ hcap => .pure (fits_tabulate_cap hcap _)

/-! ## Reading and writing -/

theorem fits_get (h : m.Filled) (hm : m ∈ sources) (index : Int64) :
    FitsIfAny checked sources (m.get index) := by
  rw [get]
  split
  · exact .pure (.of_le_source h hm (Nat.le_refl _))
  split
  · exact (Meets.any _).bind fun i _ => .pure (fits_scalar _)
  · refine (Meets.of_forall_ok fun _ => Checked.lt_of_checkIndex).bind fun i hi => ?_
    refine .pure (fits_tabulate hm ?_ _)
    -- one row is no more than all of them, of which there is one
    rw [h.size_eq]
    exact Nat.mul_le_mul_right m.cols (Nat.succ_le_of_lt (Nat.zero_lt_of_lt hi))

theorem fits_set (h : m.Filled) (index : Int64) (v : Matrix) :
    FitsIfAny true [m] (m.set index v) := by
  have hm : m ∈ [m] := List.mem_cons_self
  rw [set]
  split
  · refine (Meets.any _).bind fun i _ => (Meets.any _).bind fun x _ => .pure ?_
    have hsize : (m.data.setIfInBounds i x).size = m.data.size := Array.size_setIfInBounds
    exact .of_le_source (hsize.trans h) hm (Nat.le_of_eq hsize)
  split
  · exact (Meets.any _).bind fun r _ => .pure (fits_tabulate_shape h hm _)
  split
  · exact (Meets.any _).bind fun c _ => .pure (fits_tabulate_shape h hm _)
  · trivial

theorem fits_setBlock (h : m.Filled) (row col : Int64) (v : Matrix) :
    FitsIfAny true [m] (m.setBlock row col v) := by
  refine (Meets.any _).bind fun top _ => (Meets.any _).bind fun left _ => ?_
  split
  · trivial
  split
  · trivial
  · exact .pure (fits_tabulate_shape h List.mem_cons_self _)

theorem fits_submatrix (h : m.Filled) (hm : m ∈ sources) (row col height width : Int64) :
    FitsIfAny checked sources (m.submatrix row col height width) := by
  rw [submatrix]
  split
  · trivial
  refine (Meets.of_forall_ok fun _ => Checked.within_of_checkRun).bind fun _ hrow => ?_
  refine (Meets.of_forall_ok fun _ => Checked.within_of_checkRun).bind fun _ hcol => ?_
  refine .pure (fits_tabulate hm ?_ _)
  rw [h.size_eq]
  exact Nat.mul_le_mul (by omega) (by omega)

theorem fits_sub (h : m.Filled) (hm : m ∈ sources) (origin extent : Matrix) :
    FitsIfAny checked sources (m.sub origin extent) := by
  rw [sub]
  split
  · exact (Meets.any _).bind fun _ _ => (Meets.any _).bind fun _ _ => fits_submatrix h hm _ _ _ _
  split
  · exact fits_submatrix h hm _ _ _ _
  · trivial

/-! ## Arithmetic -/

theorem fits_broadcast (ha : a.Filled) (hb : b.Filled) (operation : String)
    (f : Float → Float → Float) : FitsIfAny checked [a, b] (broadcast operation f a b) := by
  rw [broadcast]
  split
  · exact .pure (fits_map hb (by simp) _)
  split
  · exact .pure (fits_map ha (by simp) _)
  split
  · rename_i hshape
    obtain ⟨hrows, hcols⟩ := Shape.mk.inj hshape
    have hsize : (Array.zipWith f a.data b.data).size = a.data.size := by
      rw [Array.size_zipWith, hb, ← hrows, ← hcols, ← ha, Nat.min_self]
    exact .pure (.of_le_source (hsize.trans ha) (by simp) (Nat.le_of_eq hsize))
  · trivial

theorem fits_byDivisor (ha : a.Filled) (hb : b.Filled) (operation : String)
    (f : Float → Float → Float) :
    FitsIfAny checked [a, b] (do checkDivisor b; broadcast operation f a b) :=
  (Meets.any _).bind fun _ _ => fits_broadcast ha hb operation f

theorem fits_byScalar (ha : a.Filled) (context : String) (f : Float → Float → Float) :
    FitsIfAny checked [a, b] (do
      let d ← b.asScalar context
      if d == 0 then throw .divideByZero
      return a.map (f · d)) := by
  refine (Meets.any _).bind fun d _ => ?_
  split
  · trivial
  · exact .pure (fits_map ha (by simp) _)

theorem filled_multiply (ha : a.Filled) (hb : b.Filled) :
    FitsIfAny false [a, b] (a.multiply b) := by
  rw [multiply]
  split
  · exact fits_broadcast ha hb _ _
  split
  · exact .pure ⟨filled_tabulate _ _ _, by rintro ⟨⟩⟩
  · trivial

/-- A power of a square matrix has its shape. -/
theorem repeat_product (a : Matrix) (n : Nat) :
    (Nat.repeat a.product n (eye a.rows)).Filled ∧
      (Nat.repeat a.product n (eye a.rows)).rows = a.rows ∧
      (Nat.repeat a.product n (eye a.rows)).cols = a.rows := by
  induction n with
  | zero =>
    rw [Nat.repeat, eye]
    exact ⟨filled_tabulate _ _ _, rfl, rfl⟩
  | succ n ih =>
    rw [Nat.repeat, product]
    exact ⟨filled_tabulate _ _ _, rfl, ih.2.2⟩

theorem fits_power (ha : a.Filled) : FitsIfAny checked [a, b] (a.power b) := by
  refine (Meets.any _).bind fun n _ => ?_
  dsimp only
  split
  · split
    · trivial
    · exact .pure (fits_scalar _)
  split
  · trivial
  rename_i hsquare
  split
  · trivial
  · obtain ⟨hfilled, hrows, hcols⟩ := repeat_product a n.toInt.toNat
    refine .pure (.of_le_source hfilled (a := a) (by simp) ?_)
    exact Nat.le_of_eq
      (by rw [hfilled.size_eq, ha.size_eq, hrows, hcols, ← Decidable.not_not.mp hsquare])

theorem filled_concat (ha : a.Filled) (hb : b.Filled) (side : Side) :
    FitsIfAny false [a, b] (a.concat side b) := by
  cases side with
  | beside =>
    rw [concat]
    split
    · exact .pure ⟨filled_tabulate _ _ _, by rintro ⟨⟩⟩
    · trivial
  | below =>
    rw [concat]
    split
    · rename_i hcols
      refine .pure ⟨?_, by rintro ⟨⟩⟩
      show (a.data ++ b.data).size = (a.rows + b.rows) * a.cols
      rw [Array.size_append, ha, hb, ← hcols, Nat.add_mul]
    · trivial

end Matrix

/-! ## Operators and functions -/

open MatrixLang.Matrix

variable {a b m : Matrix} {sources : List Matrix}

theorem UnaryOperator.fits_apply (h : m.Filled) (op : UnaryOperator) :
    Fits true [m] (op.apply m) := by
  cases op with
  | neg => exact fits_map h List.mem_cons_self _
  | transpose =>
    have hsize : m.cols * m.rows ≤ m.size := Nat.le_of_eq (by rw [h.size_eq, Nat.mul_comm])
    exact fits_tabulate List.mem_cons_self hsize fun i j => m.cell j i
  | not => exact fits_ofBool _

theorem BinaryOperator.fits_apply (ha : a.Filled) (hb : b.Filled) (op : BinaryOperator) :
    FitsIfAny op.checksSize [a, b] (op.apply a b) := by
  cases op with
  | add | sub | cellMul | cellPow => exact fits_broadcast ha hb _ _
  | mul => exact filled_multiply ha hb
  | cellDiv | cellMod => exact fits_byDivisor ha hb _ _
  | div | mod => exact fits_byScalar ha _ _
  | pow => exact fits_power ha
  | beside => exact filled_concat ha hb .beside
  | below => exact filled_concat ha hb .below
  | repeatBeside | repeatBelow => exact fits_replicate _ _ _
  | range => exact fits_range a b
  | index => exact (Meets.any _).bind fun _ _ => fits_get ha (by simp) _
  | eq | ne | lt | gt | le | ge | and | or => exact .pure (fits_ofBool _)

theorem Builtin.fits_apply {arguments : List Matrix} (h : ∀ a ∈ arguments, a.Filled)
    (missing : MissingPolicy) (f : Builtin) :
    FitsIfAny f.checksSize arguments (f.apply missing arguments) := by
  cases f with
  | sum | prod | count =>
    match arguments with
    | [a] => exact .pure (fits_scalar _)
    | [] | _ :: _ :: _ => trivial
  | size =>
    match arguments with
    | [a] => exact .pure (.of_le_cap rfl (show 2 ≤ maxCells by decide))
    | [] | _ :: _ :: _ => trivial
  | sqrt | abs | cos | sin | tg | ctg | exp | ceil | inc | dec =>
    match arguments with
    | [a] => exact .pure (fits_map (h a (by simp)) (by simp) _)
    | [] | _ :: _ :: _ => trivial
  | vectorize =>
    match arguments with
    | [a] => exact .pure (.of_le_source (a := a) (Nat.one_mul _).symm (by simp) (Nat.le_refl _))
    | [] | _ :: _ :: _ => trivial
  | min | max | mean =>
    match arguments with
    | [a] => exact .pure (fits_scalar _)
    | [a, b] => exact fits_broadcast (h a (by simp)) (h b (by simp)) _ _
    | [] | _ :: _ :: _ :: _ => trivial
  | zeros | ones => exact (Meets.any _).bind fun _ _ => fits_filled _ _
  | ident =>
    match arguments with
    | [extent] => exact fits_identity extent
    | [] | _ :: _ :: _ => trivial
  | sub =>
    match arguments with
    | [m, origin, extent] => exact fits_sub (h m (by simp)) (by simp) origin extent
    | [m, row, col, height, width] =>
      refine (Meets.any _).bind fun _ _ => (Meets.any _).bind fun _ _ => ?_
      refine (Meets.any _).bind fun _ _ => (Meets.any _).bind fun _ _ => ?_
      exact fits_submatrix (h m (by simp)) (by simp) _ _ _ _
    | [] | [_] | [_, _] | [_, _, _, _] | _ :: _ :: _ :: _ :: _ :: _ :: _ => trivial
  | conv2 =>
    match arguments with
    | [a, kernel] => exact .pure ⟨filled_tabulate _ _ _, by rintro ⟨⟩⟩
    | [] | [_] | _ :: _ :: _ :: _ => trivial
  | imconv =>
    match arguments with
    | [a, kernel] => exact .pure (fits_tabulate_shape (h a (by simp)) (by simp) _)
    | [a, kernel, policy] =>
      refine (Meets.any _).bind fun _ _ => (Meets.any _).bind fun _ _ => ?_
      exact .pure (fits_tabulate_shape (h a (by simp)) (by simp) _)
    | [] | [_] | _ :: _ :: _ :: _ :: _ => trivial

/-! ## Runs -/

/-- All operations give values whose cells fill their shapes. -/
theorem closed_filled : Closed (fun _ => True) Filled where
  scalar _ := rfl
  ofData := by
    intro shape data m h
    have hfits : FitsIfAny true [] (Matrix.ofData shape data) := fits_ofData shape data
    exact (hfits.of_ok h).filled
  map f h := h.map f
  unary op h := (op.fits_apply h).filled
  binary op ha hb h _ := ((op.fits_apply ha hb).of_ok h).filled
  call missing f hs h _ := ((f.fits_apply hs missing).of_ok h).filled
  set hm _ h := ((fits_set hm _ _).of_ok h).filled
  setBlock hm _ h := ((fits_setBlock hm _ _ _).of_ok h).filled

theorem Matrix.Fits.capped (h : Fits true sources m) (hs : ∀ a ∈ sources, a.Capped) :
    m.Capped := by
  refine ⟨h.filled, ?_⟩
  rcases h.size_le rfl with hcap | ⟨a, ha, hsize⟩
  · exact hcap
  · exact Nat.le_trans hsize (hs a ha).size_le

/-- A value of an operation that does not look at the cap is within it. -/
def Made.WithinCap (v : Made) : Prop :=
  v.origin.checksSize = false → v.value.size ≤ maxCells

theorem capped_of_fitsIfAny {checked : Bool} {x : Except Error Matrix}
    (h : FitsIfAny checked sources x) (hs : ∀ a ∈ sources, a.Capped) (hx : x = .ok m)
    (hm : checked = false → m.size ≤ maxCells) : m.Capped := by
  have hfits := h.of_ok hx
  cases checked with
  | false => exact ⟨hfits.filled, hm rfl⟩
  | true => exact hfits.capped hs

/-- Operations keep values within the cap, if those that do not look at it do. -/
theorem closed_capped : Closed Made.WithinCap Capped where
  scalar x := (fits_scalar x).capped (List.forall_mem_nil _)
  ofData h := ((fits_ofData _ _).of_ok h).capped (List.forall_mem_nil _)
  map f h := (fits_map h.filled List.mem_cons_self f).capped (List.forall_mem_singleton.mpr h)
  unary op h := (op.fits_apply h.filled).capped (List.forall_mem_singleton.mpr h)
  binary op ha hb h hc := by
    refine capped_of_fitsIfAny (op.fits_apply ha.filled hb.filled) ?_ h hc
    exact List.forall_mem_cons.mpr ⟨ha, List.forall_mem_singleton.mpr hb⟩
  call missing f hs h hc :=
    capped_of_fitsIfAny (f.fits_apply (fun a ha => (hs a ha).filled) missing) hs h hc
  set hm _ h := ((fits_set hm.filled _ _).of_ok h).capped (List.forall_mem_singleton.mpr hm)
  setBlock hm _ h :=
    ((fits_setBlock hm.filled _ _ _).of_ok h).capped (List.forall_mem_singleton.mpr hm)

/-- **A value beyond the cap comes from a product, a join or a full convolution.**  Let a run start
with values within the cap.  If what these operations make in it is within the cap, then so is
everything that it makes, and all variables at its end. -/
theorem capped_of_unchecked (fuel : Nat) (p : Program) (env : Environment)
    (henv : env.AllHave Capped)
    (h : ∀ v ∈ p.made fuel env, v.origin.checksSize = false → v.value.size ≤ maxCells) :
    (∀ v ∈ p.made fuel env, v.value.size ≤ maxCells) ∧
      (p.run fuel env).env.AllHave Capped := by
  obtain ⟨hmade, hfinal⟩ := Run.upholds_program closed_capped fuel p henv h
  exact ⟨fun v hv => (hmade v hv).size_le, hfinal⟩

/-- Doubles a row twice and multiplies it by itself turned round. -/
def growing : Program :=
  ⟨[.assign 1 "x" (.call .ones [.literal 1, .literal 2]),
    .forLoop 2 "i" (.literal 1) (.literal 2) .up
      [.assign 2 "x" (.binary .beside (.variable "x") (.variable "x"))],
    .assign 3 "x" (.binary .mul (.unary .transpose (.variable "x")) (.variable "x"))], ["i", "x"]⟩

theorem capped_of_unchecked_growing :
    (Environment.empty .standard).AllHave Capped ∧
      (∀ v ∈ growing.made 4 (.empty .standard),
        v.origin.checksSize = false → v.value.size ≤ maxCells) ∧
      (growing.run 4 (.empty .standard)).env.AllHave Capped := by
  have hempty : (Environment.empty .standard).AllHave Capped := List.forall_mem_nil _
  have hjoins : ∀ v ∈ growing.made 4 (.empty .standard),
      v.origin.checksSize = false → v.value.size ≤ maxCells := by decide +kernel
  exact ⟨hempty, hjoins, (capped_of_unchecked 4 growing _ hempty hjoins).2⟩

/-- Puts a matrix below itself. -/
def doubling : Program :=
  ⟨[.assign 1 "y" (.binary .below (.variable "x") (.variable "x"))], ["x", "y"]⟩

theorem get?_run_doubling (m : Matrix) (missing : MissingPolicy) :
    (doubling.run 1 ⟨[("x", m)], missing⟩).env.get? "y" =
      some ⟨m.rows + m.rows, m.cols, m.data ++ m.data⟩ := by
  let env : Environment := ⟨[("x", m)], missing⟩
  let joined : Matrix := ⟨m.rows + m.rows, m.cols, m.data ++ m.data⟩
  have hjoin : BinaryOperator.below.apply m m = .ok joined := if_pos rfl
  have heval : (Expr.binary .below (.variable "x") (.variable "x")).eval env =
      (BinaryOperator.below.apply m m, env) := rfl
  rw [hjoin] at heval
  have hline (notes : List Note) : Run.atLine 1
      (Expr.binary .below (.variable "x") (.variable "x")).eval ⟨env, notes⟩ =
      (.ok joined, ⟨env, notes⟩) := by
    rw [Run.atLine, heval]
  have hstatement (notes : List Note) : Run.statement 1
      (.assign 1 "y" (.binary .below (.variable "x") (.variable "x"))) ⟨env, notes⟩ =
      (.ok (), ⟨env.set "y" joined, notes⟩) := by
    rw [Run.statement, bind_of_ok (hline notes)]
    rfl
  have hprogram : Run.program 1 doubling ⟨env, []⟩ =
      (.ok (), ⟨env.set "y" joined, [.running 1 "assignment"]⟩) :=
    bind_of_ok (bind_of_ok rfl _ |>.trans (hstatement _)) _
  rw [Program.run, Run.on, hprogram]
  rfl

/-- **Two values within the cap can be joined to one beyond it**, which is bound. -/
theorem exceeds_below :
    ∃ m y, m.Capped ∧ (doubling.run 1 ⟨[("x", m)], .standard⟩).env.get? "y" = some y ∧
      y.size = 2 * maxCells := by
  have hsize := size_tabulate 16384 16384 fun _ _ => 0
  refine ⟨tabulate 16384 16384 fun _ _ => 0, _, ⟨filled_tabulate _ _ _, Nat.le_of_eq hsize⟩,
    get?_run_doubling _ _, ?_⟩
  rw [size, Array.size_append, Nat.two_mul]
  exact congr (congrArg _ hsize) hsize

end MatrixLang
