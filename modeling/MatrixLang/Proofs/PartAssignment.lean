import MatrixLang.Proofs.Cells
import MatrixLang.Proofs.Effects

/-! # Assigning to parts of a matrix

An assignment with one index replaces an element of a vector, or a row or a column of a larger
matrix, and the value says which of the two: `Matrix.Addresses` lists what an index and a value can
mean together.  Where they mean nothing the assignment fails, and else it gives the part the cells
of the value and leaves all others alone (`set_exact`).

An assignment with two indices replaces a block.  With a number for a value it writes a single cell,
but two indices do not always read that cell back: the first index of a single row already takes an
element of it, and the second is then applied to a number (`get_get`).
-/

namespace MatrixLang

namespace Matrix

variable {m v : Matrix} {index : Int64} {i j k : Nat}

/-! ## What an index addresses -/

/-- A part of a matrix that one index can address. -/
inductive Part where
  /-- An element of a vector. -/
  | element (k : Nat)
  | row (r : Nat)
  | column (c : Nat)
deriving DecidableEq, Repr

namespace Part

/-- Whether the cell in row `i` and column `j` belongs to a part.  In a vector, of which alone there
are elements, one of the two is zero. -/
def covers : Part → (i j : Nat) → Bool
  | .element k, i, j => i + j == k
  | .row r, i, _ => i == r
  | .column c, _, j => j == c

/-- The cell of the value of a part that belongs in row `i` and column `j`. -/
def valueCell (v : Matrix) : Part → (i j : Nat) → Float
  | .element _, _, _ => v.cell 0 0
  | .row _, _, j => v.cell 0 j
  | .column _, i, _ => v.cell i 0

/-- Whether a part is what an index of an expression reads. -/
def isRead : Part → Bool
  | .element _ | .row _ => true
  | .column _ => false

end Part

/-- The part that is replaced if `v` is assigned at an index. -/
inductive Addresses (m : Matrix) (index : Int64) (v : Matrix) : Part → Prop where
  | element (hvector : m.rows = 1 ∨ m.cols = 1) (hvalue : v.rows = 1 ∧ v.cols = 1)
      (hlow : 1 ≤ index.toInt) (hhigh : index.toInt ≤ m.size) :
      Addresses m index v (.element (index.toInt - 1).toNat)
  | row (hmatrix : 2 ≤ m.rows ∧ 2 ≤ m.cols) (hvalue : v.rows = 1 ∧ v.cols = m.cols)
      (hlow : 1 ≤ index.toInt) (hhigh : index.toInt ≤ m.rows) :
      Addresses m index v (.row (index.toInt - 1).toNat)
  | column (hmatrix : 2 ≤ m.rows ∧ 2 ≤ m.cols) (hvalue : v.rows = m.rows ∧ v.cols = 1)
      (hlow : 1 ≤ index.toInt) (hhigh : index.toInt ≤ m.cols) :
      Addresses m index v (.column (index.toInt - 1).toNat)

/-- The matrix with a part replaced by the cells of a value. -/
def replaced (m : Matrix) (p : Part) (v : Matrix) : Matrix :=
  tabulate m.rows m.cols fun i j => if p.covers i j then p.valueCell v i j else m.cell i j

theorem cell_replaced (p : Part) (hi : i < m.rows) (hj : j < m.cols) :
    (m.replaced p v).cell i j = if p.covers i j then p.valueCell v i j else m.cell i j :=
  cell_tabulate hi hj _

theorem Valid.replaced (h : m.Valid) (p : Part) (v : Matrix) : (m.replaced p v).Valid :=
  valid_tabulate h.rows_pos h.cols_pos _

/-- An index within a length is the place before it. -/
theorem checkIndex_of_within {length : Nat} (hlow : 1 ≤ index.toInt)
    (hhigh : index.toInt ≤ length) :
    checkIndex index length = .ok (index.toInt - 1).toNat :=
  checkIndex_eq_ok_iff.mpr (by omega)

theorem Valid.add_lt_size (hm : m.Valid) (hvector : m.rows = 1 ∨ m.cols = 1) (hi : i < m.rows)
    (hj : j < m.cols) : i + j < m.size := by
  rw [size, hm.size_data]
  rcases hvector with h | h
  · rw [h, Nat.one_mul]
    omega
  · rw [h, Nat.mul_one]
    omega

/-- The data of a vector with one element replaced. -/
theorem setIfInBounds_of_vector (hm : m.Valid) (hvector : m.rows = 1 ∨ m.cols = 1) (v : Matrix) :
    { m with data := m.data.setIfInBounds k (v.cell 0 0) } = m.replaced (.element k) v := by
  let after : Matrix := { m with data := m.data.setIfInBounds k (v.cell 0 0) }
  have hafter : after.Valid :=
    ⟨hm.rows_pos, hm.cols_pos, by rw [Array.size_setIfInBounds, hm.size_data]⟩
  refine hafter.ext (hm.replaced _ v) rfl rfl fun i hi j hj => ?_
  have hrows : i < m.rows := hi
  have hlt : i + j < m.data.size := hm.add_lt_size hvector hi hj
  have hcell : after.cell i j = (m.data.setIfInBounds k (v.cell 0 0)).getD (i + j) 0 :=
    cell_of_vector (m := after) hvector hi j
  rw [hcell, cell_replaced _ hrows hj, cell_of_vector hvector hrows, Array.getD_eq_getD_getElem?,
    Array.getD_eq_getD_getElem?]
  by_cases hk : i + j = k
  · subst hk
    simp [Part.covers, Part.valueCell, hlt]
  · simp [Part.covers, hk, Ne.symm hk]

/-- **What is addressed is replaced.** -/
theorem set_of_addresses {p : Part} (hm : m.Valid) (h : m.Addresses index v p) :
    m.set index v = .ok (m.replaced p v) := by
  have hmatrix (h : 2 ≤ m.rows ∧ 2 ≤ m.cols) : ¬ m.isVector = true := by
    rw [isVector_iff]
    omega
  rw [set]
  cases h with
  | element hvector hvalue hlow hhigh =>
    rw [if_pos (isVector_iff.mpr hvector), checkIndex_of_within hlow hhigh, ok_bind, asScalar,
      if_pos (isScalar_iff.mpr hvalue), pure_bind, setIfInBounds_of_vector hm hvector]
    rfl
  | row hm' hvalue hlow hhigh =>
    rw [if_neg (hmatrix hm'), if_pos hvalue, checkIndex_of_within hlow hhigh, ok_bind, replaced]
    simp only [Part.covers, Part.valueCell, beq_iff_eq]
    rfl
  | column hm' hvalue hlow hhigh =>
    have hrow : ¬ (v.rows = 1 ∧ v.cols = m.cols) := by omega
    rw [if_neg (hmatrix hm'), if_neg hrow, if_pos hvalue.symm, checkIndex_of_within hlow hhigh,
      ok_bind, replaced]
    simp only [Part.covers, Part.valueCell, beq_iff_eq]
    rfl

theorem within_of_checkIndex {length : Nat} (h : checkIndex index length = .ok k) :
    1 ≤ index.toInt ∧ index.toInt ≤ length := by
  rw [checkIndex_eq_ok_iff] at h
  omega

/-- **Nothing else can be assigned.** -/
theorem exists_addresses_of_set {m' : Matrix} (hm : m.Valid) (h : m.set index v = .ok m') :
    ∃ p, m.Addresses index v p := by
  have hrows := hm.rows_pos
  have hcols := hm.cols_pos
  rw [set] at h
  by_cases hvector : m.isVector = true
  · rw [if_pos hvector] at h
    obtain ⟨k, hk, h⟩ := exists_of_bind_eq_ok h
    obtain ⟨hlow, hhigh⟩ := within_of_checkIndex hk
    by_cases hvalue : v.isScalar = true
    · exact ⟨_, .element (isVector_iff.mp hvector) (isScalar_iff.mp hvalue) hlow hhigh⟩
    · rw [asScalar, if_neg hvalue] at h
      cases h
  · have hmatrix : 2 ≤ m.rows ∧ 2 ≤ m.cols := by
      rw [isVector_iff] at hvector
      omega
    rw [if_neg hvector] at h
    by_cases hrow : v.rows = 1 ∧ v.cols = m.cols
    · rw [if_pos hrow] at h
      obtain ⟨r, hr, -⟩ := exists_of_bind_eq_ok h
      obtain ⟨hlow, hhigh⟩ := within_of_checkIndex hr
      exact ⟨_, .row hmatrix hrow hlow hhigh⟩
    rw [if_neg hrow] at h
    by_cases hcolumn : v.cols = 1 ∧ v.rows = m.rows
    · rw [if_pos hcolumn] at h
      obtain ⟨c, hc, -⟩ := exists_of_bind_eq_ok h
      obtain ⟨hlow, hhigh⟩ := within_of_checkIndex hc
      exact ⟨_, .column hmatrix hcolumn.symm hlow hhigh⟩
    · rw [if_neg hcolumn] at h
      cases h

/-! ## Reading what was assigned -/

/-- An element of a vector. -/
theorem get_of_vector (hm : m.Valid) (hvector : m.rows = 1 ∨ m.cols = 1) (hi : i < m.rows)
    (hj : j < m.cols) (hindex : index.toInt = i + j + 1) :
    m.get index = .ok (scalar (m.cell i j)) := by
  rw [get]
  by_cases hscalar : m.isScalar = true
  · obtain ⟨hrows, hcols⟩ := isScalar_iff.mp hscalar
    obtain rfl : i = 0 := by omega
    obtain rfl : j = 0 := by omega
    rw [if_pos hscalar, ← hm.eq_scalar hrows hcols]
    rfl
  · have hcheck : checkIndex index m.size = .ok (i + j) :=
      checkIndex_eq_ok_iff.mpr ⟨hindex, hm.add_lt_size hvector hi hj⟩
    rw [if_neg hscalar, if_pos (isVector_iff.mpr hvector), hcheck, ok_bind,
      cell_of_vector hvector hi]
    rfl

/-- A row of a matrix that is no vector. -/
theorem get_of_matrix (hmatrix : 2 ≤ m.rows ∧ 2 ≤ m.cols) (hi : i < m.rows)
    (hindex : index.toInt = i + 1) : m.get index = .ok (m.row i) := by
  have hscalar : ¬ m.isScalar = true := by
    rw [isScalar_iff]
    omega
  have hvector : ¬ m.isVector = true := by
    rw [isVector_iff]
    omega
  rw [get, if_neg hscalar, if_neg hvector, checkIndex_eq_ok_iff.mpr ⟨hindex, hi⟩]
  rfl

/-- An element or a row is read back. -/
theorem get_replaced {p : Part} (hm : m.Valid) (hv : v.Valid) (h : m.Addresses index v p)
    (hp : p.isRead = true) : (m.replaced p v).get index = .ok v := by
  have hvalid := hm.replaced p v
  cases h with
  | element hvector hvalue hlow hhigh =>
    -- a vector has its elements in its first row or in its first column
    obtain ⟨i, j, hi, hj, hplace⟩ : ∃ i j, i < m.rows ∧ j < m.cols ∧ index.toInt = i + j + 1 := by
      have hsize : m.size = m.rows * m.cols := hm.size_data
      have hrows := hm.rows_pos
      have hcols := hm.cols_pos
      rcases hvector with h | h
      · rw [h, Nat.one_mul] at hsize
        exact ⟨0, (index.toInt - 1).toNat, by omega, by omega, by omega⟩
      · rw [h, Nat.mul_one] at hsize
        exact ⟨(index.toInt - 1).toNat, 0, by omega, by omega, by omega⟩
    have hcovers : (Part.element (index.toInt - 1).toNat).covers i j = true := by
      rw [Part.covers, beq_iff_eq]
      omega
    rw [get_of_vector hvalid hvector hi hj hplace, cell_replaced _ hi hj, if_pos hcovers,
      Part.valueCell, ← hv.eq_scalar hvalue.1 hvalue.2]
  | row hmatrix hvalue hlow hhigh =>
    have hr : (index.toInt - 1).toNat < m.rows := by omega
    have hindex : index.toInt = (index.toInt - 1).toNat + 1 := by omega
    have hget := get_of_matrix (m := m.replaced (.row (index.toInt - 1).toNat) v) hmatrix hr hindex
    have hrow : (m.replaced (.row (index.toInt - 1).toNat) v).row (index.toInt - 1).toNat = v := by
      refine (valid_tabulate Nat.one_pos hm.cols_pos _).ext hv hvalue.1.symm hvalue.2.symm ?_
      intro i hi j hj
      obtain rfl : i = 0 := Nat.lt_one_iff.mp hi
      refine (cell_tabulate Nat.one_pos hj _).trans ?_
      rw [cell_replaced _ hr hj]
      simp [Part.covers, Part.valueCell]
    rw [hget, hrow]
  | column => cases hp

/-- **Elements, rows and columns are assigned exactly.**  An assignment at an index succeeds if and
only if the index and the value address a part.  The matrix then keeps its shape, the part has the
cells of the value, and all other cells are as they were; an element or a row is read back at the
same index.  Written into the matrix that is there, the assignment comes to the same, and leaves
the matrix as it was where it fails. -/
theorem set_exact {m v : Matrix} (hm : m.Valid) (hv : v.Valid) (index : Int64) :
    ((∃ m', m.set index v = .ok m') ↔ ∃ p, m.Addresses index v p) ∧
    (∀ m' p, m.set index v = .ok m' → m.Addresses index v p →
      m'.Valid ∧ m'.shape = m.shape ∧
      (∀ i < m.rows, ∀ j < m.cols,
        m'.cell i j = if p.covers i j then p.valueCell v i j else m.cell i j) ∧
      (p.isRead = true → m'.get index = .ok v)) ∧
    (∀ m', m.set index v = .ok m' → InPlace.set index v m = (.ok (), m')) ∧
    ∀ e, m.set index v = .error e → InPlace.set index v m = (.error e, m) := by
  have hwrites : InPlace.set index v m = _ := InPlace.writes_set hm hv index
  refine ⟨⟨?_, ?_⟩, ?_, ?_, ?_⟩
  · rintro ⟨m', h⟩
    exact exists_addresses_of_set hm h
  · rintro ⟨p, hp⟩
    exact ⟨_, set_of_addresses hm hp⟩
  · intro m' p h hp
    rw [set_of_addresses hm hp] at h
    cases h
    exact ⟨hm.replaced p v, rfl, fun i hi j hj => cell_replaced p hi hj, get_replaced hm hv hp⟩
  · intro m' h
    rw [hwrites, h]
  · intro e h
    rw [hwrites, h]

/-- Two rows of three cells. -/
def sixCells : Matrix :=
  ⟨2, 3, #[1, 2, 3, 4, 5, 6]⟩

/-- A column of two cells. -/
def twoCells : Matrix :=
  ⟨2, 1, #[7, 8]⟩

/-- The second column is replaced by another; there is no fourth one. -/
theorem set_exact_secondColumn :
    sixCells.Valid ∧ twoCells.Valid ∧
      (∃ m', sixCells.set 2 twoCells = .ok m' ∧ m'.cell 1 1 = 8 ∧ m'.cell 1 2 = 6) ∧
      ∃ e, InPlace.set 4 twoCells sixCells = (.error e, sixCells) := by
  have hsix : sixCells.Valid := ⟨by decide, by decide, rfl⟩
  have htwo : twoCells.Valid := ⟨by decide, by decide, rfl⟩
  have hcolumn : sixCells.Addresses 2 twoCells (.column 1) :=
    .column ⟨by decide, by decide⟩ ⟨rfl, rfl⟩ (by decide) (by decide)
  obtain ⟨hsucceeds, hcells, -⟩ := set_exact hsix htwo 2
  obtain ⟨m', hm'⟩ := hsucceeds.mpr ⟨_, hcolumn⟩
  obtain ⟨-, -, hcell, -⟩ := hcells m' _ hm' hcolumn
  refine ⟨hsix, htwo, ⟨m', hm', ?_, ?_⟩, ?_⟩
  · exact hcell 1 (by decide) 1 (by decide)
  · exact hcell 1 (by decide) 2 (by decide)
  · obtain ⟨hfails, -, -, hkept⟩ := set_exact hsix htwo 4
    cases hset : sixCells.set 4 twoCells with
    | error e => exact ⟨e, hkept e hset⟩
    | ok m' =>
      obtain ⟨p, hp⟩ := hfails.mp ⟨m', hset⟩
      cases hp with
      | element hvector => exact absurd hvector (by decide)
      | row hmatrix hvalue => exact absurd hvalue (by decide)
      | column hmatrix hvalue hlow hhigh => exact absurd hhigh (by decide)

/-! ## Single cells -/

/-- A block that fits is replaced. -/
theorem setBlock_of_fits {row col : Int64} (hrow : row.toInt = i + 1) (hcol : col.toInt = j + 1)
    (hi : i < m.rows) (hj : j < m.cols) (hrows : i + v.rows ≤ m.rows)
    (hcols : j + v.cols ≤ m.cols) : m.setBlock row col v = .ok (m.overlay i j v) := by
  rw [setBlock, checkIndex_eq_ok_iff.mpr ⟨hrow, hi⟩, ok_bind,
    checkIndex_eq_ok_iff.mpr ⟨hcol, hj⟩, ok_bind, if_neg (by omega), if_neg (by omega)]
  rfl

/-- A number is written to one cell. -/
theorem cell_overlay_scalar {x : Float} {r c : Nat} (hr : r < m.rows) (hc : c < m.cols) :
    (m.overlay i j (scalar x)).cell r c = if r = i ∧ c = j then x else m.cell r c := by
  have hblock : (i ≤ r ∧ r < i + (scalar x).rows ∧ j ≤ c ∧ c < j + (scalar x).cols) ↔
      r = i ∧ c = j := by
    show (i ≤ r ∧ r < i + 1 ∧ j ≤ c ∧ c < j + 1) ↔ _
    omega
  rw [overlay, cell_tabulate hr hc]
  by_cases h : r = i ∧ c = j
  · rw [if_pos h, if_pos (hblock.mpr h), h.1, h.2, Nat.sub_self, Nat.sub_self]
    rfl
  · rw [if_neg h, if_neg (mt hblock.mp h)]

/-- **What two indices read**: a cell, but of a single row always the first one. -/
theorem get_get {row col : Int64} (hm : m.Valid) (hrow : row.toInt = i + 1)
    (hcol : col.toInt = j + 1) (hi : i < m.rows) (hj : j < m.cols) :
    (do (← m.get row).get col) =
      .ok (scalar (if m.rows = 1 ∧ 1 < m.cols then m.cell 0 0 else m.cell i j)) := by
  have hnumber (x : Float) : (scalar x).get col = .ok (scalar x) := rfl
  by_cases hmatrix : 2 ≤ m.rows ∧ 2 ≤ m.cols
  · have hwide : ¬ (m.rows = 1 ∧ 1 < m.cols) := by omega
    have hvalid : (m.row i).Valid := valid_tabulate Nat.one_pos hm.cols_pos _
    have hcol' : col.toInt = (0 : Nat) + j + 1 := by omega
    rw [get_of_matrix hmatrix hi hrow, ok_bind,
      get_of_vector hvalid (.inl rfl) Nat.one_pos hj hcol', if_neg hwide]
    exact congrArg (fun x => Except.ok (scalar x)) (cell_tabulate Nat.one_pos hj _)
  · have hrows := hm.rows_pos
    have hcols := hm.cols_pos
    by_cases hwide : m.rows = 1 ∧ 1 < m.cols
    · have hrow' : row.toInt = (0 : Nat) + (0 : Nat) + 1 := by omega
      rw [get_of_vector hm (.inl hwide.1) hrows hcols hrow', ok_bind, hnumber, if_pos hwide]
    · have hone : m.cols = 1 := by omega
      obtain rfl : j = 0 := by omega
      rw [get_of_vector hm (.inr hone) hi hj hrow, ok_bind, hnumber, if_neg hwide]

end Matrix

/-! ## Programs -/

/-- The expression `name[row][col]`. -/
def Expr.elementOf (name : String) (row col : Expr) : Expr :=
  .binary .index (.binary .index (.variable name) row) col

section

variable {env : Environment} {x : String} {m : Matrix} {row col value : Expr} {r c s : Float}

theorem Environment.lookup_of_get? (h : env.get? x = some m) : env.lookup x = .ok m := by
  rw [lookup, h]
  rfl

theorem Expr.eval_index {e index : Expr} (he : e.eval env = (.ok m, env))
    (hindex : index.eval env = (.ok (.scalar r), env)) :
    (binary .index e index).eval env = (m.get (Number.toInt64 r), env) := by
  rw [eval, bind_of_ok he, bind_of_ok hindex]
  rfl

/-- Two indices are applied one after the other. -/
theorem Expr.eval_elementOf {v : Matrix} (hx : env.get? x = some m)
    (hrow : row.eval env = (.ok (.scalar r), env)) (hcol : col.eval env = (.ok (.scalar c), env))
    (hv : (do (← m.get (Number.toInt64 r)).get (Number.toInt64 c)) = .ok v) :
    (elementOf x row col).eval env = (.ok v, env) := by
  obtain ⟨a, ha, hv⟩ := exists_of_bind_eq_ok hv
  have hfirst := eval_index (eval_variable (Environment.lookup_of_get? hx)) hrow
  rw [ha] at hfirst
  rw [elementOf, eval_index hfirst hcol, hv]

theorem Run.integer_of_eval {e : Expr} (h : e.eval env = (.ok (.scalar r), env))
    (context : String) : integer context e env = (.ok (Number.toInt64 r), env) := by
  rw [integer, bind_of_ok h]
  rfl

/-- An assignment with two indices whose block can be replaced. -/
theorem Run.statement_assignBlock {v m' : Matrix} (hx : env.get? x = some m)
    (hrow : row.eval env = (.ok (.scalar r), env)) (hcol : col.eval env = (.ok (.scalar c), env))
    (hvalue : value.eval env = (.ok v, env))
    (hset : m.setBlock (Number.toInt64 r) (Number.toInt64 c) v = .ok m') (fuel line : Nat)
    (notes : List Note) :
    statement (fuel + 1) (.assignBlock line x row col value) ⟨env, notes⟩ =
      (.ok (), ⟨env.set x m', notes⟩) := by
  have hlookup : Eval.lookup x env = (.ok m, env) := by
    rw [Eval.lookup, Environment.lookup_of_get? hx]
  have hlift : Eval.lift (m.setBlock (Number.toInt64 r) (Number.toInt64 c) v) env =
      (.ok m', env) := by
    rw [Eval.lift, hset]
  have hchange : change x (·.setBlock (Number.toInt64 r) (Number.toInt64 c) v) env =
      (.ok (), env.set x m') := by
    rw [change, bind_of_ok hlookup, bind_of_ok hlift]
    rfl
  have hr : atLine line (integer "Row index" row) ⟨env, notes⟩ = _ :=
    atLine_of_ok (integer_of_eval hrow _) line
  have hc : atLine line (integer "Column index" col) ⟨env, notes⟩ = _ :=
    atLine_of_ok (integer_of_eval hcol _) line
  have hv : atLine line value.eval ⟨env, notes⟩ = _ := atLine_of_ok hvalue line
  rw [statement, bind_of_ok hr, bind_of_ok hc, bind_of_ok hv]
  exact atLine_of_ok hchange line

/-- **A cell is read back as it was assigned, but not in a single row.**  Assigning a number with
two indices that are within the shape succeeds.  The two indices then read that number, unless the
value is a single row and the second index is not its first column: they then read the first cell
of the row, which is as it was. -/
theorem read_after_assignment {env : Environment} {x : String} {m : Matrix}
    (hx : env.get? x = some m) (hm : m.Valid) {row col value : Expr} {r c s : Float}
    (hrow : row.eval env = (.ok (.scalar r), env)) (hcol : col.eval env = (.ok (.scalar c), env))
    (hvalue : value.eval env = (.ok (.scalar s), env))
    (hr : 1 ≤ (Number.toInt64 r).toInt ∧ (Number.toInt64 r).toInt ≤ m.rows)
    (hc : 1 ≤ (Number.toInt64 c).toInt ∧ (Number.toInt64 c).toInt ≤ m.cols) :
    ∃ after : Environment,
      (∀ fuel line notes, Run.statement (fuel + 1) (.assignBlock line x row col value)
        ⟨env, notes⟩ = (.ok (), ⟨after, notes⟩)) ∧
      ∀ row' col' : Expr, row'.eval after = (.ok (.scalar r), after) →
        col'.eval after = (.ok (.scalar c), after) →
        (Expr.elementOf x row' col').eval after =
          (.ok (.scalar (if m.rows = 1 ∧ 1 < (Number.toInt64 c).toInt then m.cell 0 0 else s)),
            after) := by
  obtain ⟨i, hi⟩ : ∃ i : Nat, (Number.toInt64 r).toInt = i + 1 :=
    ⟨((Number.toInt64 r).toInt - 1).toNat, by omega⟩
  obtain ⟨j, hj⟩ : ∃ j : Nat, (Number.toInt64 c).toInt = j + 1 :=
    ⟨((Number.toInt64 c).toInt - 1).toNat, by omega⟩
  have hrows : i < m.rows := by omega
  have hcols : j < m.cols := by omega
  let written := m.overlay i j (.scalar s)
  have hvalid : written.Valid := Matrix.valid_tabulate hm.rows_pos hm.cols_pos _
  have hset : m.setBlock (Number.toInt64 r) (Number.toInt64 c) (.scalar s) = .ok written :=
    Matrix.setBlock_of_fits hi hj hrows hcols hrows hcols
  refine ⟨env.set x written, Run.statement_assignBlock hx hrow hcol hvalue hset, ?_⟩
  intro row' col' hrow' hcol'
  have hx' : (env.set x written).get? x = some written := by
    rw [Environment.get?_set, if_pos rfl]
  have hcell : written.cell i j = s :=
    (Matrix.cell_overlay_scalar hrows hcols).trans (if_pos ⟨rfl, rfl⟩)
  have hfirst : 1 < (Number.toInt64 c).toInt → written.cell 0 0 = m.cell 0 0 := by
    intro hsecond
    exact (Matrix.cell_overlay_scalar hm.rows_pos hm.cols_pos).trans (if_neg (by omega))
  have hread : (if written.rows = 1 ∧ 1 < written.cols then written.cell 0 0
      else written.cell i j) =
      if m.rows = 1 ∧ 1 < (Number.toInt64 c).toInt then m.cell 0 0 else s := by
    show (if m.rows = 1 ∧ 1 < m.cols then written.cell 0 0 else written.cell i j) = _
    by_cases hsecond : m.rows = 1 ∧ 1 < (Number.toInt64 c).toInt
    · rw [if_pos hsecond, if_pos (by omega), hfirst hsecond.2]
    · rw [if_neg hsecond, ← hcell]
      by_cases hwide : m.rows = 1 ∧ 1 < m.cols
      · -- the first column of a row is the cell that was written
        obtain rfl : i = 0 := by omega
        obtain rfl : j = 0 := by omega
        rw [ite_self]
      · rw [if_neg hwide]
  rw [Expr.eval_elementOf hx' hrow' hcol' (Matrix.get_get hvalid hi hj hrows hcols), hread]

end

/-- An environment in which `x` is two rows of three cells. -/
def sixInX : Environment :=
  ⟨[("x", Matrix.sixCells)], .standard⟩

/-- The last of six cells is read back after `x[2][3] = 9`. -/
theorem read_after_assignment_lastOfSix :
    sixInX.get? "x" = some Matrix.sixCells ∧ Matrix.sixCells.Valid ∧
      ∃ after : Environment,
        (∀ fuel line notes, Run.statement (fuel + 1)
          (.assignBlock line "x" (.literal 2) (.literal 3) (.literal 9)) ⟨sixInX, notes⟩ =
            (.ok (), ⟨after, notes⟩)) ∧
        (Expr.elementOf "x" (.literal 2) (.literal 3)).eval after = (.ok (.scalar 9), after) := by
  have hvalid : Matrix.sixCells.Valid := ⟨by decide, by decide, rfl⟩
  obtain ⟨after, hrun, hread⟩ := @read_after_assignment sixInX "x" Matrix.sixCells rfl hvalid
    (.literal 2) (.literal 3) (.literal 9) 2 3 9 rfl rfl rfl (by decide +kernel) (by decide +kernel)
  exact ⟨rfl, hvalid, after, hrun, hread (.literal 2) (.literal 3) rfl rfl⟩

/-- **Two indices need not read what they assigned**: after `x[1][2] = 9` in a row of three cells,
`x[1][2]` is still its first cell. -/
theorem row_not_read_back :
    ¬ ∀ (env : Environment) (x : String) (m : Matrix) (r c s : Float), env.get? x = some m →
      m.Valid → 1 ≤ (Number.toInt64 r).toInt ∧ (Number.toInt64 r).toInt ≤ m.rows →
      1 ≤ (Number.toInt64 c).toInt ∧ (Number.toInt64 c).toInt ≤ m.cols →
      ∀ after, Run.statement 1 (.assignBlock 1 x (.literal r) (.literal c) (.literal s))
          ⟨env, []⟩ = (.ok (), after) →
        (Expr.elementOf x (.literal r) (.literal c)).eval after.env =
          (.ok (.scalar s), after.env) := by
  intro h
  let cells : Matrix := ⟨1, 3, #[1, 2, 3]⟩
  let env : Environment := ⟨[("x", cells)], .standard⟩
  let written := cells.overlay 0 1 (.scalar 9)
  have hvalid : cells.Valid := ⟨by decide, by decide, rfl⟩
  have hwritten : written.Valid := Matrix.valid_tabulate (by decide) (by decide) _
  have hrow : (Number.toInt64 1).toInt = (0 : Nat) + 1 := by decide +kernel
  have hcol : (Number.toInt64 2).toInt = (1 : Nat) + 1 := by decide +kernel
  have hset : cells.setBlock (Number.toInt64 1) (Number.toInt64 2) (.scalar 9) = .ok written :=
    Matrix.setBlock_of_fits hrow hcol (by decide) (by decide) (by decide) (by decide)
  have hrun := @Run.statement_assignBlock env "x" cells (.literal 1) (.literal 2) (.literal 9) 1 2
    (.scalar 9) written rfl rfl rfl rfl hset 0 1 []
  have hread := h env "x" cells 1 2 9 rfl hvalid (by decide +kernel) (by decide +kernel) _ hrun
  have hget := Matrix.get_get hwritten hrow hcol (by decide) (by decide)
  have hfirst := @Expr.eval_elementOf (env.set "x" written) "x" written (.literal 1) (.literal 2)
    1 2 _ rfl rfl rfl hget
  have hnumber := congrArg (fun result => result.1.toOption.map fun v => v.cell 0 0)
    (hfirst.symm.trans hread)
  exact absurd hnumber (by decide +kernel)

end MatrixLang
