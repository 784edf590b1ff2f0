import MatrixLang.Proofs.Broadcasting
import MatrixLang.Proofs.Joining
import MatrixLang.Proofs.NumberOperations

/-! # Transposes of products

A product is the usual one of matrices, unless one of the two is a number, which then multiplies
every cell of the other.  In both cases exchanging the rows and columns of the product comes to the
same as exchanging those of the factors and multiplying them the other way round
(`transpose_multiply`).  Of doubles this needs only that the product of two does not depend on
their order: the products that make up a cell are added in the order in which they were added
before.
-/

namespace MatrixLang

/-- Two computations of which one gives what the other gives, changed, fail together. -/
theorem agree_of_toOption {ε α β : Type} {x : Except ε α} {y : Except ε β} {f : α → β}
    (h : y.toOption = x.toOption.map f) :
    ((∃ e, x = .error e) ↔ ∃ e, y = .error e) ∧ ∀ a, x = .ok a → y = .ok (f a) := by
  cases x with
  | error e =>
    cases y with
    | error e' => exact ⟨iff_of_true ⟨e, rfl⟩ ⟨e', rfl⟩, by rintro a ⟨⟩⟩
    | ok b => cases h
  | ok a =>
    obtain rfl := toOption_eq_some_iff.mp h
    exact ⟨iff_of_false (by rintro ⟨e, ⟨⟩⟩) (by rintro ⟨e, ⟨⟩⟩), by rintro b ⟨⟩; rfl⟩

namespace Matrix

variable {a b m : Matrix} {i j rows cols : Nat}

theorem transpose_tabulate (f : Nat → Nat → Float) :
    (tabulate rows cols f).transpose = tabulate cols rows fun i j => f j i :=
  tabulate_congr fun _ hi _ hj => cell_tabulate hj hi f

theorem cell_transpose (hi : i < m.rows) (hj : j < m.cols) : m.transpose.cell j i = m.cell i j :=
  cell_tabulate hj hi _

theorem isScalar_transpose (m : Matrix) : m.transpose.isScalar = m.isScalar :=
  Bool.and_comm _ _

/-! ## Numbers and matrices -/

/-- A cell that is met lies within its matrix, if that is not a number. -/
theorem within_of_jointShape (hi : i < (jointShape a b).rows) (hj : j < (jointShape a b).cols) :
    a.isScalar = true ∨ i < a.rows ∧ j < a.cols := by
  by_cases hscalar : a.isScalar = true
  · exact .inl hscalar
  · rw [jointShape, if_neg hscalar] at hi hj
    exact .inr ⟨hi, hj⟩

theorem spread_transpose (h : m.isScalar = true ∨ i < m.rows ∧ j < m.cols) :
    m.transpose.spread j i = m.spread i j := by
  rcases h with hscalar | ⟨hi, hj⟩
  · obtain ⟨hrows, hcols⟩ := isScalar_iff.mp hscalar
    rw [spread_of_isScalar ((isScalar_transpose m).trans hscalar), spread_of_isScalar hscalar,
      cell_transpose (by omega) (by omega)]
  · rw [spread_eq_cell hj hi, spread_eq_cell hi hj, cell_transpose hi hj]

theorem jointShape_transpose (a b : Matrix) :
    jointShape a.transpose b.transpose = ⟨(jointShape a b).cols, (jointShape a b).rows⟩ := by
  rw [jointShape, jointShape, isScalar_transpose]
  split
  · rfl
  · rfl

/-- The cells that meet still meet, and can be combined the other way round. -/
theorem transpose_combined {f : Float → Float → Float} (hf : ∀ x y, f x y = f y x)
    (h : Compatible a b) :
    (combined f a b).transpose = combined f b.transpose a.transpose := by
  have hshape : jointShape b.transpose a.transpose =
      ⟨(jointShape a b).cols, (jointShape a b).rows⟩ := by
    rw [jointShape_transpose, jointShape_comm h]
  rw [combined, combined, transpose_tabulate, hshape]
  refine tabulate_congr fun j hj i hi => ?_
  rw [spread_transpose (within_of_jointShape hi hj),
    spread_transpose (within_of_jointShape (jointShape_comm h ▸ hi) (jointShape_comm h ▸ hj)), hf]

/-! ## Matrices -/

/-- The products that make up a cell are the same ones in the same order. -/
theorem transpose_product (h : a.cols = b.rows) :
    (a.product b).transpose = b.transpose.product a.transpose := by
  rw [product, transpose_tabulate]
  refine tabulate_congr fun j hj i hi => ?_
  show (List.range a.cols).foldl _ _ = (List.range b.rows).foldl _ _
  rw [← h]
  refine List.foldl_ext _ _ _ fun sum k hk => ?_
  have hk' : k < a.cols := List.mem_range.mp hk
  rw [cell_transpose (h ▸ hk') hj, cell_transpose hi hk', Number.mul_swap]

/-- What multiplying gives. -/
theorem multiply_eq (ha : a.Valid) (hb : b.Valid) : a.multiply b =
    if a.isScalar ∨ b.isScalar then .ok (combined (· * ·) a b)
    else if a.cols = b.rows then .ok (a.product b)
    else .error (.shapeMismatch "matrix multiplication" a.shape b.shape) := by
  rw [multiply]
  split
  · rename_i h
    have hcompatible : Compatible a b := h.imp_right .inl
    rw [broadcast_eq ha hb, if_pos hcompatible]
  · rfl

/-- Multiplying two matrices after their rows and columns are exchanged. -/
theorem multiply_transpose (ha : a.Valid) (hb : b.Valid) :
    (b.transpose.multiply a.transpose).toOption = (a.multiply b).toOption.map transpose := by
  rw [multiply_eq ha hb, multiply_eq hb.transpose ha.transpose, isScalar_transpose,
    isScalar_transpose]
  by_cases hscalar : a.isScalar = true ∨ b.isScalar = true
  · rw [if_pos hscalar, if_pos hscalar.symm]
    exact congrArg some (transpose_combined Number.mul_swap (hscalar.imp_right .inl)).symm
  rw [if_neg hscalar, if_neg (mt Or.symm hscalar)]
  by_cases hinner : a.cols = b.rows
  · have hinner' : b.transpose.cols = a.transpose.rows := hinner.symm
    rw [if_pos hinner, if_pos hinner']
    exact congrArg some (transpose_product hinner).symm
  · have hinner' : ¬ b.transpose.cols = a.transpose.rows := fun h => hinner h.symm
    rw [if_neg hinner, if_neg hinner']
    rfl

/-- **The transpose of a product is the product of the transposes, the other way round.**  For
matrices of any shapes, numbers among them, one of the two fails exactly if the other does, and
otherwise both have the same double in every cell. -/
theorem transpose_multiply {a b : Matrix} (ha : a.Valid) (hb : b.Valid) :
    ((∃ e, a.multiply b = .error e) ↔ ∃ e, b.transpose.multiply a.transpose = .error e) ∧
    ∀ c, a.multiply b = .ok c → b.transpose.multiply a.transpose = .ok c.transpose :=
  agree_of_toOption (multiply_transpose ha hb)

/-- A row times a square matrix, and a number times the row; the square matrix times the row is
refused. -/
theorem transpose_multiply_row :
    ∃ row square c d : Matrix, row.Valid ∧ square.Valid ∧
      row.multiply square = .ok c ∧ square.transpose.multiply row.transpose = .ok c.transpose ∧
      (scalar 7).multiply row = .ok d ∧
      row.transpose.multiply (scalar 7).transpose = .ok d.transpose ∧
      ∃ e, row.transpose.multiply square.transpose = .error e := by
  let row : Matrix := ⟨1, 2, #[1, 2]⟩
  let square : Matrix := ⟨2, 2, #[3, 4, 5, 6]⟩
  have hrow : row.Valid := ⟨by decide, by decide, rfl⟩
  have hsquare : square.Valid := ⟨by decide, by decide, rfl⟩
  obtain ⟨-, hproduct⟩ := transpose_multiply hrow hsquare
  obtain ⟨-, hnumber⟩ := transpose_multiply (valid_scalar 7) hrow
  obtain ⟨hfails, -⟩ := transpose_multiply hsquare hrow
  exact ⟨row, square, _, _, hrow, hsquare, rfl, hproduct _ rfl, rfl, hnumber _ rfl,
    hfails.mp ⟨_, rfl⟩⟩

end Matrix

end MatrixLang
