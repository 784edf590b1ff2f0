import MatrixLang.Proofs.GuardedMatrix

/-! # Matrices by their cells

A valid matrix is given by its shape and its cells (`Valid.ext`), so that what an operation makes is
known when every cell of it is.  The data of a table are its cells row by row (`data_tabulate`).
-/

namespace MatrixLang.Matrix

variable {a b m : Matrix} {i j rows cols : Nat}

/-- A cell of a table. -/
theorem cell_tabulate (hi : i < rows) (hj : j < cols) (f : Nat → Nat → Float) :
    (tabulate rows cols f).cell i j = f i j := by
  have hlt : i * cols + j < rows * cols := by
    have hrow : (i + 1) * cols ≤ rows * cols := Nat.mul_le_mul_right _ hi
    rw [Nat.succ_mul] at hrow
    omega
  rw [cell, tabulate, Array.getD_eq_getD_getElem?, Array.getElem?_ofFn, dif_pos hlt]
  show f ((i * cols + j) / cols) ((i * cols + j) % cols) = f i j
  rw [place_div i hj, place_mod i hj]

/-- **A valid matrix is its shape and its cells.** -/
theorem Valid.ext (ha : a.Valid) (hb : b.Valid) (hrows : a.rows = b.rows) (hcols : a.cols = b.cols)
    (hcell : ∀ i < a.rows, ∀ j < a.cols, a.cell i j = b.cell i j) : a = b := by
  rw [← tabulate_cell ha, ← tabulate_cell hb, ← hrows, ← hcols]
  exact tabulate_congr hcell

theorem isScalar_iff : m.isScalar = true ↔ m.rows = 1 ∧ m.cols = 1 := by
  rw [isScalar, Bool.and_eq_true, beq_iff_eq, beq_iff_eq]

theorem isVector_iff : m.isVector = true ↔ m.rows = 1 ∨ m.cols = 1 := by
  rw [isVector, Bool.or_eq_true, beq_iff_eq, beq_iff_eq]

theorem Valid.eq_scalar (h : m.Valid) (hrows : m.rows = 1) (hcols : m.cols = 1) :
    m = scalar (m.cell 0 0) := by
  refine h.ext (valid_scalar _) hrows hcols fun i hi j hj => ?_
  obtain rfl : i = 0 := by omega
  obtain rfl : j = 0 := by omega
  rfl

/-- The cells of a vector follow each other in its data. -/
theorem cell_of_vector (h : m.rows = 1 ∨ m.cols = 1) (hi : i < m.rows) (j : Nat) :
    m.cell i j = m.data.getD (i + j) 0 := by
  rw [cell]
  rcases h with h | h
  · obtain rfl : i = 0 := by omega
    rw [Nat.zero_mul]
  · rw [h, Nat.mul_one]

/-- An index from one is within a length, and stands for the place before it. -/
theorem checkIndex_eq_ok_iff {index : Int64} {length k : Nat} :
    checkIndex index length = .ok k ↔ index.toInt = k + 1 ∧ k < length := by
  rw [checkIndex]
  by_cases h : index.toInt < 1 ∨ length < index.toInt
  · rw [if_pos h]
    constructor
    · intro hk
      cases hk
    · omega
  · rw [if_neg h]
    constructor
    · intro hk
      cases hk
      omega
    · rintro ⟨hindex, -⟩
      show Except.ok (index.toInt - 1).toNat = Except.ok k
      rw [hindex, Int.add_sub_cancel, Int.toNat_natCast]

/-! ## Row by row -/

/-- What is found at the places of the data, taken row by row. -/
theorem flatten_range {α : Type} (rows cols : Nat) (f : Nat → α) :
    ((List.range rows).map fun i => (List.range cols).map fun j => f (i * cols + j)).flatten =
      (List.range (rows * cols)).map f := by
  induction rows with
  | zero => simp
  | succ rows ih =>
    rw [List.range_succ, List.map_append, List.flatten_append, ih, Nat.succ_mul, List.range_add]
    simp [Function.comp_def]

/-- The rows and columns of a shape, row by row. -/
def places (rows cols : Nat) : List (Nat × Nat) :=
  (List.range rows).flatMap fun i => (List.range cols).map fun j => (i, j)

theorem mem_places {p : Nat × Nat} : p ∈ places rows cols ↔ p.1 < rows ∧ p.2 < cols := by
  obtain ⟨i, j⟩ := p
  simp [places]

/-- A place of the data says its row and its column. -/
theorem places_eq_map (rows cols : Nat) :
    places rows cols = (List.range (rows * cols)).map fun k => (k / cols, k % cols) := by
  rw [← flatten_range, places, List.flatMap_def]
  refine congrArg List.flatten (List.map_congr_left fun i _ => List.map_congr_left fun j hj => ?_)
  have hlt : j < cols := List.mem_range.mp hj
  rw [place_div i hlt, place_mod i hlt]

theorem data_tabulate (f : Nat → Nat → Float) :
    (tabulate rows cols f).data = ((places rows cols).map fun p => f p.1 p.2).toArray := by
  refine Array.ext ?_ fun k hk hk' => ?_
  · simp [places_eq_map, tabulate]
  · simp [places_eq_map, tabulate]

end MatrixLang.Matrix
