import MatrixLang.Proofs.PartAssignment

/-! # Blocks

A block of a matrix is given by the row and the column of its first cell, which count from one and
may be any 64-bit integers, and by its height and width.  `Matrix.Holds` says, in integers without
bounds, that it lies within the matrix.  Exactly such blocks can be written and read, and the two
form a lens: what was written is read back, writing back what was read changes nothing, and the
second of two writes wins (`setBlock_lens`).

Reading a block takes four integers, whose sums need not be 64-bit integers again.
`Checked.submatrix` reads it with arithmetic in words, where a sum that overflows is replaced by the
largest word; in a matrix that memory can hold this comes to the same (`submatrix_exact`).
-/

namespace MatrixLang

namespace Matrix

variable {m v : Matrix} {row col height width : Int64} {i j top left high wide : Nat}

/-! ## Reading and writing by places -/

/-- The block of a given height and width whose first cell is in row `top` and column `left`,
counted from zero. -/
def block (m : Matrix) (top left high wide : Nat) : Matrix :=
  tabulate high wide fun i j => m.cell (top + i) (left + j)

theorem cell_block (hi : i < high) (hj : j < wide) :
    (m.block top left high wide).cell i j = m.cell (top + i) (left + j) :=
  cell_tabulate hi hj _

theorem cell_overlay (hi : i < m.rows) (hj : j < m.cols) : (m.overlay top left v).cell i j =
    if top ≤ i ∧ i < top + v.rows ∧ left ≤ j ∧ j < left + v.cols then v.cell (i - top) (j - left)
    else m.cell i j :=
  cell_tabulate hi hj _

/-- What was written is read back. -/
theorem block_overlay (hv : v.Valid) (hrows : top + v.rows ≤ m.rows)
    (hcols : left + v.cols ≤ m.cols) : (m.overlay top left v).block top left v.rows v.cols = v := by
  refine (tabulate_congr fun i hi j hj => ?_).trans (tabulate_cell hv)
  rw [cell_overlay (by omega) (by omega), if_pos (by omega), Nat.add_sub_cancel_left,
    Nat.add_sub_cancel_left]

/-- Writing back what was read changes nothing. -/
theorem overlay_block (hm : m.Valid) : m.overlay top left (m.block top left high wide) = m := by
  refine (tabulate_congr fun i _ j _ => ?_).trans (tabulate_cell hm)
  show (if top ≤ i ∧ i < top + high ∧ left ≤ j ∧ j < left + wide then _ else _) = _
  by_cases hin : top ≤ i ∧ i < top + high ∧ left ≤ j ∧ j < left + wide
  · rw [if_pos hin, cell_block (by omega) (by omega), Nat.add_sub_cancel' hin.1,
      Nat.add_sub_cancel' hin.2.2.1]
  · rw [if_neg hin]

/-- The second of two writes wins if it covers the first. -/
theorem overlay_overlay {w : Matrix} (hrows : v.rows ≤ w.rows) (hcols : v.cols ≤ w.cols) :
    (m.overlay top left v).overlay top left w = m.overlay top left w := by
  refine tabulate_congr fun i hi j hj => ?_
  by_cases hin : top ≤ i ∧ i < top + w.rows ∧ left ≤ j ∧ j < left + w.cols
  · rw [if_pos hin, if_pos hin]
  · rw [if_neg hin, if_neg hin, cell_overlay (m := m) hi hj, if_neg (by omega)]

/-! ## Blocks within a matrix -/

/-- The block of a given height and width whose first cell is at a row and column that count from
one lies within a matrix. -/
structure Holds (m : Matrix) (row col : Int64) (height width : Int) : Prop where
  row_pos : 1 ≤ row.toInt
  col_pos : 1 ≤ col.toInt
  rows_le : row.toInt + height - 1 ≤ m.rows
  cols_le : col.toInt + width - 1 ≤ m.cols

/-- The cell in row `i` and column `j`, counted from zero, belongs to such a block. -/
def InBlock (row col : Int64) (height width : Int) (i j : Nat) : Prop :=
  (row.toInt ≤ i + 1 ∧ i + 1 < row.toInt + height) ∧
    (col.toInt ≤ j + 1 ∧ j + 1 < col.toInt + width)

instance {height width : Int} : Decidable (InBlock row col height width i j) :=
  inferInstanceAs (Decidable (_ ∧ _))

theorem setBlock_of_holds (hv : v.Valid) (h : m.Holds row col v.rows v.cols) :
    m.setBlock row col v = .ok (m.overlay (row.toInt - 1).toNat (col.toInt - 1).toNat v) := by
  obtain ⟨hrow, hcol, hrows, hcols⟩ := h
  have hvrows := hv.rows_pos
  have hvcols := hv.cols_pos
  exact setBlock_of_fits (by omega) (by omega) (by omega) (by omega) (by omega) (by omega)

theorem holds_of_setBlock {m' : Matrix} (h : m.setBlock row col v = .ok m') :
    m.Holds row col v.rows v.cols := by
  rw [setBlock] at h
  obtain ⟨top, htop, h⟩ := exists_of_bind_eq_ok h
  obtain ⟨left, hleft, h⟩ := exists_of_bind_eq_ok h
  rw [checkIndex_eq_ok_iff] at htop hleft
  split at h
  · cases h
  split at h
  · cases h
  · constructor <;> omega

theorem lastIndex_eq (first extent : Int64) :
    lastIndex first extent = min (first.toInt + (extent.toInt - 1)) 9223372036854775807 := rfl

/-- A run of places is accepted if it lies within a length, and else the error names an index that
does not. -/
theorem checkRun_cases (first extent : Int64) (length : Nat) :
    ((1 ≤ first.toInt ∧ first.toInt + extent.toInt - 1 ≤ length) ∧
      checkRun first extent length = .ok ()) ∨
    (¬ (1 ≤ first.toInt ∧ first.toInt + extent.toInt - 1 ≤ length) ∧
      ∃ index, checkRun first extent length = .error (.outOfBounds index length) ∧
        (length < Int64.maxValue.toInt → index < 1 ∨ length < index)) := by
  rw [checkRun]
  by_cases hfirst : first.toInt < 1
  · rw [if_pos hfirst]
    exact .inr ⟨by omega, _, rfl, fun _ => .inl hfirst⟩
  rw [if_neg hfirst]
  by_cases hlast : length < first.toInt + (extent.toInt - 1)
  · rw [if_pos hlast]
    refine .inr ⟨by omega, _, rfl, fun hlength => .inr ?_⟩
    have hlength : (length : Int) < 9223372036854775807 := hlength
    rw [lastIndex_eq]
    omega
  · rw [if_neg hlast]
    exact .inl ⟨by omega, rfl⟩

theorem submatrix_of_holds (hheight : 1 ≤ height.toInt) (hwidth : 1 ≤ width.toInt)
    (h : m.Holds row col height.toInt width.toInt) : m.submatrix row col height width =
      .ok (m.block (row.toInt - 1).toNat (col.toInt - 1).toNat height.toInt.toNat
        width.toInt.toNat) := by
  obtain ⟨-, hrow⟩ | ⟨hrow, -⟩ := checkRun_cases row height m.rows
  · obtain ⟨-, hcol⟩ | ⟨hcol, -⟩ := checkRun_cases col width m.cols
    · rw [submatrix, if_neg (by omega), hrow, ok_bind, hcol]
      rfl
    · exact absurd ⟨h.col_pos, h.cols_le⟩ hcol
  · exact absurd ⟨h.row_pos, h.rows_le⟩ hrow

/-- A block that is not within the matrix is refused, and the error names an index that is not. -/
theorem submatrix_of_not_holds (hheight : 1 ≤ height.toInt) (hwidth : 1 ≤ width.toInt)
    (h : ¬ m.Holds row col height.toInt width.toInt) :
    ∃ index length, m.submatrix row col height width = .error (.outOfBounds index length) ∧
      (length = m.rows ∨ length = m.cols) ∧
      (length < Int64.maxValue.toInt → index < 1 ∨ length < index) := by
  rw [submatrix, if_neg (by omega)]
  obtain ⟨hrows, hrow⟩ | ⟨-, index, hrow, hindex⟩ := checkRun_cases row height m.rows
  · obtain ⟨hcols, -⟩ | ⟨-, index, hcol, hindex⟩ := checkRun_cases col width m.cols
    · exact absurd ⟨hrows.1, hcols.1, hrows.2, hcols.2⟩ h
    · exact ⟨index, m.cols, by rw [hrow, ok_bind, hcol]; rfl, .inr rfl, hindex⟩
  · exact ⟨index, m.rows, by rw [hrow]; rfl, .inl rfl, hindex⟩

theorem submatrix_of_empty (h : height.toInt < 1 ∨ width.toInt < 1) :
    m.submatrix row col height width =
      .error (.invalidArgument (.blockSize height.toInt width.toInt)) := by
  rw [submatrix, if_pos h]
  rfl

theorem holds_of_submatrix {s : Matrix} (h : m.submatrix row col height width = .ok s) :
    1 ≤ height.toInt ∧ 1 ≤ width.toInt ∧ m.Holds row col height.toInt width.toInt := by
  by_cases hempty : height.toInt < 1 ∨ width.toInt < 1
  · rw [submatrix_of_empty hempty] at h
    cases h
  have hheight : 1 ≤ height.toInt := by omega
  have hwidth : 1 ≤ width.toInt := by omega
  refine ⟨hheight, hwidth, Classical.byContradiction fun hnot => ?_⟩
  obtain ⟨index, length, herror, -⟩ := submatrix_of_not_holds hheight hwidth hnot
  rw [herror] at h
  cases h

/-! ## A lens -/

section

variable {m' : Matrix}

/-- What was written is read back. -/
theorem submatrix_setBlock (hv : v.Valid) (h : m.setBlock row col v = .ok m')
    (hheight : height.toInt = v.rows) (hwidth : width.toInt = v.cols) :
    m'.submatrix row col height width = .ok v := by
  have hvrows := hv.rows_pos
  have hvcols := hv.cols_pos
  have hholds := holds_of_setBlock h
  rw [setBlock_of_holds hv hholds] at h
  cases h
  obtain ⟨hrow, hcol, hrows, hcols⟩ := hholds
  have hwithin : (m.overlay (row.toInt - 1).toNat (col.toInt - 1).toNat v).Holds row col
      height.toInt width.toInt :=
    ⟨hrow, hcol, hheight ▸ hrows, hwidth ▸ hcols⟩
  rw [submatrix_of_holds (by omega) (by omega) hwithin, hheight, hwidth]
  exact congrArg Except.ok (block_overlay hv (by omega) (by omega))

/-- Cells outside of a block are as they were before it was written. -/
theorem cell_setBlock (hv : v.Valid) (h : m.setBlock row col v = .ok m') (hi : i < m.rows)
    (hj : j < m.cols) (hout : ¬ InBlock row col v.rows v.cols i j) :
    m'.cell i j = m.cell i j := by
  have hholds := holds_of_setBlock h
  rw [setBlock_of_holds hv hholds] at h
  cases h
  obtain ⟨hrow, hcol, -, -⟩ := hholds
  rw [InBlock] at hout
  rw [cell_overlay hi hj, if_neg (by omega)]

/-- A second write at the same place leaves nothing of the first if it covers it, and is refused
like a single one. -/
theorem setBlock_setBlock {w : Matrix} (hv : v.Valid) (h : m.setBlock row col v = .ok m')
    (hrows : v.rows ≤ w.rows) (hcols : v.cols ≤ w.cols) :
    m'.setBlock row col w = m.setBlock row col w := by
  rw [setBlock_of_holds hv (holds_of_setBlock h)] at h
  cases h
  rw [setBlock, setBlock]
  show (checkIndex row m.rows >>= _) = (checkIndex row m.rows >>= _)
  cases htop : checkIndex row m.rows with
  | error e => rfl
  | ok top =>
    show (checkIndex col m.cols >>= _) = (checkIndex col m.cols >>= _)
    cases hleft : checkIndex col m.cols with
    | error e => rfl
    | ok left =>
      rw [checkIndex_eq_ok_iff] at htop hleft
      obtain rfl : top = (row.toInt - 1).toNat := by omega
      obtain rfl : left = (col.toInt - 1).toNat := by omega
      -- both write, and the checks that are left see only the shapes
      simp only [ok_bind, overlay_overlay hrows hcols]
      rfl

/-- Writing back what was read changes nothing. -/
theorem setBlock_submatrix {s : Matrix} (hm : m.Valid)
    (h : m.submatrix row col height width = .ok s) : m.setBlock row col s = .ok m := by
  obtain ⟨hheight, hwidth, hholds⟩ := holds_of_submatrix h
  rw [submatrix_of_holds hheight hwidth hholds] at h
  cases h
  obtain ⟨hrow, hcol, hrows, hcols⟩ := hholds
  have hvalid : (m.block (row.toInt - 1).toNat (col.toInt - 1).toNat height.toInt.toNat
      width.toInt.toNat).Valid := valid_tabulate (by omega) (by omega) _
  have hback : m.Holds row col height.toInt.toNat width.toInt.toNat :=
    ⟨hrow, hcol, by omega, by omega⟩
  rw [setBlock_of_holds hvalid hback, overlay_block hm]

/-- **Writing and reading a block form a lens.**  A block can be written if and only if it lies
within the matrix.  The matrix then keeps its shape, the block is read back, all cells outside of
it are as they were, and a second block that covers it leaves nothing of it.  Writing back a block
that was read changes nothing.  Written into the matrix that is there, cell by cell, a block comes
to the same, and leaves the matrix as it was where it is refused. -/
theorem setBlock_lens {m v : Matrix} (hm : m.Valid) (hv : v.Valid) (row col : Int64) :
    ((∃ m', m.setBlock row col v = .ok m') ↔ m.Holds row col v.rows v.cols) ∧
    (∀ m', m.setBlock row col v = .ok m' →
      m'.Valid ∧ m'.shape = m.shape ∧
      (∀ height width : Int64, height.toInt = v.rows → width.toInt = v.cols →
        m'.submatrix row col height width = .ok v) ∧
      (∀ i < m.rows, ∀ j < m.cols, ¬ InBlock row col v.rows v.cols i j →
        m'.cell i j = m.cell i j) ∧
      (∀ w : Matrix, v.rows ≤ w.rows → v.cols ≤ w.cols →
        m'.setBlock row col w = m.setBlock row col w) ∧
      InPlace.setBlock row col v m = (.ok (), m')) ∧
    (∀ (height width : Int64) (s : Matrix), m.submatrix row col height width = .ok s →
      m.setBlock row col s = .ok m) ∧
    ∀ e, m.setBlock row col v = .error e → InPlace.setBlock row col v m = (.error e, m) := by
  have hwrites : InPlace.setBlock row col v m = _ := InPlace.writes_setBlock hm hv row col
  refine ⟨⟨?_, ?_⟩, ?_, ?_, ?_⟩
  · rintro ⟨m', h⟩
    exact holds_of_setBlock h
  · intro h
    exact ⟨_, setBlock_of_holds hv h⟩
  · intro m' h
    have hkeeps : m'.Valid ∧ m'.shape = m.shape := by
      rw [setBlock_of_holds hv (holds_of_setBlock h)] at h
      cases h
      exact ⟨Checked.valid_overlay hm, rfl⟩
    have hplace : InPlace.setBlock row col v m = (.ok (), m') := by rw [hwrites, h]
    exact ⟨hkeeps.1, hkeeps.2, fun height width => submatrix_setBlock hv h,
      fun i hi j hj => cell_setBlock hv h hi hj, fun w => setBlock_setBlock hv h, hplace⟩
  · intro height width s h
    exact setBlock_submatrix hm h
  · intro e h
    rw [hwrites, h]

end

/-- The last column of two rows is replaced and read back, and a third row is refused. -/
theorem setBlock_lens_lastColumn :
    sixCells.Valid ∧ twoCells.Valid ∧
      (∃ m', sixCells.setBlock 1 3 twoCells = .ok m' ∧ m'.submatrix 1 3 2 1 = .ok twoCells ∧
        m'.cell 1 1 = 5) ∧
      ∃ e, InPlace.setBlock 2 3 twoCells sixCells = (.error e, sixCells) := by
  have hsix : sixCells.Valid := ⟨by decide, by decide, rfl⟩
  have htwo : twoCells.Valid := ⟨by decide, by decide, rfl⟩
  obtain ⟨hsucceeds, hwritten, -⟩ := setBlock_lens hsix htwo 1 3
  obtain ⟨m', hm'⟩ := hsucceeds.mpr ⟨by decide, by decide, by decide, by decide⟩
  obtain ⟨-, -, hread, hcells, -⟩ := hwritten m' hm'
  refine ⟨hsix, htwo, ⟨m', hm', hread 2 1 rfl rfl, ?_⟩, ?_⟩
  · exact hcells 1 (by decide) 1 (by decide) (by decide)
  · obtain ⟨hfails, -, -, hkept⟩ := setBlock_lens hsix htwo 2 3
    cases hset : sixCells.setBlock 2 3 twoCells with
    | error e => exact ⟨e, hkept e hset⟩
    | ok m' => exact absurd (hfails.mp ⟨m', hset⟩).rows_le (by decide)

/-! ## Arithmetic in words -/

/-- **Blocks are read exactly, whatever the four integers are.**  A block is read if and only if
its height and width are positive and, in integers without bounds, it lies within the matrix.  It
then has that height and width and the cells from its first cell on.  Else the error is about the
size if that is not positive, and about an index that is not within the matrix if it is.  In a
matrix that memory can hold, arithmetic in words comes to the same, and no word overflows. -/
theorem submatrix_exact {m : Matrix} (hm : m.Valid) (row col height width : Int64) :
    ((∃ s, m.submatrix row col height width = .ok s) ↔
      1 ≤ height.toInt ∧ 1 ≤ width.toInt ∧ m.Holds row col height.toInt width.toInt) ∧
    (∀ s, m.submatrix row col height width = .ok s →
      s.Valid ∧ s.rows = height.toInt ∧ s.cols = width.toInt ∧
      ∀ i < s.rows, ∀ j < s.cols,
        s.cell i j = m.cell (row.toInt + i - 1).toNat (col.toInt + j - 1).toNat) ∧
    (∀ e, m.submatrix row col height width = .error e →
      if height.toInt < 1 ∨ width.toInt < 1 then
        e = .invalidArgument (.blockSize height.toInt width.toInt)
      else ∃ index length, e = .outOfBounds index length ∧ (length = m.rows ∨ length = m.cols) ∧
        (m.Storable → index < 1 ∨ length < index)) ∧
    (m.Storable → (Checked.submatrix .machine m row col height width).run =
      .ok (m.submatrix row col height width)) := by
  refine ⟨⟨?_, ?_⟩, ?_, ?_, fun hstore =>
    Checked.follows_submatrix hm (fun _ => hstore) row col height width⟩
  · rintro ⟨s, h⟩
    exact holds_of_submatrix h
  · rintro ⟨hheight, hwidth, hholds⟩
    exact ⟨_, submatrix_of_holds hheight hwidth hholds⟩
  · intro s h
    obtain ⟨hheight, hwidth, hholds⟩ := holds_of_submatrix h
    rw [submatrix_of_holds hheight hwidth hholds] at h
    cases h
    obtain ⟨hrow, hcol, -, -⟩ := hholds
    refine ⟨valid_tabulate (by omega) (by omega) _, Int.toNat_of_nonneg (by omega),
      Int.toNat_of_nonneg (by omega), fun i hi j hj => ?_⟩
    have hplace : (row.toInt - 1).toNat + i = (row.toInt + i - 1).toNat ∧
        (col.toInt - 1).toNat + j = (col.toInt + j - 1).toNat := by omega
    rw [← hplace.1, ← hplace.2]
    exact cell_block hi hj
  · intro e h
    by_cases hempty : height.toInt < 1 ∨ width.toInt < 1
    · rw [if_pos hempty]
      rw [submatrix_of_empty hempty] at h
      cases h
      rfl
    · rw [if_neg hempty]
      have hheight : 1 ≤ height.toInt := by omega
      have hwidth : 1 ≤ width.toInt := by omega
      by_cases hholds : m.Holds row col height.toInt width.toInt
      · rw [submatrix_of_holds hheight hwidth hholds] at h
        cases h
      · obtain ⟨index, length, herror, hlength, hindex⟩ :=
          submatrix_of_not_holds hheight hwidth hholds
        rw [herror] at h
        cases h
        refine ⟨index, length, rfl, hlength, fun hstore => hindex ?_⟩
        have hmrows := hstore.rows_le hm
        have hmcols := hstore.cols_le hm
        show (length : Int) < 9223372036854775807
        omega

/-- Two columns of six cells are read, and a height with which the last row is no 64-bit integer
is refused. -/
theorem submatrix_exact_twoColumns :
    sixCells.Valid ∧ sixCells.Storable ∧
      (∃ s, sixCells.submatrix 1 2 2 2 = .ok s ∧ s.cell 1 0 = 5) ∧
      (∃ e, sixCells.submatrix 2 1 Int64.maxValue 1 = .error e) ∧
      (Checked.submatrix .machine sixCells 2 1 Int64.maxValue 1).run =
        .ok (sixCells.submatrix 2 1 Int64.maxValue 1) := by
  have hsix : sixCells.Valid := ⟨by decide, by decide, rfl⟩
  have hstore : sixCells.Storable := by decide
  obtain ⟨hreads, hcells, -⟩ := submatrix_exact hsix 1 2 2 2
  obtain ⟨s, hs⟩ := hreads.mpr ⟨by decide, by decide, by decide, by decide, by decide, by decide⟩
  obtain ⟨-, hrows, hcols, hcell⟩ := hcells s hs
  obtain ⟨hrefused, -, -, hwords⟩ := submatrix_exact hsix 2 1 Int64.maxValue 1
  refine ⟨hsix, hstore, ⟨s, hs, ?_⟩, ?_, hwords hstore⟩
  · have hrow : s.rows = 2 := Int.ofNat.inj hrows
    have hcol : s.cols = 2 := Int.ofNat.inj hcols
    exact hcell 1 (by omega) 0 (by omega)
  · cases hread : sixCells.submatrix 2 1 Int64.maxValue 1 with
    | error e => exact ⟨e, rfl⟩
    | ok s => exact absurd (hrefused.mp ⟨s, hread⟩).2.2.rows_le (by decide)

end Matrix

end MatrixLang
