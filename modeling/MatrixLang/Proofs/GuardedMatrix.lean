import MatrixLang.Environment.Eval
import MatrixLang.Proofs.Guarded

/-! # Guarded operations on matrices

Every operation of the language once more, with a guard at every cell it reads or writes by its
place: `cell` and `datum` read, `put` and `putDatum` write, and all four give up with
`Fault.outside` where the plain operation would read a zero or write nothing.  On valid matrices
no guard ever fires: the guarded operation gives what the plain one gives, and that is valid
again.  Only the identity matrix of a size that is not a number is left out, with
`Fault.undefined`.

Operations that go through all cells in order (`Matrix.map`, the reductions, `Array.zipWith`)
read nothing by its place and need no guard.

Single cells and blocks are looked up at any 64-bit integers.  `cellAt` and `submatrix` do this in
words of a given width.  Matrices have to be kept in memory, which no number of bytes above the
largest signed word can address: in one that is `Storable` the places of all cells are words, and no
computation of a place that lies inside can go wrong, whatever the width (`cellIn_eq`).
-/

namespace MatrixLang

/-- An operation with guards, which may also fail as the plain one does. -/
abbrev Checked := ExceptT Error Guarded

namespace Matrix

variable {m : Matrix} {i j rows cols : Nat}

/-- The row of a place in the data. -/
theorem place_div (i : Nat) (hj : j < cols) : (i * cols + j) / cols = i := by
  rw [Nat.mul_comm, Nat.mul_add_div (by omega), Nat.div_eq_of_lt hj, Nat.add_zero]

/-- The column of a place in the data. -/
theorem place_mod (i : Nat) (hj : j < cols) : (i * cols + j) % cols = j := by
  rw [Nat.mul_comm, Nat.mul_add_mod, Nat.mod_eq_of_lt hj]

theorem Valid.index_lt (h : m.Valid) (hi : i < m.rows) (hj : j < m.cols) :
    i * m.cols + j < m.data.size := by
  have hrow : (i + 1) * m.cols ≤ m.rows * m.cols := Nat.mul_le_mul_right _ hi
  rw [Nat.succ_mul] at hrow
  rw [h.size_data]
  omega

theorem valid_tabulate (hrows : 0 < rows) (hcols : 0 < cols) (f : Nat → Nat → Float) :
    (tabulate rows cols f).Valid :=
  ⟨hrows, hcols, Array.size_ofFn⟩

theorem Valid.map (h : m.Valid) (f : Float → Float) : (m.map f).Valid :=
  ⟨h.rows_pos, h.cols_pos, by rw [Matrix.map, Array.size_map, h.size_data]⟩

theorem valid_scalar (x : Float) : (scalar x).Valid :=
  ⟨Nat.one_pos, Nat.one_pos, rfl⟩

theorem valid_ofBool (b : Bool) : (ofBool b).Valid := valid_scalar _

theorem tabulate_congr {f g : Nat → Nat → Float} (h : ∀ i < rows, ∀ j < cols, f i j = g i j) :
    tabulate rows cols f = tabulate rows cols g := by
  have hdata : (fun k : Fin (rows * cols) => f (k / cols) (k % cols)) =
      fun k : Fin (rows * cols) => g (k / cols) (k % cols) := by
    funext k
    have hcols : 0 < cols := Nat.pos_of_ne_zero fun hzero => by simpa [hzero] using k.isLt
    have hlt : (k : Nat) < cols * rows := Nat.mul_comm rows cols ▸ k.isLt
    exact h _ (Nat.div_lt_of_lt_mul hlt) _ (Nat.mod_lt _ hcols)
  rw [tabulate, hdata]
  rfl

/-- A valid matrix is the table of its cells. -/
theorem tabulate_cell (h : m.Valid) : tabulate m.rows m.cols m.cell = m := by
  obtain ⟨rows, cols, data⟩ := m
  have hdata : (Array.ofFn fun k : Fin (rows * cols) =>
      cell ⟨rows, cols, data⟩ (k / cols) (k % cols)) = data := by
    have hsize : data.size = rows * cols := h.size_data
    refine Array.ext (by simp [hsize]) fun k hk hk' => ?_
    simp [cell, Nat.div_add_mod', hk']
  rw [tabulate, hdata]

/-- A row is a block as wide as the matrix. -/
theorem overlay_row {v : Matrix} (h : v.rows = 1 ∧ v.cols = m.cols) (r : Nat) :
    m.overlay r 0 v =
      tabulate m.rows m.cols fun i j => if i = r then v.cell 0 j else m.cell i j := by
  refine tabulate_congr fun i _ j hj => ?_
  by_cases hi : i = r
  · rw [if_pos hi, if_pos (by omega), hi, Nat.sub_self, Nat.sub_zero]
  · rw [if_neg hi, if_neg (by omega)]

/-- A column is a block as high as the matrix. -/
theorem overlay_column {v : Matrix} (h : v.cols = 1 ∧ v.rows = m.rows) (c : Nat) :
    m.overlay 0 c v =
      tabulate m.rows m.cols fun i j => if j = c then v.cell i 0 else m.cell i j := by
  refine tabulate_congr fun i hi j _ => ?_
  by_cases hj : j = c
  · rw [if_pos hj, if_pos (by omega), hj, Nat.sub_self, Nat.sub_zero]
  · rw [if_neg hj, if_neg (by omega)]

theorem valid_of_ofData {shape : Shape} {data : Array Float} (h : ofData shape data = .ok m) :
    m.Valid := by
  rw [ofData] at h
  split at h
  · cases h
  rename_i hpos
  rw [checkSize] at h
  split at h
  · simp only [pure_bind] at h
    split at h
    · rename_i hsize
      cases h
      rw [not_or] at hpos
      exact ⟨Nat.pos_of_ne_zero hpos.1, Nat.pos_of_ne_zero hpos.2, hsize⟩
    · cases h
  · cases h

/-! ## Memory -/

/-- The cells, of eight bytes each, fit into memory. -/
def Storable (m : Matrix) : Prop :=
  8 * (m.size : Int) ≤ Int64.maxValue.toInt

instance : Decidable m.Storable :=
  inferInstanceAs (Decidable (_ ≤ _))

/-- The cells have places among words of a given width. -/
def StorableIn (m : Matrix) (w : Width) : Prop :=
  w = .machine → m.Storable

theorem storableIn_unbounded (m : Matrix) : m.StorableIn .unbounded := by
  rintro ⟨⟩

theorem Storable.size_le (h : m.Storable) : m.size ≤ 1152921504606846975 := by
  have hbytes : 8 * (m.size : Int) ≤ 9223372036854775807 := h
  omega

theorem Storable.rows_le (h : m.Storable) (hm : m.Valid) : m.rows ≤ 1152921504606846975 := by
  have hsize : m.rows ≤ m.rows * m.cols := Nat.le_mul_of_pos_right _ hm.cols_pos
  rw [← hm.size_data] at hsize
  exact Nat.le_trans hsize h.size_le

theorem Storable.cols_le (h : m.Storable) (hm : m.Valid) : m.cols ≤ 1152921504606846975 := by
  have hsize : m.cols ≤ m.rows * m.cols := Nat.le_mul_of_pos_left _ hm.rows_pos
  rw [← hm.size_data] at hsize
  exact Nat.le_trans hsize h.size_le

end Matrix

namespace Checked

open Guarded (item plain signed signed_eq unsigned unsigned_eq unsigned_natCast)

variable {α β : Type} {m v : Matrix} {w : Width} {i j k : Nat}

/-! ## Cells -/

/-- Reads the cell in row `i` and column `j`, whose place in the data is computed in words. -/
def cellIn (w : Width) (m : Matrix) (i j : Nat) : Guarded Float := do
  let start ← unsigned w (i * m.cols : Nat)
  let place ← unsigned w (start + j : Nat)
  if i < m.rows ∧ j < m.cols then item m.data.toList place else throw .outside

/-- Reads the cell in row `i` and column `j`. -/
def cell (m : Matrix) (i j : Nat) : Guarded Float :=
  cellIn .unbounded m i j

theorem cell_eq_ite (m : Matrix) (i j : Nat) :
    cell m i j = if i < m.rows ∧ j < m.cols then item m.data.toList (i * m.cols + j)
      else throw .outside :=
  rfl

/-- Reads the cell at a place in the data. -/
def datum (m : Matrix) (k : Nat) : Guarded Float :=
  item m.data.toList k

/-- Writes the cell in row `i` and column `j`. -/
def put (m : Matrix) (i j : Nat) (x : Float) : Guarded Matrix :=
  if i < m.rows ∧ j < m.cols ∧ i * m.cols + j < m.data.size then
    return { m with data := m.data.setIfInBounds (i * m.cols + j) x }
  else throw .outside

/-- Writes the cell at a place in the data. -/
def putDatum (m : Matrix) (k : Nat) (x : Float) : Guarded Matrix :=
  if k < m.data.size then return { m with data := m.data.setIfInBounds k x }
  else throw .outside

theorem datum_eq (h : k < m.size) : datum m k = .ok (m.data.getD k 0) := by
  have hlt : k < m.data.size := h
  rw [datum, item, Array.getElem?_toList, Array.getD_eq_getD_getElem?,
    Array.getElem?_eq_getElem hlt]
  rfl

/-- A cell inside is read, and no word overflows on the way to it. -/
theorem cellIn_eq (h : m.Valid) (hstored : m.StorableIn w) (hi : i < m.rows) (hj : j < m.cols) :
    cellIn w m i j = .ok (m.cell i j) := by
  have hlt := h.index_lt hi hj
  have hplace (hw : w = .machine) : i * m.cols + j < 18446744073709551616 := by
    have hsize := (hstored hw).size_le
    rw [Matrix.size] at hsize
    omega
  rw [cellIn, unsigned_natCast fun hw => Nat.lt_of_le_of_lt (Nat.le_add_right _ j) (hplace hw),
    ok_bind, unsigned_natCast hplace, ok_bind, if_pos ⟨hi, hj⟩]
  exact datum_eq hlt

theorem cell_eq (h : m.Valid) (hi : i < m.rows) (hj : j < m.cols) :
    cell m i j = .ok (m.cell i j) :=
  cellIn_eq h m.storableIn_unbounded hi hj

-- A guard fires where the data are too short.
example : cell ⟨2, 2, #[1, 2, 3]⟩ 1 1 = .error .outside := rfl

theorem mapM_ok {f : α → Guarded β} {g : α → β} {xs : List α} (h : ∀ x ∈ xs, f x = .ok (g x)) :
    xs.mapM f = .ok (xs.map g) := by
  induction xs with
  | nil => rfl
  | cons x xs ih =>
    rw [List.mapM_cons, h x (by simp), ih fun y hy => h y (List.mem_cons_of_mem x hy)]
    rfl

/-- The matrix whose cells are read one after the other. -/
def tabulate (rows cols : Nat) (f : Nat → Nat → Guarded Float) : Guarded Matrix := do
  let cells ← (List.range (rows * cols)).mapM fun k => f (k / cols) (k % cols)
  return ⟨rows, cols, cells.toArray⟩

theorem tabulate_eq {rows cols : Nat} {f : Nat → Nat → Guarded Float} {g : Nat → Nat → Float}
    (h : ∀ i < rows, ∀ j < cols, f i j = .ok (g i j)) :
    tabulate rows cols f = .ok (.tabulate rows cols g) := by
  have hcells : ∀ k ∈ List.range (rows * cols),
      f (k / cols) (k % cols) = .ok (g (k / cols) (k % cols)) := by
    intro k hk
    have hlt : k < rows * cols := List.mem_range.mp hk
    have hcols : 0 < cols := Nat.pos_of_ne_zero fun hzero => by simp [hzero] at hlt
    exact h _ (Nat.div_lt_of_lt_mul (by rwa [Nat.mul_comm])) _ (Nat.mod_lt k hcols)
  have hdata : ((List.range (rows * cols)).map fun k => g (k / cols) (k % cols)).toArray =
      Array.ofFn fun k : Fin (rows * cols) => g (k / cols) (k % cols) := by
    refine Array.ext (by simp) fun k hk hk' => ?_
    simp
  rw [tabulate, mapM_ok hcells, ok_bind, hdata]
  rfl

theorem agrees_tabulate {rows cols : Nat} {f : Nat → Nat → Guarded Float} {g : Nat → Nat → Float}
    (h : ∀ i < rows, ∀ j < cols, f i j = .ok (g i j)) (hrows : 0 < rows) (hcols : 0 < cols) :
    Agrees (liftM (tabulate rows cols f) : Checked Matrix) (pure (.tabulate rows cols g))
      Matrix.Valid := by
  rw [tabulate_eq h]
  exact .pure (Matrix.valid_tabulate hrows hcols g)

theorem cell_zero (h : m.Valid) : cell m 0 0 = .ok (m.cell 0 0) :=
  cell_eq h h.rows_pos h.cols_pos

/-! ## Single numbers -/

/-- Whether a matrix counts as true. -/
def isTrue (m : Matrix) : Guarded Bool := do
  if m.isScalar then return (← cell m 0 0) != 0 else return false

theorem isTrue_eq (h : m.Valid) : isTrue m = .ok m.isTrue := by
  rw [isTrue, cell_zero h, Matrix.isTrue]
  cases m.isScalar <;> rfl

/-- The number in a matrix that has to be a single one. -/
def asScalar (context : String) (m : Matrix) : Checked Float :=
  if m.isScalar then liftM (cell m 0 0) else throw (.notScalar context m.shape)

theorem agrees_asScalar (h : m.Valid) (context : String) :
    Agrees (asScalar context m) (m.asScalar context) fun _ => True := by
  rw [asScalar, Matrix.asScalar, cell_zero h]
  split
  · exact .pure trivial
  · exact .throw _

/-- The integer that a single number is cut to. -/
def asInteger (context : String) (m : Matrix) : Checked Int64 := do
  return Number.toInt64 (← asScalar context m)

theorem agrees_asInteger (h : m.Valid) (context : String) :
    Agrees (asInteger context m) (m.asInteger context) fun _ => True :=
  (agrees_asScalar h context).bind fun _ _ => .pure trivial

/-! ## Reading parts -/

/-- Reads the cell in a row and a column that are signed words. -/
def signedCell (w : Width) (m : Matrix) (r c : Int) : Guarded Float := do
  cellIn w m (← unsigned w r) (← unsigned w c)

/-- The cell at a row and column that count from one. -/
def cellAt (w : Width) (m : Matrix) (row col : Int64) (policy : MissingPolicy) :
    Guarded Float := do
  let rows ← signed w m.rows
  let cols ← signed w m.cols
  match policy with
  | .zero =>
    if row.toInt < 1 ∨ col.toInt < 1 ∨ rows < row.toInt ∨ cols < col.toInt then return 0
    else
      let r ← signed w (row.toInt - 1)
      let c ← signed w (col.toInt - 1)
      signedCell w m r c
  | .wrap =>
    let r ← signed w (row.toInt - 1)
    let c ← signed w (col.toInt - 1)
    signedCell w m (r % rows) (c % cols)
  | .clamp =>
    let r ← signed w (max 1 (min row.toInt rows) - 1)
    let c ← signed w (max 1 (min col.toInt cols) - 1)
    signedCell w m r c

theorem signedCell_eq (hm : m.Valid) (hstored : m.StorableIn w) {r c : Int}
    (hr : 0 ≤ r ∧ r < m.rows) (hc : 0 ≤ c ∧ c < m.cols) :
    signedCell w m r c = .ok (m.cell r.toNat c.toNat) := by
  have hplace (hw : w = .machine) : r < 18446744073709551616 ∧ c < 18446744073709551616 := by
    have hrows := (hstored hw).rows_le hm
    have hcols := (hstored hw).cols_le hm
    omega
  rw [signedCell, unsigned_eq hr.1 fun hw => (hplace hw).1, ok_bind,
    unsigned_eq hc.1 fun hw => (hplace hw).2, ok_bind]
  exact cellIn_eq hm hstored (by omega) (by omega)

/-- The dimensions of a matrix are words. -/
theorem signed_dimensions (hm : m.Valid) (hstored : m.StorableIn w) :
    signed w m.rows = .ok (m.rows : Int) ∧ signed w m.cols = .ok (m.cols : Int) := by
  refine ⟨signed_eq fun hw => ?_, signed_eq fun hw => ?_⟩
  · have hrows := (hstored hw).rows_le hm
    omega
  · have hcols := (hstored hw).cols_le hm
    omega

/-- An index from one on has a word before it. -/
theorem signed_sub_one {index : Int} (hlow : 1 ≤ index) (hhigh : index ≤ 9223372036854775807) :
    signed w (index - 1) = .ok (index - 1) :=
  signed_eq fun _ => by omega

/-- **No word overflows when a cell is looked up**, unless one is taken off the smallest one. -/
theorem cellAt_eq (hm : m.Valid) (hstored : m.StorableIn w) {row col : Int64}
    {policy : MissingPolicy} (h : policy = .wrap → signed w (row.toInt - 1) = .ok (row.toInt - 1) ∧
      signed w (col.toInt - 1) = .ok (col.toInt - 1)) :
    cellAt w m row col policy = .ok (m.cellAt row col policy) := by
  have hrows := hm.rows_pos
  have hcols := hm.cols_pos
  have hrow : row.toInt ≤ 9223372036854775807 := row.toInt_le
  have hcol : col.toInt ≤ 9223372036854775807 := col.toInt_le
  obtain ⟨hsignedRows, hsignedCols⟩ := signed_dimensions hm hstored
  rw [cellAt, hsignedRows, ok_bind, hsignedCols, ok_bind]
  cases policy with
  | zero =>
    rw [Matrix.cellAt]
    by_cases hout : row.toInt < 1 ∨ col.toInt < 1 ∨ m.rows < row.toInt ∨ m.cols < col.toInt
    · simp only [if_pos hout]
      rfl
    · simp only [if_neg hout]
      rw [signed_sub_one (by omega) hrow, ok_bind, signed_sub_one (by omega) hcol, ok_bind]
      exact signedCell_eq hm hstored (by omega) (by omega)
  | wrap =>
    have hplace (index : Int) {length : Nat} (hlength : 0 < length) :
        0 ≤ index % length ∧ index % length < length :=
      ⟨Int.emod_nonneg _ (by omega), Int.emod_lt_of_pos _ (by omega)⟩
    obtain ⟨hr, hc⟩ := h rfl
    rw [hr, ok_bind, hc, ok_bind]
    exact signedCell_eq hm hstored (hplace _ hrows) (hplace _ hcols)
  | clamp =>
    show (signed w (max 1 (min row.toInt m.rows) - 1) >>= _) = _
    rw [signed_sub_one (by omega) (by omega), ok_bind, signed_sub_one (by omega) (by omega),
      ok_bind]
    exact signedCell_eq hm hstored (by omega) (by omega)

theorem lt_of_checkIndex {index : Int64} {length : Nat}
    (h : Matrix.checkIndex index length = .ok i) : i < length := by
  rw [Matrix.checkIndex] at h
  split at h
  · cases h
  · cases h
    omega

/-- One row as a matrix. -/
def row (m : Matrix) (i : Nat) : Guarded Matrix :=
  tabulate 1 m.cols fun _ j => cell m i j

/-- An element of a vector or a row of a matrix. -/
def get (m : Matrix) (index : Int64) : Checked Matrix := do
  if m.isScalar then return m
  else if m.isVector then
    let i ← plain (Matrix.checkIndex index m.size)
    return .scalar (← datum m i)
  else
    let i ← plain (Matrix.checkIndex index m.rows)
    row m i

theorem agrees_get (h : m.Valid) (index : Int64) :
    Agrees (get m index) (m.get index) Matrix.Valid := by
  rw [get, Matrix.get]
  split
  · exact .pure h
  split
  · exact (Agrees.lift fun _ => lt_of_checkIndex).bind fun i hi =>
      .step (datum_eq hi) (.pure (Matrix.valid_scalar _))
  · refine (Agrees.lift fun _ => lt_of_checkIndex).bind fun i hi => ?_
    exact agrees_tabulate (fun _ _ j hj => cell_eq h hi hj) Nat.one_pos h.cols_pos

/-! ## Writing parts -/

theorem put_tabulate {rows cols : Nat} (hi : i < rows) (hj : j < cols) (f : Nat → Nat → Float)
    (x : Float) : put (.tabulate rows cols f) i j x =
      .ok (.tabulate rows cols fun r c => if r = i ∧ c = j then x else f r c) := by
  have hlt := (Matrix.valid_tabulate (by omega) (by omega) f).index_lt hi hj
  -- a place in the data is one row and one column
  have hplace (k : Nat) : i * cols + j = k ↔ k / cols = i ∧ k % cols = j := by
    constructor
    · rintro rfl
      exact ⟨Matrix.place_div i hj, Matrix.place_mod i hj⟩
    · rintro ⟨rfl, rfl⟩
      exact Nat.div_add_mod' k cols
  have hdata : (Matrix.tabulate rows cols f).data.setIfInBounds (i * cols + j) x =
      (Matrix.tabulate rows cols fun r c => if r = i ∧ c = j then x else f r c).data := by
    refine Array.ext (by simp [Matrix.tabulate]) fun k hk hk' => ?_
    have hk : k < (Matrix.tabulate rows cols f).data.size := by simpa using hk
    rw [Array.getElem_setIfInBounds hk]
    simp [Matrix.tabulate, hplace]
  show (if i < rows ∧ j < cols ∧ i * cols + j < _ then _ else _) = _
  rw [if_pos ⟨hi, hj, hlt⟩]
  exact congrArg (fun data => Except.ok (⟨rows, cols, data⟩ : Matrix)) hdata

/-- Writes a block, cell by cell. -/
def overlay (m : Matrix) (top left : Nat) (v : Matrix) : Guarded Matrix :=
  (List.range v.rows).foldlM (fun m i => (List.range v.cols).foldlM (fun m j => do
    put m (top + i) (left + j) (← cell v i j)) m) m

section

variable {top left : Nat}

/-- A matrix with the first `a` rows of a block written into it, and `b` cells of the next. -/
def written (m : Matrix) (top left : Nat) (v : Matrix) (a b : Nat) : Matrix :=
  .tabulate m.rows m.cols fun r c =>
    if (top ≤ r ∧ r < top + a ∧ left ≤ c ∧ c < left + v.cols) ∨
        (r = top + a ∧ left ≤ c ∧ c < left + b) then v.cell (r - top) (c - left)
    else m.cell r c

theorem written_zero (h : m.Valid) : written m top left v 0 0 = m := by
  refine (Matrix.tabulate_congr fun r _ c _ => ?_).trans (Matrix.tabulate_cell h)
  rw [if_neg (by omega)]

theorem written_row (m : Matrix) (top left : Nat) (v : Matrix) (a : Nat) :
    written m top left v a v.cols = written m top left v (a + 1) 0 := by
  refine Matrix.tabulate_congr fun r _ c _ => ?_
  congr 1
  refine propext ⟨fun h => ?_, fun h => ?_⟩ <;> omega

theorem written_rows (m : Matrix) (top left : Nat) (v : Matrix) :
    written m top left v v.rows 0 = m.overlay top left v := by
  refine Matrix.tabulate_congr fun r _ c _ => ?_
  congr 1
  refine propext ⟨fun h => ?_, fun h => ?_⟩ <;> omega

theorem put_written {a b : Nat} (hr : top + a < m.rows) (hc : left + b < m.cols) :
    put (written m top left v a b) (top + a) (left + b) (v.cell a b) =
      .ok (written m top left v a (b + 1)) := by
  refine (put_tabulate hr hc _ _).trans (congrArg Except.ok ?_)
  refine Matrix.tabulate_congr fun r _ c _ => ?_
  by_cases hrc : r = top + a ∧ c = left + b
  · obtain ⟨rfl, rfl⟩ := hrc
    rw [if_pos ⟨rfl, rfl⟩, if_pos (.inr (by omega))]
    simp
  · rw [if_neg hrc]
    congr 1
    refine propext ⟨fun h => ?_, fun h => ?_⟩ <;> omega

/-- A row of a block is written. -/
theorem foldlM_put (hv : v.Valid) {a : Nat} (ha : a < v.rows) (hrows : top + v.rows ≤ m.rows)
    (hcols : left + v.cols ≤ m.cols) {n : Nat} (hn : n ≤ v.cols) :
    (List.range n).foldlM (fun m j => do put m (top + a) (left + j) (← cell v a j))
      (written m top left v a 0) = .ok (written m top left v a n) := by
  induction n with
  | zero => rfl
  | succ n ih =>
    rw [List.range_succ, List.foldlM_append, ih (by omega), ok_bind, List.foldlM_cons,
      cell_eq hv ha hn, ok_bind, put_written (by omega) (by omega)]
    rfl

/-- **Writing a block cell by cell gives the overlay**: no cell of it lies outside. -/
theorem overlay_eq (hm : m.Valid) (hv : v.Valid) (hrows : top + v.rows ≤ m.rows)
    (hcols : left + v.cols ≤ m.cols) : overlay m top left v = .ok (m.overlay top left v) := by
  have hfold : ∀ n ≤ v.rows, (List.range n).foldlM (fun m i => (List.range v.cols).foldlM
      (fun m j => do put m (top + i) (left + j) (← cell v i j)) m) m =
        .ok (written m top left v n 0) := by
    intro n hn
    induction n with
    | zero => exact congrArg Except.ok (written_zero hm).symm
    | succ n ih =>
      rw [List.range_succ, List.foldlM_append, ih (by omega), ok_bind, List.foldlM_cons,
        foldlM_put hv hn hrows hcols (Nat.le_refl _), written_row]
      rfl
  rw [overlay, hfold v.rows (Nat.le_refl _), written_rows]

theorem valid_overlay (h : m.Valid) : (m.overlay top left v).Valid :=
  Matrix.valid_tabulate h.rows_pos h.cols_pos _

end

/-- Replaces an element of a vector, or a row or column of a matrix. -/
def set (m : Matrix) (index : Int64) (v : Matrix) : Checked Matrix := do
  if m.isVector then
    let i ← plain (Matrix.checkIndex index m.size)
    let x ← asScalar "Vector element assignment" v
    putDatum m i x
  else if v.rows = 1 ∧ v.cols = m.cols then
    let r ← plain (Matrix.checkIndex index m.rows)
    overlay m r 0 v
  else if v.cols = 1 ∧ v.rows = m.rows then
    let c ← plain (Matrix.checkIndex index m.cols)
    overlay m 0 c v
  else throw (.shapeMismatch "row assignment" m.shape v.shape)

theorem agrees_set (hm : m.Valid) (hv : v.Valid) (index : Int64) :
    Agrees (set m index v) (m.set index v) Matrix.Valid := by
  rw [set, Matrix.set]
  split
  · refine (Agrees.lift fun _ => lt_of_checkIndex).bind fun i hi => ?_
    refine (agrees_asScalar hv _).bind fun x _ => ?_
    have hput : putDatum m i x = .ok { m with data := m.data.setIfInBounds i x } := if_pos hi
    rw [hput]
    exact .pure ⟨hm.rows_pos, hm.cols_pos, by rw [Array.size_setIfInBounds, hm.size_data]⟩
  split
  · rename_i hshape
    refine (Agrees.lift fun _ => lt_of_checkIndex).bind fun r hr => ?_
    rw [overlay_eq hm hv (by omega) (by omega), Matrix.overlay_row hshape]
    exact .pure (Matrix.valid_tabulate hm.rows_pos hm.cols_pos _)
  split
  · rename_i hshape
    refine (Agrees.lift fun _ => lt_of_checkIndex).bind fun c hc => ?_
    rw [overlay_eq hm hv (by omega) (by omega), Matrix.overlay_column hshape]
    exact .pure (Matrix.valid_tabulate hm.rows_pos hm.cols_pos _)
  · exact .throw _

/-- Replaces a block whose first cell is at a row and column that count from one. -/
def setBlock (m : Matrix) (row col : Int64) (v : Matrix) : Checked Matrix := do
  let top ← plain (Matrix.checkIndex row m.rows)
  let left ← plain (Matrix.checkIndex col m.cols)
  if m.rows < top + v.rows then throw (.outOfBounds (top + v.rows : Nat) m.rows)
  else if m.cols < left + v.cols then throw (.outOfBounds (left + v.cols : Nat) m.cols)
  else overlay m top left v

theorem agrees_setBlock (hm : m.Valid) (hv : v.Valid) (row col : Int64) :
    Agrees (setBlock m row col v) (m.setBlock row col v) Matrix.Valid := by
  refine (Agrees.lift fun _ => lt_of_checkIndex).bind fun top _ => ?_
  refine (Agrees.lift fun _ => lt_of_checkIndex).bind fun left _ => ?_
  split
  · exact .throw _
  split
  · exact .throw _
  · rw [overlay_eq hm hv (by omega) (by omega)]
    exact .pure (valid_overlay hm)

/-! ## Blocks -/

section

variable {row col height width : Int64}

/-- Refuses a run of `extent` places from `first` on that is not within a length. -/
def checkRun (w : Width) (first extent : Int64) (length : Nat) : Checked Unit := do
  let further ← signed w (extent.toInt - 1)
  -- a sum that is no word stands for the largest one
  let last := if w.Holds .signed64 (first.toInt + further) then first.toInt + further
    else Int64.maxValue.toInt
  let limit ← signed w length
  if first.toInt < 1 then throw (.outOfBounds first.toInt length)
  -- the index that is named is a 64-bit integer, however wide the words are
  if limit < last then throw (.outOfBounds (min last Int64.maxValue.toInt) length)

/-- Reads the block of a given height and width, cell by cell. -/
def block (w : Width) (m : Matrix) (row col height width : Int64) : Guarded Matrix := do
  let top ← unsigned w ((← unsigned w row.toInt) - 1)
  let left ← unsigned w ((← unsigned w col.toInt) - 1)
  let high ← unsigned w height.toInt
  let wide ← unsigned w width.toInt
  -- room for all cells is asked for first
  let _ ← unsigned w (high * wide : Nat)
  tabulate high wide fun i j => do
    cellIn w m (← unsigned w (top + i : Nat)) (← unsigned w (left + j : Nat))

/-- The block of a given height and width whose first cell is at a row and column that count
from one. -/
def submatrix (w : Width) (m : Matrix) (row col height width : Int64) : Checked Matrix := do
  if height.toInt < 1 ∨ width.toInt < 1 then
    throw (.invalidArgument (.blockSize height.toInt width.toInt))
  checkRun w row height m.rows
  checkRun w col width m.cols
  block w m row col height width

/-- A sum that is no word is above every length, and so is the largest word. -/
theorem follows_checkRun {first extent : Int64} {length : Nat} (hextent : 1 ≤ extent.toInt)
    (hlength : w = .machine → length < 9223372036854775807) :
    Follows (checkRun w first extent length) (Matrix.checkRun first extent length) := by
  have hfirst : -9223372036854775808 ≤ first.toInt := first.minValue_le_toInt
  have hword : extent.toInt ≤ 9223372036854775807 := extent.toInt_le
  refine .step (signed_sub_one hextent hword) (.step (signed_eq fun hw => ?_) ?_)
  · have hlength := hlength hw
    omega
  dsimp only
  rw [Matrix.checkRun]
  by_cases hlow : first.toInt < 1
  · rw [if_pos hlow, if_pos hlow]
    exact .throw _
  rw [if_neg hlow, if_neg hlow]
  -- a sum of two words is out of their range above its end only
  have hsum : ∀ last, last = (if w.Holds .signed64 (first.toInt + (extent.toInt - 1)) then
      first.toInt + (extent.toInt - 1) else Int64.maxValue.toInt) →
      min last Int64.maxValue.toInt = Matrix.lastIndex first extent ∧
        ((length : Int) < last ↔ (length : Int) < first.toInt + (extent.toInt - 1)) := by
    have hmax : Int64.maxValue.toInt = 9223372036854775807 := rfl
    rintro last rfl
    rw [Matrix.lastIndex, hmax]
    split
    · exact ⟨rfl, Iff.rfl⟩
    · rename_i hout
      cases w with
      | unbounded => exact absurd trivial hout
      | machine =>
        have hlength := hlength rfl
        have hrange : ¬ (-9223372036854775808 ≤ first.toInt + (extent.toInt - 1) ∧
          first.toInt + (extent.toInt - 1) ≤ 9223372036854775807) := hout
        omega
  obtain ⟨hnamed, hbeyond⟩ := hsum _ rfl
  by_cases hhigh : (length : Int) < first.toInt + (extent.toInt - 1)
  · rw [if_pos (hbeyond.mpr hhigh), if_pos hhigh, hnamed]
    exact .throw _
  · rw [if_neg (mt hbeyond.mp hhigh), if_neg hhigh]
    exact .pure _

theorem within_of_checkRun {first extent : Int64} {length : Nat}
    (h : Matrix.checkRun first extent length = .ok ()) :
    1 ≤ first.toInt ∧ first.toInt + (extent.toInt - 1) ≤ length := by
  rw [Matrix.checkRun] at h
  split at h
  · cases h
  split at h
  · cases h
  · omega

/-- All places of a block within the matrix are words. -/
theorem block_eq (hm : m.Valid) (hstored : m.StorableIn w) (hheight : 1 ≤ height.toInt)
    (hwidth : 1 ≤ width.toInt) (hrow : 1 ≤ row.toInt ∧ row.toInt + (height.toInt - 1) ≤ m.rows)
    (hcol : 1 ≤ col.toInt ∧ col.toInt + (width.toInt - 1) ≤ m.cols) :
    block w m row col height width = .ok (.tabulate height.toInt.toNat width.toInt.toNat
      fun i j => m.cell ((row.toInt - 1).toNat + i) ((col.toInt - 1).toNat + j)) := by
  have hbounds (hw : w = .machine) : m.rows < 18446744073709551616 ∧
      m.cols < 18446744073709551616 ∧
      height.toInt.toNat * width.toInt.toNat < 18446744073709551616 := by
    have hsize := (hstored hw).size_le
    have hrows := (hstored hw).rows_le hm
    have hcols := (hstored hw).cols_le hm
    have harea : height.toInt.toNat * width.toInt.toNat ≤ m.size := by
      rw [Matrix.size, hm.size_data]
      exact Nat.mul_le_mul (by omega) (by omega)
    omega
  have htop : (row.toInt.toNat : Int) - 1 = row.toInt - 1 := by omega
  have hleft : (col.toInt.toNat : Int) - 1 = col.toInt - 1 := by omega
  have hword {x : Int} (hlow : 0 ≤ x) (hhigh : x ≤ m.rows ∨ x ≤ m.cols) :
      unsigned w x = .ok x.toNat := by
    refine unsigned_eq hlow fun hw => ?_
    have hbounds := hbounds hw
    omega
  rw [block, hword (by omega) (by omega), ok_bind, htop, hword (by omega) (by omega), ok_bind,
    hword (by omega) (by omega), ok_bind, hleft, hword (by omega) (by omega), ok_bind,
    hword (by omega) (by omega), ok_bind, hword (by omega) (by omega), ok_bind,
    unsigned_natCast fun hw => (hbounds hw).2.2, ok_bind]
  refine tabulate_eq fun i hi j hj => ?_
  rw [hword (by omega) (by omega), ok_bind, hword (by omega) (by omega), ok_bind]
  exact cellIn_eq hm hstored (by omega) (by omega)

/-- **No word overflows when a block is read.** -/
theorem follows_submatrix (hm : m.Valid) (hstored : m.StorableIn w) (row col height width : Int64) :
    Follows (submatrix w m row col height width) (m.submatrix row col height width) := by
  rw [submatrix, Matrix.submatrix]
  split
  · exact .throw _
  rename_i hsize
  have hrows (hw : w = .machine) : m.rows < 9223372036854775807 :=
    Nat.lt_of_le_of_lt ((hstored hw).rows_le hm) (by decide)
  have hcols (hw : w = .machine) : m.cols < 9223372036854775807 :=
    Nat.lt_of_le_of_lt ((hstored hw).cols_le hm) (by decide)
  refine .bind (follows_checkRun (by omega) hrows) fun _ hrow => ?_
  refine .bind (follows_checkRun (by omega) hcols) fun _ hcol => ?_
  rw [block_eq hm hstored (by omega) (by omega) (within_of_checkRun hrow) (within_of_checkRun hcol)]
  exact .pure _

theorem valid_of_submatrix {s : Matrix} (h : m.submatrix row col height width = .ok s) :
    s.Valid := by
  rw [Matrix.submatrix] at h
  split at h
  · cases h
  · obtain ⟨-, -, h⟩ := exists_of_bind_eq_ok h
    obtain ⟨-, -, h⟩ := exists_of_bind_eq_ok h
    cases h
    exact Matrix.valid_tabulate (by omega) (by omega) _

theorem agrees_submatrix (h : m.Valid) (row col height width : Int64) :
    Agrees (submatrix .unbounded m row col height width) (m.submatrix row col height width)
      Matrix.Valid :=
  .of_follows (follows_submatrix h m.storableIn_unbounded row col height width) fun _ =>
    valid_of_submatrix

end

/-- A block by its origin and extent. -/
def sub (m origin extent : Matrix) : Checked Matrix := do
  if origin.isScalar ∧ extent.isScalar then
    let row ← asInteger "Row" origin
    let height ← asInteger "Height" extent
    submatrix .unbounded m row 1 height (Int64.ofNat m.cols)
  else if origin.isVector ∧ origin.size = 2 ∧ extent.isVector ∧ extent.size = 2 then
    let row ← datum origin 0
    let col ← datum origin 1
    let height ← datum extent 0
    let width ← datum extent 1
    submatrix .unbounded m (Number.toInt64 row) (Number.toInt64 col) (Number.toInt64 height)
      (Number.toInt64 width)
  else throw (.invalidArgument .blockArguments)

theorem agrees_sub {origin extent : Matrix} (hm : m.Valid) (ho : origin.Valid)
    (he : extent.Valid) : Agrees (sub m origin extent) (m.sub origin extent) Matrix.Valid := by
  rw [sub, Matrix.sub]
  split
  · exact (agrees_asInteger ho _).bind fun _ _ => (agrees_asInteger he _).bind fun _ _ =>
      agrees_submatrix hm _ _ _ _
  split
  · rename_i hsize
    obtain ⟨-, hosize, -, hesize⟩ := hsize
    exact .step (datum_eq (by omega)) (.step (datum_eq (by omega)) (.step (datum_eq (by omega))
      (.step (datum_eq (by omega)) (agrees_submatrix hm _ _ _ _))))
  · exact .throw _

end Checked

end MatrixLang
