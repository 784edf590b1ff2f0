import MatrixLang.Proofs.Cells

/-! # Joining and transposing

Matrices are joined beside each other cell by cell, and below each other by putting their data one
after the other; a matrix is repeated by counting round and round through its rows and columns.  All
of this looks the same on both sides once a matrix is taken by its lines, which start at the edge at
which it is joined (`line`): beside each other these are the rows, and below each other the columns.
The lines of a join are those of the two matrices, one behind the other (`spliced`), and exchanging
rows and columns keeps the lines and changes the side.

Two joins agree if they fail together or give the same matrix, which is an equation between
`Except.toOption` of the two: the errors name the shapes of the operands.
-/

namespace MatrixLang

/-- The side after rows and columns are exchanged. -/
def Side.exchanged : Side → Side
  | .beside => .below
  | .below => .beside

theorem toOption_eq_some_iff {ε α : Type} {x : Except ε α} {a : α} :
    x.toOption = some a ↔ x = .ok a := by
  cases x with
  | error e => exact iff_of_false (by rintro ⟨⟩) (by rintro ⟨⟩)
  | ok b => exact ⟨by rintro ⟨⟩; rfl, by rintro ⟨⟩; rfl⟩

namespace Matrix

variable {a b c d m : Matrix} {side : Side} {i j k n l rows cols : Nat}

/-! ## Lines -/

/-- The number of lines, which is the length of the edge. -/
def edge (side : Side) (m : Matrix) : Nat :=
  match side with
  | .beside => m.rows
  | .below => m.cols

/-- The length of a line. -/
def reach (side : Side) (m : Matrix) : Nat :=
  match side with
  | .beside => m.cols
  | .below => m.rows

/-- The cell of line `i` at place `k`. -/
def line (side : Side) (m : Matrix) (i k : Nat) : Float :=
  match side with
  | .beside => m.cell i k
  | .below => m.cell k i

/-- The matrix with given lines. -/
def ofLines (side : Side) (edge reach : Nat) (f : Nat → Nat → Float) : Matrix :=
  match side with
  | .beside => tabulate edge reach f
  | .below => tabulate reach edge fun i j => f j i

@[simp] theorem edge_ofLines (f : Nat → Nat → Float) : edge side (ofLines side n l f) = n := by
  cases side with
  | beside => rfl
  | below => rfl

@[simp] theorem reach_ofLines (f : Nat → Nat → Float) : reach side (ofLines side n l f) = l := by
  cases side with
  | beside => rfl
  | below => rfl

theorem line_ofLines (hi : i < n) (hk : k < l) (f : Nat → Nat → Float) :
    line side (ofLines side n l f) i k = f i k := by
  cases side with
  | beside => exact cell_tabulate hi hk f
  | below => exact cell_tabulate hk hi fun i j => f j i

theorem valid_ofLines (hn : 0 < n) (hl : 0 < l) (f : Nat → Nat → Float) :
    (ofLines side n l f).Valid := by
  cases side with
  | beside => exact valid_tabulate hn hl f
  | below => exact valid_tabulate hl hn fun i j => f j i

theorem Valid.edge_pos (h : m.Valid) : 0 < edge side m := by
  cases side with
  | beside => exact h.rows_pos
  | below => exact h.cols_pos

theorem Valid.reach_pos (h : m.Valid) : 0 < reach side m := by
  cases side with
  | beside => exact h.cols_pos
  | below => exact h.rows_pos

/-- **A valid matrix is its lines.** -/
theorem Valid.ext_line (ha : a.Valid) (hb : b.Valid) (side : Side)
    (hedge : edge side a = edge side b) (hreach : reach side a = reach side b)
    (hline : ∀ i < edge side a, ∀ k < reach side a, line side a i k = line side b i k) : a = b := by
  cases side with
  | beside => exact ha.ext hb hedge hreach hline
  | below => exact ha.ext hb hreach hedge fun i hi j hj => hline j hj i hi

/-! ## Transposes -/

theorem Valid.transpose (h : m.Valid) : m.transpose.Valid :=
  valid_tabulate h.cols_pos h.rows_pos _

theorem transpose_transpose (h : m.Valid) : m.transpose.transpose = m := by
  refine Eq.trans (tabulate_congr fun i hi j hj => ?_) (tabulate_cell h)
  exact cell_tabulate hj hi _

@[simp] theorem edge_transpose : edge side.exchanged m.transpose = edge side m := by
  cases side with
  | beside => rfl
  | below => rfl

@[simp] theorem reach_transpose : reach side.exchanged m.transpose = reach side m := by
  cases side with
  | beside => rfl
  | below => rfl

/-- **Exchanging rows and columns keeps the lines.** -/
theorem line_transpose (hi : i < edge side m) (hk : k < reach side m) :
    line side.exchanged m.transpose i k = line side m i k := by
  cases side with
  | beside => exact cell_tabulate hk hi _
  | below => exact cell_tabulate hi hk _

/-! ## One line behind another -/

/-- Place `k` of a line of length `n` with another one behind it. -/
def spliced (n : Nat) (f g : Nat → Float) (k : Nat) : Float :=
  if k < n then f k else g (k - n)

theorem spliced_of_lt {f g : Nat → Float} (h : k < n) : spliced n f g k = f k :=
  if_pos h

theorem spliced_of_le {f g : Nat → Float} (h : n ≤ k) : spliced n f g k = g (k - n) :=
  if_neg (Nat.not_lt.mpr h)

theorem spliced_congr {f f' g g' : Nat → Float} (hk : k < n + l) (hf : ∀ k < n, f k = f' k)
    (hg : ∀ k < l, g k = g' k) : spliced n f g k = spliced n f' g' k := by
  by_cases hfirst : k < n
  · rw [spliced_of_lt hfirst, spliced_of_lt hfirst, hf k hfirst]
  · rw [spliced_of_le (by omega), spliced_of_le (by omega), hg (k - n) (by omega)]

theorem spliced_assoc (f g h : Nat → Float) (k : Nat) :
    spliced (n + l) (spliced n f g) h k = spliced n f (spliced l g h) k := by
  by_cases hfirst : k < n
  · rw [spliced_of_lt (by omega), spliced_of_lt hfirst, spliced_of_lt hfirst]
  rw [spliced_of_le (Nat.not_lt.mp hfirst)]
  by_cases hsecond : k < n + l
  · rw [spliced_of_lt hsecond, spliced_of_le (by omega), spliced_of_lt (by omega)]
  · rw [spliced_of_le (by omega), spliced_of_le (by omega), Nat.sub_sub]

/-- Rows of two lines each, one after the other, are columns of two lines each. -/
theorem spliced_spliced (f g f' g' : Nat → Nat → Float) :
    spliced n (fun i => spliced l (f i) (g i) j) (fun i => spliced l (f' i) (g' i) j) i =
      spliced l (fun j => spliced n (f · j) (f' · j) i) (fun j => spliced n (g · j) (g' · j) i)
        j := by
  simp only [spliced]
  split
  · rfl
  · rfl

/-! ## Joins -/

/-- Two matrices, joined. -/
def joined (side : Side) (a b : Matrix) : Matrix :=
  ofLines side (edge side a) (reach side a + reach side b) fun i k =>
    spliced (reach side a) (line side a i) (line side b i) k

theorem valid_joined (ha : a.Valid) : (joined side a b).Valid :=
  valid_ofLines ha.edge_pos (Nat.add_pos_left ha.reach_pos _) _

@[simp] theorem edge_joined : edge side (joined side a b) = edge side a :=
  edge_ofLines _

@[simp] theorem reach_joined : reach side (joined side a b) = reach side a + reach side b :=
  reach_ofLines _

theorem line_joined (hi : i < edge side a) (hk : k < reach side a + reach side b) :
    line side (joined side a b) i k = spliced (reach side a) (line side a i) (line side b i) k :=
  line_ofLines hi hk _

theorem cell_beside (hi : i < a.rows) (hj : j < a.cols + b.cols) :
    (joined .beside a b).cell i j = spliced a.cols (a.cell i) (b.cell i) j :=
  cell_tabulate hi hj _

theorem cell_below (hi : i < a.rows + b.rows) (hj : j < a.cols) :
    (joined .below a b).cell i j = spliced a.rows (a.cell · j) (b.cell · j) i :=
  cell_tabulate hi hj _

/-- Data put one after the other are rows below each other. -/
theorem append_data_eq_joined (ha : a.Valid) (hb : b.Valid) (h : a.cols = b.cols) :
    (⟨a.rows + b.rows, a.cols, a.data ++ b.data⟩ : Matrix) = joined .below a b := by
  have hsize : (a.data ++ b.data).size = (a.rows + b.rows) * a.cols := by
    rw [Array.size_append, ha.size_data, hb.size_data, Nat.add_mul, h]
  have hvalid : (⟨a.rows + b.rows, a.cols, a.data ++ b.data⟩ : Matrix).Valid :=
    ⟨Nat.add_pos_left ha.rows_pos _, ha.cols_pos, hsize⟩
  refine hvalid.ext (valid_joined ha) rfl rfl fun i hi j hj => ?_
  rw [cell_below hi hj, cell, Array.getD_eq_getD_getElem?]
  dsimp only at hj ⊢
  by_cases hfirst : i < a.rows
  · rw [spliced_of_lt hfirst, Array.getElem?_append_left (ha.index_lt hfirst hj), cell,
      Array.getD_eq_getD_getElem?]
  · have hplace : i * a.cols + j = a.data.size + ((i - a.rows) * b.cols + j) := by
      rw [ha.size_data, ← h, ← Nat.add_assoc, ← Nat.add_mul, Nat.add_sub_cancel' (by omega)]
    rw [spliced_of_le (by omega), hplace, Array.getElem?_append_right (Nat.le_add_right _ _),
      Nat.add_sub_cancel_left, cell, Array.getD_eq_getD_getElem?]

/-- **Joining puts the lines one behind the other**, if the edges are equally long. -/
theorem concat_eq (ha : a.Valid) (hb : b.Valid) (side : Side) : a.concat side b =
    if edge side a = edge side b then .ok (joined side a b)
    else .error (.incompatibleConcat a.shape b.shape) := by
  cases side with
  | beside => rfl
  | below =>
    by_cases h : a.cols = b.cols
    · have hedge : edge .below a = edge .below b := h
      rw [concat, if_pos h, if_pos hedge, append_data_eq_joined ha hb h]
      rfl
    · have hedge : ¬ edge .below a = edge .below b := h
      rw [concat, if_neg h, if_neg hedge]
      rfl

theorem concat_of_edge (side : Side) (ha : a.Valid) (hb : b.Valid)
    (h : edge side a = edge side b) : a.concat side b = .ok (joined side a b) := by
  rw [concat_eq ha hb, if_pos h]

/-- Joining is associative, if the edges of the first two are equally long. -/
theorem joined_assoc (ha : a.Valid) (h : edge side a = edge side b) :
    joined side (joined side a b) c = joined side a (joined side b c) := by
  refine (valid_joined (valid_joined ha)).ext_line (valid_joined ha) side ?_ ?_ ?_
  · simp only [edge_joined]
  · simp only [reach_joined, Nat.add_assoc]
  intro i hi k hk
  simp only [edge_joined, reach_joined] at hi hk
  have hk' : k < reach side a + (reach side b + reach side c) := by omega
  rw [line_joined (by rwa [edge_joined]) (by rwa [reach_joined]), reach_joined,
    line_joined hi (by rwa [reach_joined])]
  calc
    _ = spliced (reach side a + reach side b)
          (spliced (reach side a) (line side a i) (line side b i)) (line side c i) k :=
      spliced_congr hk (fun _ hk => line_joined hi hk) fun _ _ => rfl
    _ = spliced (reach side a) (line side a i)
          (spliced (reach side b) (line side b i) (line side c i)) k :=
      spliced_assoc _ _ _ k
    _ = _ := spliced_congr hk' (fun _ _ => rfl) fun _ hk => (line_joined (h ▸ hi) hk).symm

/-- **Exchanging rows and columns of a join.** -/
theorem transpose_joined (ha : a.Valid) (h : edge side a = edge side b) :
    (joined side a b).transpose = joined side.exchanged a.transpose b.transpose := by
  refine (valid_joined ha).transpose.ext_line (valid_joined ha.transpose) side.exchanged ?_ ?_ ?_
  · simp only [edge_transpose, edge_joined]
  · simp only [reach_transpose, reach_joined]
  intro i hi k hk
  simp only [edge_transpose, reach_transpose, edge_joined, reach_joined] at hi hk
  rw [line_transpose (by rwa [edge_joined]) (by rwa [reach_joined]), line_joined hi hk,
    line_joined (by rwa [edge_transpose]) (by rwa [reach_transpose, reach_transpose]),
    reach_transpose]
  exact spliced_congr hk (fun _ hk => (line_transpose hi hk).symm)
    fun _ hk => (line_transpose (h ▸ hi) hk).symm

/-- Joining two matrices after their rows and columns are exchanged. -/
theorem concat_transpose (ha : a.Valid) (hb : b.Valid) (side : Side) :
    (a.transpose.concat side.exchanged b.transpose).toOption =
      (a.concat side b).toOption.map transpose := by
  rw [concat_eq ha hb, concat_eq ha.transpose hb.transpose, edge_transpose, edge_transpose]
  by_cases h : edge side a = edge side b
  · rw [if_pos h, if_pos h, ← transpose_joined ha h]
    rfl
  · rw [if_neg h, if_neg h]
    rfl

/-- **Both groupings of a join fail, or give the same matrix.** -/
theorem concat_concat (ha : a.Valid) (hb : b.Valid) (hc : c.Valid) (side : Side) :
    (a.concat side b >>= fun ab => ab.concat side c).toOption =
      (b.concat side c >>= fun bc => a.concat side bc).toOption := by
  rw [concat_eq ha hb, concat_eq hb hc]
  -- The edge of a join is that of its first part, so both groupings compare the same three edges.
  by_cases hab : edge side a = edge side b
  · rw [if_pos hab, ok_bind, concat_eq (valid_joined ha) hc, edge_joined]
    by_cases hbc : edge side b = edge side c
    · rw [if_pos hbc, ok_bind, concat_eq ha (valid_joined hb), edge_joined, if_pos (hab.trans hbc),
        if_pos hab, joined_assoc ha hab]
    · rw [if_neg hbc, if_neg fun hac => hbc (hab.symm.trans hac)]
      rfl
  · rw [if_neg hab, error_bind]
    by_cases hbc : edge side b = edge side c
    · rw [if_pos hbc, ok_bind, concat_eq ha (valid_joined hb), edge_joined, if_neg hab]
      rfl
    · rw [if_neg hbc]
      rfl

/-- The cells of four matrices, two beside each other and two below these. -/
theorem cell_blocks (hcols : a.cols + b.cols = c.cols + d.cols) (hi : i < a.rows + c.rows)
    (hj : j < a.cols + b.cols) :
    (joined .below (joined .beside a b) (joined .beside c d)).cell i j =
      spliced a.rows (fun i => spliced a.cols (a.cell i) (b.cell i) j)
        (fun i => spliced c.cols (c.cell i) (d.cell i) j) i :=
  calc
    _ = spliced a.rows ((joined .beside a b).cell · j) ((joined .beside c d).cell · j) i :=
      cell_below (a := joined .beside a b) hi hj
    _ = _ :=
      spliced_congr hi (fun _ hk => cell_beside hk hj) fun _ hk => cell_beside hk (hcols ▸ hj)

/-- **Two joins beside each other, one below the other, are two joins below each other, one beside
the other.** -/
theorem joined_joined (ha : a.Valid) (hab : a.rows = b.rows) (hcd : c.rows = d.rows)
    (hac : a.cols = c.cols) (hbd : b.cols = d.cols) :
    joined .below (joined .beside a b) (joined .beside c d) =
      joined .beside (joined .below a c) (joined .below b d) := by
  refine (valid_joined (valid_joined ha)).ext (valid_joined (valid_joined ha)) rfl rfl ?_
  intro i (hi : i < a.rows + c.rows) j (hj : j < a.cols + b.cols)
  calc
    _ = spliced a.rows (fun i => spliced a.cols (a.cell i) (b.cell i) j)
          (fun i => spliced c.cols (c.cell i) (d.cell i) j) i :=
      cell_blocks (by omega) hi hj
    _ = spliced a.cols (fun j => spliced a.rows (a.cell · j) (c.cell · j) i)
          (fun j => spliced b.rows (b.cell · j) (d.cell · j) i) j := by
      rw [← hac, ← hab]
      exact spliced_spliced a.cell b.cell c.cell d.cell
    _ = spliced a.cols ((joined .below a c).cell i) ((joined .below b d).cell i) j :=
      spliced_congr hj (fun _ hk => (cell_below hi hk).symm)
        fun _ hk => (cell_below (by omega) hk).symm
    _ = _ := (cell_beside (a := joined .below a c) (b := joined .below b d) hi hj).symm

/-! ## Repetition -/

/-- A number of copies of a matrix, joined. -/
def repeated (side : Side) (m : Matrix) (n : Nat) : Matrix :=
  ofLines side (edge side m) (reach side m * n) fun i k => line side m i (k % reach side m)

theorem valid_repeated (hm : m.Valid) (hn : 0 < n) : (repeated side m n).Valid :=
  valid_ofLines hm.edge_pos (Nat.mul_pos hm.reach_pos hn) _

@[simp] theorem edge_repeated : edge side (repeated side m n) = edge side m :=
  edge_ofLines _

@[simp] theorem reach_repeated : reach side (repeated side m n) = reach side m * n :=
  reach_ofLines _

theorem line_repeated (hi : i < edge side m) (hk : k < reach side m * n) :
    line side (repeated side m n) i k = line side m i (k % reach side m) :=
  line_ofLines hi hk _

/-- Only one of the two coordinates ever comes round. -/
theorem repeated_eq_tabulate (side : Side) (m : Matrix) (n : Nat) : repeated side m n =
    tabulate (repeatedShape side m n).rows (repeatedShape side m n).cols fun i j =>
      m.cell (i % m.rows) (j % m.cols) := by
  cases side with
  | beside =>
    show tabulate m.rows (m.cols * n) (fun i j => m.cell i (j % m.cols)) = _
    refine tabulate_congr fun i hi j _ => ?_
    rw [Nat.mod_eq_of_lt hi]
  | below =>
    show tabulate (m.rows * n) m.cols (fun i j => m.cell (i % m.rows) j) = _
    refine tabulate_congr fun i _ j hj => ?_
    rw [Nat.mod_eq_of_lt hj]

/-- **Exchanging rows and columns of copies of a matrix.** -/
theorem transpose_repeated (hm : m.Valid) (hn : 0 < n) :
    (repeated side m n).transpose = repeated side.exchanged m.transpose n := by
  refine (valid_repeated hm hn).transpose.ext_line (valid_repeated hm.transpose hn)
    side.exchanged ?_ ?_ ?_
  · simp only [edge_transpose, edge_repeated]
  · simp only [reach_transpose, reach_repeated]
  intro i hi k hk
  simp only [edge_transpose, reach_transpose, edge_repeated, reach_repeated] at hi hk
  rw [line_transpose (by rwa [edge_repeated]) (by rwa [reach_repeated]), line_repeated hi hk,
    line_repeated (by rwa [edge_transpose]) (by rwa [reach_transpose]), reach_transpose,
    line_transpose hi (Nat.mod_lt _ hm.reach_pos)]

theorem cells_repeatedShape (side : Side) (m : Matrix) (n : Nat) :
    (repeatedShape side m n).rows * (repeatedShape side m n).cols = m.rows * m.cols * n := by
  cases side with
  | beside => exact (Nat.mul_assoc _ _ _).symm
  | below => exact Nat.mul_right_comm _ _ _

theorem repeatedShape_pos (hm : m.Valid) (side : Side) (hn : 0 < n) :
    0 < (repeatedShape side m n).rows ∧ 0 < (repeatedShape side m n).cols := by
  cases side with
  | beside => exact ⟨hm.rows_pos, Nat.mul_pos hm.cols_pos hn⟩
  | below => exact ⟨Nat.mul_pos hm.rows_pos hn, hm.cols_pos⟩

/-- **Repeating succeeds exactly for at least one copy and not too many cells**: a dimension that is
too large makes too many cells. -/
theorem replicate_eq_ok_iff (hm : m.Valid) {times : Matrix} : m.replicate side times = .ok c ↔
    ∃ count : Int64, times.asInteger "Repetition count" = .ok count ∧ 1 ≤ count.toInt ∧
      m.rows * m.cols * count.toInt.toNat ≤ maxCells ∧
        repeated side m count.toInt.toNat = c := by
  delta replicate
  cases times.asInteger "Repetition count" with
  | error e => exact iff_of_false (by rintro ⟨⟩) (by rintro ⟨_, ⟨⟩, _⟩)
  | ok count =>
    simp only [ok_bind, Except.ok.injEq, exists_eq_left', repeated_eq_tabulate,
      ← cells_repeatedShape side]
    generalize hshape : repeatedShape side m count.toInt.toNat = shape
    by_cases hcount : count.toInt < 1
    · rw [if_pos hcount]
      exact iff_of_false (by rintro ⟨⟩) (by omega)
    rw [if_neg hcount]
    -- The limit of a dimension is far above that of the cells, and neither dimension is zero.
    by_cases hsize : shape.rows * shape.cols ≤ maxCells
    · have hcopies : 0 < count.toInt.toNat := by omega
      obtain ⟨hrows, hcols⟩ := hshape ▸ repeatedShape_pos hm side hcopies
      have hrow : shape.rows ≤ shape.rows * shape.cols := Nat.le_mul_of_pos_right _ hcols
      have hcol : shape.cols ≤ shape.rows * shape.cols := Nat.le_mul_of_pos_left _ hrows
      have hmax : maxCells < UInt64.size := by decide
      rw [if_neg (by omega), checkSize, if_pos hsize]
      constructor
      · rintro ⟨⟩
        exact ⟨by omega, hsize, rfl⟩
      · rintro ⟨-, -, rfl⟩
        rfl
    · refine iff_of_false ?_ fun h => hsize h.2.1
      rw [checkSize, if_neg hsize]
      split
      · rintro ⟨⟩
      · rintro ⟨⟩

/-- Repeating a matrix after its rows and columns are exchanged. -/
theorem replicate_transpose (hm : m.Valid) (side : Side) (times : Matrix) :
    (m.transpose.replicate side.exchanged times).toOption =
      (m.replicate side times).toOption.map transpose := by
  refine Option.ext fun c => ?_
  rw [toOption_eq_some_iff, replicate_eq_ok_iff hm.transpose, Option.map_eq_some_iff]
  have hcells (n : Nat) : m.transpose.rows * m.transpose.cols * n = m.rows * m.cols * n :=
    congrArg (· * n) (Nat.mul_comm m.cols m.rows)
  constructor
  · rintro ⟨count, hcount, hone, hsize, rfl⟩
    refine ⟨repeated side m count.toInt.toNat, ?_, transpose_repeated hm (by omega)⟩
    rw [toOption_eq_some_iff, replicate_eq_ok_iff hm]
    exact ⟨count, hcount, hone, hcells _ ▸ hsize, rfl⟩
  · rintro ⟨c', hc', rfl⟩
    rw [toOption_eq_some_iff, replicate_eq_ok_iff hm] at hc'
    obtain ⟨count, hcount, hone, hsize, rfl⟩ := hc'
    exact ⟨count, hcount, hone, (hcells _).symm ▸ hsize, (transpose_repeated hm (by omega)).symm⟩

/-! ## The laws of joining -/

/-- **Exchanging rows and columns twice changes nothing, and once it exchanges the two ways to
join**: joining or repeating the exchanged matrices on the other side fails where it failed before,
and otherwise gives the exchanged result. -/
theorem transpose_exchanges_joins {a b : Matrix} (ha : a.Valid) (hb : b.Valid) :
    a.transpose.transpose = a ∧
    (∀ side, (a.transpose.concat side.exchanged b.transpose).toOption =
      (a.concat side b).toOption.map transpose) ∧
    ∀ side times, (a.transpose.replicate side.exchanged times).toOption =
      (a.replicate side times).toOption.map transpose :=
  ⟨transpose_transpose ha, concat_transpose ha hb, replicate_transpose ha⟩

/-- Two rows, which can be joined beside each other and not below. -/
theorem transpose_exchanges_joins_twoRows :
    ∃ a b : Matrix, a.Valid ∧ b.Valid ∧ a.transpose.transpose = a ∧
      (a.transpose.concat .below b.transpose).toOption =
        some (transpose ⟨1, 3, #[1, 2, 3]⟩) ∧
      (a.transpose.concat .beside b.transpose).toOption = none ∧
      (a.transpose.replicate .below (scalar 2)).toOption =
        some (transpose ⟨1, 4, #[1, 2, 1, 2]⟩) := by
  have ha : (⟨1, 2, #[1, 2]⟩ : Matrix).Valid := ⟨by decide, by decide, rfl⟩
  have hb : (⟨1, 1, #[3]⟩ : Matrix).Valid := ⟨by decide, by decide, rfl⟩
  have hbeside : (concat .beside ⟨1, 2, #[1, 2]⟩ ⟨1, 1, #[3]⟩).toOption =
      some ⟨1, 3, #[1, 2, 3]⟩ := rfl
  have hbelow : (concat .below ⟨1, 2, #[1, 2]⟩ ⟨1, 1, #[3]⟩).toOption = none := rfl
  have htimes : (replicate .beside ⟨1, 2, #[1, 2]⟩ (scalar 2)).toOption =
      some ⟨1, 4, #[1, 2, 1, 2]⟩ := rfl
  obtain ⟨htwice, hconcat, hreplicate⟩ := transpose_exchanges_joins ha hb
  refine ⟨_, _, ha, hb, htwice, ?_, ?_, ?_⟩
  · exact (hconcat .beside).trans (congrArg (Option.map transpose) hbeside)
  · exact (hconcat .below).trans (congrArg (Option.map transpose) hbelow)
  · exact (hreplicate .beside (scalar 2)).trans (congrArg (Option.map transpose) htimes)

/-- **Joins are blocks.**  On either side they can be grouped in both ways, which fail together or
give the same matrix.  Four matrices that fit can be joined beside each other first or below each
other first: the result is the same, and has each of them in its quarter. -/
theorem joins_are_blocks {a b c d : Matrix} (ha : a.Valid) (hb : b.Valid) (hc : c.Valid)
    (hd : d.Valid) :
    (∀ side, (a.concat side b >>= fun ab => ab.concat side c).toOption =
      (b.concat side c >>= fun bc => a.concat side bc).toOption) ∧
    (a.rows = b.rows → c.rows = d.rows → a.cols = c.cols → b.cols = d.cols → ∃ v : Matrix,
      (do let ab ← a.concat .beside b; let cd ← c.concat .beside d; ab.concat .below cd) = .ok v ∧
      (do let ac ← a.concat .below c; let bd ← b.concat .below d; ac.concat .beside bd) = .ok v ∧
      v.Valid ∧ v.shape = ⟨a.rows + c.rows, a.cols + b.cols⟩ ∧
      ∀ i < v.rows, ∀ j < v.cols, v.cell i j =
        if i < a.rows then if j < a.cols then a.cell i j else b.cell i (j - a.cols)
        else if j < a.cols then c.cell (i - a.rows) j
        else d.cell (i - a.rows) (j - a.cols)) := by
  refine ⟨concat_concat ha hb hc, fun hab hcd hac hbd => ?_⟩
  have hrow : a.cols + b.cols = c.cols + d.cols := by rw [hac, hbd]
  have hcol : a.rows + c.rows = b.rows + d.rows := by rw [hab, hcd]
  refine ⟨joined .below (joined .beside a b) (joined .beside c d), ?_, ?_,
    valid_joined (valid_joined ha), rfl, ?_⟩
  · rw [concat_of_edge .beside ha hb hab, ok_bind, concat_of_edge .beside hc hd hcd, ok_bind]
    exact concat_of_edge .below (valid_joined ha) (valid_joined hc) hrow
  · rw [concat_of_edge .below ha hc hac, ok_bind, concat_of_edge .below hb hd hbd, ok_bind,
      joined_joined ha hab hcd hac hbd]
    exact concat_of_edge .beside (valid_joined ha) (valid_joined hb) hcol
  · intro i (hi : i < a.rows + c.rows) j (hj : j < a.cols + b.cols)
    rw [cell_blocks hrow hi hj, ← hac]
    rfl

/-- Four matrices around a corner that is not in the middle. -/
theorem joins_are_blocks_corner :
    ∃ a b c d v : Matrix, (a.Valid ∧ b.Valid ∧ c.Valid ∧ d.Valid) ∧
      (a.rows = b.rows ∧ c.rows = d.rows ∧ a.cols = c.cols ∧ b.cols = d.cols) ∧
      (a.concat .beside b >>= fun ab => ab.concat .beside c).toOption = none ∧
      (do let ac ← a.concat .below c; let bd ← b.concat .below d; ac.concat .beside bd) = .ok v ∧
      v.shape = ⟨3, 3⟩ ∧ v.cell 2 2 = d.cell 1 1 := by
  let a : Matrix := ⟨1, 1, #[1]⟩
  let b : Matrix := ⟨1, 2, #[2, 3]⟩
  let c : Matrix := ⟨2, 1, #[4, 5]⟩
  let d : Matrix := ⟨2, 2, #[6, 7, 8, 9]⟩
  have ha : a.Valid := ⟨by decide, by decide, rfl⟩
  have hb : b.Valid := ⟨by decide, by decide, rfl⟩
  have hc : c.Valid := ⟨by decide, by decide, rfl⟩
  have hd : d.Valid := ⟨by decide, by decide, rfl⟩
  obtain ⟨hgroup, hblocks⟩ := joins_are_blocks ha hb hc hd
  obtain ⟨v, -, hv, -, hshape, hcells⟩ := hblocks rfl rfl rfl rfl
  have hrows : v.rows = 3 := congrArg Shape.rows hshape
  have hcols : v.cols = 3 := congrArg Shape.cols hshape
  exact ⟨a, b, c, d, v, ⟨ha, hb, hc, hd⟩, ⟨rfl, rfl, rfl, rfl⟩, (hgroup .beside).trans rfl, hv,
    hshape, hcells 2 (by omega) 2 (by omega)⟩

end Matrix

end MatrixLang
