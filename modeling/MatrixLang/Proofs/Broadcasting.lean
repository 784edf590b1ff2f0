import MatrixLang.Proofs.Cells

/-! # Broadcasting

Arithmetic and comparison take two matrices apart in different ways, but follow one rule.  Two
matrices go together if one of them is a number or both have the same shape (`Compatible`), and the
cells that meet are those at the same place, a number being at every place (`spread`).  An operation
combines the cells that meet (`broadcast_eq`), and a relation holds if it holds between all of them
(`everywhere_iff`).
-/

namespace MatrixLang.Matrix

variable {a b m : Matrix}

/-! ## Cells in a row -/

theorem Valid.data_eq (h : m.Valid) :
    m.data = ((places m.rows m.cols).map fun p => m.cell p.1 p.2).toArray := by
  rw [← data_tabulate, tabulate_cell h]

theorem map_eq_tabulate (h : m.Valid) (f : Float → Float) :
    m.map f = tabulate m.rows m.cols fun i j => f (m.cell i j) := by
  have hdata : m.data.map f = (tabulate m.rows m.cols fun i j => f (m.cell i j)).data := by
    rw [data_tabulate, h.data_eq, List.map_toArray, List.map_map]
    rfl
  rw [map, hdata]
  rfl

/-- Two matrices of one shape, cell by cell. -/
theorem zipWith_data {β : Type} (ha : a.Valid) (hb : b.Valid) (hshape : a.shape = b.shape)
    (f : Float → Float → β) : Array.zipWith f a.data b.data =
      ((places a.rows a.cols).map fun p => f (a.cell p.1 p.2) (b.cell p.1 p.2)).toArray := by
  obtain ⟨hrows, hcols⟩ := Shape.mk.inj hshape
  rw [ha.data_eq, hb.data_eq, ← hrows, ← hcols, List.zipWith_toArray, List.zipWith_map,
    List.zipWith_self]

theorem zip_eq_tabulate (ha : a.Valid) (hb : b.Valid) (hshape : a.shape = b.shape)
    (f : Float → Float → Float) : (⟨a.rows, a.cols, Array.zipWith f a.data b.data⟩ : Matrix) =
      tabulate a.rows a.cols fun i j => f (a.cell i j) (b.cell i j) := by
  have hdata : Array.zipWith f a.data b.data =
      (tabulate a.rows a.cols fun i j => f (a.cell i j) (b.cell i j)).data := by
    rw [data_tabulate, zipWith_data ha hb hshape]
  rw [hdata]
  rfl

theorem all_places_iff {α : Type} {rows cols : Nat} (f : Nat → Nat → α) (p : α → Bool) :
    ((places rows cols).map fun q => f q.1 q.2).toArray.all p = true ↔
      ∀ i < rows, ∀ j < cols, p (f i j) = true := by
  rw [List.all_toArray, List.all_map, List.all_eq_true]
  constructor
  · intro hall i hi j hj
    exact hall (i, j) (mem_places.mpr ⟨hi, hj⟩)
  · intro hall q hq
    obtain ⟨hi, hj⟩ := mem_places.mp hq
    exact hall q.1 hi q.2 hj

theorem all_data_iff (h : m.Valid) (p : Float → Bool) :
    m.data.all p = true ↔ ∀ i < m.rows, ∀ j < m.cols, p (m.cell i j) = true := by
  rw [h.data_eq, all_places_iff m.cell]

theorem all_zipWith_iff (ha : a.Valid) (hb : b.Valid) (hshape : a.shape = b.shape)
    (rel : Float → Float → Bool) : (Array.zipWith rel a.data b.data).all id = true ↔
      ∀ i < a.rows, ∀ j < a.cols, rel (a.cell i j) (b.cell i j) = true := by
  rw [zipWith_data ha hb hshape, all_places_iff fun i j => rel (a.cell i j) (b.cell i j)]
  rfl

/-! ## The rule -/

/-- One of the two is a number, or both have the same shape. -/
def Compatible (a b : Matrix) : Prop :=
  a.isScalar = true ∨ b.isScalar = true ∨ a.shape = b.shape

instance : Decidable (Compatible a b) :=
  inferInstanceAs (Decidable (_ ∨ _))

/-- The shape of the one that is not a number. -/
def jointShape (a b : Matrix) : Shape :=
  if a.isScalar then b.shape else a.shape

/-- The cell that is met in row `i` and column `j`. -/
def spread (m : Matrix) (i j : Nat) : Float :=
  if m.isScalar then m.cell 0 0 else m.cell i j

/-- The matrix of a given shape with one number in every cell. -/
def constant (shape : Shape) (x : Float) : Matrix :=
  tabulate shape.rows shape.cols fun _ _ => x

/-- The cells that meet, combined. -/
def combined (f : Float → Float → Float) (a b : Matrix) : Matrix :=
  tabulate (jointShape a b).rows (jointShape a b).cols fun i j => f (a.spread i j) (b.spread i j)

theorem not_compatible_iff :
    ¬ Compatible a b ↔ ¬ a.isScalar ∧ ¬ b.isScalar ∧ a.shape ≠ b.shape := by
  rw [Compatible, not_or, not_or]

theorem Compatible.symm (h : Compatible a b) : Compatible b a := by
  rcases h with ha | hb | hshape
  · exact .inr (.inl ha)
  · exact .inl hb
  · exact .inr (.inr hshape.symm)

theorem shape_of_isScalar (h : m.isScalar = true) : m.shape = ⟨1, 1⟩ := by
  obtain ⟨hrows, hcols⟩ := isScalar_iff.mp h
  rw [shape, hrows, hcols]

theorem jointShape_of_left (h : a.isScalar = true) : jointShape a b = b.shape :=
  if_pos h

theorem jointShape_of_right (h : b.isScalar = true) : jointShape a b = a.shape := by
  rw [jointShape]
  split
  · rename_i ha
    rw [shape_of_isScalar ha, shape_of_isScalar h]
  · rfl

theorem jointShape_of_shape (h : a.shape = b.shape) : jointShape a b = a.shape := by
  rw [jointShape, ← h, ite_self]

theorem jointShape_comm (h : Compatible a b) : jointShape a b = jointShape b a := by
  rcases h with ha | hb | hshape
  · rw [jointShape_of_left ha, jointShape_of_right ha]
  · rw [jointShape_of_right hb, jointShape_of_left hb]
  · rw [jointShape_of_shape hshape, jointShape_of_shape hshape.symm, hshape]

theorem jointShape_pos (ha : a.Valid) (hb : b.Valid) :
    0 < (jointShape a b).rows ∧ 0 < (jointShape a b).cols := by
  rw [jointShape]
  split
  · exact ⟨hb.rows_pos, hb.cols_pos⟩
  · exact ⟨ha.rows_pos, ha.cols_pos⟩

theorem spread_of_isScalar (h : m.isScalar = true) (i j : Nat) : m.spread i j = m.cell 0 0 :=
  if_pos h

/-- Within a matrix its own cells are met. -/
theorem spread_eq_cell {i j : Nat} (hi : i < m.rows) (hj : j < m.cols) :
    m.spread i j = m.cell i j := by
  rw [spread]
  split
  · rename_i h
    obtain ⟨hrows, hcols⟩ := isScalar_iff.mp h
    obtain rfl : i = 0 := by omega
    obtain rfl : j = 0 := by omega
    rfl
  · rfl

/-! ## Arithmetic -/

/-- **An operation combines the cells that meet**, if the two matrices go together. -/
theorem broadcast_eq (ha : a.Valid) (hb : b.Valid) (operation : String)
    (f : Float → Float → Float) : broadcast operation f a b =
      if Compatible a b then .ok (combined f a b)
      else .error (.shapeMismatch operation a.shape b.shape) := by
  rw [broadcast]
  -- Two numbers fall into the second case: the first asks that only the left one is a number.
  split
  · rename_i h
    rw [if_pos (.inl h.1), combined, jointShape_of_left h.1, map_eq_tabulate hb]
    refine congrArg Except.ok (tabulate_congr fun i hi j hj => ?_)
    rw [spread_of_isScalar h.1, spread_eq_cell hi hj]
  split
  · rename_i hscalar
    rw [if_pos (.inr (.inl hscalar)), combined, jointShape_of_right hscalar, map_eq_tabulate ha]
    refine congrArg Except.ok (tabulate_congr fun i hi j hj => ?_)
    rw [spread_of_isScalar hscalar, spread_eq_cell hi hj]
  split
  · rename_i hshape
    rw [if_pos (.inr (.inr hshape)), zip_eq_tabulate ha hb hshape, combined,
      jointShape_of_shape hshape]
    refine congrArg Except.ok (tabulate_congr fun i hi j hj => ?_)
    obtain ⟨hrows, hcols⟩ := Shape.mk.inj hshape
    rw [spread_eq_cell hi hj, spread_eq_cell (hrows ▸ hi) (hcols ▸ hj)]
  · rename_i hleft hright hshape
    rw [if_neg (not_compatible_iff.mpr ⟨fun h => hleft ⟨h, hright⟩, hright, hshape⟩)]
    rfl

theorem broadcast_succeeds_iff (ha : a.Valid) (hb : b.Valid) (operation : String)
    (f : Float → Float → Float) :
    (∃ c, broadcast operation f a b = .ok c) ↔ Compatible a b := by
  rw [broadcast_eq ha hb]
  by_cases h : Compatible a b
  · rw [if_pos h]
    exact iff_of_true ⟨_, rfl⟩ h
  · rw [if_neg h]
    exact iff_of_false (by rintro ⟨c, ⟨⟩⟩) h

theorem broadcast_fails_iff (ha : a.Valid) (hb : b.Valid) (operation : String)
    (f : Float → Float → Float) :
    (∃ e, broadcast operation f a b = .error e) ↔ ¬ Compatible a b := by
  rw [broadcast_eq ha hb]
  by_cases h : Compatible a b
  · rw [if_pos h]
    exact iff_of_false (by rintro ⟨e, ⟨⟩⟩) (not_not_intro h)
  · rw [if_neg h]
    exact iff_of_true ⟨_, rfl⟩ h

theorem shape_constant (shape : Shape) (x : Float) : (constant shape x).shape = shape := rfl

theorem spread_constant {shape : Shape} {i j : Nat} (hi : i < shape.rows) (hj : j < shape.cols)
    (x : Float) : (constant shape x).spread i j = x :=
  (spread_eq_cell hi hj).trans (cell_tabulate hi hj _)

/-- A number on the left acts as a matrix that has it in every cell. -/
theorem broadcast_constant_left (ha : a.Valid) (hb : b.Valid) (h : a.isScalar = true)
    (operation : String) (f : Float → Float → Float) :
    broadcast operation f a b = broadcast operation f (constant b.shape (a.cell 0 0)) b := by
  have hvalid : (constant b.shape (a.cell 0 0)).Valid := valid_tabulate hb.rows_pos hb.cols_pos _
  rw [broadcast_eq ha hb, broadcast_eq hvalid hb, if_pos (.inl h), if_pos (.inr (.inr rfl)),
    combined, combined, jointShape_of_left h, jointShape_of_shape (shape_constant _ _),
    shape_constant]
  refine congrArg Except.ok (tabulate_congr fun i hi j hj => ?_)
  rw [spread_of_isScalar h, spread_constant hi hj]

/-- A number on the right acts as a matrix that has it in every cell. -/
theorem broadcast_constant_right (ha : a.Valid) (hb : b.Valid) (h : b.isScalar = true)
    (operation : String) (f : Float → Float → Float) :
    broadcast operation f a b = broadcast operation f a (constant a.shape (b.cell 0 0)) := by
  have hvalid : (constant a.shape (b.cell 0 0)).Valid := valid_tabulate ha.rows_pos ha.cols_pos _
  rw [broadcast_eq ha hb, broadcast_eq ha hvalid, if_pos (.inr (.inl h)), if_pos (.inr (.inr rfl)),
    combined, combined, jointShape_of_right h, jointShape_of_shape (shape_constant _ _).symm]
  refine congrArg Except.ok (tabulate_congr fun i hi j hj => ?_)
  rw [spread_of_isScalar h, spread_constant hi hj]

/-! ## Comparison -/

/-- **A relation holds if it holds between all cells that meet**, and the two matrices go
together. -/
theorem everywhere_iff (ha : a.Valid) (hb : b.Valid) (rel : Float → Float → Bool) :
    everywhere rel a b = true ↔ Compatible a b ∧
      ∀ i < (jointShape a b).rows, ∀ j < (jointShape a b).cols,
        rel (a.spread i j) (b.spread i j) = true := by
  rw [everywhere]
  split
  · rename_i h
    rw [jointShape_of_left h, all_data_iff hb, and_iff_right (.inl h)]
    refine forall₂_congr fun i hi => forall₂_congr fun j hj => ?_
    rw [spread_of_isScalar h, spread_eq_cell hi hj]
  split
  · rename_i h
    rw [jointShape_of_right h, all_data_iff ha, and_iff_right (.inr (.inl h))]
    refine forall₂_congr fun i hi => forall₂_congr fun j hj => ?_
    rw [spread_of_isScalar h, spread_eq_cell hi hj]
  · rename_i hleft hright
    have hcompatible : Compatible a b ↔ a.shape = b.shape := by
      rw [Compatible, or_iff_right hleft, or_iff_right hright]
    rw [Bool.and_eq_true, beq_iff_eq, hcompatible]
    refine and_congr_right fun hshape => ?_
    obtain ⟨hrows, hcols⟩ := Shape.mk.inj hshape
    rw [all_zipWith_iff ha hb hshape, jointShape_of_shape hshape]
    refine forall₂_congr fun i hi => forall₂_congr fun j hj => ?_
    rw [spread_eq_cell hi hj, spread_eq_cell (hrows ▸ hi) (hcols ▸ hj)]

/-- The converse relation holds the other way round. -/
theorem everywhere_swap (ha : a.Valid) (hb : b.Valid) (rel : Float → Float → Bool) :
    everywhere rel a b = everywhere (fun x y => rel y x) b a := by
  rw [Bool.eq_iff_iff, everywhere_iff ha hb, everywhere_iff hb ha]
  constructor
  · rintro ⟨h, hall⟩
    exact ⟨h.symm, jointShape_comm h ▸ hall⟩
  · rintro ⟨h, hall⟩
    exact ⟨h.symm, jointShape_comm h ▸ hall⟩

/-- **Arithmetic and comparison follow one rule.**  Combining two matrices fails exactly if neither
is a number and their shapes differ.  Otherwise the result has the shape of the one that is not a
number, and each cell comes from a cell on the left and one on the right, in this order.  A number
acts as a matrix of the other's shape that has it in every cell.  A relation holds exactly if the
two can be combined and it holds between all cells that meet; so smaller one way round is larger the
other way round. -/
theorem broadcasting_rule {a b : Matrix} (ha : a.Valid) (hb : b.Valid) :
    (∀ operation f,
      ((∃ e, broadcast operation f a b = .error e) ↔
        ¬ a.isScalar ∧ ¬ b.isScalar ∧ a.shape ≠ b.shape) ∧
      (∀ c, broadcast operation f a b = .ok c → c.Valid ∧ c.shape = jointShape a b ∧
        ∀ i < c.rows, ∀ j < c.cols, c.cell i j = f (a.spread i j) (b.spread i j)) ∧
      (a.isScalar → broadcast operation f a b =
        broadcast operation f (constant b.shape (a.cell 0 0)) b) ∧
      (b.isScalar → broadcast operation f a b =
        broadcast operation f a (constant a.shape (b.cell 0 0))) ∧
      ∀ rel, everywhere rel a b = true ↔ (∃ c, broadcast operation f a b = .ok c) ∧
        ∀ i < (jointShape a b).rows, ∀ j < (jointShape a b).cols,
          rel (a.spread i j) (b.spread i j) = true) ∧
    a.less b = b.greater a ∧ a.lessEqual b = b.greaterEqual a := by
  refine ⟨fun operation f => ⟨?_, ?_, ?_, ?_, ?_⟩, ?_, ?_⟩
  · rw [broadcast_fails_iff ha hb, not_compatible_iff]
  · intro c hc
    rw [broadcast_eq ha hb] at hc
    split at hc
    · cases hc
      obtain ⟨hrows, hcols⟩ := jointShape_pos ha hb
      exact ⟨valid_tabulate hrows hcols _, rfl, fun i hi j hj => cell_tabulate hi hj _⟩
    · cases hc
  · exact fun h => broadcast_constant_left ha hb h operation f
  · exact fun h => broadcast_constant_right ha hb h operation f
  · intro rel
    rw [everywhere_iff ha hb, broadcast_succeeds_iff ha hb]
  · exact congrArg ofBool (everywhere_swap ha hb _)
  · exact congrArg ofBool (everywhere_swap ha hb _)

/-- A row is taken off a number, and compared with it. -/
theorem broadcasting_rule_numberFirst :
    ∃ row : Matrix, (scalar 5).Valid ∧ row.Valid ∧ (scalar 5).isScalar = true ∧
      (∃ c, (scalar 5).subtract row = .ok c ∧ c.shape = ⟨1, 3⟩ ∧ c.cell 0 2 = 5 - 4) ∧
      row.subtract (scalar 5) = row.subtract (constant ⟨1, 3⟩ 5) ∧
      row.less (scalar 5) = (scalar 5).greater row := by
  let row : Matrix := ⟨1, 3, #[2, 3, 4]⟩
  have hrow : row.Valid := ⟨by decide, by decide, rfl⟩
  have hnumber : (scalar 5).Valid := valid_scalar 5
  obtain ⟨hleft, -⟩ := broadcasting_rule hnumber hrow
  obtain ⟨hright, hless, -⟩ := broadcasting_rule hrow hnumber
  obtain ⟨hfails, hcells, -⟩ := hleft "subtraction" (· - ·)
  obtain ⟨-, -, -, hconstant, -⟩ := hright "subtraction" (· - ·)
  refine ⟨row, hnumber, hrow, rfl, ?_, hconstant rfl, hless⟩
  cases hresult : (scalar 5).subtract row with
  | error e => exact absurd rfl (hfails.mp ⟨e, hresult⟩).1
  | ok c =>
    obtain ⟨-, hshape, hcell⟩ := hcells c hresult
    have hrows : c.rows = 1 := congrArg Shape.rows hshape
    have hcols : c.cols = 3 := congrArg Shape.cols hshape
    exact ⟨c, rfl, hshape, hcell 0 (by omega) 2 (by omega)⟩

end MatrixLang.Matrix
