import MatrixLang.Proofs.FullConvolution
import Mathlib.Algebra.BigOperators.Group.List.Basic
import Mathlib.Algebra.Ring.Int.Defs

/-! # The image filter and the full convolution

The image filter lays the middle of a kernel on every cell of the source.  The full convolution
turns the kernel by half a turn and lets it hang over the edges.  Where missing cells are zeros, the
filter is therefore the middle of the full convolution with the kernel turned back: the two multiply
the same pairs of cells (`perm_filterTerms`), and add them up in different orders.

With doubles the order matters.  To say that nothing else does, both convolutions are computed here
with any numbers at all (`Arithmetic`): `fullCell` and `filterCell` are the cells of the ones that
run when the numbers are doubles, they add up the same pairs whatever the numbers are, and they are
equal when the numbers are exact.
-/

namespace MatrixLang

/-! ## Numbers of any kind -/

/-- Numbers to compute with.  No law is asked of them. -/
structure Arithmetic (α : Type) where
  zero : α
  add : α → α → α
  mul : α → α → α

namespace Arithmetic

variable {α : Type}

/-- The numbers of the language. -/
def doubles : Arithmetic Float :=
  ⟨0, (· + ·), (· * ·)⟩

/-- Exact numbers: a sum does not depend on its order, and a product with zero is zero. -/
def exact (R : Type) [NonUnitalNonAssocSemiring R] : Arithmetic R :=
  ⟨0, (· + ·), (· * ·)⟩

/-- The sum from left to right, from zero on. -/
def sum (n : Arithmetic α) (xs : List α) : α :=
  xs.foldl n.add n.zero

theorem sum_exact {R : Type} [NonUnitalNonAssocSemiring R] (xs : List R) :
    (exact R).sum xs = xs.sum :=
  List.sum_eq_foldl.symm

end Arithmetic

namespace Matrix

section

variable {α : Type} (n : Arithmetic α) (shape kernel : Shape) (source weight : Nat → Nat → α)

/-- A cell of the full convolution of a source and a kernel with any numbers. -/
def fullCell (i j : Nat) : α :=
  (offsets i shape.rows kernel.rows).foldl (fun sum k =>
    (offsets j shape.cols kernel.cols).foldl (fun sum l =>
      n.add sum (n.mul (source (i - k) (j - l)) (weight k l))) sum) n.zero

/-- The cell at a row and column that count from one, or zero if they lie outside. -/
def cellOrZero (row col : Int64) : α :=
  if row.toInt < 1 ∨ col.toInt < 1 ∨ shape.rows < row.toInt ∨ shape.cols < col.toInt then n.zero
  else source (row.toInt - 1).toNat (col.toInt - 1).toNat

/-- A cell of a source with any numbers that is filtered with a kernel. -/
def filterCell (i j : Nat) : α :=
  (List.range kernel.rows).foldl (fun sum k =>
    (List.range kernel.cols).foldl (fun sum l =>
      n.add sum (n.mul (cellOrZero n shape source (sourceIndex i k kernel.rows)
        (sourceIndex j l kernel.cols)) (weight k l))) sum) n.zero

/-- Half a turn. -/
def turned : Nat → Nat → α :=
  fun i j => weight (kernel.rows - 1 - i) (kernel.cols - 1 - j)

end

/-- A matrix after half a turn. -/
def rotated (m : Matrix) : Matrix :=
  tabulate m.rows m.cols (turned m.shape m.cell)

theorem convolveFull_eq_tabulate (m kernel : Matrix) : m.convolveFull kernel =
    tabulate (m.rows + kernel.rows - 1) (m.cols + kernel.cols - 1)
      (fullCell .doubles m.shape kernel.shape m.cell kernel.cell) :=
  rfl

theorem convolveSame_eq_tabulate (m kernel : Matrix) : m.convolveSame kernel .zero =
    tabulate m.rows m.cols (filterCell .doubles m.shape kernel.shape m.cell kernel.cell) :=
  rfl

/-! ## Pairs of cells -/

/-- The product of the two cells of a term. -/
def Term.product {α : Type} (n : Arithmetic α) (source weight : Nat → Nat → α) (t : Term) : α :=
  n.mul (source t.source.1 t.source.2) (weight t.kernel.1 t.kernel.2)

/-- The same cells, where the one of the kernel is named after half a turn. -/
def Term.turn (kernel : Shape) (t : Term) : Term :=
  ⟨t.source, (kernel.rows - 1 - t.kernel.1, kernel.cols - 1 - t.kernel.2)⟩

variable {m kernel : Matrix} {i j : Nat}

/-- The cell of the source, if there is one, that lies under place `p` of a kernel whose middle is
laid on row `i` and column `j`. -/
def under (m kernel : Matrix) (i j : Nat) (p : Nat × Nat) : Option (Nat × Nat) :=
  let row : Int := i + p.1 - (kernel.rows / 2 : Nat)
  let col : Int := j + p.2 - (kernel.cols / 2 : Nat)
  if (0 ≤ row ∧ row < m.rows) ∧ (0 ≤ col ∧ col < m.cols) then some (row.toNat, col.toNat) else none

/-- The pairs of cells that are multiplied for row `i` and column `j` of the filtered source. -/
def filterTerms (m kernel : Matrix) (i j : Nat) : List Term :=
  (places kernel.rows kernel.cols).filterMap fun p => (under m kernel i j p).map (⟨·, p⟩)

theorem under_eq_some_iff {p s : Nat × Nat} : under m kernel i j p = some s ↔
    (s.1 < m.rows ∧ s.2 < m.cols) ∧
      s.1 + kernel.rows / 2 = i + p.1 ∧ s.2 + kernel.cols / 2 = j + p.2 := by
  obtain ⟨r, c⟩ := s
  rw [under]
  dsimp only
  split
  · rw [Option.some_inj, Prod.mk.injEq]
    omega
  · refine iff_of_false (by rintro ⟨⟩) fun h => ?_
    omega

theorem mem_filterTerms {t : Term} : t ∈ filterTerms m kernel i j ↔ t.Within m kernel ∧
    t.source.1 + kernel.rows / 2 = i + t.kernel.1 ∧
      t.source.2 + kernel.cols / 2 = j + t.kernel.2 := by
  obtain ⟨s, p⟩ := t
  rw [filterTerms, List.mem_filterMap]
  constructor
  · rintro ⟨q, hq, ht⟩
    obtain ⟨s', hs, hterm⟩ := Option.map_eq_some_iff.mp ht
    obtain ⟨rfl, rfl⟩ := Term.mk.inj hterm
    obtain ⟨⟨hrow, hcol⟩, hplace⟩ := under_eq_some_iff.mp hs
    obtain ⟨hkrow, hkcol⟩ := mem_places.mp hq
    exact ⟨⟨hrow, hcol, hkrow, hkcol⟩, hplace⟩
  · rintro ⟨⟨hrow, hcol, hkrow, hkcol⟩, hplace⟩
    exact ⟨p, mem_places.mpr ⟨hkrow, hkcol⟩,
      Option.map_eq_some_iff.mpr ⟨s, under_eq_some_iff.mpr ⟨⟨hrow, hcol⟩, hplace⟩, rfl⟩⟩

theorem nodup_filterTerms (m kernel : Matrix) (i j : Nat) : (filterTerms m kernel i j).Nodup := by
  refine .filterMap (fun p q t hp hq => ?_) (nodup_places _ _)
  obtain ⟨s, -, rfl⟩ := Option.map_eq_some_iff.mp hp
  obtain ⟨s', -, hterm⟩ := Option.map_eq_some_iff.mp hq
  exact (congrArg Term.kernel hterm).symm

/-- Turning the kernel does not change its shape. -/
theorem within_rotated_iff {t : Term} : t.Within m kernel.rotated ↔ t.Within m kernel := by
  constructor
  · rintro ⟨hr, hc, hk, hl⟩
    exact ⟨hr, hc, hk, hl⟩
  · rintro ⟨hr, hc, hk, hl⟩
    exact ⟨hr, hc, hk, hl⟩

theorem Term.Within.turn {t : Term} (h : t.Within m kernel) :
    (t.turn kernel.shape).Within m kernel := by
  obtain ⟨hr, hc, hk, hl⟩ := h
  refine ⟨hr, hc, ?_, ?_⟩
  · show kernel.rows - 1 - t.kernel.1 < kernel.rows
    omega
  · show kernel.cols - 1 - t.kernel.2 < kernel.cols
    omega

theorem turn_turn {t : Term} (h : t.Within m kernel) :
    Term.turn kernel.shape (Term.turn kernel.shape t) = t := by
  obtain ⟨s, k, l⟩ := t
  obtain ⟨-, -, hk, hl⟩ := h
  dsimp only [shape] at hk hl
  dsimp only [Term.turn, shape]
  congr 2 <;> omega

/-- A pair is multiplied for a cell of the filtered source exactly if it is, after half a turn of
the kernel, for the cell of the full convolution that has this one in its middle. -/
theorem turn_mem_terms {t : Term} (h : t.Within m kernel) :
    t.turn kernel.shape ∈ terms m kernel.rotated (i + kernel.rows - 1 - kernel.rows / 2)
      (j + kernel.cols - 1 - kernel.cols / 2) ↔ t ∈ filterTerms m kernel i j := by
  rw [mem_terms, mem_filterTerms, within_rotated_iff, and_iff_right h.turn, and_iff_right h]
  obtain ⟨⟨r, c⟩, k, l⟩ := t
  obtain ⟨-, -, hk, hl⟩ := h
  rw [Term.target, Prod.mk.injEq]
  dsimp only [Term.turn, shape] at hk hl ⊢
  omega

/-- **The filter and the middle of the full convolution multiply the same pairs of cells.** -/
theorem perm_filterTerms (m kernel : Matrix) (i j : Nat) : (filterTerms m kernel i j).Perm
    ((terms m kernel.rotated (i + kernel.rows - 1 - kernel.rows / 2)
      (j + kernel.cols - 1 - kernel.cols / 2)).map (Term.turn kernel.shape)) := by
  have hwithin : ∀ t ∈ terms m kernel.rotated (i + kernel.rows - 1 - kernel.rows / 2)
      (j + kernel.cols - 1 - kernel.cols / 2), t.Within m kernel :=
    fun t ht => within_rotated_iff.mp (mem_terms.mp ht).1
  -- two half turns are none, so that no two pairs become the same
  have hnodup := (nodup_terms m kernel.rotated _ _).map_on (f := Term.turn kernel.shape)
    fun t ht u hu h => by rw [← turn_turn (hwithin t ht), h, turn_turn (hwithin u hu)]
  refine (List.perm_ext_iff_of_nodup (nodup_filterTerms m kernel i j) hnodup).mpr fun t => ?_
  rw [List.mem_map]
  constructor
  · intro ht
    have h := (mem_filterTerms.mp ht).1
    exact ⟨t.turn kernel.shape, (turn_mem_terms h).mpr ht, turn_turn h⟩
  · rintro ⟨u, hu, rfl⟩
    rw [← turn_mem_terms (hwithin u hu).turn, turn_turn (hwithin u hu)]
    exact hu

/-! ## Sums of products -/

section

variable {α : Type} (n : Arithmetic α) (source weight : Nat → Nat → α)

/-- Sums that go through a list of rows and, in each, through a list of columns. -/
theorem foldl_foldl_eq_sum (rows cols : List Nat) (f : Nat → Nat → α) :
    rows.foldl (fun sum k => cols.foldl (fun sum l => n.add sum (f k l)) sum) n.zero =
      n.sum ((rows.flatMap fun k => cols.map fun l => (k, l)).map fun p => f p.1 p.2) := by
  rw [Arithmetic.sum, List.foldl_map, List.foldl_flatMap]
  simp only [List.foldl_map]

/-- **The full convolution adds up its terms**, with any numbers. -/
theorem fullCell_eq_sum (hm : m.Valid) (hk : kernel.Valid) :
    fullCell n m.shape kernel.shape source weight i j =
      n.sum ((terms m kernel i j).map (Term.product n source weight)) := by
  have hterms : terms m kernel i j =
      ((offsets i m.rows kernel.rows).flatMap fun k =>
        (offsets j m.cols kernel.cols).map fun l => (k, l)).map fun p =>
          ⟨(i - p.1, j - p.2), p⟩ := by
    rw [terms, filter_places, offsets_eq_filter hm.rows_pos hk.rows_pos,
      offsets_eq_filter hm.cols_pos hk.cols_pos]
  rw [fullCell, foldl_foldl_eq_sum n _ _ fun k l => n.mul (source (i - k) (j - l)) (weight k l),
    hterms, List.map_map]
  rfl

/-- A place of the kernel is laid on the right cell, as no word overflows on the way to it. -/
theorem toInt_sourceIndex {k size : Nat} (hi : i ≤ 1152921504606846975)
    (hsize : size ≤ 1152921504606846975) (hk : k < size) :
    (sourceIndex i k size).toInt = i + k - (size / 2 : Nat) + 1 :=
  Int64.toInt_ofInt_of_le (by show -9223372036854775808 ≤ _; omega)
    (by show _ < (9223372036854775808 : Int); omega)

theorem cellOrZero_eq {row col : Int64} {r c : Int} (hrow : row.toInt = r + 1)
    (hcol : col.toInt = c + 1) : cellOrZero n m.shape source row col =
      if (0 ≤ r ∧ r < m.rows) ∧ (0 ≤ c ∧ c < m.cols) then source r.toNat c.toNat else n.zero := by
  have hrows : m.shape.rows = m.rows := rfl
  have hcols : m.shape.cols = m.cols := rfl
  rw [cellOrZero, hrow, hcol, Int.add_sub_cancel, Int.add_sub_cancel]
  split
  · rw [if_neg (by omega)]
  · rw [if_pos (by omega)]

theorem cellOrZero_sourceIndex (hm : m.Valid) (hk : kernel.Valid) (hms : m.Storable)
    (hks : kernel.Storable) (hi : i < m.rows) (hj : j < m.cols) {p : Nat × Nat}
    (hp : p ∈ places kernel.rows kernel.cols) :
    cellOrZero n m.shape source (sourceIndex i p.1 kernel.rows) (sourceIndex j p.2 kernel.cols) =
      (under m kernel i j p).elim n.zero fun s => source s.1 s.2 := by
  obtain ⟨hkrow, hkcol⟩ := mem_places.mp hp
  have hrows := hms.rows_le hm
  have hcols := hms.cols_le hm
  have hrow := toInt_sourceIndex (i := i) (by omega) (hks.rows_le hk) hkrow
  have hcol := toInt_sourceIndex (i := j) (by omega) (hks.cols_le hk) hkcol
  rw [cellOrZero_eq n source hrow hcol, under]
  split
  · rfl
  · rfl

/-- **The filter goes through the kernel**, row by row and with any numbers, and reads zeros where
nothing of the source lies under it. -/
theorem filterCell_eq_sum (hm : m.Valid) (hk : kernel.Valid) (hms : m.Storable)
    (hks : kernel.Storable) (hi : i < m.rows) (hj : j < m.cols) :
    filterCell n m.shape kernel.shape source weight i j =
      n.sum ((places kernel.rows kernel.cols).map fun p =>
        n.mul ((under m kernel i j p).elim n.zero fun s => source s.1 s.2) (weight p.1 p.2)) := by
  rw [filterCell, foldl_foldl_eq_sum n _ _ fun k l => n.mul (cellOrZero n m.shape source
    (sourceIndex i k kernel.shape.rows) (sourceIndex j l kernel.shape.cols)) (weight k l)]
  refine congrArg n.sum (List.map_congr_left fun p hp => ?_)
  exact congrArg (n.mul · _) (cellOrZero_sourceIndex n source hm hk hms hks hi hj hp)

end

section

variable {R : Type} [NonUnitalNonAssocSemiring R] (source weight : Nat → Nat → R)

/-- Exact numbers do not see the cells that are missing. -/
theorem sum_filterTerms (m kernel : Matrix) (i j : Nat) :
    ((places kernel.rows kernel.cols).map fun p =>
      ((under m kernel i j p).elim 0 fun s => source s.1 s.2) * weight p.1 p.2).sum =
        ((filterTerms m kernel i j).map (Term.product (.exact R) source weight)).sum := by
  rw [filterTerms]
  induction places kernel.rows kernel.cols with
  | nil => rfl
  | cons p rest ih =>
    rw [List.map_cons, List.sum_cons, ih]
    cases hunder : under m kernel i j p with
    | none =>
      -- a missing cell is read as zero, and adds nothing
      rw [List.filterMap_cons_none (by rw [hunder]; rfl), Option.elim_none, zero_mul, zero_add]
    | some s =>
      rw [List.filterMap_cons_some (by rw [hunder]; rfl), List.map_cons, List.sum_cons]
      rfl

/-- **With exact numbers the filter is the middle of the full convolution.** -/
theorem filterCell_eq_fullCell (hm : m.Valid) (hk : kernel.Valid) (hms : m.Storable)
    (hks : kernel.Storable) (hi : i < m.rows) (hj : j < m.cols) :
    filterCell (.exact R) m.shape kernel.shape source weight i j =
      fullCell (.exact R) m.shape kernel.shape source (turned kernel.shape weight)
        (i + kernel.rows - 1 - kernel.rows / 2) (j + kernel.cols - 1 - kernel.cols / 2) := by
  have hperm := (perm_filterTerms m kernel i j).map (Term.product (.exact R) source weight)
  rw [List.map_map] at hperm
  rw [filterCell_eq_sum _ _ _ hm hk hms hks hi hj, fullCell_eq_sum _ _ _ hm hk,
    Arithmetic.sum_exact, Arithmetic.sum_exact]
  exact (sum_filterTerms source weight m kernel i j).trans hperm.sum_eq

end

/-- **The image filter is the middle of a full convolution.**  Missing cells are zeros, and the
kernel is turned by half.  Then the pairs of a cell of the source and a cell of the kernel whose
products are added up in a cell of the filtered source are those of one cell of the full
convolution, which lies half a kernel further from the first one.  That these are the pairs is said
for numbers of any kind, of which doubles are one: both convolutions add up just these products, but
for the zeros that the filter reads outside the source.  With exact numbers the two cells are
equal. -/
theorem filter_eq_middle {m kernel : Matrix} (hm : m.Valid) (hk : kernel.Valid) (hms : m.Storable)
    (hks : kernel.Storable) {i j : Nat} (hi : i < m.rows) (hj : j < m.cols) :
    let row := i + kernel.rows - 1 - kernel.rows / 2
    let col := j + kernel.cols - 1 - kernel.cols / 2
    (row < m.rows + kernel.rows - 1 ∧ col < m.cols + kernel.cols - 1) ∧
    (filterTerms m kernel i j).Perm
      ((terms m kernel.rotated row col).map (Term.turn kernel.shape)) ∧
    ((m.convolveSame kernel .zero).cell i j =
        filterCell .doubles m.shape kernel.shape m.cell kernel.cell i j ∧
      (m.convolveFull kernel.rotated).cell row col =
        fullCell .doubles m.shape kernel.shape m.cell kernel.rotated.cell row col) ∧
    (∀ {α : Type} (n : Arithmetic α) (source weight : Nat → Nat → α),
      filterCell n m.shape kernel.shape source weight i j =
        n.sum ((places kernel.rows kernel.cols).map fun p =>
          n.mul ((under m kernel i j p).elim n.zero fun s => source s.1 s.2) (weight p.1 p.2)) ∧
      fullCell n m.shape kernel.shape source weight row col =
        n.sum ((terms m kernel.rotated row col).map (Term.product n source weight))) ∧
    ∀ {R : Type} [NonUnitalNonAssocSemiring R] (source weight : Nat → Nat → R),
      filterCell (.exact R) m.shape kernel.shape source weight i j =
        fullCell (.exact R) m.shape kernel.shape source (turned kernel.shape weight) row col := by
  have hkrows := hk.rows_pos
  have hkcols := hk.cols_pos
  have hrow : i + kernel.rows - 1 - kernel.rows / 2 < m.rows + kernel.rows - 1 := by omega
  have hcol : j + kernel.cols - 1 - kernel.cols / 2 < m.cols + kernel.cols - 1 := by omega
  refine ⟨⟨hrow, hcol⟩, perm_filterTerms m kernel i j, ⟨?_, ?_⟩, ?_, ?_⟩
  · rw [convolveSame_eq_tabulate, cell_tabulate hi hj]
  · rw [convolveFull_eq_tabulate]
    exact cell_tabulate hrow hcol _
  · intro α n source weight
    exact ⟨filterCell_eq_sum n source weight hm hk hms hks hi hj, fullCell_eq_sum n _ _ hm hk⟩
  · intro R _ source weight
    exact filterCell_eq_fullCell source weight hm hk hms hks hi hj

/-- A kernel that is larger than the source, and has no row in its middle: two pairs are added, in
one order and in the other. -/
theorem filter_eq_middle_largeKernel :
    ∃ m kernel : Matrix, (m.Valid ∧ m.Storable) ∧ (kernel.Valid ∧ kernel.Storable) ∧
      filterTerms m kernel 0 1 = [⟨(0, 0), (1, 0)⟩, ⟨(0, 1), (1, 1)⟩] ∧
      (terms m kernel.rotated 0 2).map (Term.turn kernel.shape) =
        [⟨(0, 1), (1, 1)⟩, ⟨(0, 0), (1, 0)⟩] ∧
      (filterTerms m kernel 0 1).Perm
        ((terms m kernel.rotated 0 2).map (Term.turn kernel.shape)) ∧
      ∀ source weight : Nat → Nat → Int,
        filterCell (.exact Int) ⟨1, 2⟩ ⟨2, 3⟩ source weight 0 1 =
          fullCell (.exact Int) ⟨1, 2⟩ ⟨2, 3⟩ source (turned ⟨2, 3⟩ weight) 0 2 := by
  let m : Matrix := ⟨1, 2, #[3, 4]⟩
  let kernel : Matrix := ⟨2, 3, #[10, 20, 30, 40, 50, 60]⟩
  have hm : m.Valid := ⟨by decide, by decide, rfl⟩
  have hk : kernel.Valid := ⟨by decide, by decide, rfl⟩
  have hms : m.Storable := by decide
  have hks : kernel.Storable := by decide
  have hi : 0 < m.rows := by decide
  have hj : 1 < m.cols := by decide
  have hrow : 0 + kernel.rows - 1 - kernel.rows / 2 = 0 := by decide
  have hcol : 1 + kernel.cols - 1 - kernel.cols / 2 = 2 := by decide
  obtain ⟨-, hperm, -, -, hexact⟩ := filter_eq_middle hm hk hms hks hi hj
  simp only [hrow, hcol] at hperm hexact
  exact ⟨m, kernel, ⟨hm, hms⟩, ⟨hk, hks⟩, by decide, by decide, hperm, hexact⟩

end Matrix

end MatrixLang
