import MatrixLang.Proofs.Blocks
import MatrixLang.Proofs.Joining

/-! # Parts and copies

Nothing is lost when two matrices are joined: both are blocks of the join, and can be read back
where they were put (`concat_keeps_parts`).  The first starts at the first cell, and the second
right behind the first, on the side on which it was joined.

Copies of a matrix are made at once, by counting round and round through its rows or columns.  This
comes to the same as joining them one by one (`copies`), as long as there is at least one and the
cells of all of them are not too many (`replicate_joins_copies`).
-/

namespace MatrixLang.Matrix

variable {a b m v : Matrix} {side : Side} {n start : Nat}

/-! ## The two parts of a join -/

/-- The matrix `v` is read as the block of its own height and width whose first cell is at a row and
column that count from one. -/
def HasBlock (m : Matrix) (row col : Nat) (v : Matrix) : Prop :=
  ∀ first start height width : Int64, first.toInt = row → start.toInt = col →
    height.toInt = v.rows → width.toInt = v.cols → m.submatrix first start height width = .ok v

/-- A block is read if its cells are found where it is. -/
theorem hasBlock_of_cells {top left : Nat} (hv : v.Valid) (hrows : top + v.rows ≤ m.rows)
    (hcols : left + v.cols ≤ m.cols)
    (hcell : ∀ i < v.rows, ∀ j < v.cols, m.cell (top + i) (left + j) = v.cell i j) :
    m.HasBlock (top + 1) (left + 1) v := by
  intro first start height width hfirst hstart hheight hwidth
  have hvrows := hv.rows_pos
  have hvcols := hv.cols_pos
  have hholds : m.Holds first start height.toInt width.toInt :=
    ⟨by omega, by omega, by omega, by omega⟩
  have htop : (first.toInt - 1).toNat = top := by omega
  have hleft : (start.toInt - 1).toNat = left := by omega
  rw [submatrix_of_holds (by omega) (by omega) hholds, htop, hleft, hheight, hwidth]
  exact congrArg Except.ok ((tabulate_congr hcell).trans (tabulate_cell hv))

/-- The matrix `v` is read as the part of the lines from place `start` on. -/
def HasPart (side : Side) (m : Matrix) (start : Nat) (v : Matrix) : Prop :=
  match side with
  | .beside => m.HasBlock 1 (start + 1) v
  | .below => m.HasBlock (start + 1) 1 v

theorem hasPart_of_lines (hv : v.Valid) (hedge : edge side v = edge side m)
    (hreach : start + reach side v ≤ reach side m)
    (hline : ∀ i < edge side v, ∀ k < reach side v, line side m i (start + k) = line side v i k) :
    HasPart side m start v := by
  cases side with
  | beside =>
    have hrows : 0 + v.rows ≤ m.rows := by rw [Nat.zero_add]; exact Nat.le_of_eq hedge
    refine hasBlock_of_cells hv hrows hreach fun i hi j hj => ?_
    rw [Nat.zero_add]
    exact hline i hi j hj
  | below =>
    have hcols : 0 + v.cols ≤ m.cols := by rw [Nat.zero_add]; exact Nat.le_of_eq hedge
    refine hasBlock_of_cells hv hreach hcols fun i hi j hj => ?_
    rw [Nat.zero_add]
    exact hline j hj i hi

/-- The first part of a join is at the start of its lines. -/
theorem hasPart_joined_left (ha : a.Valid) (side : Side) (b : Matrix) :
    HasPart side (joined side a b) 0 a := by
  refine hasPart_of_lines ha edge_joined.symm ?_ fun i hi k hk => ?_
  · rw [reach_joined, Nat.zero_add]
    exact Nat.le_add_right _ _
  · rw [Nat.zero_add, line_joined hi (Nat.lt_add_right _ hk), spliced_of_lt hk]

/-- The second part of a join is right behind the first. -/
theorem hasPart_joined_right (hb : b.Valid) (h : edge side a = edge side b) :
    HasPart side (joined side a b) (reach side a) b := by
  refine hasPart_of_lines hb (h.symm.trans edge_joined.symm) (Nat.le_of_eq reach_joined.symm) ?_
  intro i hi k hk
  rw [line_joined (h ▸ hi) (Nat.add_lt_add_left hk _), spliced_of_le (Nat.le_add_right _ _),
    Nat.add_sub_cancel_left]

theorem concat_succeeds_iff (ha : a.Valid) (hb : b.Valid) (side : Side) :
    (∃ c, a.concat side b = .ok c) ↔ edge side a = edge side b := by
  rw [concat_eq ha hb]
  by_cases h : edge side a = edge side b
  · rw [if_pos h]
    exact iff_of_true ⟨_, rfl⟩ h
  · rw [if_neg h]
    exact iff_of_false (by rintro ⟨c, ⟨⟩⟩) h

/-- Both parts of a join are read back. -/
theorem hasParts_of_concat {c : Matrix} (ha : a.Valid) (hb : b.Valid)
    (hc : a.concat side b = .ok c) : HasPart side c 0 a ∧ HasPart side c (reach side a) b := by
  have hedge := (concat_succeeds_iff ha hb side).mp ⟨c, hc⟩
  rw [concat_of_edge side ha hb hedge] at hc
  cases hc
  exact ⟨hasPart_joined_left ha side b, hasPart_joined_right hb hedge⟩

/-- **Joining loses nothing.**  Two matrices are joined beside each other exactly if they have
equally many rows, and below each other exactly if they have equally many columns.  The first is
then read back at the first cell of the join, and the second right behind it. -/
theorem concat_keeps_parts {a b : Matrix} (ha : a.Valid) (hb : b.Valid) :
    ((∃ c, a.concat .beside b = .ok c) ↔ a.rows = b.rows) ∧
    ((∃ c, a.concat .below b = .ok c) ↔ a.cols = b.cols) ∧
    (∀ c, a.concat .beside b = .ok c → c.HasBlock 1 1 a ∧ c.HasBlock 1 (a.cols + 1) b) ∧
    ∀ c, a.concat .below b = .ok c → c.HasBlock 1 1 a ∧ c.HasBlock (a.rows + 1) 1 b :=
  ⟨concat_succeeds_iff ha hb .beside, concat_succeeds_iff ha hb .below,
    fun _ => hasParts_of_concat ha hb, fun _ => hasParts_of_concat ha hb⟩

/-- The parts of a join of three columns, and of one of two rows. -/
theorem concat_keeps_parts_threeColumns :
    ∃ a b c d : Matrix, a.Valid ∧ b.Valid ∧
      a.concat .beside b = .ok c ∧ c.submatrix 1 1 1 2 = .ok a ∧ c.submatrix 1 3 1 1 = .ok b ∧
      a.concat .below a = .ok d ∧ d.submatrix 2 1 1 2 = .ok a ∧
      ¬ ∃ e, a.concat .below b = .ok e := by
  let a : Matrix := ⟨1, 2, #[1, 2]⟩
  let b : Matrix := ⟨1, 1, #[3]⟩
  have ha : a.Valid := ⟨by decide, by decide, rfl⟩
  have hb : b.Valid := ⟨by decide, by decide, rfl⟩
  obtain ⟨hbeside, hbelow, hparts, -⟩ := concat_keeps_parts ha hb
  obtain ⟨-, htwice, -, hrows⟩ := concat_keeps_parts ha ha
  obtain ⟨c, hc⟩ := hbeside.mpr rfl
  obtain ⟨d, hd⟩ := htwice.mpr rfl
  obtain ⟨hleft, hright⟩ := hparts c hc
  exact ⟨a, b, c, d, ha, hb, hc, hleft 1 1 1 2 rfl rfl rfl rfl, hright 1 3 1 1 rfl rfl rfl rfl, hd,
    (hrows d hd).2 2 1 1 2 rfl rfl rfl rfl, mt hbelow.mp (by decide)⟩

/-! ## Copies one by one -/

/-- A matrix joined with further copies of itself, one by one. -/
def copies (side : Side) (m : Matrix) (further : Nat) : Except Error Matrix :=
  (List.replicate further m).foldlM (concat side) m

theorem repeated_one (hm : m.Valid) (side : Side) : repeated side m 1 = m := by
  refine (valid_repeated hm Nat.one_pos).ext_line hm side edge_repeated ?_ fun i hi k hk => ?_
  · rw [reach_repeated, Nat.mul_one]
  · rw [edge_repeated] at hi
    rw [reach_repeated] at hk
    rw [line_repeated hi hk, Nat.mod_eq_of_lt (by rwa [Nat.mul_one] at hk)]

/-- One more copy is joined to copies of a matrix. -/
theorem joined_repeated (hm : m.Valid) (hn : 0 < n) :
    joined side (repeated side m n) m = repeated side m (n + 1) := by
  refine (valid_joined (valid_repeated hm hn)).ext_line (valid_repeated hm n.succ_pos) side ?_ ?_ ?_
  · rw [edge_joined, edge_repeated, edge_repeated]
  · rw [reach_joined, reach_repeated, reach_repeated, Nat.mul_succ]
  intro i hi k hk
  rw [edge_joined, edge_repeated] at hi
  rw [reach_joined, reach_repeated] at hk
  rw [line_joined (by rwa [edge_repeated]) (by rwa [reach_repeated]),
    line_repeated hi (by rwa [Nat.mul_succ]), reach_repeated]
  by_cases hfirst : k < reach side m * n
  · rw [spliced_of_lt hfirst, line_repeated hi hfirst]
  · have hle : reach side m * n ≤ k := Nat.not_lt.mp hfirst
    have hmod : k % reach side m = k - reach side m * n := by
      rw [← Nat.sub_mul_mod hle, Nat.mod_eq_of_lt (by omega)]
    rw [spliced_of_le hle, hmod]

/-- Joining further copies to copies that are there. -/
theorem foldlM_concat_repeated (hm : m.Valid) (side : Side) (hn : 0 < n) (further : Nat) :
    (List.replicate further m).foldlM (concat side) (repeated side m n) =
      .ok (repeated side m (n + further)) := by
  induction further generalizing n with
  | zero => rfl
  | succ further ih =>
    rw [List.replicate_succ, List.foldlM_cons,
      concat_of_edge side (valid_repeated hm hn) hm edge_repeated, ok_bind, joined_repeated hm hn,
      ih n.succ_pos, Nat.succ_add_eq_add_succ]

/-- **Copies that are joined one by one are those that are counted round and round.** -/
theorem copies_eq (hm : m.Valid) (side : Side) (further : Nat) :
    copies side m further = .ok (repeated side m (further + 1)) := by
  have hjoin := foldlM_concat_repeated hm side Nat.one_pos further
  rwa [repeated_one hm, Nat.add_comm] at hjoin

theorem asInteger_of_isScalar {times : Matrix} (h : times.isScalar = true) (context : String) :
    times.asInteger context = .ok (Number.toInt64 (times.cell 0 0)) := by
  rw [asInteger, asScalar, if_pos h]
  rfl

section

variable {times : Matrix} {count : Int64}

/-- With a count that is a number, nothing but an argument is ever refused. -/
theorem replicate_cases (m : Matrix) (side : Side)
    (hcount : times.asInteger "Repetition count" = .ok count) :
    (∃ c, m.replicate side times = .ok c) ∨
      ∃ reason, m.replicate side times = .error (.invalidArgument reason) := by
  delta replicate
  simp only [hcount, ok_bind]
  by_cases hfew : count.toInt < 1
  · rw [if_pos hfew]
    exact .inr ⟨_, rfl⟩
  rw [if_neg hfew, checkSize]
  split
  · exact .inr ⟨_, rfl⟩
  · split
    · exact .inl ⟨_, rfl⟩
    · exact .inr ⟨_, rfl⟩

/-- **All checks of a repetition together**: they refuse an argument exactly if there is no copy, or
the copies have too many cells. -/
theorem replicate_fails_iff (hm : m.Valid)
    (hcount : times.asInteger "Repetition count" = .ok count) :
    (∃ reason, m.replicate side times = .error (.invalidArgument reason)) ↔
      ¬ (1 ≤ count.toInt ∧ m.rows * m.cols * count.toInt.toNat ≤ maxCells) := by
  constructor
  · rintro ⟨reason, herror⟩ ⟨hone, hsize⟩
    rw [(replicate_eq_ok_iff hm).mpr ⟨count, hcount, hone, hsize, rfl⟩] at herror
    cases herror
  · intro hfails
    obtain ⟨c, hc⟩ | hargument := replicate_cases m side hcount
    · obtain ⟨count', hcount', hone, hsize, -⟩ := (replicate_eq_ok_iff hm).mp hc
      cases hcount.symm.trans hcount'
      exact absurd ⟨hone, hsize⟩ hfails
    · exact hargument

end

/-- **Repeating joins copies one by one.**  For a count that is cut to the integer `n`, repeating a
matrix is refused exactly if `n` is below one or `n` copies have too many cells, in integers without
bounds, and then the argument is at fault.  Otherwise the result is the matrix joined `n - 1` times
with itself, on the same side. -/
theorem replicate_joins_copies {m times : Matrix} (hm : m.Valid) (htimes : times.isScalar = true)
    (side : Side) {n : Int} (hn : (Number.toInt64 (times.cell 0 0)).toInt = n) :
    ((∃ reason, m.replicate side times = .error (.invalidArgument reason)) ↔
      n < 1 ∨ maxCells < m.rows * m.cols * n) ∧
    (¬ (n < 1 ∨ maxCells < m.rows * m.cols * n) →
      ∃ c, m.replicate side times = .ok c ∧ copies side m (n - 1).toNat = .ok c) := by
  have hcount := asInteger_of_isScalar htimes "Repetition count"
  subst hn
  generalize Number.toInt64 (times.cell 0 0) = count at *
  have hfits : ¬ (count.toInt < 1 ∨ maxCells < m.rows * m.cols * count.toInt) ↔
      1 ≤ count.toInt ∧ m.rows * m.cols * count.toInt.toNat ≤ maxCells := by
    rw [not_or, Int.not_lt, Int.not_lt]
    refine and_congr_right fun hone => ?_
    rw [← Int.ofNat_le, Int.natCast_mul, Int.natCast_mul, Int.toNat_of_nonneg (by omega)]
  refine ⟨?_, fun h => ?_⟩
  · rw [replicate_fails_iff hm hcount, ← hfits, Classical.not_not]
  · obtain ⟨hone, hsize⟩ := hfits.mp h
    refine ⟨_, (replicate_eq_ok_iff hm).mpr ⟨count, hcount, hone, hsize, rfl⟩, ?_⟩
    have hcopies : (count.toInt - 1).toNat + 1 = count.toInt.toNat := by omega
    rw [copies_eq hm, hcopies]

/-- Two and a half copies are two, none are refused, and so are more than can be counted. -/
theorem replicate_joins_copies_half :
    ∃ m : Matrix, m.Valid ∧ (Number.toInt64 2.5).toInt = 2 ∧
      (∃ c, m.replicate .below (scalar 2.5) = .ok c ∧ m.concat .below m = .ok c) ∧
      (∃ reason, m.replicate .below (scalar (-0.5)) = .error (.invalidArgument reason)) ∧
      ∃ reason, m.replicate .beside (scalar 1e300) = .error (.invalidArgument reason) := by
  let m : Matrix := ⟨1, 2, #[1, 2]⟩
  have hm : m.Valid := ⟨by decide, by decide, rfl⟩
  have htwo : (Number.toInt64 2.5).toInt = 2 := by decide +kernel
  have hnone : (Number.toInt64 (-0.5)).toInt = 0 := by decide +kernel
  have hmany : (Number.toInt64 1e300).toInt = 9223372036854775807 := by decide +kernel
  have hscalar (x : Float) : (scalar x).isScalar = true := rfl
  obtain ⟨-, hcopies⟩ := replicate_joins_copies hm (hscalar 2.5) .below htwo
  obtain ⟨hfew, -⟩ := replicate_joins_copies hm (hscalar (-0.5)) .below hnone
  obtain ⟨hlarge, -⟩ := replicate_joins_copies hm (hscalar 1e300) .beside hmany
  refine ⟨m, hm, htwo, ?_, hfew.mpr (by decide), hlarge.mpr (by decide)⟩
  obtain ⟨c, hc, hjoined⟩ := hcopies (by decide)
  exact ⟨c, hc, hjoined⟩

end MatrixLang.Matrix
