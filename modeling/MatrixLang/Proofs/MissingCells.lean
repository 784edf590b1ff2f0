import MatrixLang.Proofs.GuardedMatrix

/-! # Cells outside a matrix

A cell may be asked for at any two 64-bit integers, and a policy says what is read where there is
none.  Rows and columns are looked up one by one: the nearest place of a line (`IsNearest`), or the
place that an index comes to on a line that goes on with itself (`IsCongruent`).  Both are said here
without the arithmetic that finds them, and there is always exactly one.

That arithmetic takes one off every index, and wrapping does so before anything else.  The smallest
64-bit integer has none before it (`fit_sub_one`): there, and with no other policy, a word overflows
and no cell is read (`getAt_eq_error_iff`).  So the place that the smallest index comes to is never
found, although there is one (`wrap_smallest_index`).
-/

namespace MatrixLang

/-! ## Places on a line -/

/-- The place, counted from zero, that is nearest to an index from one. -/
def IsNearest (index : Int) (length place : Nat) : Prop :=
  place < length ∧
    ∀ other < length, (index - (place + 1)).natAbs ≤ (index - (other + 1)).natAbs

/-- The place, counted from zero, that an index from one comes to if the line goes on with itself
at both ends. -/
def IsCongruent (index : Int) (length place : Nat) : Prop :=
  place < length ∧ (length : Int) ∣ index - (place + 1)

section

variable {index : Int} {length place : Nat}

theorem isNearest_iff (h : 0 < length) :
    IsNearest index length place ↔ place = (max 1 (min index length) - 1).toNat := by
  constructor
  · rintro ⟨hplace, hnearest⟩
    have hbest := hnearest (max 1 (min index length) - 1).toNat (by omega)
    omega
  · rintro rfl
    refine ⟨by omega, fun other hother => ?_⟩
    omega

theorem isCongruent_iff (h : 0 < length) :
    IsCongruent index length place ↔ place = ((index - 1) % length).toNat := by
  have hlow : 0 ≤ (index - 1) % length := Int.emod_nonneg _ (by omega)
  have hhigh : (index - 1) % length < length := Int.emod_lt_of_pos _ (by omega)
  constructor
  · rintro ⟨hplace, q, hq⟩
    have hindex : index - 1 = place + length * q := by omega
    rw [hindex, Int.add_mul_emod_self_left, Int.emod_eq_of_lt (by omega) (by omega),
      Int.toNat_natCast]
  · rintro rfl
    have hdvd : (length : Int) ∣ index - 1 - (index - 1) % length := Int.dvd_self_sub_emod
    have hplace : index - (((index - 1) % length).toNat + 1) =
        index - 1 - (index - 1) % length := by omega
    exact ⟨by omega, hplace ▸ hdvd⟩

/-- An index within a line stands for the place before it. -/
theorem isNearest_of_within (hlow : 1 ≤ index) (hhigh : index ≤ length) :
    IsNearest index length (index - 1).toNat :=
  (isNearest_iff (by omega)).mpr (by omega)

theorem isCongruent_of_within (hlow : 1 ≤ index) (hhigh : index ≤ length) :
    IsCongruent index length (index - 1).toNat := by
  refine ⟨by omega, ?_⟩
  have hzero : index - ((index - 1).toNat + 1) = 0 := by omega
  rw [hzero]
  exact Int.dvd_zero _

/-- Indices that differ by whole turns come to the same place. -/
theorem IsCongruent.of_dvd {index' : Int} (h : IsCongruent index length place)
    (hdvd : (length : Int) ∣ index' - index) : IsCongruent index' length place := by
  have hsum : index' - (place + 1) = index' - index + (index - (place + 1)) := by omega
  exact ⟨h.1, hsum ▸ Int.dvd_add hdvd h.2⟩

end

/-- Every word but the smallest has one before it. -/
theorem fit_sub_one {index : Int64} (h : index ≠ Int64.minValue) :
    Word.signed64.fit (index.toInt - 1) = .ok (index.toInt - 1) := by
  have hlow : -9223372036854775808 ≤ index.toInt := index.minValue_le_toInt
  have hhigh : index.toInt ≤ 9223372036854775807 := index.toInt_le
  have hne : index.toInt ≠ -9223372036854775808 := fun he => h (Int64.toInt_inj.mp he)
  have hholds : -9223372036854775808 ≤ index.toInt - 1 ∧
      index.toInt - 1 ≤ 9223372036854775807 := by omega
  exact if_pos hholds

/-! ## Cells by policy -/

namespace Matrix

variable {m : Matrix} {row col : Int64} {r c : Nat}

/-- A row and a column, counted from one, are within a matrix. -/
def HasCell (m : Matrix) (row col : Int64) : Prop :=
  (1 ≤ row.toInt ∧ row.toInt ≤ m.rows) ∧ (1 ≤ col.toInt ∧ col.toInt ≤ m.cols)

instance : Decidable (m.HasCell row col) :=
  inferInstanceAs (Decidable (_ ∧ _))

theorem cellAt_zero : m.cellAt row col .zero =
    if m.HasCell row col then m.cell (row.toInt - 1).toNat (col.toInt - 1).toNat else 0 := by
  rw [cellAt]
  by_cases h : m.HasCell row col
  · rw [if_pos h]
    rw [HasCell] at h
    rw [if_neg (by omega)]
  · rw [if_neg h]
    rw [HasCell] at h
    rw [if_pos (by omega)]

theorem cellAt_clamp (hm : m.Valid) (hr : IsNearest row.toInt m.rows r)
    (hc : IsNearest col.toInt m.cols c) : m.cellAt row col .clamp = m.cell r c := by
  rw [isNearest_iff hm.rows_pos] at hr
  rw [isNearest_iff hm.cols_pos] at hc
  rw [hr, hc]
  rfl

theorem cellAt_wrap (hm : m.Valid) (hr : IsCongruent row.toInt m.rows r)
    (hc : IsCongruent col.toInt m.cols c) : m.cellAt row col .wrap = m.cell r c := by
  rw [isCongruent_iff hm.rows_pos] at hr
  rw [isCongruent_iff hm.cols_pos] at hc
  rw [hr, hc]
  rfl

/-- All policies agree inside the matrix. -/
theorem cellAt_of_hasCell (hm : m.Valid) (h : m.HasCell row col) (policy : MissingPolicy) :
    m.cellAt row col policy = m.cell (row.toInt - 1).toNat (col.toInt - 1).toNat := by
  cases policy with
  | zero => rw [cellAt_zero, if_pos h]
  | wrap =>
    obtain ⟨⟨hrow, hrows⟩, hcol, hcols⟩ := h
    exact cellAt_wrap hm (isCongruent_of_within hrow hrows) (isCongruent_of_within hcol hcols)
  | clamp =>
    obtain ⟨⟨hrow, hrows⟩, hcol, hcols⟩ := h
    exact cellAt_clamp hm (isNearest_of_within hrow hrows) (isNearest_of_within hcol hcols)

/-! ## Overflow -/

/-- One is taken off the smallest word: this is done for wrapping only. -/
def TakesOffSmallest (policy : MissingPolicy) (row col : Int64) : Prop :=
  policy = .wrap ∧ (row = Int64.minValue ∨ col = Int64.minValue)

instance {policy : MissingPolicy} : Decidable (TakesOffSmallest policy row col) :=
  inferInstanceAs (Decidable (_ ∧ _))

variable {policy : MissingPolicy}

theorem ne_smallest (h : ¬ TakesOffSmallest policy row col) (hwrap : policy = .wrap) :
    row ≠ Int64.minValue ∧ col ≠ Int64.minValue :=
  not_or.mp fun hsmallest => h ⟨hwrap, hsmallest⟩

theorem getAt_eq_cellAt (h : ¬ TakesOffSmallest policy row col) :
    m.getAt row col policy = .ok (m.cellAt row col policy) := by
  by_cases hwrap : policy = .wrap
  · obtain ⟨hrow, hcol⟩ := ne_smallest h hwrap
    rw [getAt, if_pos hwrap, fit_sub_one hrow, fit_sub_one hcol]
    rfl
  · rw [getAt, if_neg hwrap]
    rfl

theorem getAt_smallest (h : TakesOffSmallest policy row col) :
    m.getAt row col policy = .error ⟨.signed64⟩ := by
  obtain ⟨hwrap, hsmallest⟩ := h
  have hoverflow : Word.signed64.fit (Int64.minValue.toInt - 1) = .error ⟨.signed64⟩ := rfl
  rw [getAt, if_pos hwrap]
  by_cases hrow : row = Int64.minValue
  · rw [hrow, hoverflow]
    rfl
  · rw [hsmallest.resolve_left hrow, fit_sub_one hrow, hoverflow]
    rfl

/-- **A word overflows for wrapping at the smallest index, and nowhere else.** -/
theorem getAt_eq_error_iff {o : Overflow} :
    m.getAt row col policy = .error o ↔ TakesOffSmallest policy row col ∧ o = ⟨.signed64⟩ := by
  by_cases h : TakesOffSmallest policy row col
  · rw [getAt_smallest h, Except.error.injEq, eq_comm, and_iff_right h]
  · rw [getAt_eq_cellAt h]
    exact iff_of_false (by rintro ⟨⟩) fun hsmallest => h hsmallest.1

/-- Where all arithmetic is done in words, these are the only ones that overflow. -/
theorem cellAt_machine (hm : m.Valid) (hstore : m.Storable) :
    Checked.cellAt .machine m row col policy =
      (m.getAt row col policy).mapError fun o => .overflow o.word := by
  have hstored : m.StorableIn .machine := fun _ => hstore
  by_cases h : TakesOffSmallest policy row col
  · obtain ⟨hrows, hcols⟩ := Checked.signed_dimensions hm hstored
    obtain ⟨rfl, hsmallest⟩ := h
    have hoverflow : Guarded.signed .machine (Int64.minValue.toInt - 1) =
      .error (.overflow .signed64) := rfl
    rw [getAt_smallest ⟨rfl, hsmallest⟩, Checked.cellAt, hrows, ok_bind, hcols, ok_bind]
    by_cases hrow : row = Int64.minValue
    · rw [hrow, hoverflow]
      rfl
    · rw [hsmallest.resolve_left hrow, Guarded.signed, Guarded.fit_machine, fit_sub_one hrow,
        mapError_ok, ok_bind, hoverflow]
      rfl
  · have hsigned {index : Int64} (hindex : index ≠ Int64.minValue) :
        Guarded.signed .machine (index.toInt - 1) = .ok (index.toInt - 1) := by
      rw [Guarded.signed, Guarded.fit_machine, fit_sub_one hindex, mapError_ok]
    rw [getAt_eq_cellAt h, mapError_ok]
    refine Checked.cellAt_eq hm hstored fun hwrap => ?_
    obtain ⟨hrow, hcol⟩ := ne_smallest h hwrap
    exact ⟨hsigned hrow, hsigned hcol⟩

end Matrix

/-- **What every policy reads, for all rows and columns.**  Zeros are read outside the matrix, or
the cell at the nearest row and column, or the one at the row and column that are congruent to those
asked for, and each of these is the only such one.  The policies agree inside the matrix, and
wrapping does not see whole turns.  All of this leaves out wrapping at the smallest 64-bit integer,
where a word overflows.  It overflows nowhere else, also if everything is computed in words, in a
matrix that memory can hold. -/
theorem getAt_exact {m : Matrix} (hm : m.Valid) (row col : Int64) :
    (m.getAt row col .zero = .ok (if m.HasCell row col then
        m.cell (row.toInt - 1).toNat (col.toInt - 1).toNat else 0)) ∧
    (∃ r c, (∀ k, IsNearest row.toInt m.rows k ↔ k = r) ∧
      (∀ k, IsNearest col.toInt m.cols k ↔ k = c) ∧ m.getAt row col .clamp = .ok (m.cell r c)) ∧
    (row ≠ Int64.minValue → col ≠ Int64.minValue →
      (∃ r c, (∀ k, IsCongruent row.toInt m.rows k ↔ k = r) ∧
        (∀ k, IsCongruent col.toInt m.cols k ↔ k = c) ∧ m.getAt row col .wrap = .ok (m.cell r c)) ∧
      ∀ row' col' : Int64, row' ≠ Int64.minValue → col' ≠ Int64.minValue →
        (m.rows : Int) ∣ row'.toInt - row.toInt → (m.cols : Int) ∣ col'.toInt - col.toInt →
        m.getAt row' col' .wrap = m.getAt row col .wrap) ∧
    (m.HasCell row col → ∀ policy,
      m.getAt row col policy = .ok (m.cell (row.toInt - 1).toNat (col.toInt - 1).toNat)) ∧
    (∀ policy o, m.getAt row col policy = .error o ↔
      (policy = .wrap ∧ (row = Int64.minValue ∨ col = Int64.minValue)) ∧ o = ⟨.signed64⟩) ∧
    (m.Storable → ∀ policy, Checked.cellAt .machine m row col policy =
      (m.getAt row col policy).mapError fun o => .overflow o.word) := by
  have hrows := hm.rows_pos
  have hcols := hm.cols_pos
  have hread {row col : Int64} {policy : MissingPolicy}
      (h : policy = .wrap → row ≠ Int64.minValue ∧ col ≠ Int64.minValue) :
      m.getAt row col policy = .ok (m.cellAt row col policy) := by
    refine Matrix.getAt_eq_cellAt ?_
    rintro ⟨hwrap, hsmallest⟩
    exact absurd hsmallest (not_or.mpr (h hwrap))
  refine ⟨?_, ?_, ?_, ?_, ?_, ?_⟩
  · rw [hread (by rintro ⟨⟩), Matrix.cellAt_zero]
  · refine ⟨_, _, fun _ => isNearest_iff hrows, fun _ => isNearest_iff hcols, ?_⟩
    rw [hread (by rintro ⟨⟩)]
    exact congrArg Except.ok (Matrix.cellAt_clamp hm ((isNearest_iff hrows).mpr rfl)
      ((isNearest_iff hcols).mpr rfl))
  · intro hrow hcol
    have hr : IsCongruent row.toInt m.rows _ := (isCongruent_iff hrows).mpr rfl
    have hc : IsCongruent col.toInt m.cols _ := (isCongruent_iff hcols).mpr rfl
    have hcell := Matrix.cellAt_wrap hm hr hc
    rw [hread fun _ => ⟨hrow, hcol⟩, hcell]
    refine ⟨⟨_, _, fun _ => isCongruent_iff hrows, fun _ => isCongruent_iff hcols, rfl⟩, ?_⟩
    intro row' col' hrow' hcol' hturns hturns'
    rw [hread fun _ => ⟨hrow', hcol'⟩]
    exact congrArg Except.ok (Matrix.cellAt_wrap hm (hr.of_dvd hturns) (hc.of_dvd hturns'))
  · intro hcell policy
    have hne {index : Int64} (hindex : 1 ≤ index.toInt) : index ≠ Int64.minValue := by
      rintro rfl
      exact absurd hindex (by decide)
    rw [hread fun _ => ⟨hne hcell.1.1, hne hcell.2.1⟩, Matrix.cellAt_of_hasCell hm hcell]
  · exact fun policy o => Matrix.getAt_eq_error_iff
  · exact fun hstore policy => Matrix.cellAt_machine hm hstore

/-- A row of three cells. -/
def threeCells : Matrix :=
  ⟨1, 3, #[1, 2, 3]⟩

/-- The fifth column to the left of three is the second one, and the nearest to it the first. -/
theorem getAt_exact_fifthLeft :
    threeCells.Valid ∧ threeCells.Storable ∧ threeCells.getAt 1 (-4) .wrap = .ok 2 ∧
      threeCells.getAt 1 (-4) .clamp = .ok 1 ∧
      Checked.cellAt .machine threeCells 1 Int64.maxValue .wrap =
        (threeCells.getAt 1 Int64.maxValue .wrap).mapError (fun o => .overflow o.word) ∧
      threeCells.getAt 1 Int64.minValue .wrap = .error ⟨.signed64⟩ := by
  have hvalid : threeCells.Valid := ⟨by decide, by decide, rfl⟩
  have hstore : threeCells.Storable := by decide
  obtain ⟨-, ⟨r, c, hr, hc, hclamp⟩, hwrap, -⟩ := getAt_exact hvalid 1 (-4)
  obtain ⟨⟨r', c', hr', hc', hwrap⟩, -⟩ := hwrap (by decide) (by decide)
  obtain rfl : 0 = r := (hr 0).mp ⟨by decide, by decide⟩
  obtain rfl : 0 = c := (hc 0).mp ⟨by decide, by decide⟩
  obtain rfl : 0 = r' := (hr' 0).mp ⟨by decide, by decide⟩
  obtain rfl : 1 = c' := (hc' 1).mp ⟨by decide, by decide⟩
  obtain ⟨-, -, -, -, -, hlargest⟩ := getAt_exact hvalid 1 Int64.maxValue
  obtain ⟨-, -, -, -, hsmallest, -⟩ := getAt_exact hvalid 1 Int64.minValue
  exact ⟨hvalid, hstore, hwrap, hclamp, hlargest hstore .wrap,
    (hsmallest .wrap _).mpr ⟨⟨rfl, .inr rfl⟩, rfl⟩⟩

/-- **The smallest column is not wrapped**: of three columns it is congruent to the first, but a
word overflows on the way there, and no cell is read. -/
theorem wrap_smallest_index :
    threeCells.Valid ∧ IsCongruent (1 : Int64).toInt threeCells.rows 0 ∧
      IsCongruent Int64.minValue.toInt threeCells.cols 0 ∧
      threeCells.getAt 1 Int64.minValue .wrap = .error ⟨.signed64⟩ ∧
      Checked.cellAt .machine threeCells 1 Int64.minValue .wrap = .error (.overflow .signed64) := by
  have hvalid : threeCells.Valid := ⟨by decide, by decide, rfl⟩
  have hstore : threeCells.Storable := by decide
  have hoverflow : threeCells.getAt 1 Int64.minValue .wrap = .error ⟨.signed64⟩ :=
    Matrix.getAt_smallest ⟨rfl, .inr rfl⟩
  refine ⟨hvalid, ⟨by decide, by decide⟩, ⟨by decide, by decide⟩, hoverflow, ?_⟩
  rw [Matrix.cellAt_machine hvalid hstore, hoverflow]
  rfl

end MatrixLang
