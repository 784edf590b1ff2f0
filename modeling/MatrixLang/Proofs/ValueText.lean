import MatrixLang.Proofs.Cells
import MatrixLang.Proofs.Passages
import Mathlib.Tactic.Choose

/-! # Values as source text

The text of a matrix is an expression for it: compiling the text and evaluating what comes
out, in any environment, gives the matrix back with the same cells, and changes nothing
(`eval_text`).  A negative cell is written with a minus, which is an operation of the
expression.
-/

namespace MatrixLang

/-! ## Cells -/

namespace Matrix

/-- The rows of a valid matrix hold its cells. -/
theorem flatten_toRows {m : Matrix} (h : m.Valid) : m.toRows.flatten = m.data.toList := by
  have hflat := flatten_range m.rows m.cols fun k => m.data.getD k 0
  rw [← h.size_data] at hflat
  refine hflat.trans (List.ext_getElem (by simp) fun k hk hk' => ?_)
  have hsize : k < m.data.size := by simpa using hk'
  simp [hsize]

theorem length_of_mem_toRows {m : Matrix} {row : List Float} (h : row ∈ m.toRows) :
    row.length = m.cols := by
  obtain ⟨i, -, rfl⟩ := List.mem_map.mp h
  simp

theorem toRows_ne_nil {m : Matrix} (h : m.Valid) : m.toRows ≠ [] := by
  simpa [toRows] using h.rows_pos.ne'

theorem text_scalar (x : Float) : (scalar x).text.toList = Number.chars x := by
  simp [text, isScalar, scalar, cell, Number.text]

theorem negate_scalar (x : Float) : (scalar x).negate = scalar (-x) := by
  simp [negate, map, scalar]

end Matrix

/-- A finite number has a passage for a text. -/
theorem exists_cell {x : Float} (h : Number.isFinite x = true) :
    ∃ p : Passage, p.text = Number.chars x ∧ ∀ env, p.tree.eval env = (.ok (.scalar x), env) := by
  cases hx : Number.isUnsigned x with
  | true => exact ⟨.number x hx, rfl, fun _ => rfl⟩
  | false =>
    -- the minus of a negative number is read as an operator
    obtain ⟨y, hy, hchars, rfl⟩ := Number.chars_negative h hx
    refine ⟨(Passage.number y hy).negated (Passage.closed_number y hy), hchars.symm, fun env => ?_⟩
    rw [← Matrix.negate_scalar]
    rfl

theorem evalCells_map {f : Float → Passage} {xs : List Float}
    (h : ∀ x ∈ xs, ∀ env, (f x).tree.eval env = (.ok (.scalar x), env)) (env : Environment) :
    Expr.evalCells (xs.map fun x => (f x).tree) env = (.ok xs, env) := by
  induction xs with
  | nil => rfl
  | cons x xs ih =>
    have hx := h x (by simp) env
    have hxs := ih fun y hy => h y (List.mem_cons_of_mem x hy)
    have hscalar : Eval.lift (Matrix.asScalar "Matrix literal element" (.scalar x)) env =
        (.ok x, env) := rfl
    rw [List.map_cons, Expr.evalCells, bind_of_ok hx, bind_of_ok hscalar, bind_of_ok hxs]
    rfl

theorem Matrix.ofData_self {v : Matrix} (hv : v.Valid) (hsize : v.size ≤ maxCells) :
    Matrix.ofData v.shape v.data = .ok v := by
  have hpos : ¬ (v.rows = 0 ∨ v.cols = 0) := by
    have := hv.rows_pos
    have := hv.cols_pos
    omega
  have hmax : v.rows * v.cols ≤ maxCells := hv.size_data ▸ hsize
  simp only [ofData, shape, checkSize, hpos, hmax, hv.size_data, ite_true, ite_false]
  rfl

/-! ## Literals -/

section

variable {v : Matrix} (hv : v.Valid) {f : Float → Passage}

/-- The literal of a matrix. -/
def literalOf (f : Float → Passage) : Passage :=
  .literal (.ofTable f (Matrix.toRows_ne_nil hv) hv.cols_pos fun _ => Matrix.length_of_mem_toRows)

theorem text_literalOf (hscalar : ¬ v.isScalar = true)
    (htext : ∀ x ∈ v.data, (f x).text = Number.chars x) :
    (literalOf hv f).text = v.text.toList := by
  have hcells : ∀ x ∈ v.toRows.flatten, (f x).text = Number.chars x := by
    rw [Matrix.flatten_toRows hv]
    exact fun x hx => htext x (by simpa using hx)
  rw [literalOf, Passage.text_ofTable _ _ _ _ hcells]
  simp [Matrix.text, hscalar, Function.comp_def, Number.text]

theorem eval_literalOf (hsize : v.size ≤ maxCells)
    (heval : ∀ x ∈ v.data, ∀ env, (f x).tree.eval env = (.ok (.scalar x), env))
    (env : Environment) : (literalOf hv f).tree.eval env = (.ok v, env) := by
  have hcells : Expr.evalCells (v.data.toList.map fun x => (f x).tree) env =
      (.ok v.data.toList, env) :=
    evalCells_map (fun x hx => heval x (by simpa using hx)) env
  have hshape : (⟨v.toRows.length, v.cols⟩ : Shape) = v.shape := by
    simp [Matrix.toRows, Matrix.shape]
  rw [literalOf, Passage.tree_ofTable, Matrix.flatten_toRows hv, Expr.eval, bind_of_ok hcells,
    Array.toArray_toList, hshape, Matrix.ofData_self hv hsize]
  rfl

end

/-- **The text of a value is an expression for it**: compiled and evaluated in any environment,
it gives the value back, cell by cell, and leaves the environment as it was. -/
theorem eval_text {v : Matrix} (hv : v.Valid) (hsize : v.size ≤ maxCells)
    (hfinite : ∀ x ∈ v.data, Number.isFinite x = true) (env : Environment) :
    ∃ ts e, Token.scan v.text = .ok ts ∧ Expr.ofTokens ts = .ok e ∧ e.eval env = (.ok v, env) := by
  suffices h : ∃ p : Passage, p.text = v.text.toList ∧ p.tree.eval env = (.ok v, env) by
    obtain ⟨p, htext, heval⟩ := h
    exact ⟨_, p.tree, (htext ▸ p.scans).scan, p.ofTokens_eq, heval⟩
  have hexists : ∀ x ∈ v.data, ∃ p : Passage, p.text = Number.chars x ∧
      ∀ env, p.tree.eval env = (.ok (.scalar x), env) := fun x hx => exists_cell (hfinite x hx)
  -- one passage for each number among the cells
  choose! f htext heval using hexists
  by_cases hscalar : v.isScalar = true
  · obtain ⟨hrows, hcols⟩ := Matrix.isScalar_iff.mp hscalar
    obtain ⟨x, rfl⟩ : ∃ x, v = .scalar x := ⟨_, hv.eq_scalar hrows hcols⟩
    have hx : x ∈ (Matrix.scalar x).data := by simp [Matrix.scalar]
    exact ⟨f x, (htext x hx).trans (Matrix.text_scalar x).symm, heval x hx env⟩
  · exact ⟨literalOf hv f, text_literalOf hv hscalar htext, eval_literalOf hv hsize heval env⟩

/-- A fraction, a negative number, a negative zero and a number with 22 digits. -/
def mixedCells : Matrix :=
  ⟨2, 2, #[0.1, -2, -0, 1e21]⟩

theorem eval_text_mixedCells : mixedCells.Valid ∧ mixedCells.size ≤ maxCells ∧
    (∀ x ∈ mixedCells.data, Number.isFinite x = true) ∧
    ∃ ts e, Token.scan mixedCells.text = .ok ts ∧ Expr.ofTokens ts = .ok e ∧
      e.eval (.empty .zero) = (.ok mixedCells, .empty .zero) := by
  have hvalid : mixedCells.Valid := ⟨by decide, by decide, by decide⟩
  have hsize : mixedCells.size ≤ maxCells := by decide
  have hfinite : ∀ x ∈ mixedCells.data, Number.isFinite x = true := by
    decide +kernel
  exact ⟨hvalid, hsize, hfinite, eval_text hvalid hsize hfinite _⟩

end MatrixLang
