import MatrixLang.Proofs.Passages
import Mathlib.Tactic.Choose

/-! # Expressions as source text

The text of an expression puts parentheses around every operation, so nothing in it is left to
precedence.  Every well-formed expression has a passage for its text (`exists_passage`).
-/

namespace MatrixLang.Expr

/-- Expressions that a source text can stand for: names of variables are names, numbers have no
sign, literals have their cells, and calls as many arguments as their function accepts. -/
inductive WellFormed : Expr → Prop
  | number {value : Float} (h : Number.isUnsigned value = true) : WellFormed (.literal value)
  | name {text : String} (h : IsName text) : WellFormed (.variable text)
  | matrix {rows cols : Nat} {elements : List Expr} (hrows : 0 < rows) (hcols : 0 < cols)
      (hcount : elements.length = rows * cols) (h : ∀ e ∈ elements, WellFormed e) :
      WellFormed (.matrix rows cols elements)
  | unary (op : UnaryOperator) {operand : Expr} (h : WellFormed operand) :
      WellFormed (.unary op operand)
  | binary (op : BinaryOperator) {left right : Expr} (hl : WellFormed left)
      (hr : WellFormed right) : WellFormed (.binary op left right)
  | call {f : Builtin} {arguments : List Expr} (hcount : f.accepts arguments.length = true)
      (h : ∀ e ∈ arguments, WellFormed e) : WellFormed (.call f arguments)

/-! ## Cells and arguments -/

/-- A list cut into rows of one length. -/
theorem exists_rows {α : Type} {cols : Nat} (rows : Nat) {xs : List α}
    (h : xs.length = rows * cols) :
    ∃ table : List (List α), table.flatten = xs ∧ table.length = rows ∧
      ∀ row ∈ table, row.length = cols := by
  induction rows generalizing xs with
  | zero => exact ⟨[], by simp_all, rfl, nofun⟩
  | succ rows ih =>
    rw [Nat.succ_mul] at h
    obtain ⟨table, hflat, hlength, hrows⟩ := @ih (xs.drop cols) (by rw [List.length_drop]; omega)
    refine ⟨xs.take cols :: table, ?_, by simp [hlength], ?_⟩
    · rw [List.flatten_cons, hflat, List.take_append_drop]
    · refine List.forall_mem_cons.mpr ⟨?_, hrows⟩
      rw [List.length_take]
      omega

theorem toList_textOfArguments (es : List Expr) :
    (textOfArguments es).toList = [',', ' '].intercalate (es.map fun e => e.text.toList) := by
  induction es with
  | nil => rfl
  | cons e es ih =>
    cases es with
    | nil => simp [textOfArguments]
    | cons other es => simp [textOfArguments, ih]

theorem intercalate_cons {α : Type} (separator part : List α) (parts : List (List α)) :
    separator.intercalate (part :: parts) = part ++ parts.flatMap (separator ++ ·) := by
  induction parts generalizing part with
  | nil => simp
  | cons other parts ih => rw [List.intercalate_cons_cons, ih, List.flatMap_cons]; simp

/-- The text of a row of cells. -/
def rowChars (row : List Expr) : List Char :=
  [',', ' '].intercalate (row.map fun e => e.text.toList)

/-- The rest of a row of cells, of which `j` have been written. -/
theorem textOfCells_row {cols : Nat} (k : Nat) {j : Nat} (hj : 0 < j) (es rest : List Expr)
    (h : j + es.length ≤ cols) :
    (textOfCells cols (k * cols + j) (es ++ rest)).toList =
      (es.map fun e => e.text.toList).flatMap ([',', ' '] ++ ·) ++
        (textOfCells cols (k * cols + (j + es.length)) rest).toList := by
  induction es generalizing j with
  | nil => simp
  | cons e es ih =>
    have hlt : j < cols := by
      simp only [List.length_cons] at h
      omega
    have hmod : (k * cols + j) % cols ≠ 0 := by
      rw [Nat.mul_comm, Nat.mul_add_mod, Nat.mod_eq_of_lt hlt]
      omega
    have hzero : k * cols + j ≠ 0 := by omega
    have hes := @ih (j + 1) (by omega) (by simp only [List.length_cons] at h; omega)
    rw [List.cons_append, textOfCells, if_neg hzero, if_neg hmod, String.toList_append,
      String.toList_append, Nat.add_assoc, hes, List.length_cons, Nat.add_right_comm j,
      Nat.add_assoc j]
    simp

/-- A whole row of cells, and what comes after it. -/
theorem textOfCells_line {cols : Nat} (hcols : 0 < cols) (k : Nat) {row : List Expr}
    (hrow : row.length = cols) (rest : List Expr) :
    (textOfCells cols (k * cols) (row ++ rest)).toList =
      (if k = 0 then [] else [';', ' ']) ++ rowChars row ++
        (textOfCells cols ((k + 1) * cols) rest).toList := by
  obtain ⟨e, es, rfl⟩ := List.exists_cons_of_ne_nil (List.ne_nil_of_length_pos (hrow ▸ hcols))
  have hlength : 1 + es.length ≤ cols := by
    simp only [List.length_cons] at hrow
    omega
  have hes := textOfCells_row k Nat.one_pos es rest hlength
  have hlead : (if k * cols = 0 then "" else if k * cols % cols = 0 then "; " else ", ").toList =
      if k = 0 then [] else [';', ' '] := by
    rcases Nat.eq_zero_or_pos k with rfl | hk
    · simp
    · have hpos : k * cols ≠ 0 := (Nat.mul_pos hk hcols).ne'
      simp [hpos, hk.ne']
  rw [List.cons_append, textOfCells, String.toList_append, String.toList_append, hlead, hes,
    rowChars, List.map_cons, intercalate_cons, Nat.succ_mul, ← hrow, List.length_cons,
    Nat.add_comm 1]
  simp

/-- The rows of cells after the first. -/
theorem textOfCells_rows {cols : Nat} (hcols : 0 < cols) {table : List (List Expr)}
    (h : ∀ row ∈ table, row.length = cols) (k : Nat) :
    (textOfCells cols ((k + 1) * cols) table.flatten).toList =
      (table.map rowChars).flatMap ([';', ' '] ++ ·) := by
  induction table generalizing k with
  | nil => simp [textOfCells]
  | cons row table ih =>
    rw [List.flatten_cons, textOfCells_line hcols (k + 1) (h row (by simp)),
      ih (fun r hr => h r (List.mem_cons_of_mem row hr)) (k + 1)]
    simp

/-- The text between the brackets of a literal. -/
theorem toList_textOfCells {cols : Nat} (hcols : 0 < cols) {table : List (List Expr)}
    (h : ∀ row ∈ table, row.length = cols) :
    (textOfCells cols 0 table.flatten).toList = [';', ' '].intercalate (table.map rowChars) := by
  cases table with
  | nil => rfl
  | cons row table =>
    have hline := textOfCells_line hcols 0 (h row (by simp)) table.flatten
    have hrows := textOfCells_rows hcols (fun r hr => h r (List.mem_cons_of_mem row hr)) 0
    rw [Nat.zero_mul] at hline
    rw [List.flatten_cons, hline, hrows, List.map_cons, intercalate_cons]
    simp

/-! ## Passages -/

/-- **The text of a well-formed expression is a passage for it.** -/
theorem exists_passage {e : Expr} (h : e.WellFormed) :
    ∃ p : Passage, p.text = e.text.toList ∧ p.tree = e ∧ p.Closed := by
  induction h with
  | @number value h =>
    refine ⟨.number value h, ?_, rfl, Passage.closed_number value h⟩
    rw [text, Number.text, String.toList_ofList]
    rfl
  | @name name h =>
    refine ⟨.name name h, ?_, rfl, Passage.closed_name name h⟩
    rw [text]
    rfl
  | @matrix rows cols elements hrows hcols hcount _ ih =>
    choose! f htext htree _ using ih
    -- the cells stand in one list, and are cut into rows again
    obtain ⟨table, rfl, rfl, htable⟩ := exists_rows rows hcount
    have hne : table ≠ [] := List.ne_nil_of_length_pos hrows
    refine ⟨.literal (.ofTable f hne hcols htable), ?_, ?_, Passage.closed_literal _⟩
    · rw [Passage.text_ofTable _ _ _ _ htext, text, String.toList_append, String.toList_append,
        toList_textOfCells hcols htable]
      show _ = ['['] ++ [';', ' '].intercalate (table.map fun row => rowChars row) ++ [']']
      simp only [rowChars, List.cons_append, List.nil_append]
    · rw [Passage.tree_ofTable, List.map_congr_left htree]
      simp
  | @unary op operand _ ih =>
    obtain ⟨p, htext, rfl, hp⟩ := ih
    cases op with
    | neg =>
      refine ⟨(p.negated hp).paren, ?_, rfl, Passage.closed_paren _⟩
      show '(' :: ('-' :: p.text ++ [')']) = _
      rw [text, htext]
      simp
    | transpose =>
      refine ⟨p.quoted hp, ?_, rfl, Passage.closed_quoted p hp⟩
      show '(' :: (p.text ++ ['\'', ')']) = _
      rw [text, htext]
      simp
    | not =>
      refine ⟨(p.complemented hp).paren, ?_, rfl, Passage.closed_paren _⟩
      show '(' :: ("not".toList ++ [' '] ++ p.text ++ [')']) = _
      rw [text, htext]
      simp
  | @binary op left right _ _ ihl ihr =>
    obtain ⟨p, hptext, rfl, hp⟩ := ihl
    obtain ⟨q, hqtext, rfl, hq⟩ := ihr
    by_cases hop : op = .index
    · subst hop
      refine ⟨p.index q hp, ?_, rfl, Passage.closed_index p q hp⟩
      show p.text ++ ('[' :: (q.text ++ [']'])) = _
      rw [text, hptext, hqtext]
      simp
    · refine ⟨(Passage.between op hop p q hp hq).paren, ?_, rfl, Passage.closed_paren _⟩
      show '(' :: (p.text ++ (' ' :: op.symbol.toList ++ [' '] ++ q.text) ++ [')']) = _
      rw [text, hptext, hqtext]
      · simp
      · exact hop
  | @call f arguments hcount _ ih =>
    choose! g htext htree _ using ih
    have hlength : f.accepts (arguments.map g).length = true := by rwa [List.length_map]
    refine ⟨.call f (arguments.map g) hlength, ?_, ?_, Passage.closed_call f _ hlength⟩
    · show f.name.toList ++ ('(' :: ([',', ' '].intercalate ((arguments.map g).map Passage.text) ++
        [')'])) = _
      have htexts : (arguments.map g).map Passage.text = arguments.map fun e => e.text.toList := by
        rw [List.map_map]
        exact List.map_congr_left htext
      rw [htexts, text]
      simp [toList_textOfArguments]
    · show call f ((arguments.map g).map Passage.tree) = _
      have htrees : (arguments.map g).map Passage.tree = arguments.map id := by
        rw [List.map_map]
        exact List.map_congr_left htree
      rw [htrees, List.map_id]

end MatrixLang.Expr
