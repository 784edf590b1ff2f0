import MatrixLang.Proofs.Confinement
import MatrixLang.Proofs.GuardedMatrix
import MatrixLang.Proofs.Parts

/-! # Effects of expressions and assignments

An expression changes no variable but those to which `inc` or `dec` is applied in it, and leaves
these the shapes they have, whether its evaluation comes to an end or fails on the way.  A statement
that assigns does so when nothing can fail any more, so without `inc` and `dec` it does all or
nothing.

That writing into a matrix is the last thing to happen is in the way `Matrix.set` and
`Matrix.setBlock` are typed: they give a new matrix or an error.  `InPlace` has them once more as
they are done to a matrix that is there, a cell after the other, where what was written before a
failure would stay.  Nothing has been written by then (`InPlace.Writes`).
-/

namespace MatrixLang

/-! ## Updates -/

namespace Expr

/-- The variable that `inc` or `dec` is applied to in the outermost call. -/
def update? : Expr → Option String
  | .call .inc [.variable name] | .call .dec [.variable name] => some name
  | _ => none

/-- The variables that `inc` or `dec` is applied to anywhere in an expression. -/
def updated (e : Expr) : List String :=
  e.parts.filterMap update?

/-- An expression updates what those in it do, and what it does itself. -/
theorem updated_eq {e : Expr} {inside : List Expr} (h : e.parts = inside ++ [e]) :
    e.updated = inside.filterMap update? ++ e.update?.toList := by
  rw [updated, h, List.filterMap_append]
  cases he : e.update? <;> simp [he]

theorem filterMap_partsOfAll (es : List Expr) :
    (partsOfAll es).filterMap update? = es.flatMap updated := by
  rw [partsOfAll_eq_flatMap, List.filterMap_flatMap]
  rfl

theorem updated_matrix (rows cols : Nat) (es : List Expr) :
    (matrix rows cols es).updated = es.flatMap updated := by
  rw [updated_eq (e := matrix rows cols es) rfl, filterMap_partsOfAll]
  exact List.append_nil _

theorem updated_unary (op : UnaryOperator) (e : Expr) : (unary op e).updated = e.updated := by
  rw [updated_eq (e := unary op e) rfl]
  exact List.append_nil _

theorem updated_binary (op : BinaryOperator) (a b : Expr) :
    (binary op a b).updated = a.updated ++ b.updated := by
  rw [updated_eq (e := binary op a b) rfl, List.filterMap_append]
  exact List.append_nil _

theorem updated_call (f : Builtin) (arguments : List Expr) : (call f arguments).updated =
    arguments.flatMap updated ++ (call f arguments).update?.toList := by
  rw [updated_eq (e := call f arguments) rfl, filterMap_partsOfAll]

-- Only a variable by itself is updated, and not what is computed from one.
example : (binary .add (.call .inc [.variable "x"])
    (.call .dec [.unary .neg (.variable "y")])).updated = ["x"] := rfl

end Expr

namespace Environment

/-- What an environment may become if values of the same shape are given to some of its variables,
one after the other. -/
inductive Updated (names : List String) (before : Environment) : Environment → Prop
  | unchanged : Updated names before before
  | set {env : Environment} {name : String} {old new : Matrix} (h : Updated names before env)
      (hname : name ∈ names) (hold : env.get? name = some old) (hshape : new.shape = old.shape) :
      Updated names before (env.set name new)

namespace Updated

variable {names : List String} {a b c : Environment}

theorem trans (hab : Updated names a b) (hbc : Updated names b c) : Updated names a c := by
  induction hbc with
  | unchanged => exact hab
  | set _ hname hold hshape ih => exact ih.set hname hold hshape

theorem missing_eq (h : Updated names a b) : b.missing = a.missing := by
  induction h with
  | unchanged => rfl
  | set _ _ _ _ ih => exact ih

/-- The same variables have values, and these have the same shapes. -/
theorem shape_eq (h : Updated names a b) (x : String) :
    (b.get? x).map Matrix.shape = (a.get? x).map Matrix.shape := by
  induction h with
  | unchanged => rfl
  | @set env name old new _ _ hold hshape ih =>
    rw [get?_set, ← ih]
    by_cases hx : x = name
    · rw [if_pos hx, hx, hold, Option.map_some, Option.map_some, hshape]
    · rw [if_neg hx]

theorem contains_eq (h : Updated names a b) (x : String) : b.contains x = a.contains x := by
  have hshape := congrArg Option.isSome (h.shape_eq x)
  rwa [Option.isSome_map, Option.isSome_map] at hshape

theorem get?_eq (h : Updated names a b) {x : String} (hx : x ∉ names) : b.get? x = a.get? x := by
  induction h with
  | unchanged => rfl
  | @set env name _ _ _ hname _ _ ih =>
    have hne : x ≠ name := fun heq => hx (heq ▸ hname)
    rw [get?_set, if_neg hne, ih]

theorem eq_of_nil (h : Updated [] a b) : b = a := by
  cases h with
  | unchanged => rfl
  | set _ hname _ _ => cases hname

end Updated

/-- What may be done to an environment by updates of some names. -/
def updating (names : List String) : Boundary Environment where
  Agree := Eq
  Kept := Updated names
  refl _ := .unchanged
  trans := .trans

end Environment

/-! ## Expressions -/

namespace Eval

open Environment (Updated updating)

variable {α : Type} {names : List String} {x : Eval α}

theorem updating_of_kept (h : ∀ env, Updated names env (x env).2) :
    Confined (updating names) x where
  agree heq := by
    cases heq
    exact ⟨rfl, rfl⟩
  kept := h

/-- A computation that only reads. -/
theorem updating_of_eq (h : ∀ env, (x env).2 = env) : Confined (updating names) x :=
  updating_of_kept fun env => (h env).symm ▸ .unchanged

theorem updating_update {name : String} (hname : name ∈ names) (f : Float → Float) :
    Confined (updating names) (update name (Matrix.map f)) := by
  refine updating_of_kept fun env => ?_
  cases hold : env.get? name with
  | none =>
    have hlookup : env.lookup name = .error (.undeclared name) := by
      rw [Environment.lookup, hold]
      rfl
    rw [update_of_error hlookup]
    exact .unchanged
  | some old =>
    have hlookup : env.lookup name = .ok old := by
      rw [Environment.lookup, hold]
      rfl
    rw [update_of_lookup hlookup]
    exact Updated.unchanged.set hname hold rfl

end Eval

namespace Expr

open Environment (updating)

variable {names : List String}

mutual

/-- **An expression only updates**, and only the variables that it says. -/
theorem updating_eval : ∀ {e : Expr}, e.updated ⊆ names → Confined (updating names) e.eval
  | .literal value, _ => by
    rw [eval]
    exact .pure _
  | .variable name, _ => by
    rw [eval]
    exact Eval.updating_of_eq fun _ => rfl
  | .matrix rows cols elements, h => by
    rw [updated_matrix] at h
    rw [eval]
    exact (updating_evalCells h).bind fun _ => Eval.updating_of_eq fun _ => rfl
  | .unary op operand, h => by
    rw [updated_unary] at h
    rw [eval]
    exact (updating_eval h).bind fun _ => .pure _
  | .binary op left right, h => by
    rw [updated_binary] at h
    obtain ⟨hleft, hright⟩ := List.append_subset.mp h
    rw [eval]
    refine (updating_eval hleft).bind fun a => (updating_eval hright).bind fun b => ?_
    exact Eval.updating_of_eq fun _ => rfl
  | .call f arguments, h => by
    rw [eval]
    cases hupdate : Eval.updateCall? f arguments with
    | some result =>
      obtain ⟨name, change, hf, rfl, rfl⟩ := Eval.updateCall?_eq_some hupdate
      have hname : name ∈ (call f [.variable name]).updated := by
        rcases hf with rfl | rfl <;> exact List.mem_cons_self
      exact Eval.updating_update (h hname) change
    | none =>
      rw [updated_call] at h
      refine (updating_evalAll (List.append_subset.mp h).1).bind fun values => ?_
      exact Eval.updating_of_eq fun _ => rfl

theorem updating_evalCells : ∀ {es : List Expr}, es.flatMap updated ⊆ names →
    Confined (updating names) (evalCells es)
  | [], _ => by
    rw [evalCells]
    exact .pure _
  | e :: es, h => by
    rw [List.flatMap_cons] at h
    obtain ⟨he, hes⟩ := List.append_subset.mp h
    rw [evalCells]
    refine (updating_eval he).bind fun m => (Eval.updating_of_eq fun _ => rfl).bind fun x => ?_
    exact (updating_evalCells hes).bind fun _ => .pure _

theorem updating_evalAll : ∀ {es : List Expr}, es.flatMap updated ⊆ names →
    Confined (updating names) (evalAll es)
  | [], _ => by
    rw [evalAll]
    exact .pure _
  | e :: es, h => by
    rw [List.flatMap_cons] at h
    obtain ⟨he, hes⟩ := List.append_subset.mp h
    rw [evalAll]
    exact (updating_eval he).bind fun m => (updating_evalAll hes).bind fun _ => .pure _

end

end Expr

/-! ## Statements -/

/-- What a statement without a body assigns to, and the expressions in it. -/
def Statement.simple? : Statement → Option (Option String × List Expr)
  | .assign _ target value => some (some target, [value])
  | .assignIndex _ target index value => some (some target, [index, value])
  | .assignBlock _ target row col value => some (some target, [row, col, value])
  | .eval _ value => some (none, [value])
  | .choose .. | .whileLoop .. | .forLoop .. | .block .. => none

namespace Environment

/-- What an environment may become if some names are updated, and after that the target is given a
value, if there is one. -/
def Assigned (target : Option String) (names : List String) (before after : Environment) : Prop :=
  ∃ env, Updated names before env ∧
    match target with
    | none => after = env
    | some name => ∃ value, after = env.set name value

variable {target : Option String} {names : List String} {a b c : Environment}

theorem Assigned.of_updated (hab : Updated names a b) (hbc : Assigned target names b c) :
    Assigned target names a c := by
  obtain ⟨env, henv, hafter⟩ := hbc
  exact ⟨env, hab.trans henv, hafter⟩

theorem Assigned.missing_eq (h : Assigned target names a b) : b.missing = a.missing := by
  obtain ⟨env, henv, hafter⟩ := h
  cases target with
  | none => rw [hafter, henv.missing_eq]
  | some name =>
    obtain ⟨value, rfl⟩ := hafter
    exact henv.missing_eq

theorem Assigned.get?_eq (h : Assigned target names a b) {x : String} (hx : x ∉ names)
    (htarget : some x ≠ target) : b.get? x = a.get? x := by
  obtain ⟨env, henv, hafter⟩ := h
  cases target with
  | none => rw [hafter, henv.get?_eq hx]
  | some name =>
    obtain ⟨value, rfl⟩ := hafter
    have hne : x ≠ name := fun heq => htarget (congrArg some heq)
    rw [get?_set, if_neg hne, henv.get?_eq hx]

end Environment

namespace Run

open Environment (Updated Assigned updating)

variable {α β : Type} {R W : Environment → Environment → Prop} {target : Option String}
  {names : List String} {name : String}

/-- A part of a run that does no more than `R` to the environment if it fails, and `W` if it comes
to its end. -/
structure Commits (R W : Environment → Environment → Prop) (x : Run α) : Prop where
  failed : ∀ {m n : Machine} {stop : Stop}, x m = (.error stop, n) → R m.env n.env
  done : ∀ {m n : Machine} {a : α}, x m = (.ok a, n) → W m.env n.env

theorem Commits.bind {x : Run α} {f : α → Run β} (hx : Commits (Updated names) (Updated names) x)
    (hf : ∀ a, Commits (Updated names) (Assigned target names) (f a)) :
    Commits (Updated names) (Assigned target names) (x >>= f) where
  failed {m n stop} h := by
    rcases hm : x m with ⟨r, m'⟩
    cases r with
    | error e =>
      rw [bind_of_error hm] at h
      cases h
      exact hx.failed hm
    | ok a =>
      rw [bind_of_ok hm] at h
      exact (hx.done hm).trans ((hf a).failed h)
  done {m n b} h := by
    rcases hm : x m with ⟨r, m'⟩
    cases r with
    | error e =>
      rw [bind_of_error hm] at h
      cases h
    | ok a =>
      rw [bind_of_ok hm] at h
      exact ((hf a).done h).of_updated (hx.done hm)

theorem commits_atLine {x : Eval α} (line : Nat)
    (hfailed : ∀ {a b : Environment} {cause : Error}, x a = (.error cause, b) → R a b)
    (hdone : ∀ {a b : Environment} {r : α}, x a = (.ok r, b) → W a b) :
    Commits R W (atLine line x) where
  failed {m n stop} h := by
    unfold atLine at h
    rcases hm : x m.env with ⟨r, env⟩
    rw [hm] at h
    cases r with
    | error cause =>
      cases h
      exact hfailed hm
    | ok a => cases h
  done {m n a} h := by
    unfold atLine at h
    rcases hm : x m.env with ⟨r, env⟩
    rw [hm] at h
    cases r with
    | error cause => cases h
    | ok a =>
      cases h
      exact hdone hm

theorem commits_confined {x : Eval α} (h : Confined (updating names) x) (line : Nat) :
    Commits (Updated names) (Updated names) (atLine line x) := by
  refine commits_atLine line (fun {a b _} hx => ?_) fun {a b _} hx => ?_
  · have hkept := h.kept a
    rw [hx] at hkept
    exact hkept
  · have hkept := h.kept a
    rw [hx] at hkept
    exact hkept

theorem commits_eval {e : Expr} (h : e.updated ⊆ names) (line : Nat) :
    Commits (Updated names) (Updated names) (atLine line e.eval) :=
  commits_confined (Expr.updating_eval h) line

theorem commits_integer {e : Expr} (h : e.updated ⊆ names) (context : String) (line : Nat) :
    Commits (Updated names) (Updated names) (atLine line (integer context e)) :=
  commits_confined ((Expr.updating_eval h).bind fun _ => Eval.updating_of_eq fun _ => rfl) line

theorem commits_assign (value : Matrix) :
    Commits (Updated names) (Assigned (some name) names) (assign name value) where
  failed h := by cases h
  done h := by
    cases h
    exact ⟨_, .unchanged, value, rfl⟩

theorem commits_note (n : Note) : Commits (Updated names) (Assigned none names) (note n) where
  failed h := by cases h
  done h := by
    cases h
    exact ⟨_, .unchanged, rfl⟩

/-- A change that fails is none. -/
theorem commits_change (f : Matrix → Except Error Matrix) (line : Nat) :
    Commits (Updated names) (Assigned (some name) names) (atLine line (change name f)) := by
  have hchange : ∀ env, (∃ cause, change name f env = (.error cause, env)) ∨
      ∃ value, change name f env = (.ok (), env.set name value) := by
    intro env
    cases hlookup : env.lookup name with
    | error cause =>
      have hread : Eval.lookup name env = (.error cause, env) := by rw [Eval.lookup, hlookup]
      exact .inl ⟨cause, by rw [change, bind_of_error hread]⟩
    | ok old =>
      have hread : Eval.lookup name env = (.ok old, env) := by rw [Eval.lookup, hlookup]
      cases hvalue : f old with
      | error cause =>
        have hlift : Eval.lift (f old) env = (.error cause, env) := by rw [Eval.lift, hvalue]
        exact .inl ⟨cause, by rw [change, bind_of_ok hread, bind_of_error hlift]⟩
      | ok value =>
        have hlift : Eval.lift (f old) env = (.ok value, env) := by rw [Eval.lift, hvalue]
        exact .inr ⟨value, by rw [change, bind_of_ok hread, bind_of_ok hlift]; rfl⟩
  refine commits_atLine line (fun {a b _} h => ?_) fun {a b _} h => ?_
  · rcases hchange a with ⟨cause, ha⟩ | ⟨value, ha⟩
    · cases ha.symm.trans h
      exact .unchanged
    · cases ha.symm.trans h
  · rcases hchange a with ⟨cause, ha⟩ | ⟨value, ha⟩
    · cases ha.symm.trans h
    · cases ha.symm.trans h
      exact ⟨_, .unchanged, value, rfl⟩

/-- **A statement without a body assigns at its end or not at all.** -/
theorem commits_statement {s : Statement} {es : List Expr} (hs : s.simple? = some (target, es))
    (hnames : es.flatMap Expr.updated ⊆ names) (fuel : Nat) :
    Commits (Updated names) (Assigned target names) (statement fuel s) := by
  cases fuel with
  | zero =>
    rw [statement]
    exact ⟨fun h => by cases h; exact .unchanged, fun h => by cases h⟩
  | succ fuel =>
    cases s with
    | assign line name value =>
      cases hs
      simp only [List.flatMap_cons, List.flatMap_nil, List.append_nil] at hnames
      rw [statement]
      exact (commits_eval hnames line).bind commits_assign
    | assignIndex line name index value =>
      cases hs
      simp only [List.flatMap_cons, List.flatMap_nil, List.append_nil, List.append_subset] at hnames
      rw [statement]
      exact (commits_integer hnames.1 _ line).bind fun i =>
        (commits_eval hnames.2 line).bind fun v => commits_change _ line
    | assignBlock line name row col value =>
      cases hs
      simp only [List.flatMap_cons, List.flatMap_nil, List.append_nil, List.append_subset] at hnames
      rw [statement]
      exact (commits_integer hnames.1 _ line).bind fun r =>
        (commits_integer hnames.2.1 _ line).bind fun c =>
          (commits_eval hnames.2.2 line).bind fun v => commits_change _ line
    | eval line value =>
      cases hs
      simp only [List.flatMap_cons, List.flatMap_nil, List.append_nil] at hnames
      rw [statement]
      exact (commits_eval hnames line).bind fun v => commits_note _
    | _ => cases hs

end Run

/-! ## Writing in place -/

/-- A computation that writes into a matrix.  What it wrote stays there if it fails later. -/
abbrev InPlace := ExceptT Error (StateM Matrix)

namespace InPlace

variable {α : Type} {m v : Matrix} {top left : Nat}

/-- A computation that writes nothing. -/
def lift (x : Except Error α) : InPlace α :=
  fun m => (x, m)

/-- Writes the cell at a place in the data. -/
def putDatum (k : Nat) (x : Float) : InPlace Unit :=
  modifyThe Matrix fun m => { m with data := m.data.setIfInBounds k x }

/-- Writes the cell in row `i` and column `j`. -/
def put (i j : Nat) (x : Float) : InPlace Unit :=
  modifyThe Matrix fun m => { m with data := m.data.setIfInBounds (i * m.cols + j) x }

/-- Writes a block, cell by cell. -/
def overlay (top left : Nat) (v : Matrix) : InPlace Unit :=
  (List.range v.rows).forM fun i => (List.range v.cols).forM fun j =>
    put (top + i) (left + j) (v.cell i j)

/-- Writes an element of a vector, or a row or column of a matrix. -/
def set (index : Int64) (v : Matrix) : InPlace Unit := do
  let m ← getThe Matrix
  if m.isScalar then
    let _ ← lift (Matrix.checkIndex index 1)
    let x ← lift (v.asScalar "Vector element assignment")
    putDatum 0 x
  else if m.isVector then
    let i ← lift (Matrix.checkIndex index m.size)
    let x ← lift (v.asScalar "Vector element assignment")
    putDatum i x
  else if ¬ v.isVector then throw (.shapeMismatch "row assignment" m.shape v.shape)
  else if v.rows = 1 ∧ v.cols = m.cols then
    let r ← lift (Matrix.checkIndex index m.rows)
    overlay r 0 v
  else if v.cols = 1 ∧ v.rows = m.rows then
    let c ← lift (Matrix.checkIndex index m.cols)
    overlay 0 c v
  else throw (.shapeMismatch "row assignment" m.shape v.shape)

/-- Writes a block whose first cell is at a row and column that count from one. -/
def setBlock (row col : Int64) (v : Matrix) : InPlace Unit := do
  let m ← getThe Matrix
  let top ← lift (Matrix.checkIndex row m.rows)
  let left ← lift (Matrix.checkIndex col m.cols)
  if m.rows < top + v.rows then throw (.outOfBounds (top + v.rows : Nat) m.rows)
  else if m.cols < left + v.cols then throw (.outOfBounds (left + v.cols : Nat) m.cols)
  else overlay top left v

/-- Writing into `m` comes to `result`, and leaves `m` as it is if that is an error. -/
def Writes (x : InPlace Unit) (m : Matrix) (result : Except Error Matrix) : Prop :=
  x m = match result with
    | .ok m' => (.ok (), m')
    | .error e => (.error e, m)

theorem Writes.read {f : Matrix → InPlace Unit} {result : Except Error Matrix}
    (h : Writes (f m) m result) : Writes (getThe Matrix >>= f) m result := h

theorem Writes.check {x : Except Error α} {f : α → InPlace Unit} {g : α → Except Error Matrix}
    (h : ∀ a, x = .ok a → Writes (f a) m (g a)) : Writes (lift x >>= f) m (x >>= g) := by
  cases x with
  | error e => rfl
  | ok a => exact h a rfl

theorem Writes.throw (e : Error) : Writes (throw e) m (throw e) := rfl

/-- Loops of guarded writes that all succeed are loops of plain ones. -/
theorem forM_of_foldlM {f : Matrix → α → Guarded Matrix} {g : α → InPlace Unit}
    (h : ∀ m x m', f m x = .ok m' → g x m = (.ok (), m')) {xs : List α} {m' : Matrix}
    (hfold : xs.foldlM f m = .ok m') : xs.forM g m = (.ok (), m') := by
  induction xs generalizing m with
  | nil =>
    cases hfold
    rfl
  | cons x xs ih =>
    rw [List.foldlM_cons] at hfold
    obtain ⟨next, hnext, hrest⟩ := exists_of_bind_eq_ok hfold
    show (g x >>= fun _ => xs.forM g) m = _
    rw [bind_of_ok (h m x next hnext)]
    exact ih hrest

theorem put_of_ok {i j : Nat} {x : Float} {m' : Matrix} (h : Checked.put m i j x = .ok m') :
    put i j x m = (.ok (), m') := by
  unfold Checked.put at h
  split at h
  · cases h
    rfl
  · cases h

theorem cell_of_ok {i j : Nat} {x : Float} (h : Checked.cell v i j = .ok x) : v.cell i j = x := by
  rw [Checked.cell_eq_ite, Guarded.item] at h
  split at h
  · split at h
    · rename_i hcell
      cases h
      rw [Matrix.cell, Array.getD_eq_getD_getElem?, ← Array.getElem?_toList, hcell]
      rfl
    · cases h
  · cases h

/-- A block is written in place if it fits. -/
theorem overlay_run (hm : m.Valid) (hv : v.Valid) (hrows : top + v.rows ≤ m.rows)
    (hcols : left + v.cols ≤ m.cols) : overlay top left v m = (.ok (), m.overlay top left v) := by
  refine forM_of_foldlM (fun m i m' hrow => ?_) (Checked.overlay_eq hm hv hrows hcols)
  refine forM_of_foldlM (fun m j m' hcell => ?_) hrow
  obtain ⟨x, hx, hput⟩ := exists_of_bind_eq_ok hcell
  rw [cell_of_ok hx]
  exact put_of_ok hput

/-- **An element, a row or a column is written after all checks.** -/
theorem writes_set (hm : m.Valid) (hv : v.Valid) (index : Int64) :
    Writes (set index v) m (m.set index v) := by
  refine .read ?_
  rw [Matrix.set]
  by_cases hscalar : m.isScalar = true
  · have hshape : m.rows = 1 ∧ m.cols = 1 := by simpa [Matrix.isScalar] using hscalar
    have hvector : m.isVector = true := by simp [Matrix.isVector, hshape]
    have hsize : m.size = 1 := by rw [Matrix.size, hm.size_data, hshape.1, hshape.2]
    rw [if_pos hscalar, if_pos hvector, hsize]
    refine .check fun i hi => .check fun x _ => ?_
    have hzero : i = 0 := Nat.lt_one_iff.mp (Checked.lt_of_checkIndex hi)
    rw [hzero]
    rfl
  rw [if_neg hscalar]
  by_cases hvector : m.isVector = true
  · rw [if_pos hvector, if_pos hvector]
    exact .check fun i _ => .check fun x _ => rfl
  rw [if_neg hvector, if_neg hvector]
  by_cases hrow : v.rows = 1 ∧ v.cols = m.cols
  · have hv' : v.isVector = true := by simp [Matrix.isVector, hrow]
    rw [if_neg (by simp [hv']), if_pos hrow, if_pos hrow]
    refine .check fun r hr => ?_
    have hlt := Checked.lt_of_checkIndex hr
    rw [← Matrix.overlay_row hrow]
    exact overlay_run hm hv (by omega) (by omega)
  rw [if_neg hrow, if_neg hrow]
  by_cases hcol : v.cols = 1 ∧ v.rows = m.rows
  · have hv' : v.isVector = true := by simp [Matrix.isVector, hcol]
    rw [if_neg (by simp [hv']), if_pos hcol, if_pos hcol]
    refine .check fun c hc => ?_
    have hlt := Checked.lt_of_checkIndex hc
    rw [← Matrix.overlay_column hcol]
    exact overlay_run hm hv (by omega) (by omega)
  · rw [if_neg hcol, if_neg hcol, ite_self]
    exact .throw _

/-- **A block is written after all checks.** -/
theorem writes_setBlock (hm : m.Valid) (hv : v.Valid) (row col : Int64) :
    Writes (setBlock row col v) m (m.setBlock row col v) := by
  refine .read (.check fun top _ => .check fun left _ => ?_)
  by_cases hrows : m.rows < top + v.rows
  · rw [if_pos hrows, if_pos hrows]
    exact .throw _
  rw [if_neg hrows, if_neg hrows]
  by_cases hcols : m.cols < left + v.cols
  · rw [if_pos hcols, if_pos hcols]
    exact .throw _
  · rw [if_neg hcols, if_neg hcols]
    exact overlay_run hm hv (by omega) (by omega)

end InPlace

/-- **Expressions only update, and simple statements do all or nothing.**  Whether an expression has
a value or fails, the same variables have values of the same shapes after it, and those to which it
does not apply `inc` or `dec` have the same values.  A statement without a body whose expressions
apply neither leaves the environment as it was if it fails, and else changes its target alone; and
it makes no difference that it writes into the value that is there, cell by cell. -/
theorem simple_statements_all_or_nothing :
    (∀ (e : Expr) (env : Environment) (x : String),
      (e.eval env).2.contains x = env.contains x ∧
        ((e.eval env).2.get? x).map Matrix.shape = (env.get? x).map Matrix.shape ∧
        (x ∉ e.updated → (e.eval env).2.get? x = env.get? x)) ∧
    (∀ (s : Statement) (target : Option String) (es : List Expr),
      s.simple? = some (target, es) → (∀ e ∈ es, e.updated = []) →
      ∀ (fuel : Nat) (before after : Machine),
        (∀ stop, Run.statement fuel s before = (.error stop, after) → after.env = before.env) ∧
        (Run.statement fuel s before = (.ok (), after) → after.env.missing = before.env.missing ∧
          ∀ x, some x ≠ target → after.env.get? x = before.env.get? x)) ∧
    ∀ m v : Matrix, m.Valid → v.Valid →
      (∀ index, InPlace.Writes (InPlace.set index v) m (m.set index v)) ∧
        ∀ row col, InPlace.Writes (InPlace.setBlock row col v) m (m.setBlock row col v) := by
  refine ⟨fun e env x => ?_, fun s target es hs hes fuel before after => ?_, fun m v hm hv => ?_⟩
  · have hupdated := (Expr.updating_eval (List.Subset.refl e.updated)).kept env
    exact ⟨hupdated.contains_eq x, hupdated.shape_eq x, hupdated.get?_eq⟩
  · have hnone : es.flatMap Expr.updated ⊆ [] := by
      rw [List.subset_nil, List.flatMap_eq_nil_iff]
      exact hes
    have hcommits := Run.commits_statement hs hnone fuel
    refine ⟨fun stop h => (hcommits.failed h).eq_of_nil, fun h => ?_⟩
    have hassigned := hcommits.done h
    exact ⟨hassigned.missing_eq, fun x hx => hassigned.get?_eq (List.not_mem_nil) hx⟩
  · exact ⟨InPlace.writes_set hm hv, InPlace.writes_setBlock hm hv⟩

end MatrixLang
