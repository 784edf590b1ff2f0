import MatrixLang.Proofs.Infix

/-! # Precedence climbing

The reference for what the tokens of an expression mean: a parser that calls itself
(`Climb.parse`).  It reads an operand, and then applies to it the operators that come next as
long as they bind tighter than a given level.  The operand of a sign before it and the right
operand of an operator are read at the level of that operator, so equal ones apply from left to
right.

`Climb.parse_tokens` states what it gives for the tokens of a derivation: the tree of
`Infix.tree`.  The levels at which the parser is called inside each other are those of the
frames of `Infix.walk`.
-/

namespace MatrixLang.Climb

open Infix (Frame)

/-- A level above every priority. -/
def loosest : Nat := 12

theorem priority_lt_loosest (op : BinaryOperator) : op.priority < loosest := by
  cases op <;> decide

mutual

/-- The expression that some tokens start with, whose operators bind tighter than `level`,
and the tokens after it.  What is left is always shorter (`length_parse`); the tests for it
are there for termination only, here and below. -/
def parse (level : Nat) (ts : List Token) : Option (Expr × List Token) :=
  match operand ts with
  | some (e, rest) => if rest.length < ts.length then apply level e rest else none
  | none => none
termination_by (ts.length, 1)

/-- The operand that some tokens start with, and the tokens after it. -/
def operand (ts : List Token) : Option (Expr × List Token) :=
  match ts with
  | .number value :: rest => some (.literal value, rest)
  | .name text :: rest => some (.variable text, rest)
  | .openParen :: rest =>
    match parse loosest rest with
    | some (e, .closeParen :: rest) => some (e, rest)
    | _ => none
  | .function f none :: .openParen :: rest =>
    match cells rest with
    | some (arguments, .closeParen :: rest) => some (.call f arguments, rest)
    | _ => none
  | .openBracket :: rest =>
    match rows rest with
    | some (found, .closeBracket :: rest) =>
      let shape := Infix.shapeOf found
      some (.matrix shape.rows shape.cols found.flatten, rest)
    | _ => none
  | .operator op :: rest =>
    match Prefix.ofWritten? op with
    | some p =>
      match parse p.meant.priority rest with
      | some (e, rest) => some (.unary p.node e, rest)
      | none => none
    | none => none
  | _ => none
termination_by (ts.length, 0)

/-- Applies the operators that come next to the operand `e`, as long as they bind tighter
than `level`. -/
def apply (level : Nat) (e : Expr) (ts : List Token) : Option (Expr × List Token) :=
  match ts with
  | .operator .transpose :: rest =>
    if Operator.transpose.priority < level then apply level (.unary .transpose e) rest
    else some (e, ts)
  | .openBracket :: rest =>
    if BinaryOperator.index.priority < level then
      match parse loosest rest with
      | some (i, .closeBracket :: rest') =>
        if rest'.length < rest.length then apply level (.binary .index e i) rest' else none
      | _ => none
    else some (e, ts)
  | .operator (.binary op) :: rest =>
    if op.priority < level then
      match parse op.priority rest with
      | some (right, rest') =>
        if rest'.length < rest.length then apply level (.binary op e right) rest' else none
      | none => none
    else some (e, ts)
  | _ => some (e, ts)
termination_by (ts.length, 0)

/-- Expressions with commas between them. -/
def cells (ts : List Token) : Option (List Expr × List Token) :=
  match parse loosest ts with
  | some (e, .comma :: rest) =>
    if rest.length < ts.length then (cells rest).map fun r => (e :: r.1, r.2) else none
  | some (e, rest) => some ([e], rest)
  | none => none
termination_by (ts.length, 2)

/-- Rows of expressions with semicolons between them. -/
def rows (ts : List Token) : Option (List (List Expr) × List Token) :=
  match cells ts with
  | some (row, .semicolon :: rest) =>
    if rest.length < ts.length then (rows rest).map fun r => (row :: r.1, r.2) else none
  | some (row, rest) => some ([row], rest)
  | none => none
termination_by (ts.length, 3)

end

/-! ## What is left is shorter -/

theorem length_apply (level : Nat) (e e' : Expr) (ts rest : List Token)
    (h : apply level e ts = some (e', rest)) : rest.length ≤ ts.length := by
  induction hn : ts.length using Nat.strongRecOn generalizing e ts with
  | ind n ih =>
    subst hn
    unfold apply at h
    split at h
    · -- a quote
      split at h
      · exact Nat.le_of_lt (Nat.lt_succ_of_le (ih _ (by simp) _ _ h rfl))
      · simp_all
    · -- an index
      split at h
      · split at h
        · rename_i after _
          split at h
          · rename_i hlt
            have := ih _ (by simp only [List.length_cons]; omega) _ _ h rfl
            simp only [List.length_cons]
            omega
          · simp at h
        · simp at h
      · simp_all
    · -- an operator with two operands
      split at h
      · split at h
        · split at h
          · rename_i hlt
            have := ih _ (by simp only [List.length_cons]; omega) _ _ h rfl
            simp only [List.length_cons]
            omega
          · simp at h
        · simp at h
      · simp_all
    · simp_all

theorem length_parse {level : Nat} {ts rest : List Token} {e : Expr}
    (h : parse level ts = some (e, rest)) : rest.length < ts.length := by
  unfold parse at h
  split at h
  · split at h
    · rename_i hlt
      exact Nat.lt_of_le_of_lt (length_apply _ _ _ _ _ h) hlt
    · simp at h
  · simp at h

theorem length_cells {ts rest : List Token} {es : List Expr}
    (h : cells ts = some (es, rest)) : rest.length < ts.length := by
  induction hn : ts.length using Nat.strongRecOn generalizing es ts with
  | ind n ih =>
    subst hn
    unfold cells at h
    split at h
    · split at h
      · rename_i hlt
        obtain ⟨⟨es', rest'⟩, hr, heq⟩ := Option.map_eq_some_iff.mp h
        simp only [Prod.mk.injEq] at heq
        obtain ⟨-, rfl⟩ := heq
        exact Nat.lt_trans (ih _ hlt hr rfl) hlt
      · simp at h
    · rename_i hp
      simp only [Option.some.injEq, Prod.mk.injEq] at h
      obtain ⟨-, rfl⟩ := h
      exact length_parse hp
    · simp at h

theorem length_rows {ts rest : List Token} {found : List (List Expr)}
    (h : rows ts = some (found, rest)) : rest.length < ts.length := by
  induction hn : ts.length using Nat.strongRecOn generalizing found ts with
  | ind n ih =>
    subst hn
    unfold rows at h
    split at h
    · split at h
      · rename_i hlt
        obtain ⟨⟨found', rest'⟩, hr, heq⟩ := Option.map_eq_some_iff.mp h
        simp only [Prod.mk.injEq] at heq
        obtain ⟨-, rfl⟩ := heq
        exact Nat.lt_trans (ih _ hlt hr rfl) hlt
      · simp at h
    · rename_i hp
      simp only [Option.some.injEq, Prod.mk.injEq] at h
      obtain ⟨-, rfl⟩ := h
      exact length_cells hp
    · simp at h

theorem length_operand {ts rest : List Token} {e : Expr}
    (h : operand ts = some (e, rest)) : rest.length < ts.length := by
  unfold operand at h
  split at h
  · simp_all
  · simp_all
  · -- parentheses
    split at h
    · rename_i hp
      have := length_parse hp
      simp only [Option.some.injEq, Prod.mk.injEq, List.length_cons] at h this ⊢
      rw [← h.2]
      omega
    · simp at h
  · -- a call
    split at h
    · rename_i hc
      have := length_cells hc
      simp only [Option.some.injEq, Prod.mk.injEq, List.length_cons] at h this ⊢
      rw [← h.2]
      omega
    · simp at h
  · -- a literal
    split at h
    · rename_i hr
      have := length_rows hr
      simp only [Option.some.injEq, Prod.mk.injEq, List.length_cons] at h this ⊢
      rw [← h.2]
      omega
    · simp at h
  · -- a sign before its operand
    split at h
    · split at h
      · rename_i hp
        have := length_parse hp
        simp only [Option.some.injEq, Prod.mk.injEq, List.length_cons] at h this ⊢
        rw [← h.2]
        omega
      · simp at h
    · simp at h
  · simp at h

/-! ## Equations without the tests for termination -/

theorem parse_eq (level : Nat) (ts : List Token) :
    parse level ts = (operand ts).bind fun r => apply level r.1 r.2 := by
  unfold parse
  cases h : operand ts with
  | none => rfl
  | some r => simp only [length_operand h, ite_true, Option.bind_some]

theorem cells_last {ts rest : List Token} {e : Expr} (h : parse loosest ts = some (e, rest))
    (hrest : rest.head? ≠ some .comma) : cells ts = some ([e], rest) := by
  unfold cells
  rw [h]
  split
  · rename_i heq
    simp only [Option.some.injEq, Prod.mk.injEq] at heq
    simp [heq.2] at hrest
  · rename_i heq
    simp only [Option.some.injEq, Prod.mk.injEq] at heq
    rw [heq.1, heq.2]
  · simp_all

theorem cells_comma {ts rest : List Token} {e : Expr}
    (h : parse loosest ts = some (e, .comma :: rest)) :
    cells ts = (cells rest).map fun r => (e :: r.1, r.2) := by
  have hlt : rest.length < ts.length := by
    have := length_parse h
    simp only [List.length_cons] at this
    omega
  rw [cells, h]
  simp only [hlt, ite_true]

theorem rows_last {ts rest : List Token} {row : List Expr} (h : cells ts = some (row, rest))
    (hrest : rest.head? ≠ some .semicolon) : rows ts = some ([row], rest) := by
  unfold rows
  rw [h]
  split
  · rename_i heq
    simp only [Option.some.injEq, Prod.mk.injEq] at heq
    simp [heq.2] at hrest
  · rename_i heq
    simp only [Option.some.injEq, Prod.mk.injEq] at heq
    rw [heq.1, heq.2]
  · simp_all

theorem rows_semicolon {ts rest : List Token} {row : List Expr}
    (h : cells ts = some (row, .semicolon :: rest)) :
    rows ts = (rows rest).map fun r => (row :: r.1, r.2) := by
  have hlt : rest.length < ts.length := by
    have := length_cells h
    simp only [List.length_cons] at this
    omega
  rw [rows, h]
  simp only [hlt, ite_true]

/-- The priority of the operator that comes next, if one does. -/
def nextPriority? : List Token → Option Nat
  | .operator .transpose :: _ => some Operator.transpose.priority
  | .openBracket :: _ => some BinaryOperator.index.priority
  | .operator (.binary op) :: _ => some op.priority
  | _ => none

theorem apply_stop {level : Nat} {ts : List Token} (e : Expr)
    (h : ∀ p ∈ nextPriority? ts, level ≤ p) : apply level e ts = some (e, ts) := by
  unfold apply
  split
  · rw [if_neg (Nat.not_lt.mpr (h _ rfl))]
  · rw [if_neg (Nat.not_lt.mpr (h _ rfl))]
  · rw [if_neg (Nat.not_lt.mpr (h _ rfl))]
  · rfl

theorem apply_quote {level : Nat} (e : Expr) (rest : List Token)
    (h : Operator.transpose.priority < level) :
    apply level e (.operator .transpose :: rest) = apply level (.unary .transpose e) rest := by
  rw [apply, if_pos h]

theorem apply_index {level : Nat} (e i : Expr) {ts rest : List Token}
    (h : BinaryOperator.index.priority < level)
    (hi : parse loosest ts = some (i, .closeBracket :: rest)) :
    apply level e (.openBracket :: ts) = apply level (.binary .index e i) rest := by
  have hlt : rest.length < ts.length := by
    have := length_parse hi
    simp only [List.length_cons] at this
    omega
  rw [apply, if_pos h, hi]
  simp only [hlt, ite_true]

theorem apply_binary {level : Nat} (e : Expr) {op : BinaryOperator} (rest : List Token)
    (h : op.priority < level) :
    apply level e (.operator (.binary op) :: rest) =
      (parse op.priority rest).bind fun r => apply level (.binary op e r.1) r.2 := by
  rw [apply, if_pos h]
  cases hp : parse op.priority rest with
  | none => rfl
  | some r => simp only [length_parse hp, ite_true, Option.bind_some]

/-! ## Calls inside each other -/

/-- The level at which operators are applied inside some frames. -/
def top : List Frame → Nat
  | [] => loosest
  | f :: _ => f.level

/-- What the frames make of an expression that has been read at their level: the innermost
one is filled with it, and operators that bind tighter than the next are applied. -/
def leave : List Frame → Expr × List Token → Option (Expr × List Token)
  | [], r => some r
  | f :: k, r => (apply (top k) (f.fill r.1) r.2).bind (leave k)

/-- Goes on after the operand `e` inside some frames. -/
def resume (k : List Frame) (e : Expr) (ts : List Token) : Option (Expr × List Token) :=
  (apply (top k) e ts).bind (leave k)

theorem leave_cons (f : Frame) (k : List Frame) (r : Expr × List Token) :
    leave (f :: k) r = resume k (f.fill r.1) r.2 := rfl

/-- Reads an operand inside some frames and goes on after it. -/
def enter (k : List Frame) (ts : List Token) : Option (Expr × List Token) :=
  (operand ts).bind fun r => resume k r.1 r.2

theorem parse_loosest (ts : List Token) : parse loosest ts = enter [] ts := by
  have hleave : leave [] = some := funext fun r => rfl
  rw [parse_eq]
  simp only [enter, resume, top, hleave, Option.bind_fun_some]

theorem lt_top_settle {p : Nat} (hp : p < loosest) (r : List Frame × Expr) :
    p < top (Infix.settle p r).1 := by
  obtain ⟨k, e⟩ := r
  simp only [Infix.settle]
  induction k with
  | nil => exact hp
  | cons f k ih =>
    by_cases hf : f.level ≤ p
    · simpa [List.dropWhile_cons, hf] using ih
    · simpa [List.dropWhile_cons, hf, top] using Nat.lt_of_not_le hf

/-- No frame that binds as tightly as the next operator takes part in it. -/
theorem resume_settle {p : Nat} {ts : List Token} (h : nextPriority? ts = some p)
    (k : List Frame) (e : Expr) :
    resume k e ts = resume (Infix.settle p (k, e)).1 (Infix.settle p (k, e)).2 ts := by
  induction k generalizing e with
  | nil => rfl
  | cons f k ih =>
    -- either the call for the innermost frame ends at the next operator, or no call does
    by_cases hf : f.level ≤ p
    · have hstop : apply f.level e ts = some (e, ts) :=
        apply_stop e fun q hq => by
          rw [h, Option.mem_some_iff] at hq
          exact hq ▸ hf
      rw [resume, top, hstop, Option.bind_some, leave_cons, ih]
      simp [Infix.settle, Infix.fillAll, hf]
    · simp [Infix.settle, Infix.fillAll, hf]

/-- Where no operator comes next, all frames are filled. -/
theorem resume_done {ts : List Token} (h : nextPriority? ts = none) (k : List Frame) (e : Expr) :
    resume k e ts = some (Infix.fillAll k e, ts) := by
  have hstop : ∀ level e, apply level e ts = some (e, ts) := fun level e =>
    apply_stop e fun q hq => by simp [h] at hq
  induction k generalizing e with
  | nil =>
    rw [resume, hstop]
    rfl
  | cons f k ih =>
    rw [resume, hstop, Option.bind_some, leave_cons, ih]
    rfl

theorem resume_quote {k : List Frame} (e : Expr) (rest : List Token)
    (h : Operator.transpose.priority < top k) :
    resume k e (.operator .transpose :: rest) = resume k (.unary .transpose e) rest := by
  rw [resume, apply_quote e rest h, resume]

theorem resume_index {k : List Frame} (e i : Expr) {ts rest : List Token}
    (h : BinaryOperator.index.priority < top k)
    (hi : parse loosest ts = some (i, .closeBracket :: rest)) :
    resume k e (.openBracket :: ts) = resume k (.binary .index e i) rest := by
  rw [resume, apply_index e i h hi, resume]

/-- An operator between two operands waits in a frame for the right one. -/
theorem resume_binary {k : List Frame} (e : Expr) {op : BinaryOperator} (rest : List Token)
    (h : op.priority < top k) :
    resume k e (.operator (.binary op) :: rest) = enter (.between op e :: k) rest := by
  rw [resume, apply_binary e rest h, parse_eq, Option.bind_assoc, Option.bind_assoc]
  rfl

/-- So does a sign before its operand. -/
theorem enter_before (k : List Frame) (p : Prefix) (rest : List Token) :
    enter k (.operator p.written :: rest) = enter (.before p :: k) rest := by
  have hop : operand (.operator p.written :: rest) =
      (parse p.meant.priority rest).bind fun r => some (.unary p.node r.1, r.2) := by
    rw [operand]
    simp only [Prefix.ofWritten?_written]
    cases parse p.meant.priority rest <;> rfl
  rw [enter, hop, parse_eq, Option.bind_assoc, Option.bind_assoc]
  rfl

/-! ## Reading a derivation -/

/-- The parser follows a derivation: it goes on after its tokens, inside the frames and with
the operand that reading the derivation leaves. -/
def Follows (t : Infix) : Prop :=
  ∀ k rest, enter k (t.tokens ++ rest) = resume (t.walk k).1 (t.walk k).2 rest

theorem Follows.parse_tokens {t : Infix} (h : Follows t) {rest : List Token}
    (hrest : nextPriority? rest = none) :
    parse loosest (t.tokens ++ rest) = some (t.tree, rest) := by
  rw [parse_loosest, h, resume_done hrest]
  rfl

theorem Follows.cells_tokens {t : Infix} {ts : List Infix} (h : ∀ u ∈ t :: ts, Follows u)
    {rest : List Token} (hrest : nextPriority? rest = none) (hcomma : rest.head? ≠ some .comma) :
    cells (Infix.joined .comma ((t :: ts).map Infix.tokens) ++ rest) =
      some ((t :: ts).map Infix.tree, rest) := by
  induction ts generalizing t with
  | nil =>
    have ht := (h t (by simp)).parse_tokens hrest
    simpa [Infix.joined] using cells_last ht hcomma
  | cons u ts ih =>
    have ht : parse loosest (t.tokens ++
        .comma :: (Infix.joined .comma ((u :: ts).map Infix.tokens) ++ rest)) = _ :=
      (h t (by simp)).parse_tokens rfl
    have hu := @ih u fun v hv => h v (List.mem_cons_of_mem _ hv)
    have hcells := cells_comma ht
    rw [hu] at hcells
    simpa [Infix.joined] using hcells

theorem Follows.rows_tokens {row : List Infix} {others : List (List Infix)}
    (hne : ∀ r ∈ row :: others, r ≠ []) (h : ∀ r ∈ row :: others, ∀ t ∈ r, Follows t)
    (rest : List Token) :
    rows (Infix.joined .semicolon
        ((row :: others).map fun r => Infix.joined .comma (r.map Infix.tokens)) ++
          .closeBracket :: rest) =
      some ((row :: others).map fun r => r.map Infix.tree, .closeBracket :: rest) := by
  induction others generalizing row with
  | nil =>
    obtain ⟨t, ts, rfl⟩ := List.exists_cons_of_ne_nil (hne row (by simp))
    have hrow : cells (Infix.joined .comma ((t :: ts).map Infix.tokens) ++
        .closeBracket :: rest) = _ := Follows.cells_tokens (h _ (by simp)) rfl (by simp)
    simpa [Infix.joined] using rows_last hrow (by simp)
  | cons other others ih =>
    obtain ⟨t, ts, rfl⟩ := List.exists_cons_of_ne_nil (hne row (by simp))
    have hrow : cells (Infix.joined .comma ((t :: ts).map Infix.tokens) ++
        .semicolon :: (Infix.joined .semicolon ((other :: others).map fun r =>
          Infix.joined .comma (r.map Infix.tokens)) ++ .closeBracket :: rest)) = _ :=
      Follows.cells_tokens (h _ (by simp)) rfl (by simp)
    have hothers := @ih other (fun r hr => hne r (List.mem_cons_of_mem _ hr))
      fun r hr => h r (List.mem_cons_of_mem _ hr)
    have hrows := rows_semicolon hrow
    rw [hothers] at hrows
    simpa [Infix.joined] using hrows

theorem enter_operand (k : List Frame) {ts rest : List Token} {e : Expr}
    (h : operand ts = some (e, rest)) : enter k ts = resume k e rest := by
  rw [enter, h, Option.bind_some]

/-- **The parser follows every derivation of the grammar.** -/
theorem follows {t : Infix} (h : t.WellFormed) : Follows t := by
  induction h with
  | number value =>
    intro k rest
    exact enter_operand k (by simp [operand, Infix.walk])
  | name text =>
    intro k rest
    exact enter_operand k (by simp [operand, Infix.walk])
  | @paren t _ ih =>
    intro k rest
    have hparse : parse loosest (t.tokens ++ .closeParen :: rest) = _ := ih.parse_tokens rfl
    exact enter_operand k (by simp [operand, hparse, Infix.walk, Infix.tree])
  | @call f arguments hcount _ ih =>
    intro k rest
    obtain ⟨t, ts, rfl⟩ := List.exists_cons_of_length_pos (Infix.accepts_pos hcount)
    have hcells : cells (Infix.joined .comma ((t :: ts).map Infix.tokens) ++
        .closeParen :: rest) = _ := Follows.cells_tokens ih rfl (by simp)
    refine enter_operand k ?_
    rw [Infix.tokens_call, List.cons_append, List.cons_append, List.append_assoc,
      List.singleton_append, operand, hcells, Infix.walk, Infix.trees_eq_map]
  | @literal rows hrows hcols hlength _ ih =>
    intro k rest
    obtain ⟨row, others, rfl⟩ := List.exists_cons_of_ne_nil hrows
    have hne : ∀ r ∈ row :: others, r ≠ [] := fun r hr =>
      List.ne_nil_of_length_pos (hlength r hr ▸ hcols)
    have hfound := Follows.rows_tokens hne ih rest
    refine enter_operand k ?_
    rw [Infix.tokens_literal, List.cons_append, List.append_assoc, List.singleton_append,
      operand, hfound, Infix.walk, Infix.treesOfRows_eq_map]
    simp [Infix.shapeOf]
  | before p _ ih =>
    intro k rest
    rw [Infix.tokens_before, List.cons_append, enter_before, ih]
    rfl
  | @between op a b hop _ _ iha ihb =>
    intro k rest
    have hnext : nextPriority? (.operator (.binary op) :: (b.tokens ++ rest)) = some op.priority :=
      rfl
    -- the frames that bind as tightly as `op` are filled before it waits for its right operand
    rw [Infix.tokens_between, List.append_assoc, List.cons_append, iha, resume_settle hnext,
      resume_binary _ _ (lt_top_settle (priority_lt_loosest op) _), ihb]
    rfl
  | @quote t _ ih =>
    intro k rest
    rw [Infix.tokens_quote, List.append_assoc, List.singleton_append, ih, resume_settle rfl,
      resume_quote _ _ (lt_top_settle (by decide) _)]
    rfl
  | @index t i _ _ iht ihi =>
    intro k rest
    have hparse : parse loosest (i.tokens ++ .closeBracket :: rest) = _ := ihi.parse_tokens rfl
    rw [Infix.tokens_index, List.append_assoc, List.cons_append, List.append_assoc,
      List.singleton_append, iht, resume_settle rfl,
      resume_index _ _ (lt_top_settle (priority_lt_loosest .index) _) hparse]
    rfl

/-- What the parser gives for the tokens of a derivation. -/
theorem parse_tokens {t : Infix} (h : t.WellFormed) :
    parse loosest t.tokens = some (t.tree, []) := by
  have hnil : parse loosest (t.tokens ++ []) = _ := (follows h).parse_tokens rfl
  rwa [List.append_nil] at hnil

end MatrixLang.Climb
