import MatrixLang.Expr.Build

/-! # Infix expressions

The grammar of expressions, as derivations (`Infix`).  A derivation says how a list
of tokens may be put together, and nothing about which operator binds tighter: `a + b * c`
has two of them.  `Infix.tokens` is the list of tokens that a derivation stands for.

The same derivation is also spelled with the tokens that come out of each pass before
postfix code is made, so the spelling of brackets, row ends and calls is a parameter
(`Spelling`).

Which tree the tokens mean is said by reading them from the left (`Infix.walk`).  What is
still waiting for its right operand is kept as a list of frames, the innermost first.  An
operator that comes next first fills the frames that bind at least as tightly as it does.
`Infix.read` does the same, but leaves a quote waiting among the frames.
-/

namespace MatrixLang

/-- The signs that may stand before an operand. -/
inductive Prefix where
  /-- A minus, which is a subtraction wherever an operand comes before it. -/
  | minus
  | tilde
  | not
  | bang
deriving DecidableEq, Repr, Inhabited

namespace Prefix

/-- The operator of the token that a sign is written with. -/
def written : Prefix → Operator
  | .minus => .binary .sub
  | .tilde => .neg
  | .not => .not
  | .bang => .bang

/-- The operator that a sign before an operand means. -/
def meant : Prefix → Operator
  | .minus | .tilde => .neg
  | .not => .not
  | .bang => .bang

/-- The operator of the tree that a sign makes of its operand. -/
def node : Prefix → UnaryOperator
  | .minus | .tilde => .neg
  | .not | .bang => .not

/-- The sign that an operator token is, where an operand is expected. -/
def ofWritten? : Operator → Option Prefix
  | .binary .sub => some .minus
  | .neg => some .tilde
  | .not => some .not
  | .bang => some .bang
  | _ => none

@[simp] theorem ofWritten?_written (p : Prefix) : ofWritten? p.written = some p := by
  cases p <;> rfl

theorem written_ne_transpose (p : Prefix) : p.written ≠ .transpose := by
  cases p <;> simp [written]

@[simp] theorem meant_standsBefore (p : Prefix) : p.meant.standsBefore = true := by
  cases p <;> rfl

theorem meant_priority_pos (p : Prefix) : 0 < p.meant.priority := by
  cases p <;> decide

end Prefix

/-- Derivations of expressions. -/
inductive Infix where
  | number (value : Float)
  | name (text : String)
  | paren (inside : Infix)
  | call (f : Builtin) (arguments : List Infix)
  /-- A matrix literal, row by row. -/
  | literal (rows : List (List Infix))
  | before (p : Prefix) (operand : Infix)
  | between (op : BinaryOperator) (left right : Infix)
  /-- An operand with a transpose quote after it. -/
  | quote (operand : Infix)
  | index (operand position : Infix)
deriving Inhabited

namespace Infix

/-- The shape of a literal with given rows. -/
def shapeOf {α : Type} (rows : List (List α)) : Shape :=
  ⟨rows.length, (rows.headD []).length⟩

/-- A derivation follows the grammar: calls have as many arguments as their function
accepts, literals have at least one cell and equally long rows, and indexing is not written
as an operator between two operands. -/
inductive WellFormed : Infix → Prop
  | number (value : Float) : WellFormed (.number value)
  | name (text : String) : WellFormed (.name text)
  | paren {t : Infix} (h : WellFormed t) : WellFormed (.paren t)
  | call {f : Builtin} {arguments : List Infix} (hcount : f.accepts arguments.length = true)
      (h : ∀ t ∈ arguments, WellFormed t) : WellFormed (.call f arguments)
  | literal {rows : List (List Infix)} (hrows : rows ≠ []) (hcols : 0 < (shapeOf rows).cols)
      (hlength : ∀ row ∈ rows, row.length = (shapeOf rows).cols)
      (h : ∀ row ∈ rows, ∀ t ∈ row, WellFormed t) : WellFormed (.literal rows)
  | before (p : Prefix) {t : Infix} (h : WellFormed t) : WellFormed (.before p t)
  | between {op : BinaryOperator} {a b : Infix} (hop : op ≠ .index) (ha : WellFormed a)
      (hb : WellFormed b) : WellFormed (.between op a b)
  | quote {t : Infix} (h : WellFormed t) : WellFormed (.quote t)
  | index {t i : Infix} (ht : WellFormed t) (hi : WellFormed i) : WellFormed (.index t i)

/-- A call has at least one argument. -/
theorem accepts_pos {f : Builtin} {n : Nat} (h : f.accepts n = true) : 0 < n := by
  cases n with
  | zero => cases f <;> simp [Builtin.accepts] at h
  | succ n => exact Nat.succ_pos n

/-- A derivation follows the grammar, but for the numbers of arguments and of cells. -/
inductive Rough : Infix → Prop
  | number (value : Float) : Rough (.number value)
  | name (text : String) : Rough (.name text)
  | paren {t : Infix} (h : Rough t) : Rough (.paren t)
  | call (f : Builtin) {arguments : List Infix} (hne : arguments ≠ [])
      (h : ∀ t ∈ arguments, Rough t) : Rough (.call f arguments)
  | literal {rows : List (List Infix)} (hrows : rows ≠ []) (hne : ∀ row ∈ rows, row ≠ [])
      (h : ∀ row ∈ rows, ∀ t ∈ row, Rough t) : Rough (.literal rows)
  | before (p : Prefix) {t : Infix} (h : Rough t) : Rough (.before p t)
  | between {op : BinaryOperator} {a b : Infix} (hop : op ≠ .index) (ha : Rough a)
      (hb : Rough b) : Rough (.between op a b)
  | quote {t : Infix} (h : Rough t) : Rough (.quote t)
  | index {t i : Infix} (ht : Rough t) (hi : Rough i) : Rough (.index t i)

theorem WellFormed.rough {t : Infix} (h : t.WellFormed) : t.Rough := by
  induction h with
  | number value => exact .number value
  | name text => exact .name text
  | paren _ ih => exact .paren ih
  | @call f arguments hcount _ ih =>
    exact .call f (List.ne_nil_of_length_pos (accepts_pos hcount)) ih
  | @literal rows hrows hcols hlength _ ih =>
    exact .literal hrows (fun row hr => List.ne_nil_of_length_pos (hlength row hr ▸ hcols)) ih
  | before p _ ih => exact .before p ih
  | between hop _ _ iha ihb => exact .between hop iha ihb
  | quote _ ih => exact .quote ih
  | index _ _ iht ihi => exact .index iht ihi

/-! ## Tokens -/

/-- What the passes over the tokens of an expression change: the words of calls, the ends
of literals and of their rows, and the brackets of indexing. -/
structure Spelling where
  function : Builtin → Nat → Token
  openLiteral : Shape → List Token
  rowBreak : Token
  closeLiteral : Shape → List Token
  openIndex : List Token
  closeIndex : Token

namespace Spelling

/-- As a text is scanned. -/
def source : Spelling where
  function f _ := .function f none
  openLiteral _ := [.openBracket]
  rowBreak := .semicolon
  closeLiteral _ := [.closeBracket]
  openIndex := [.openBracket]
  closeIndex := .closeBracket

/-- After brackets are settled. -/
def bracketed : Spelling where
  function f _ := .function f none
  openLiteral _ := [.literalStart, .openParen]
  rowBreak := .semicolon
  closeLiteral _ := [.closeParen]
  openIndex := [.operator (.binary .index), .openParen]
  closeIndex := .closeParen

/-- After literals have their shapes. -/
def shaped : Spelling where
  function f _ := .function f none
  openLiteral shape := [.operator (.literal shape.rows shape.cols), .openParen]
  rowBreak := .comma
  closeLiteral shape := [.comma, .dim shape.rows, .comma, .dim shape.cols, .closeParen]
  openIndex := [.operator (.binary .index), .openParen]
  closeIndex := .closeParen

/-- After calls have their numbers of arguments. -/
def prepared : Spelling :=
  { shaped with function := fun f count => .function f (some count) }

end Spelling

/-- Lists of tokens with a separator between them. -/
def joined (separator : Token) : List (List Token) → List Token
  | [] => []
  | part :: parts => part ++ parts.flatMap (separator :: ·)

/-- What holds of the parts and of the separator, and is kept when lists are put together, holds
of all parts with the separator before each. -/
theorem flatMap_separator {α : Type} {P : List α → Prop} (hnil : P [])
    (happend : ∀ {a b}, P a → P b → P (a ++ b)) {separator : List α} (hs : P separator)
    {parts : List (List α)} (h : ∀ part ∈ parts, P part) : P (parts.flatMap (separator ++ ·)) := by
  induction parts with
  | nil => exact hnil
  | cons part parts ih =>
    exact happend (happend hs (h part (by simp))) (ih fun p hp => h p (List.mem_cons_of_mem _ hp))

mutual

/-- The tokens of a derivation in a spelling. -/
def spell (s : Spelling) : Infix → List Token
  | .number value => [.number value]
  | .name text => [.name text]
  | .paren t => .openParen :: (spell s t ++ [.closeParen])
  | .call f arguments =>
    s.function f arguments.length :: .openParen ::
      (joined .comma (spellAll s arguments) ++ [.closeParen])
  | .literal rows =>
    s.openLiteral (shapeOf rows) ++
      (joined s.rowBreak (spellRows s rows) ++ s.closeLiteral (shapeOf rows))
  | .before p t => .operator p.written :: spell s t
  | .between op a b => spell s a ++ .operator (.binary op) :: spell s b
  | .quote t => spell s t ++ [.operator .transpose]
  | .index t i => spell s t ++ (s.openIndex ++ (spell s i ++ [s.closeIndex]))

/-- The tokens of several derivations. -/
def spellAll (s : Spelling) : List Infix → List (List Token)
  | [] => []
  | t :: ts => spell s t :: spellAll s ts

/-- The tokens of the rows of a literal. -/
def spellRows (s : Spelling) : List (List Infix) → List (List Token)
  | [] => []
  | row :: rows => joined .comma (spellAll s row) :: spellRows s rows

end

/-- The tokens of a derivation, as a text is scanned. -/
def tokens (t : Infix) : List Token :=
  spell .source t

/-- Tokens that some derivation of the grammar stands for. -/
def Renders (ts : List Token) : Prop :=
  ∃ t : Infix, t.WellFormed ∧ ts = t.tokens

theorem spellAll_eq_map (s : Spelling) (ts : List Infix) : spellAll s ts = ts.map (spell s) := by
  induction ts with
  | nil => rfl
  | cons t ts ih => rw [spellAll, ih, List.map_cons]

theorem spellRows_eq_map (s : Spelling) (rows : List (List Infix)) :
    spellRows s rows = rows.map fun row => joined .comma (row.map (spell s)) := by
  induction rows with
  | nil => rfl
  | cons row rows ih => rw [spellRows, ih, spellAll_eq_map, List.map_cons]

section

variable (f : Builtin) (p : Prefix) (op : BinaryOperator) (t a b i : Infix)

@[simp] theorem tokens_number (value : Float) : (number value).tokens = [.number value] := rfl

@[simp] theorem tokens_name (text : String) : (name text).tokens = [.name text] := rfl

@[simp] theorem tokens_paren :
    (paren t).tokens = .openParen :: (t.tokens ++ [.closeParen]) := rfl

@[simp] theorem tokens_call (arguments : List Infix) :
    (call f arguments).tokens = .function f none :: .openParen ::
      (joined .comma (arguments.map tokens) ++ [.closeParen]) := by
  simp only [tokens, spell, spellAll_eq_map]
  rfl

@[simp] theorem tokens_literal (rows : List (List Infix)) :
    (literal rows).tokens = .openBracket :: (joined .semicolon (rows.map fun row =>
      joined .comma (row.map tokens)) ++ [.closeBracket]) := by
  simp only [tokens, spell, spellRows_eq_map]
  rfl

@[simp] theorem tokens_before : (before p t).tokens = .operator p.written :: t.tokens := rfl

@[simp] theorem tokens_between :
    (between op a b).tokens = a.tokens ++ .operator (.binary op) :: b.tokens := rfl

@[simp] theorem tokens_quote : (quote t).tokens = t.tokens ++ [.operator .transpose] := rfl

@[simp] theorem tokens_index :
    (index t i).tokens = t.tokens ++ .openBracket :: (i.tokens ++ [.closeBracket]) := rfl

end

/-! ## Trees -/

/-- What waits for its right operand. -/
inductive Frame where
  | before (p : Prefix)
  | between (op : BinaryOperator) (left : Expr)
  /-- A quote, which waits for the indices of its operand. -/
  | quote

namespace Frame

/-- How tightly the operator of a frame binds. -/
def level : Frame → Nat
  | .before p => p.meant.priority
  | .between op _ => op.priority
  | .quote => Operator.transpose.priority

/-- The tree that a frame becomes with its right operand. -/
def fill : Frame → Expr → Expr
  | .before p, e => .unary p.node e
  | .between op left, e => .binary op left e
  | .quote, e => .unary .transpose e

end Frame

/-- Fills frames from the innermost on. -/
def fillAll (k : List Frame) (e : Expr) : Expr :=
  k.foldl (fun e f => f.fill e) e

/-- Fills the frames that bind at least as tightly as an operator of priority `p`, which
takes what comes of them as its left operand. -/
def settle (p : Nat) (r : List Frame × Expr) : List Frame × Expr :=
  (r.1.dropWhile (·.level ≤ p), fillAll (r.1.takeWhile (·.level ≤ p)) r.2)

/-- Fills all frames. -/
def finish (r : List Frame × Expr) : Expr :=
  fillAll r.1 r.2

mutual

/-- Reads a derivation where `k` is waiting: what waits after it, and the operand that
it ends with. -/
def walk : Infix → List Frame → List Frame × Expr
  | .number value, k => (k, .literal value)
  | .name text, k => (k, .variable text)
  | .paren t, k => (k, finish (walk t []))
  | .call f arguments, k => (k, .call f (trees arguments))
  | .literal rows, k =>
    (k, .matrix (shapeOf rows).rows (shapeOf rows).cols (treesOfRows rows).flatten)
  | .before p t, k => walk t (.before p :: k)
  | .between op a b, k =>
    let r := settle op.priority (walk a k)
    walk b (.between op r.2 :: r.1)
  | .quote t, k =>
    let r := settle Operator.transpose.priority (walk t k)
    (r.1, .unary .transpose r.2)
  | .index t i, k =>
    let r := settle BinaryOperator.index.priority (walk t k)
    (r.1, .binary .index r.2 (finish (walk i [])))

/-- The trees of several derivations. -/
def trees : List Infix → List Expr
  | [] => []
  | t :: ts => finish (walk t []) :: trees ts

/-- The trees of the rows of a literal. -/
def treesOfRows : List (List Infix) → List (List Expr)
  | [] => []
  | row :: rows => trees row :: treesOfRows rows

end

/-- The tree that the tokens of a derivation mean. -/
def tree (t : Infix) : Expr :=
  finish (walk t [])

theorem trees_eq_map (ts : List Infix) : trees ts = ts.map tree := by
  induction ts with
  | nil => rfl
  | cons t ts ih => rw [trees, ih, List.map_cons, tree]

theorem treesOfRows_eq_map (rows : List (List Infix)) :
    treesOfRows rows = rows.map fun row => row.map tree := by
  induction rows with
  | nil => rfl
  | cons row rows ih => rw [treesOfRows, ih, trees_eq_map, List.map_cons]

mutual

/-- Reads a derivation where `k` is waiting, as the stacks do.  A quote is left waiting, so that an
index that comes next is applied before it. -/
def read : Infix → List Frame → List Frame × Expr
  | .number value, k => (k, .literal value)
  | .name text, k => (k, .variable text)
  | .paren t, k => (k, finish (read t []))
  | .call f arguments, k => (k, .call f (meanings arguments))
  | .literal rows, k =>
    (k, .matrix (shapeOf rows).rows (shapeOf rows).cols (meaningsOfRows rows).flatten)
  | .before p t, k => read t (.before p :: k)
  | .between op a b, k =>
    let r := settle op.priority (read a k)
    read b (.between op r.2 :: r.1)
  | .quote t, k =>
    let r := settle Operator.transpose.priority (read t k)
    (.quote :: r.1, r.2)
  | .index t i, k =>
    let r := settle BinaryOperator.index.priority (read t k)
    (r.1, .binary .index r.2 (finish (read i [])))

/-- What several derivations are read as. -/
def meanings : List Infix → List Expr
  | [] => []
  | t :: ts => finish (read t []) :: meanings ts

/-- What the rows of a literal are read as. -/
def meaningsOfRows : List (List Infix) → List (List Expr)
  | [] => []
  | row :: rows => meanings row :: meaningsOfRows rows

end

/-- The tree that a derivation is read as. -/
def meaning (t : Infix) : Expr :=
  finish (read t [])

theorem meanings_eq_map (ts : List Infix) : meanings ts = ts.map meaning := by
  induction ts with
  | nil => rfl
  | cons t ts ih => rw [meanings, ih, List.map_cons, meaning]

theorem meaningsOfRows_eq_map (rows : List (List Infix)) :
    meaningsOfRows rows = rows.map fun row => row.map meaning := by
  induction rows with
  | nil => rfl
  | cons row rows ih => rw [meaningsOfRows, ih, meanings_eq_map, List.map_cons]

end Infix

end MatrixLang
