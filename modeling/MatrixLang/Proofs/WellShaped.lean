import MatrixLang.Proofs.Clauses
import MatrixLang.Proofs.OperandCounts
import MatrixLang.Proofs.Separators

/-! # The shape of compiled programs

In a compiled program every matrix literal has at least one row and one column and as many
elements as they make, every call has a number of arguments that its function is defined for,
and every `if` has a branch (`Expr.WellShaped`, `Statement.WellShaped`).  A text that is not
compiled has something wrong with the form of a statement.

Both are followed through the passes together.  Up to the postfix code only the shapes of
literals matter (`hasCells`); the operand stack then holds well-shaped trees, and so does what is
open while the outline of a program is read.
-/

namespace MatrixLang

/-! ## Expressions and statements -/

/-- Expressions whose literals are filled and whose calls have as many arguments as they may. -/
inductive Expr.WellShaped : Expr → Prop
  | literal (value : Float) : WellShaped (.literal value)
  | variable (name : String) : WellShaped (.variable name)
  | matrix {rows cols : Nat} {elements : List Expr} (hrows : 0 < rows) (hcols : 0 < cols)
      (hlength : elements.length = rows * cols) (helements : ∀ e ∈ elements, WellShaped e) :
      WellShaped (.matrix rows cols elements)
  | unary (op : UnaryOperator) {operand : Expr} (h : WellShaped operand) :
      WellShaped (.unary op operand)
  | binary (op : BinaryOperator) {left right : Expr} (hleft : WellShaped left)
      (hright : WellShaped right) : WellShaped (.binary op left right)
  | call {f : Builtin} {arguments : List Expr} (haccepts : f.accepts arguments.length = true)
      (harguments : ∀ e ∈ arguments, WellShaped e) : WellShaped (.call f arguments)

/-- Statements of well-shaped expressions in which every `if` has a branch. -/
inductive Statement.WellShaped : Statement → Prop
  | assign {line : Nat} {target : String} {value : Expr} (hvalue : value.WellShaped) :
      WellShaped (.assign line target value)
  | assignIndex {line : Nat} {target : String} {index value : Expr} (hindex : index.WellShaped)
      (hvalue : value.WellShaped) : WellShaped (.assignIndex line target index value)
  | assignBlock {line : Nat} {target : String} {row col value : Expr} (hrow : row.WellShaped)
      (hcol : col.WellShaped) (hvalue : value.WellShaped) :
      WellShaped (.assignBlock line target row col value)
  | eval {line : Nat} {value : Expr} (hvalue : value.WellShaped) : WellShaped (.eval line value)
  | choose {line : Nat} {branches : List Branch} {otherwise : Option (List Statement)}
      (hne : branches ≠ []) (hconditions : ∀ b ∈ branches, b.condition.WellShaped)
      (hbodies : ∀ b ∈ branches, ∀ s ∈ b.body, WellShaped s)
      (hotherwise : ∀ body ∈ otherwise, ∀ s ∈ body, WellShaped s) :
      WellShaped (.choose line branches otherwise)
  | whileLoop {line : Nat} {condition : Expr} {body : List Statement}
      (hcondition : condition.WellShaped) (hbody : ∀ s ∈ body, WellShaped s) :
      WellShaped (.whileLoop line condition body)
  | forLoop {line : Nat} {counter : String} {start limit : Expr} {direction : Direction}
      {body : List Statement} (hstart : start.WellShaped) (hlimit : limit.WellShaped)
      (hbody : ∀ s ∈ body, WellShaped s) :
      WellShaped (.forLoop line counter start limit direction body)
  | block {line : Nat} {body : List Statement} (hbody : ∀ s ∈ body, WellShaped s) :
      WellShaped (.block line body)

/-! ## Tokens -/

/-- A literal has at least one row and one column. -/
def Operator.hasCells : Operator → Bool
  | .literal rows cols => decide (0 < rows ∧ 0 < cols)
  | _ => true

namespace Token

/-- The literal that a token starts has at least one row and one column. -/
def hasCells : Token → Bool
  | .operator op => op.hasCells
  | _ => true

/-- All literals have at least one row and one column. -/
def AllHaveCells (ts : List Token) : Prop :=
  ∀ t ∈ ts, t.hasCells = true

theorem AllHaveCells.cons {t : Token} {ts : List Token} (ht : t.hasCells = true)
    (hts : AllHaveCells ts) : AllHaveCells (t :: ts) :=
  List.forall_mem_cons.mpr ⟨ht, hts⟩

theorem AllHaveCells.tail {t : Token} {ts : List Token} (h : AllHaveCells (t :: ts)) :
    AllHaveCells ts :=
  (List.forall_mem_cons.mp h).2

theorem AllHaveCells.sublist {ts us : List Token} (h : AllHaveCells ts) (hsub : us.Sublist ts) :
    AllHaveCells us :=
  fun t ht => h t (hsub.mem ht)

theorem AllHaveCells.append {ts us : List Token} (hts : AllHaveCells ts)
    (hus : AllHaveCells us) : AllHaveCells (ts ++ us) :=
  List.forall_mem_append.mpr ⟨hts, hus⟩

/-- Whether a token starts a literal of a known shape. -/
def isMarker : Token → Bool
  | .operator (.literal ..) => true
  | _ => false

/-- Tokens in which no literal has its shape yet. -/
def Unmarked (ts : List Token) : Prop :=
  ∀ t ∈ ts, t.isMarker = false

theorem Unmarked.allHaveCells {ts : List Token} (h : Unmarked ts) : AllHaveCells ts := by
  intro t ht
  have hmarker := h t ht
  cases t with
  | operator op =>
    cases op with
    | literal rows cols => cases hmarker
    | _ => rfl
  | _ => rfl

/-- Whether a token can come from a text, and not only from a pass. -/
def isWritten : Token → Bool
  | .function _ (some _) | .literalStart | .dim _ => false
  | .operator (.literal ..) | .operator (.binary .index) => false
  | _ => true

/-- Tokens that can all come from a text. -/
def Written (ts : List Token) : Prop :=
  ∀ t ∈ ts, t.isWritten = true

theorem Written.unmarked {ts : List Token} (h : Written ts) : Unmarked ts := by
  intro t ht
  have hwritten := h t ht
  cases t with
  | operator op =>
    cases op with
    | literal rows cols => cases hwritten
    | _ => rfl
  | _ => rfl

theorem isWritten_ofWord (word : String) : (ofWord word).isWritten = true := by
  have hwords : ∀ op ∈ operatorWords, (Token.operator op).isWritten = true := by decide
  unfold ofWord
  split
  · rfl
  split
  · rename_i op hop
    exact hwords op (List.mem_of_find?_eq_some hop)
  split
  · rfl
  · rfl

/-- A token as a text gives it: the value of a numeral, what a word stands for, or a sign. -/
inductive Scanned : Token → Prop
  | numeral (n : Number.Numeral) : Scanned (.number n.toFloat)
  | word {c : Char} {cs : List Char} (hc : c.isAlpha = true)
      (hcs : ∀ d ∈ cs, d.isAlphanum = true) : Scanned (ofWord (String.ofList (c :: cs)))
  | symbol {t : Token} (h : t ∈ symbols) : Scanned t

theorem scanned_of_lexeme? {cs rest : List Char} {t : Token}
    (h : lexeme? cs = some (some t, rest)) : Scanned t := by
  unfold lexeme? at h
  split at h
  · cases h
  · split at h
    · cases h
    split at h
    · cases h
    split at h
    · obtain ⟨heq, -⟩ := Prod.mk.inj (Option.some.inj h)
      rw [← Option.some.inj heq]
      exact .numeral _
    split at h
    · rename_i hc
      obtain ⟨heq, -⟩ := Prod.mk.inj (Option.some.inj h)
      rw [← Option.some.inj heq]
      exact .word hc fun d hd => List.all_eq_true.mp List.all_takeWhile d hd
    · obtain ⟨s, hs, heq⟩ := Option.map_eq_some_iff.mp h
      obtain ⟨heq, -⟩ := Prod.mk.inj heq
      rw [← Option.some.inj heq]
      exact .symbol (List.mem_of_find?_eq_some hs)

theorem meets_scanned (total : Nat) (cs : List Char) :
    Meets (∀ t ∈ ·, Scanned t) (·.inForm) (scanFrom total cs) := by
  fun_induction scanFrom total cs with
  | case1 cs rest h ih => exact ih
  | case2 cs t rest h ih =>
    exact ih.bind fun ts hts => .pure (List.forall_mem_cons.mpr ⟨scanned_of_lexeme? h, hts⟩)
  | case3 => exact .pure nofun
  | case4 => exact .throw rfl

theorem Scanned.isWritten {t : Token} (h : Scanned t) : t.isWritten = true := by
  have hsymbols : ∀ t ∈ symbols, t.isWritten = true := by decide
  cases h with
  | numeral n => rfl
  | word hc hcs => exact isWritten_ofWord _
  | symbol h => exact hsymbols t h

theorem meets_scanFrom (total : Nat) (cs : List Char) :
    Meets Written (·.inForm) (scanFrom total cs) :=
  (meets_scanned total cs).mono_ok fun _ hts t ht => (hts t ht).isWritten

/-- No literal has its shape before its brackets are settled. -/
theorem meets_scan (source : String) : Meets Unmarked (·.inForm) (scan source) :=
  (meets_scanFrom _ _).mono_ok fun _ => Written.unmarked

/-! ### Brackets, literals and calls -/

theorem AllHaveCells.resolveBracketsAfter {ts : List Token} (h : AllHaveCells ts)
    (last : Option Token) : AllHaveCells (resolveBracketsAfter last ts) := by
  fun_induction Token.resolveBracketsAfter last ts with
  | case1 => exact h
  | case2 last ts ih =>
    refine .cons ?_ (.cons rfl (ih h.tail))
    split <;> rfl
  | case3 _ ts ih => exact .cons rfl (ih h.tail)
  | case4 _ t ts _ _ ih =>
    obtain ⟨ht, hts⟩ := List.forall_mem_cons.mp h
    exact .cons ht (ih hts)

theorem inForm_literalShape {ts : List Token} {e : Error} (h : literalShape ts = .error e) :
    e.inForm = true := by
  unfold literalShape at h
  split at h
  · cases h
    rfl
  · cases h
    rfl
  · dsimp only at h
    split at h
    · cases h
      rfl
    · cases h

/-- A literal has one cell more than separators, so it has a row and a column. -/
theorem meets_literalShape (ts : List Token) :
    Meets (fun shape => 0 < shape.rows ∧ 0 < shape.cols) (·.inForm) (literalShape ts) := by
  cases hshape : literalShape ts with
  | error e => exact inForm_literalShape hshape
  | ok shape =>
    have hsize : 0 < shape.rows * shape.cols := by
      rw [size_of_literalShape hshape]
      exact Nat.succ_pos _
    exact ⟨Nat.pos_of_mul_pos_right hsize, Nat.pos_of_mul_pos_left hsize⟩

theorem meets_resolveLiteralsIn {ts : List Token} (h : AllHaveCells ts)
    (groups : List (Option Shape)) :
    Meets AllHaveCells (·.inForm) (resolveLiteralsIn groups ts) := by
  fun_induction resolveLiteralsIn groups ts with
  | case1 => exact .pure h
  | case2 groups ts ih =>
    refine (meets_literalShape ts).bind fun shape hshape => ?_
    refine (ih shape h.tail.tail).bind fun rest hrest => .pure ?_
    exact .cons (decide_eq_true hshape) (.cons rfl hrest)
  | case3 => exact .throw rfl
  | case4 groups ts ih =>
    exact (ih h.tail).bind fun rest hrest => .pure (.cons rfl hrest)
  | case5 groups ts ih =>
    refine (ih h.tail).bind fun rest hrest => .pure ?_
    refine .append ?_ (.cons rfl hrest)
    cases groups.headD none with
    | none => exact List.forall_mem_nil _
    | some shape => simp [dimensions, AllHaveCells, hasCells]
  | case6 groups ts ih =>
    exact (ih h.tail).bind fun rest hrest => .pure (.cons rfl hrest)
  | case7 groups t ts _ _ _ _ _ ih =>
    obtain ⟨ht, hts⟩ := List.forall_mem_cons.mp h
    exact (ih hts).bind fun rest hrest => .pure (.cons ht hrest)

theorem meets_callArity (f : Builtin) (ts : List Token) :
    Meets (fun _ => True) (·.inForm) (callArity f ts) := by
  unfold callArity
  split
  · split
    · exact .pure trivial
    · exact .throw rfl
  · exact .throw rfl

theorem meets_resolveArity {ts : List Token} (h : AllHaveCells ts) :
    Meets AllHaveCells (·.inForm) (resolveArity ts) := by
  fun_induction resolveArity ts with
  | case1 => exact .pure h
  | case2 f ts ih =>
    refine (meets_callArity f ts).bind fun _ _ => ?_
    exact (ih h.tail).bind fun rest hrest => .pure (.cons rfl hrest)
  | case3 t ts _ ih =>
    obtain ⟨ht, hts⟩ := List.forall_mem_cons.mp h
    exact (ih hts).bind fun rest hrest => .pure (.cons ht hrest)

theorem meets_prepare {ts : List Token} (h : AllHaveCells ts) :
    Meets AllHaveCells (·.inForm) (prepare ts) :=
  (meets_resolveLiteralsIn (h.resolveBracketsAfter none) []).bind fun _ => meets_resolveArity

end Token

/-! ## Postfix code -/

/-- If an instruction applies an operator, `P` holds of it. -/
def Instruction.Applies (P : Operator → Prop) : Instruction → Prop
  | .apply op => P op
  | _ => True

namespace Postfix

variable {P : Operator → Prop} {stack : List Pending}

/-- `P` holds of all operators that wait. -/
def AllPending (P : Operator → Prop) (stack : List Pending) : Prop :=
  ∀ x ∈ stack, ∀ i ∈ x.code, i.Applies P

theorem AllPending.flatMap (h : AllPending P stack) :
    ∀ i ∈ stack.flatMap Pending.code, i.Applies P := by
  intro i hi
  obtain ⟨x, hx, hi⟩ := List.mem_flatMap.mp hi
  exact h x hx i hi

theorem AllPending.cons {x : Pending} (hx : ∀ i ∈ x.code, i.Applies P)
    (hstack : AllPending P stack) : AllPending P (x :: stack) :=
  List.forall_mem_cons.mpr ⟨hx, hstack⟩

theorem AllPending.sublist {stack' : List Pending} (h : AllPending P stack)
    (hsub : stack'.Sublist stack) : AllPending P stack' :=
  fun x hx => h x (hsub.subset hx)

theorem AllPending.push (h : AllPending P stack) {op : Operator} (hop : P op) :
    (∀ i ∈ (push op stack).1, i.Applies P) ∧ AllPending P (push op stack).2 := by
  have hcode : ∀ i ∈ (Pending.operator op).code, i.Applies P :=
    List.forall_mem_singleton.mpr hop
  unfold Postfix.push
  split
  · exact ⟨List.forall_mem_nil _, .cons hcode h⟩
  · exact ⟨(h.sublist (List.takeWhile_sublist _)).flatMap,
      .cons hcode (h.sublist (List.dropWhile_sublist _))⟩

theorem AllPending.unwind? {rest : List Pending} {code : List Instruction}
    (h : AllPending P stack) (hunwind : unwind? stack = some (code, rest)) :
    (∀ i ∈ code, i.Applies P) ∧ AllPending P rest := by
  unfold Postfix.unwind? at hunwind
  split at hunwind
  · cases hunwind
  · obtain ⟨rfl, rfl⟩ := Prod.mk.inj (Option.some.inj hunwind)
    exact ⟨(h.sublist (List.takeWhile_sublist _)).flatMap, h.sublist (List.dropWhile_sublist _)⟩

/-- The operators of the code are those of the tokens, but for a minus that is none between two
operands. -/
theorem meets_convert (hneg : P .neg) {ts : List Token}
    (hts : ∀ t ∈ ts, ∀ op, t = .operator op → P op) (hstack : AllPending P stack)
    (last : Option Token) :
    Meets (fun code => ∀ i ∈ code, i.Applies P) (·.inForm) (convert last stack ts) := by
  have hafter (last : Option Token) {op : Operator} (hop : P op) : P (operatorAfter last op) := by
    unfold operatorAfter
    split
    · exact hneg
    · exact hop
  fun_induction convert last stack ts with
  | case1 => exact .throw rfl
  | case2 => exact .pure hstack.flatMap
  | case3 _ _ _ ts ih | case4 _ _ _ ts ih | case5 _ _ _ ts ih =>
    refine (ih (List.forall_mem_cons.mp hts).2 hstack).bind fun rest hrest => .pure ?_
    exact List.forall_mem_cons.mpr ⟨trivial, hrest⟩
  | case6 _ stack f arity ts ih =>
    exact ih (List.forall_mem_cons.mp hts).2
      (hstack.cons (List.forall_mem_singleton.mpr trivial))
  | case7 => exact .throw rfl
  | case8 last stack op ts code stack' hpush ih =>
    obtain ⟨hop, hts⟩ := List.forall_mem_cons.mp hts
    obtain ⟨hcode, hstack'⟩ := hstack.push (hafter last (hop op rfl))
    rw [hpush] at hcode hstack'
    refine (ih hts hstack').bind fun rest hrest => .pure ?_
    exact List.forall_mem_append.mpr ⟨hcode, hrest⟩
  | case9 last stack ts ih =>
    exact ih (List.forall_mem_cons.mp hts).2 (hstack.cons (List.forall_mem_nil _))
  | case10 => exact .throw rfl
  | case11 last stack ts code stack' hunwind ih =>
    obtain ⟨hcode, hstack'⟩ := hstack.unwind? hunwind
    have htail := hstack'.sublist (List.tail_sublist stack')
    refine (ih (List.forall_mem_cons.mp hts).2 htail).bind fun rest hrest => .pure ?_
    exact List.forall_mem_append.mpr ⟨hcode, hrest⟩
  | case12 => exact .throw rfl
  | case13 last stack ts code stack' hunwind ih | case15 last stack ts code stack' hunwind ih =>
    obtain ⟨hcode, hstack'⟩ := hstack.unwind? hunwind
    refine (ih (List.forall_mem_cons.mp hts).2 hstack').bind fun rest hrest => .pure ?_
    exact List.forall_mem_append.mpr ⟨hcode, hrest⟩
  | case14 => exact .throw rfl
  | case16 => exact .throw rfl

/-- A property of the operators among some tokens is one of the operators in their code. -/
theorem meets_ofTokens (hneg : P .neg) {ts : List Token}
    (hts : ∀ t ∈ ts, ∀ op, t = .operator op → P op) :
    Meets (fun code => ∀ i ∈ code, i.Applies P) (·.inForm) (ofTokens ts) :=
  meets_convert hneg hts (List.forall_mem_nil _) none

end Postfix

/-! ## Trees -/

namespace Expr

/-- A tree on the stack is well-shaped. -/
def Operand.WellShaped : Operand → Prop
  | .node e => e.WellShaped
  | .dim _ => True

section

variable {stack : List Operand} (h : ∀ o ∈ stack, o.WellShaped)
include h

theorem meets_popOperands (n : Nat) (what : String) :
    Meets (fun r => r.1.length = n ∧ (∀ o ∈ r.1, o.WellShaped) ∧ ∀ o ∈ r.2, o.WellShaped)
      (·.inForm) (popOperands n what stack) := by
  refine (meets_popOperands_split (Q := (·.inForm)) rfl n stack).mono_ok fun r hr => ?_
  obtain ⟨hlength, hstack⟩ := hr
  rw [hstack] at h
  obtain ⟨htaken, hleft⟩ := List.forall_mem_append.mp h
  exact ⟨hlength, fun o ho => htaken o (List.mem_reverse.mpr ho), hleft⟩

theorem meets_nodes {fault : Error} (hfault : fault.inForm = true) :
    Meets (fun es => es.length = stack.length ∧ ∀ e ∈ es, e.WellShaped) (·.inForm)
      (nodes fault stack) := by
  induction stack with
  | nil => exact .pure ⟨rfl, nofun⟩
  | cons o rest ih =>
    obtain ⟨ho, hrest⟩ := List.forall_mem_cons.mp h
    cases o with
    | dim size => exact .throw hfault
    | node e =>
      refine (ih hrest).bind fun es hes => .pure ⟨congrArg Nat.succ hes.1, ?_⟩
      exact List.forall_mem_cons.mpr ⟨ho, hes.2⟩

theorem meets_popNodes (n : Nat) (what : String) :
    Meets (fun r => r.1.length = n ∧ (∀ e ∈ r.1, e.WellShaped) ∧ ∀ o ∈ r.2, o.WellShaped)
      (·.inForm) (popNodes n what stack) := by
  refine (meets_popOperands h n what).bind fun r hr => ?_
  obtain ⟨operands, rest⟩ := r
  obtain ⟨hlength, hoperands, hrest⟩ := hr
  refine (meets_nodes hoperands rfl).bind fun es hes => .pure ⟨?_, hes.2, hrest⟩
  exact hes.1.trans hlength

theorem meets_applyUnary (op : UnaryOperator) (symbol : String) :
    Meets (fun r => ∀ o ∈ r, o.WellShaped) (·.inForm) (applyUnary op symbol stack) := by
  refine (meets_popNodes h 1 symbol).bind fun r hr => ?_
  split
  · obtain ⟨-, hes, hrest⟩ := hr
    exact .pure (List.forall_mem_cons.mpr ⟨.unary op (hes _ List.mem_cons_self), hrest⟩)
  · exact .throw rfl

theorem meets_applyBinary (op : BinaryOperator) :
    Meets (fun r => ∀ o ∈ r, o.WellShaped) (·.inForm) (applyBinary op stack) := by
  refine (meets_popNodes h 2 op.symbol).bind fun r hr => ?_
  split
  · obtain ⟨-, hes, hrest⟩ := hr
    obtain ⟨hleft, hright⟩ := List.forall_mem_cons.mp hes
    refine .pure (List.forall_mem_cons.mpr ⟨.binary op hleft ?_, hrest⟩)
    exact hright _ List.mem_cons_self
  · exact .throw rfl

/-- The elements of a literal are what is left of its operands without the two dimensions. -/
theorem meets_applyLiteral {rows cols : Nat} (hrows : 0 < rows) (hcols : 0 < cols) :
    Meets (fun r => ∀ o ∈ r, o.WellShaped) (·.inForm) (applyLiteral rows cols stack) := by
  refine (meets_popOperands h (rows * cols + 2) "#").bind fun r hr => ?_
  obtain ⟨operands, rest⟩ := r
  obtain ⟨hlength, hoperands, hrest⟩ := hr
  have htake : ∀ o ∈ operands.take (rows * cols), o.WellShaped :=
    fun o ho => hoperands o (List.mem_of_mem_take ho)
  dsimp only at hlength ⊢
  split
  · split
    · refine (meets_nodes htake rfl).bind fun es hes => .pure ?_
      have hcount : es.length = rows * cols := by
        rw [hes.1, List.length_take, hlength]
        omega
      exact List.forall_mem_cons.mpr ⟨.matrix hrows hcols hcount hes.2, hrest⟩
    · exact .throw rfl
  · exact .throw rfl

theorem meets_applyCall (f : Builtin) (arity : Nat) :
    Meets (fun r => ∀ o ∈ r, o.WellShaped) (·.inForm) (applyCall f arity stack) := by
  unfold applyCall
  split
  · rename_i haccepts
    refine (meets_popNodes h arity f.name).bind fun r hr => ?_
    obtain ⟨arguments, rest⟩ := r
    obtain ⟨rfl, harguments, hrest⟩ := hr
    exact .pure (List.forall_mem_cons.mpr ⟨.call haccepts harguments, hrest⟩)
  · exact .throw rfl

theorem meets_step {i : Instruction} (hi : i.Applies (·.hasCells = true)) :
    Meets (fun r => ∀ o ∈ r, o.WellShaped) (·.inForm) (step stack i) := by
  cases i with
  | number value => exact .pure (List.forall_mem_cons.mpr ⟨.literal value, h⟩)
  | «variable» name => exact .pure (List.forall_mem_cons.mpr ⟨.variable name, h⟩)
  | dim size => exact .pure (List.forall_mem_cons.mpr ⟨trivial, h⟩)
  | call f arity => exact meets_applyCall h f arity
  | apply op =>
    cases op with
    | binary op => exact meets_applyBinary h op
    | neg | transpose | not | bang => exact meets_applyUnary h _ _
    | literal rows cols =>
      obtain ⟨hrows, hcols⟩ := of_decide_eq_true hi
      exact meets_applyLiteral h hrows hcols

theorem meets_steps {code : List Instruction}
    (hcode : ∀ i ∈ code, i.Applies (·.hasCells = true)) :
    Meets (fun r => ∀ o ∈ r, o.WellShaped) (·.inForm) (steps stack code) := by
  induction code generalizing stack with
  | nil => exact .pure h
  | cons i code ih =>
    obtain ⟨hi, hcode⟩ := List.forall_mem_cons.mp hcode
    exact (meets_step h hi).bind fun _ hnext => ih hnext hcode

end

theorem meets_ofPostfix {code : List Instruction}
    (h : ∀ i ∈ code, i.Applies (·.hasCells = true)) :
    Meets WellShaped (·.inForm) (ofPostfix code) := by
  refine (meets_steps (List.forall_mem_nil _) h).bind fun stack hstack => ?_
  unfold ofStack
  split
  · exact .pure (hstack _ List.mem_cons_self)
  · exact .throw rfl
  · exact .throw rfl

end Expr

/-! ## Parts of statements -/

namespace Program

open Noted (Yields)
open Token (AllHaveCells)

variable {line : Nat} {ts : List Token}

theorem yields_expression (h : AllHaveCells ts) (line : Nat) :
    Yields Expr.WellShaped (expression line ts) := by
  refine (Yields.atLine (Token.meets_prepare h) line).bind fun prepared hprepared => .note ?_
  have hcells : ∀ t ∈ prepared, ∀ op, t = .operator op → op.hasCells = true := by
    rintro _ ht op rfl
    exact hprepared _ ht
  have hcode := Postfix.meets_ofTokens (P := (·.hasCells = true)) rfl hcells
  refine (Yields.atLine hcode line).bind fun code hcode => .note ?_
  exact .atLine (Expr.meets_ofPostfix hcode) line

theorem splitTopLevel_eq_some {α : Type} {mark : Token → Option α} {depth : Int} {a : α}
    {before after : List Token} (h : splitTopLevel mark depth ts = some (before, a, after)) :
    ∃ t, ts = before ++ t :: after := by
  induction ts generalizing depth before with
  | nil => cases h
  | cons t ts ih =>
    rw [splitTopLevel] at h
    split at h
    · cases h
      exact ⟨t, rfl⟩
    · obtain ⟨r, hr, heq⟩ := Option.map_eq_some_iff.mp h
      obtain ⟨more, b, rest⟩ := r
      cases heq
      obtain ⟨u, rfl⟩ := ih hr
      exact ⟨u, rfl⟩

theorem sublist_around (before after : List Token) (t : Token) :
    before.Sublist (before ++ t :: after) ∧ after.Sublist (before ++ t :: after) :=
  ⟨List.sublist_append_left _ _,
    (List.sublist_cons_self t after).trans (List.sublist_append_right _ _)⟩

theorem splitAssign_sublist {target value : List Token}
    (h : splitAssign ts = some (target, value)) : target.Sublist ts ∧ value.Sublist ts := by
  obtain ⟨r, hr, heq⟩ := Option.map_eq_some_iff.mp h
  cases heq
  obtain ⟨t, rfl⟩ := splitTopLevel_eq_some hr
  exact sublist_around _ _ t

theorem splitGroup_sublist {opens closes : Token → Bool} {depth : Nat}
    {inside rest : List Token}
    (h : Token.splitGroup opens closes depth ts = some (inside, rest)) :
    inside.Sublist ts ∧ rest.Sublist ts := by
  obtain ⟨t, -, rfl⟩ := splitGroup_eq_some h
  exact sublist_around _ _ t

/-- The tokens of coordinates are taken out of `ts`. -/
def Coordinates.Within (ts : List Token) : Coordinates → Prop
  | .none => True
  | .one index => index.Sublist ts
  | .two row col => row.Sublist ts ∧ col.Sublist ts

theorem coordinates?_within {coordinates : Coordinates}
    (h : coordinates? ts = some coordinates) : coordinates.Within ts := by
  unfold coordinates? at h
  split at h
  · cases h
    trivial
  · rename_i rest
    have hrest : rest.Sublist (.openBracket :: rest) := List.sublist_cons_self _ _
    split at h
    · rename_i hfirst
      cases h
      exact (splitGroup_sublist hfirst).1.trans hrest
    · rename_i hfirst
      obtain ⟨hrow, hmore⟩ := splitGroup_sublist hfirst
      split at h
      · rename_i hsecond
        cases h
        refine ⟨hrow.trans hrest, (splitGroup_sublist hsecond).1.trans ?_⟩
        exact (List.sublist_cons_self _ _).trans (hmore.trans hrest)
      · cases h
    · cases h
  · cases h

theorem inlineBody?_sublist {braced : Bool} {condition body : List Token}
    (h : inlineBody? braced ts = some (condition, body)) :
    condition.Sublist ts ∧ body.Sublist ts := by
  unfold inlineBody? at h
  split at h
  · split at h
    · rename_i hsplit
      obtain ⟨t, hclose, rfl⟩ := splitGroup_eq_some hsplit
      obtain rfl : t = .closeParen := by cases t <;> cases hclose; rfl
      split at h
      · cases h
        rw [List.cons_append]
        refine ⟨.cons_cons _ ?_, (sublist_around _ _ _).2.cons _⟩
        exact (List.Sublist.refl _).append (.cons_cons _ (List.nil_sublist _))
      · cases h
    · cases h
  · cases h

theorem yields_failForm {α : Type} {P : α → Prop} (line : Nat) (fault : FormFault) :
    Yields P (failForm line fault) :=
  .fail rfl

theorem yields_assignment {target value : List Token} (htarget : AllHaveCells target)
    (hvalue : AllHaveCells value) (line : Nat) :
    Yields Statement.WellShaped (assignment line target value) := by
  unfold assignment
  split
  · exact yields_failForm _ _
  split
  · split
    · exact yields_failForm _ _
    · exact (yields_expression hvalue line).bind fun e he => .pure (.assign he)
    · rename_i index hcoordinates
      have hindex := coordinates?_within hcoordinates
      refine (yields_expression (htarget.tail.sublist hindex) line).bind fun i hi => ?_
      exact (yields_expression hvalue line).bind fun e he => .pure (.assignIndex hi he)
    · rename_i row col hcoordinates
      obtain ⟨hrow, hcol⟩ := coordinates?_within hcoordinates
      refine (yields_expression (htarget.tail.sublist hrow) line).bind fun r hr => ?_
      refine (yields_expression (htarget.tail.sublist hcol) line).bind fun c hc => ?_
      exact (yields_expression hvalue line).bind fun e he => .pure (.assignBlock hr hc he)
  · exact yields_failForm _ _

theorem yields_simple (h : AllHaveCells ts) (line : Nat) :
    Yields Statement.WellShaped (simple line ts) := by
  unfold simple
  split
  · rename_i target value hsplit
    obtain ⟨htarget, hvalue⟩ := splitAssign_sublist hsplit
    exact yields_assignment (h.sublist htarget) (h.sublist hvalue) line
  · exact (yields_expression h line).bind fun e he => .pure (.eval he)

/-- The condition of a clause and the body on its line are well-shaped. -/
def Clause.WellShaped : Clause → Prop
  | .inline condition body => condition.WellShaped ∧ body.WellShaped
  | .head condition => condition.WellShaped

theorem yields_clause (h : AllHaveCells ts) (line : Nat) (braced : Bool) :
    Yields Clause.WellShaped (clause line braced ts) := by
  unfold clause
  split
  · exact yields_failForm _ _
  split
  · rename_i condition body hinline
    obtain ⟨hcondition, hbody⟩ := inlineBody?_sublist hinline
    refine (yields_expression (h.sublist hcondition) line).bind fun e he => ?_
    exact (yields_simple (h.sublist hbody) line).bind fun s hs => .pure ⟨he, hs⟩
  · exact (yields_expression h line).bind fun e he => .pure he

/-- The bounds of a loop are well-shaped. -/
def ForHead.WellShaped (head : ForHead) : Prop :=
  head.start.WellShaped ∧ head.limit.WellShaped

theorem yields_forHead (h : AllHaveCells ts) (line : Nat) :
    Yields ForHead.WellShaped (forHead line ts) := by
  unfold forHead
  split
  · split
    · exact yields_failForm _ _
    · rename_i hsplit
      obtain ⟨t, rfl⟩ := splitTopLevel_eq_some hsplit
      obtain ⟨hstart, hlimit⟩ := sublist_around _ _ t
      split
      · exact yields_failForm _ _
      · refine (yields_expression (h.tail.tail.sublist hstart) line).bind fun e he => ?_
        exact (yields_expression (h.tail.tail.sublist hlimit) line).bind fun f hf => .pure ⟨he, hf⟩
  · exact yields_failForm _ _
  · exact yields_failForm _ _

/-! ## Programs -/

/-- The condition and the body of a branch are well-shaped. -/
def WellShapedBranch (b : Branch) : Prop :=
  b.condition.WellShaped ∧ ∀ s ∈ b.body, s.WellShaped

/-- All that has been read of an unfinished statement is well-shaped, and an `if` that may end
has a branch. -/
def Open.WellShaped : Open → Prop
  | .nothing => True
  | .whileBody _ condition => condition.WellShaped
  | .forBody _ head => head.WellShaped
  | .chain _ branches => branches ≠ [] ∧ ∀ b ∈ branches, WellShapedBranch b
  | .branchBody _ branches _ condition =>
    (∀ b ∈ branches, WellShapedBranch b) ∧ condition.WellShaped
  | .elseBody _ branches _ => branches ≠ [] ∧ ∀ b ∈ branches, WellShapedBranch b

/-- Statements that are finished and what is open after them are well-shaped. -/
def WellShapedSoFar (r : List Statement × Open) : Prop :=
  (∀ s ∈ r.1, s.WellShaped) ∧ r.2.WellShaped

theorem yields_finish {s : Statement} (h : s.WellShaped) : Yields WellShapedSoFar (finish s) :=
  .note (.pure ⟨List.forall_mem_singleton.mpr h, trivial⟩)

theorem wellShaped_if {branches : List Branch} (hne : branches ≠ [])
    (hbranches : ∀ b ∈ branches, WellShapedBranch b) (line : Nat) :
    (Statement.choose line branches none).WellShaped :=
  .choose hne (fun b hb => (hbranches b hb).1) (fun b hb => (hbranches b hb).2) nofun

theorem wellShaped_ifElse {branches : List Branch} {body : List Statement} (hne : branches ≠ [])
    (hbranches : ∀ b ∈ branches, WellShapedBranch b) (hbody : ∀ s ∈ body, s.WellShaped)
    (line : Nat) : (Statement.choose line branches (some body)).WellShaped := by
  refine .choose hne (fun b hb => (hbranches b hb).1) (fun b hb => (hbranches b hb).2) ?_
  rintro _ ⟨⟩
  exact hbody

/-- A branch more. -/
theorem wellShaped_snoc {branches : List Branch} {condition : Expr} {body : List Statement}
    (hbranches : ∀ b ∈ branches, WellShapedBranch b) (hcondition : condition.WellShaped)
    (hbody : ∀ s ∈ body, s.WellShaped) (line : Nat) :
    (Open.chain line (branches ++ [.mk condition body])).WellShaped := by
  refine ⟨by simp, fun b hb => ?_⟩
  rcases List.mem_append.mp hb with hb | hb
  · exact hbranches b hb
  · rw [List.mem_singleton.mp hb]
    exact ⟨hcondition, hbody⟩

theorem yields_branch {branches : List Branch} (hbranches : ∀ b ∈ branches, WellShapedBranch b)
    (h : AllHaveCells ts) (line here : Nat) (braced : Bool) :
    Yields WellShapedSoFar (branch line branches here braced ts) := by
  refine (yields_clause h here braced).bind fun c hc => ?_
  cases c with
  | inline condition body =>
    obtain ⟨hcondition, hbody⟩ := hc
    have hsingle := List.forall_mem_singleton.mpr hbody
    exact .pure ⟨nofun, wellShaped_snoc hbranches hcondition hsingle line⟩
  | head condition => exact .pure ⟨nofun, hbranches, hc⟩

theorem yields_start (h : AllHaveCells ts) (line : Nat) (braced : Bool) :
    Yields WellShapedSoFar (start line braced ts) := by
  unfold start
  split
  · exact yields_branch (List.forall_mem_nil _) h.tail line line braced
  · refine (yields_clause h.tail line braced).bind fun c hc => ?_
    cases c with
    | inline condition body =>
      exact yields_finish (.whileLoop hc.1 (List.forall_mem_singleton.mpr hc.2))
    | head condition => exact .pure ⟨nofun, hc⟩
  · exact (yields_forHead h.tail line).bind fun head hhead => .pure ⟨nofun, hhead⟩
  · exact yields_failForm _ _
  · exact yields_failForm _ _
  · exact (yields_simple h line).bind fun s hs => yields_finish hs

theorem yields_settle {opened : Open} (h : opened.WellShaped) :
    Yields WellShapedSoFar opened.settle := by
  cases opened with
  | nothing => exact .pure ⟨nofun, trivial⟩
  | whileBody | forBody | branchBody | elseBody => exact yields_failForm _ _
  | chain line branches => exact yields_finish (wellShaped_if h.1 h.2 line)

theorem yields_continueIf {branches : List Branch} (hne : branches ≠ [])
    (hbranches : ∀ b ∈ branches, WellShapedBranch b) (h : AllHaveCells ts) (line here : Nat)
    (braced : Bool) : Yields WellShapedSoFar (continueIf line branches here braced ts) := by
  unfold continueIf
  split
  · exact yields_branch hbranches h.tail line here braced
  · exact yields_branch hbranches h.tail.tail line here braced
  · exact .pure ⟨nofun, hne, hbranches⟩
  · refine (yields_simple h.tail here).bind fun s hs => ?_
    exact yields_finish (wellShaped_ifElse hne hbranches (List.forall_mem_singleton.mpr hs) line)
  · refine (yields_finish (wellShaped_if hne hbranches line)).bind fun r hr => ?_
    refine (yields_start h here braced).bind fun r' hr' => .pure ⟨?_, hr'.2⟩
    exact List.forall_mem_append.mpr ⟨hr.1, hr'.1⟩

theorem yields_read {opened : Open} (h : opened.WellShaped) (line : Nat) (text : String)
    (braced : Bool) : Yields WellShapedSoFar (opened.read line text braced) := by
  have hscan := Yields.atLine (Token.meets_scan text) line
  cases opened with
  | nothing => exact hscan.bind fun ts hts => yields_start hts.allHaveCells line braced
  | chain first branches =>
    exact hscan.bind fun ts hts => yields_continueIf h.1 h.2 hts.allHaveCells first line braced
  | whileBody | forBody | branchBody | elseBody => exact yields_settle h

theorem yields_enter {opened : Open} (h : opened.WellShaped) :
    Yields WellShapedSoFar opened.enter := by
  cases opened with
  | chain line branches => exact yields_finish (wellShaped_if h.1 h.2 line)
  | nothing | whileBody | forBody | branchBody | elseBody => exact .pure ⟨nofun, h⟩

theorem yields_close {opened : Open} (h : opened.WellShaped) {body : List Statement}
    (hbody : ∀ s ∈ body, s.WellShaped) (line : Nat) :
    Yields WellShapedSoFar (opened.close line body) := by
  have hblock : (Statement.block line body).WellShaped := .block hbody
  cases opened with
  | nothing => exact .pure ⟨List.forall_mem_singleton.mpr hblock, trivial⟩
  | whileBody => exact yields_finish (.whileLoop h hbody)
  | forBody => exact yields_finish (.forLoop h.1 h.2 hbody)
  | branchBody first branches here condition =>
    exact .pure ⟨nofun, wellShaped_snoc h.1 h.2 hbody first⟩
  | elseBody first => exact yields_finish (wellShaped_ifElse h.1 h.2 hbody first)
  | chain first branches =>
    refine (yields_finish (wellShaped_if h.1 h.2 first)).bind fun r hr => .pure ?_
    exact ⟨List.forall_mem_append.mpr ⟨hr.1, List.forall_mem_singleton.mpr hblock⟩, trivial⟩

/-- **An outline is compiled to well-shaped statements**, or something is wrong with the form of
one of its texts. -/
theorem yields_statementsFrom {opened : Open} (h : opened.WellShaped) (o : Outline) :
    Yields (fun ss => ∀ s ∈ ss, s.WellShaped) (statementsFrom opened o) := by
  induction o generalizing opened with
  | done => exact (yields_settle h).bind fun r hr => .pure hr.1
  | text line text rest ih =>
    refine (yields_read h line text _).bind fun r hr => ?_
    refine (ih hr.2).bind fun ss hss => .pure ?_
    exact List.forall_mem_append.mpr ⟨hr.1, hss⟩
  | block line inside rest ihinside ihrest =>
    refine (yields_enter h).bind fun r hr => ?_
    refine (@ihinside .nothing trivial).bind fun body hbody => ?_
    refine (yields_close hr.2 hbody line).bind fun r' hr' => ?_
    refine (ihrest hr'.2).bind fun ss hss => .pure ?_
    exact List.forall_mem_append.mpr ⟨List.forall_mem_append.mpr ⟨hr.1, hr'.1⟩, hss⟩

end Program

end MatrixLang
