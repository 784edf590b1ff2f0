import MatrixLang.Proofs.TreeCode
import MatrixLang.Proofs.WellShaped

/-! # Nothing is lost between tokens and tree

The tree of an expression has one node for each token that can make one, and no others.  Numbers and
names are its leaves, in the order of the tokens; operators and functions may move.  This holds of
all tokens that are accepted, also where no derivation of the grammar stands for them.

A token and a node are compared by their `Mark`.  An opening bracket has the mark of an index and of
a matrix, since it may become either.  A minus may become a sign, and this is the only mark that
changes on the way: what else happens between tokens and tree puts marks into another order, and
none of those of leaves (`Rearranged`).
-/

namespace MatrixLang

/-! ## Marks -/

/-- What a token or a node is. -/
inductive Mark where
  | number (value : Float)
  | name (text : String)
  | call (f : Builtin)
  | unary (op : UnaryOperator)
  /-- An operator between two operands; a matrix counts as an index. -/
  | binary (op : BinaryOperator)

namespace Mark

/-- The leaf that a mark stands for. -/
def leaf? : Mark → Option Expr
  | .number value => some (.literal value)
  | .name text => some (.variable text)
  | _ => none

/-- Whether this is a subtraction. -/
def isSubtraction : Mark → Bool
  | .binary .sub => true
  | _ => false

/-- A mark with no difference between the two meanings of a minus. -/
def unsigned : Mark → Mark
  | .binary .sub => .unary .neg
  | m => m

theorem unsigned_eq_neg_iff {m : Mark} :
    m.unsigned = .unary .neg ↔ m = .binary .sub ∨ m = .unary .neg := by
  unfold unsigned
  split
  · exact iff_of_true rfl (.inl rfl)
  · rename_i hne
    exact (or_iff_right hne).symm

theorem unsigned_eq_iff {m k : Mark} (hsub : k ≠ .binary .sub) (hneg : k ≠ .unary .neg) :
    m.unsigned = k ↔ m = k := by
  unfold unsigned
  split
  · exact iff_of_false hneg.symm hsub.symm
  · exact Iff.rfl

end Mark

/-- The mark of an operator. -/
def Operator.mark : Operator → Mark
  | .binary op => .binary op
  | .neg => .unary .neg
  | .transpose => .unary .transpose
  | .not | .bang => .unary .not
  | .literal .. => .binary .index

/-- The mark of a token, if it can make a node. -/
def Token.mark? : Token → Option Mark
  | .number value => some (.number value)
  | .name text => some (.name text)
  | .function f _ => some (.call f)
  | .operator op => some op.mark
  | .openBracket | .literalStart => some (.binary .index)
  | _ => none

/-- The mark of an instruction, if it makes a node. -/
def Instruction.mark? : Instruction → Option Mark
  | .number value => some (.number value)
  | .variable name => some (.name name)
  | .dim _ => none
  | .apply op => some op.mark
  | .call f _ => some (.call f)

/-- The mark of the root of a tree. -/
def Expr.mark : Expr → Mark
  | .literal value => .number value
  | .variable name => .name name
  | .matrix .. => .binary .index
  | .unary op _ => .unary op
  | .binary op _ _ => .binary op
  | .call f _ => .call f

/-- The marks of some tokens. -/
def Token.marks (ts : List Token) : List Mark :=
  ts.filterMap mark?

/-- The marks of some code. -/
def Instruction.marks (code : List Instruction) : List Mark :=
  code.filterMap mark?

theorem Instruction.marks_append (c d : List Instruction) : marks (c ++ d) = marks c ++ marks d :=
  List.filterMap_append

/-! ## Trees -/

namespace Expr

theorem mark_operator (op : UnaryOperator) : op.operator.mark = .unary op := by
  cases op <;> rfl

mutual

/-- The code of a tree marks its nodes in the order of its parts. -/
theorem marks_code : ∀ e : Expr, Instruction.marks e.code = e.parts.map mark
  | .literal value => rfl
  | .variable name => rfl
  | .matrix rows cols elements => by
    rw [code, Instruction.marks_append, marks_codeOfAll, parts, List.map_append]
    rfl
  | .unary op operand => by
    rw [code, Instruction.marks_append, marks_code, parts, List.map_append]
    exact congrArg (_ ++ [·]) (mark_operator op)
  | .binary op left right => by
    rw [code, Instruction.marks_append, Instruction.marks_append, marks_code, marks_code, parts,
      List.map_append, List.map_append]
    rfl
  | .call f arguments => by
    rw [code, Instruction.marks_append, marks_codeOfAll, parts, List.map_append]
    rfl

theorem marks_codeOfAll : ∀ es : List Expr,
    Instruction.marks (codeOfAll es) = (partsOfAll es).map mark
  | [] => rfl
  | e :: es => by
    rw [codeOfAll, Instruction.marks_append, marks_code, marks_codeOfAll, partsOfAll,
      List.map_append]

end

theorem mark?_plain (i : Instruction) : i.plain.mark? = i.mark? := by
  unfold Instruction.plain
  split <;> rfl

theorem marks_of_ofPostfix {code : List Instruction} {e : Expr} (h : ofPostfix code = .ok e) :
    Instruction.marks code = e.parts.map mark := by
  have hmarks : Instruction.marks (code.map Instruction.plain) = Instruction.marks code := by
    rw [Instruction.marks, List.filterMap_map]
    exact congrArg (List.filterMap · code) (funext mark?_plain)
  rw [← hmarks, (code_of_ofPostfix h).1, marks_code]

end Expr

/-! ## Passes -/

namespace Token

/-- A pass that goes on after a token keeps marks if it keeps that of the token. -/
theorem marks_cons {t u : Token} {ts us : List Token} (h : t.mark? = u.mark?)
    (hs : marks ts = marks us) : marks (t :: ts) = marks (u :: us) := by
  rw [marks, marks, List.filterMap_cons, List.filterMap_cons, h]
  split
  · exact hs
  · exact congrArg (_ :: ·) hs

theorem marks_resolveBracketsAfter (last : Option Token) (ts : List Token) :
    marks (resolveBracketsAfter last ts) = marks ts := by
  fun_induction resolveBracketsAfter last ts with
  | case1 => rfl
  | case2 last ts ih =>
    have hmark : (if opensLiteral last then Token.literalStart
        else .operator (.binary .index)).mark? = Token.openBracket.mark? := by
      split <;> rfl
    exact marks_cons hmark ih
  | case3 _ ts ih => exact ih
  | case4 _ t ts _ _ ih => exact marks_cons rfl ih

theorem marks_append (ts us : List Token) : marks (ts ++ us) = marks ts ++ marks us :=
  List.filterMap_append

theorem marks_dimensions (group : Option Shape) : marks (dimensions group) = [] := by
  cases group <;> rfl

theorem marks_resolveLiteralsIn {groups : List (Option Shape)} {ts rs : List Token}
    (h : resolveLiteralsIn groups ts = .ok rs) : marks rs = marks ts := by
  fun_induction resolveLiteralsIn groups ts generalizing rs with
  | case1 => cases h; rfl
  | case2 groups ts ih =>
    obtain ⟨shape, -, h⟩ := exists_of_bind_eq_ok h
    obtain ⟨rest, hrest, heq⟩ := exists_of_bind_eq_ok h
    cases heq
    exact marks_cons rfl (marks_cons rfl (ih shape hrest))
  | case3 => cases h
  | case4 groups ts ih =>
    obtain ⟨rest, hrest, heq⟩ := exists_of_bind_eq_ok h
    cases heq
    exact marks_cons rfl (ih hrest)
  | case5 groups ts ih =>
    obtain ⟨rest, hrest, heq⟩ := exists_of_bind_eq_ok h
    cases heq
    rw [marks_append, marks_dimensions, List.nil_append]
    exact marks_cons rfl (ih hrest)
  | case6 groups ts ih =>
    obtain ⟨rest, hrest, heq⟩ := exists_of_bind_eq_ok h
    cases heq
    exact marks_cons rfl (ih hrest)
  | case7 groups t ts _ _ _ _ _ ih =>
    obtain ⟨rest, hrest, heq⟩ := exists_of_bind_eq_ok h
    cases heq
    exact marks_cons rfl (ih hrest)

theorem marks_resolveArity {ts rs : List Token} (h : resolveArity ts = .ok rs) :
    marks rs = marks ts := by
  fun_induction resolveArity ts generalizing rs with
  | case1 => cases h; rfl
  | case2 f ts ih =>
    obtain ⟨arity, -, h⟩ := exists_of_bind_eq_ok h
    obtain ⟨rest, hrest, heq⟩ := exists_of_bind_eq_ok h
    cases heq
    exact marks_cons rfl (ih hrest)
  | case3 t ts _ ih =>
    obtain ⟨rest, hrest, heq⟩ := exists_of_bind_eq_ok h
    cases heq
    exact marks_cons rfl (ih hrest)

theorem marks_prepare {ts rs : List Token} (h : prepare ts = .ok rs) : marks rs = marks ts := by
  obtain ⟨shaped, hshaped, hrs⟩ := exists_of_bind_eq_ok h
  rw [marks_resolveArity hrs, marks_resolveLiteralsIn hshaped, resolveBrackets,
    marks_resolveBracketsAfter]

end Token

/-! ## Postfix order -/

/-- The marks `a` are the marks `b` in another order, but for minuses that have become signs.  The
leaves among them keep their order. -/
structure Rearranged (a b : List Mark) : Prop where
  perm : (a.map Mark.unsigned).Perm (b.map Mark.unsigned)
  leaves : a.filterMap Mark.leaf? = b.filterMap Mark.leaf?
  subtractions : a.countP Mark.isSubtraction ≤ b.countP Mark.isSubtraction

namespace Rearranged

variable {a b c d s : List Mark}

theorem refl (a : List Mark) : Rearranged a a :=
  ⟨.refl _, rfl, Nat.le_refl _⟩

theorem trans (hab : Rearranged a b) (hbc : Rearranged b c) : Rearranged a c :=
  ⟨hab.perm.trans hbc.perm, hab.leaves.trans hbc.leaves,
    Nat.le_trans hab.subtractions hbc.subtractions⟩

theorem append (hab : Rearranged a b) (hcd : Rearranged c d) : Rearranged (a ++ c) (b ++ d) where
  perm := by
    rw [List.map_append, List.map_append]
    exact hab.perm.append hcd.perm
  leaves := by rw [List.filterMap_append, List.filterMap_append, hab.leaves, hcd.leaves]
  subtractions := by
    rw [List.countP_append, List.countP_append]
    exact Nat.add_le_add hab.subtractions hcd.subtractions

/-- What holds no leaves can be moved. -/
theorem swap (hs : s.filterMap Mark.leaf? = []) (a : List Mark) :
    Rearranged (a ++ s) (s ++ a) where
  perm := List.perm_append_comm.map _
  leaves := by rw [List.filterMap_append, List.filterMap_append, hs, List.append_nil,
    List.nil_append]
  subtractions := Nat.le_of_eq (by rw [List.countP_append, List.countP_append, Nat.add_comm])

/-- A mark is put in front, or behind what holds no leaves. -/
theorem insert (h : Rearranged a (s ++ b)) (hs : s.filterMap Mark.leaf? = []) (m : Mark) :
    Rearranged (m :: a) (s ++ m :: b) := by
  have hfront : Rearranged ([m] ++ a) ([m] ++ (s ++ b)) := (refl [m]).append h
  have hmoved : Rearranged ([m] ++ s ++ b) (s ++ [m] ++ b) := (swap hs [m]).append (refl b)
  rw [List.append_assoc, List.append_assoc] at hmoved
  exact hfront.trans hmoved

/-- What has left the stack goes before what is still to be made. -/
theorem emit (h : Rearranged a (s ++ b)) (hc : c ++ s = d) : Rearranged (c ++ a) (d ++ b) := by
  rw [← hc, List.append_assoc]
  exact (refl c).append h

end Rearranged

namespace Postfix

/-- The marks of what waits on the stack. -/
def waitingMarks (stack : List Pending) : List Mark :=
  Instruction.marks (stack.flatMap Pending.code)

variable {last : Option Token} {stack rest : List Pending} {ts : List Token}
  {code : List Instruction}

theorem waitingMarks_append (a b : List Pending) :
    waitingMarks (a ++ b) = waitingMarks a ++ waitingMarks b := by
  rw [waitingMarks, List.flatMap_append, Instruction.marks_append]
  rfl

/-- No leaf waits on the stack. -/
theorem leaves_waitingMarks (stack : List Pending) :
    (waitingMarks stack).filterMap Mark.leaf? = [] := by
  induction stack with
  | nil => rfl
  | cons p stack ih =>
    cases p with
    | paren => exact ih
    | call f arity => exact ih
    | operator op => cases op <;> exact ih

/-- An operator that arrives goes between the marks of what leaves the stack and what stays. -/
theorem rearranged_push (op : Operator) (stack : List Pending) :
    Rearranged (Instruction.marks (push op stack).1 ++ waitingMarks (push op stack).2)
      (op.mark :: waitingMarks stack) := by
  rw [push]
  split
  · exact .refl _
  · let leaves := waitingMarks (stack.takeWhile (·.yieldsTo op))
    let stays := waitingMarks (stack.dropWhile (·.yieldsTo op))
    have hop : [op.mark].filterMap Mark.leaf? = [] := leaves_waitingMarks [.operator op]
    have hswap : Rearranged (leaves ++ [op.mark] ++ stays) ([op.mark] ++ leaves ++ stays) :=
      (Rearranged.swap hop leaves).append (.refl stays)
    have hstack : leaves ++ stays = waitingMarks stack := by
      rw [← waitingMarks_append, List.takeWhile_append_dropWhile]
    rw [List.append_assoc, List.append_assoc, hstack] at hswap
    exact hswap

theorem waitingMarks_unwind? (h : unwind? stack = some (code, rest)) :
    Instruction.marks code ++ waitingMarks rest = waitingMarks stack := by
  rw [unwind?] at h
  split at h
  · cases h
  · cases h
    rw [← waitingMarks, ← waitingMarks_append, List.takeWhile_append_dropWhile]

theorem waitingMarks_tail_unwind? (h : unwind? stack = some (code, rest)) :
    Instruction.marks code ++ waitingMarks rest.tail = waitingMarks stack := by
  obtain ⟨others, rfl⟩ := exists_paren_of_unwind? h
  show Instruction.marks code ++ waitingMarks (.paren :: others) = _
  exact waitingMarks_unwind? h

/-- A minus may become a sign, and other operators stay. -/
theorem rearranged_operatorAfter (last : Option Token) (op : Operator) :
    Rearranged [(operatorAfter last op).mark] [op.mark] := by
  unfold operatorAfter
  split
  · rename_i h
    rw [h.1]
    exact ⟨.refl _, rfl, by decide⟩
  · exact .refl _

/-- **Postfix order moves operators and functions, and nothing else.** -/
theorem rearranged_convert (h : convert last stack ts = .ok code) :
    Rearranged (Instruction.marks code) (waitingMarks stack ++ Token.marks ts) := by
  fun_induction convert last stack ts generalizing code with
  | case1 => cases h
  | case2 last stack =>
    cases h
    rw [Token.marks, List.filterMap_nil, List.append_nil]
    exact .refl _
  | case3 _ stack value ts ih | case4 _ stack name ts ih =>
    obtain ⟨rest, hrest, heq⟩ := exists_of_bind_eq_ok h
    cases heq
    exact (ih hrest).insert (leaves_waitingMarks stack) _
  | case5 _ _ size ts ih =>
    obtain ⟨rest, hrest, heq⟩ := exists_of_bind_eq_ok h
    cases heq
    have hmarks := ih hrest
    exact hmarks
  | case6 _ stack f arity ts ih =>
    have hmoved := (Rearranged.refl (waitingMarks stack ++ Token.marks ts)).insert
      (leaves_waitingMarks stack) (.call f)
    exact (ih h).trans hmoved
  | case7 => cases h
  | case8 last stack op ts code stack' hpush ih =>
    obtain ⟨rest, hrest, heq⟩ := exists_of_bind_eq_ok h
    cases heq
    -- `op` is put on the stack, and from there to its place among the tokens
    have hpushed := rearranged_push (operatorAfter last op) stack
    rw [hpush] at hpushed
    have hfront := hpushed.append (.refl (Token.marks ts))
    have hmoved := (Rearranged.refl (waitingMarks stack ++ Token.marks ts)).insert
      (leaves_waitingMarks stack) (operatorAfter last op).mark
    have hop := (Rearranged.refl (waitingMarks stack)).append
      ((rearranged_operatorAfter last op).append (.refl (Token.marks ts)))
    rw [Instruction.marks_append]
    exact ((ih hrest).emit rfl).trans (hfront.trans (hmoved.trans hop))
  | case9 last stack ts ih => exact ih h
  | case10 => cases h
  | case11 last stack ts code stack' hunwind ih =>
    obtain ⟨rest, hrest, heq⟩ := exists_of_bind_eq_ok h
    cases heq
    rw [Instruction.marks_append]
    exact (ih hrest).emit (waitingMarks_tail_unwind? hunwind)
  | case12 => cases h
  | case13 last stack ts code stack' hunwind ih | case15 last stack ts code stack' hunwind ih =>
    obtain ⟨rest, hrest, heq⟩ := exists_of_bind_eq_ok h
    cases heq
    rw [Instruction.marks_append]
    exact (ih hrest).emit (waitingMarks_unwind? hunwind)
  | case14 => cases h
  | case16 => cases h

end Postfix

/-- The marks of a tree are those of its tokens, rearranged. -/
theorem Expr.rearranged_of_ofTokens {ts : List Token} {e : Expr} (h : ofTokens ts = .ok e) :
    Rearranged (e.parts.map mark) (Token.marks ts) := by
  obtain ⟨prepared, hprepared, h⟩ := exists_of_bind_eq_ok h
  obtain ⟨code, hcode, htree⟩ := exists_of_bind_eq_ok h
  rw [← marks_of_ofPostfix htree, ← Token.marks_prepare hprepared]
  exact Postfix.rearranged_convert hcode

/-! ## Tokens and nodes -/

namespace Token

/-- Whether a token is a given function. -/
def isFunction (f : Builtin) : Token → Bool
  | .function g _ => g == f
  | _ => false

/-- Whether a token is a given operator. -/
def isOperator (op : Operator) : Token → Bool
  | .operator o => o == op
  | _ => false

/-- The leaf of a tree that a number or a name makes. -/
def leaf? : Token → Option Expr
  | .number value => some (.literal value)
  | .name text => some (.variable text)
  | _ => none

end Token

namespace Expr

/-- Whether an expression is a number or a name. -/
def isLeaf : Expr → Bool
  | .literal _ | .variable _ => true
  | _ => false

/-- Whether an expression is a matrix literal. -/
def isMatrix : Expr → Bool
  | .matrix .. => true
  | _ => false

/-- Whether an expression applies a given operator to one operand. -/
def isUnary (op : UnaryOperator) : Expr → Bool
  | .unary o _ => o == op
  | _ => false

/-- Whether an expression applies a given operator to two operands. -/
def isBinary (op : BinaryOperator) : Expr → Bool
  | .binary o _ _ => o == op
  | _ => false

/-- Whether an expression calls a given function. -/
def isCall (f : Builtin) : Expr → Bool
  | .call g _ => g == f
  | _ => false

/-- The number of nodes of a kind. -/
def count (kind : Expr → Bool) (e : Expr) : Nat :=
  e.parts.countP kind

/-- The leaves of a tree, from left to right. -/
def leaves (e : Expr) : List Expr :=
  e.parts.filter isLeaf

end Expr

/-- No token is lost, made up or, if it is a number or a name, moved: the leaves of the tree are the
numbers and names among the tokens, and there are as many nodes of every other kind as tokens that
make them. -/
structure Conserves (ts : List Token) (e : Expr) : Prop where
  leaves : e.leaves = ts.filterMap Token.leaf?
  calls : ∀ f, e.count (Expr.isCall f) = ts.countP (Token.isFunction f)
  /-- A bracket opens an index or a matrix. -/
  brackets : e.count (Expr.isBinary .index) + e.count Expr.isMatrix =
    ts.countP Token.isOpenBracket
  /-- A minus is a subtraction or a sign. -/
  minuses : e.count (Expr.isBinary .sub) + e.count (Expr.isUnary .neg) =
    ts.countP (Token.isOperator (.binary .sub)) + ts.countP (Token.isOperator .neg)
  /-- Only a minus is a subtraction. -/
  subtractions : e.count (Expr.isBinary .sub) ≤ ts.countP (Token.isOperator (.binary .sub))
  transposes : e.count (Expr.isUnary .transpose) = ts.countP (Token.isOperator .transpose)
  /-- A complement is written as a word or as a sign. -/
  complements : e.count (Expr.isUnary .not) =
    ts.countP (Token.isOperator .not) + ts.countP (Token.isOperator .bang)
  others : ∀ op, op ≠ .sub → op ≠ .index →
    e.count (Expr.isBinary op) = ts.countP (Token.isOperator (.binary op))

/-! ### Which tokens and nodes have a mark -/

section

variable {x : Expr} {t : Token} {m : Mark} {op : BinaryOperator}

theorem Mark.isSubtraction_iff : m.isSubtraction = true ↔ m = .binary .sub := by
  unfold isSubtraction
  split
  · exact iff_of_true rfl rfl
  · rename_i hne
    exact iff_of_false Bool.false_ne_true hne

namespace Expr

theorem isCall_iff (f : Builtin) : x.isCall f = true ↔ x.mark = .call f := by
  cases x <;> simp [isCall, mark]

theorem isUnary_iff (op : UnaryOperator) : x.isUnary op = true ↔ x.mark = .unary op := by
  cases x <;> simp [isUnary, mark]

theorem isBinary_iff (hindex : op ≠ .index) : x.isBinary op = true ↔ x.mark = .binary op := by
  cases x <;> simp [isBinary, mark, hindex.symm]

theorem isIndex_or_isMatrix_iff :
    (x.isBinary .index || x.isMatrix) = true ↔ x.mark = .binary .index := by
  cases x <;> simp [isBinary, isMatrix, mark]

end Expr

namespace Token

theorem isFunction_iff (f : Builtin) : t.isFunction f = true ↔ t.mark? = some (.call f) := by
  cases t with
  | operator o => cases o <;> simp [isFunction, mark?, Operator.mark]
  | _ => simp [isFunction, mark?]

theorem isNeg_iff : t.isOperator .neg = true ↔ t.mark? = some (.unary .neg) := by
  cases t with
  | operator o => cases o <;> simp [isOperator, mark?, Operator.mark]
  | _ => simp [isOperator, mark?]

theorem isTranspose_iff : t.isOperator .transpose = true ↔ t.mark? = some (.unary .transpose) := by
  cases t with
  | operator o => cases o <;> simp [isOperator, mark?, Operator.mark]
  | _ => simp [isOperator, mark?]

theorem isComplement_iff :
    (t.isOperator .not || t.isOperator .bang) = true ↔ t.mark? = some (.unary .not) := by
  cases t with
  | operator o => cases o <;> simp [isOperator, mark?, Operator.mark]
  | _ => simp [isOperator, mark?]

theorem isBinary_iff (hindex : op ≠ .index) :
    t.isOperator (.binary op) = true ↔ t.mark? = some (.binary op) := by
  cases t with
  | operator o => cases o <;> simp [isOperator, mark?, Operator.mark, hindex.symm]
  | _ => simp [isOperator, mark?, hindex.symm]

/-- A text has no index and no matrix but those that a bracket opens. -/
theorem isOpenBracket_iff (h : t.isWritten = true) :
    t.isOpenBracket = true ↔ t.mark? = some (.binary .index) := by
  cases t with
  | operator o =>
    cases o with
    | binary op =>
      have hindex : op ≠ .index := by rintro rfl; cases h
      simp [isOpenBracket, mark?, Operator.mark, hindex]
    | literal rows cols => cases h
    | _ => simp [isOpenBracket, mark?, Operator.mark]
  | literalStart => cases h
  | _ => simp [isOpenBracket, mark?]

end Token

end

/-! ### Counting -/

theorem countP_or {α : Type} {p q : α → Bool} (h : ∀ x, p x = true → q x = false) (xs : List α) :
    xs.countP (fun x => p x || q x) = xs.countP p + xs.countP q := by
  induction xs with
  | nil => rfl
  | cons x xs ih =>
    rw [List.countP_cons, List.countP_cons, List.countP_cons, ih]
    cases hp : p x with
    | true => simp [h x hp]; omega
    | false => simp; omega

section

variable {ts : List Token} {e : Expr} (h : Rearranged (e.parts.map Expr.mark) (Token.marks ts))
include h

theorem leaves_eq_of_rearranged : e.leaves = ts.filterMap Token.leaf? := by
  have hnodes : (e.parts.map Expr.mark).filterMap Mark.leaf? = e.leaves := by
    rw [List.filterMap_map, Expr.leaves, ← List.filterMap_eq_filter]
    refine congrArg (List.filterMap · e.parts) (funext fun x => ?_)
    cases x <;> rfl
  have htokens : (Token.marks ts).filterMap Mark.leaf? = ts.filterMap Token.leaf? := by
    rw [Token.marks, List.filterMap_filterMap]
    refine congrArg (List.filterMap · ts) (funext fun t => ?_)
    cases t with
    | operator op => cases op <;> rfl
    | _ => rfl
  rw [← hnodes, ← htokens, h.leaves]

/-- There are as many nodes with a mark as tokens with it, if subtractions and signs are not told
apart. -/
theorem count_eq_of_unsigned (m : Mark) {p : Expr → Bool} {q : Token → Bool}
    (hp : ∀ x, p x = true ↔ x.mark.unsigned = m)
    (hq : ∀ t ∈ ts, q t = true ↔ ∃ k, t.mark? = some k ∧ k.unsigned = m) :
    e.count p = ts.countP q := by
  classical
  have hnodes : e.count p =
      ((e.parts.map Expr.mark).map Mark.unsigned).countP fun x => decide (x = m) := by
    rw [List.map_map, List.countP_map, Expr.count]
    exact List.countP_congr fun x _ => by simp [hp]
  have htokens : ts.countP q =
      ((Token.marks ts).map Mark.unsigned).countP fun x => decide (x = m) := by
    rw [Token.marks, List.countP_map, List.countP_filterMap]
    refine List.countP_congr fun t ht => ?_
    rw [hq t ht]
    cases t.mark? <;> simp
  rw [hnodes, htokens]
  exact h.perm.countP_eq _

/-- There are as many nodes with a mark as tokens with it, if it is not that of a minus. -/
theorem count_eq_of_mark {m : Mark} (hsub : m ≠ .binary .sub) (hneg : m ≠ .unary .neg)
    {p : Expr → Bool} {q : Token → Bool} (hp : ∀ x, p x = true ↔ x.mark = m)
    (hq : ∀ t ∈ ts, q t = true ↔ t.mark? = some m) : e.count p = ts.countP q := by
  refine count_eq_of_unsigned h m (fun x => ?_) fun t ht => ?_
  · rw [hp, Mark.unsigned_eq_iff hsub hneg]
  · rw [hq t ht]
    simp only [Mark.unsigned_eq_iff hsub hneg, exists_eq_right]

theorem subtractions_le : e.count (Expr.isBinary .sub) ≤
    ts.countP (Token.isOperator (.binary .sub)) := by
  have hnodes : (e.parts.map Expr.mark).countP Mark.isSubtraction =
      e.count (Expr.isBinary .sub) := by
    rw [List.countP_map]
    refine List.countP_congr fun x _ => ?_
    rw [Function.comp, Mark.isSubtraction_iff, Expr.isBinary_iff (by decide)]
  have htokens : (Token.marks ts).countP Mark.isSubtraction =
      ts.countP (Token.isOperator (.binary .sub)) := by
    rw [Token.marks, List.countP_filterMap]
    refine List.countP_congr fun t _ => ?_
    rw [Token.isBinary_iff (by decide)]
    cases t.mark? <;> simp [Mark.isSubtraction_iff]
  rw [← hnodes, ← htokens]
  exact h.subtractions

/-- A minus makes a subtraction or a sign. -/
theorem minuses_eq : e.count (Expr.isBinary .sub) + e.count (Expr.isUnary .neg) =
    ts.countP (Token.isOperator (.binary .sub)) + ts.countP (Token.isOperator .neg) := by
  have hnode : ∀ x : Expr, x.isBinary .sub = true → x.isUnary .neg = false := by
    intro x hx
    cases x <;> simp_all [Expr.isBinary, Expr.isUnary]
  have htoken : ∀ t : Token, t.isOperator (.binary .sub) = true → t.isOperator .neg = false := by
    intro t ht
    cases t <;> simp_all [Token.isOperator]
  rw [Expr.count, Expr.count, ← countP_or hnode, ← countP_or htoken]
  refine count_eq_of_unsigned h (.unary .neg) (fun x => ?_) fun t _ => ?_
  · rw [Bool.or_eq_true, Expr.isBinary_iff (by decide), Expr.isUnary_iff, Mark.unsigned_eq_neg_iff]
  · rw [Bool.or_eq_true, Token.isBinary_iff (by decide), Token.isNeg_iff]
    simp only [Mark.unsigned_eq_neg_iff, and_or_left, exists_or, exists_eq_right]

end

/-- **Nothing is lost between tokens and tree**: what is made of tokens that come from a text has
their numbers and names as its leaves, and one node for every other token that makes one. -/
theorem conserves_of_ofTokens {ts : List Token} {e : Expr} (hwritten : Token.Written ts)
    (h : Expr.ofTokens ts = .ok e) : Conserves ts e := by
  have hmarks := Expr.rearranged_of_ofTokens h
  constructor
  case leaves => exact leaves_eq_of_rearranged hmarks
  case minuses => exact minuses_eq hmarks
  case subtractions => exact subtractions_le hmarks
  case calls =>
    intro f
    exact count_eq_of_mark hmarks (by simp) (by simp) (fun _ => Expr.isCall_iff f) fun _ _ =>
      Token.isFunction_iff f
  case brackets =>
    have hnode : ∀ x : Expr, x.isBinary .index = true → x.isMatrix = false := by
      intro x hx
      cases x <;> simp_all [Expr.isBinary, Expr.isMatrix]
    rw [Expr.count, Expr.count, ← countP_or hnode]
    exact count_eq_of_mark hmarks (by simp) (by simp) (fun _ => Expr.isIndex_or_isMatrix_iff)
      fun t ht => Token.isOpenBracket_iff (hwritten t ht)
  case transposes =>
    exact count_eq_of_mark hmarks (by simp) (by simp) (fun _ => Expr.isUnary_iff .transpose)
      fun _ _ => Token.isTranspose_iff
  case complements =>
    have htoken : ∀ t : Token, t.isOperator .not = true → t.isOperator .bang = false := by
      intro t ht
      cases t <;> simp_all [Token.isOperator]
    rw [← countP_or htoken]
    exact count_eq_of_mark hmarks (by simp) (by simp) (fun _ => Expr.isUnary_iff .not)
      fun _ _ => Token.isComplement_iff
  case others =>
    intro op hsub hindex
    exact count_eq_of_mark hmarks (by simpa using hsub) (by simp)
      (fun _ => Expr.isBinary_iff hindex) fun _ _ => Token.isBinary_iff hindex

/-- Brackets that cross and operands with no operator between them are accepted, and nothing of
them is lost. -/
theorem conserves_crossing_brackets : ∃ ts e,
    Token.scan "-[1, !c; ~d, not e] + x max(1 y[2)' *] -" = .ok ts ∧
      Token.Written ts ∧ Expr.ofTokens ts = .ok e ∧ Conserves ts e := by
  have hevaluated :
      (match Token.scan "-[1, !c; ~d, not e] + x max(1 y[2)' *] -" with
      | .ok ts => (Expr.ofTokens ts).toBool
      | .error _ => false) = true := by decide +kernel
  split at hevaluated
  case h_1 ts hscan =>
    cases htree : Expr.ofTokens ts with
    | error e => rw [htree] at hevaluated; cases hevaluated
    | ok e =>
      have hwritten : Token.Written ts := (Token.meets_scanFrom _ _).of_ok hscan
      exact ⟨ts, e, hscan, hwritten, htree, conserves_of_ofTokens hwritten htree⟩
  case h_2 => cases hevaluated

end MatrixLang
