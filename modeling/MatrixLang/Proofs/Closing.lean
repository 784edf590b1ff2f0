import MatrixLang.Proofs.OperandCounts
import MatrixLang.Proofs.Separators

/-! # Closed groups

Tokens that are put into postfix order have all of their groups closed, and their separators stand
inside of groups: the operator stack holds a parenthesis for every group that is open.  The passes
before do not tell one kind of bracket from the other, and close none themselves, so the same holds
of the tokens that they start from (`closed_of_accepted`).
-/

namespace MatrixLang

namespace Token

/-- Whether all groups are closed, by a bracket of either kind, and no separator is outside of
them, where `depth` groups are open. -/
def closedFrom (depth : Nat) : List Token → Bool
  | [] => depth == 0
  | .openParen :: ts | .openBracket :: ts => closedFrom (depth + 1) ts
  | .closeParen :: ts | .closeBracket :: ts => depth != 0 && closedFrom (depth - 1) ts
  | .comma :: ts | .semicolon :: ts => depth != 0 && closedFrom depth ts
  | _ :: ts => closedFrom depth ts

/-- Whether all groups of an expression are closed, and no separator is outside of them. -/
def closed (ts : List Token) : Bool :=
  closedFrom 0 ts

/-- If the groups of `xs` are closed, so are those of `ys`, whatever comes before. -/
def Closes (xs ys : List Token) : Prop :=
  ∀ depth, closedFrom depth xs = true → closedFrom depth ys = true

namespace Closes

variable {xs ys : List Token}

/-- A token before both. -/
theorem cons (h : Closes xs ys) (t : Token) : Closes (t :: xs) (t :: ys) := by
  intro depth hclosed
  cases t with
  | closeParen | closeBracket | comma | semicolon =>
    obtain ⟨hdepth, hrest⟩ := Bool.and_eq_true_iff.mp hclosed
    exact Bool.and_eq_true_iff.mpr ⟨hdepth, h _ hrest⟩
  | _ => exact h _ hclosed

end Closes

theorem closes_resolveBracketsAfter (last : Option Token) (ts : List Token) :
    Closes (resolveBracketsAfter last ts) ts := by
  induction ts generalizing last with
  | nil => exact fun _ h => h
  | cons t ts ih =>
    cases t with
    | openBracket =>
      intro depth hclosed
      rw [resolveBracketsAfter] at hclosed
      split at hclosed <;> exact ih _ _ hclosed
    | closeBracket => exact (ih _).cons .closeBracket
    | _ => exact (ih _).cons _

theorem closes_of_resolveLiteralsIn {groups : List (Option Shape)} {ts rs : List Token}
    (h : resolveLiteralsIn groups ts = .ok rs) : Closes rs ts := by
  fun_induction resolveLiteralsIn groups ts generalizing rs with
  | case1 groups =>
    cases h
    exact fun _ h => h
  | case2 groups ts ih =>
    obtain ⟨shape, hshape, h⟩ := exists_of_bind_eq_ok h
    obtain ⟨rest, hrest, heq⟩ := exists_of_bind_eq_ok h
    cases heq
    exact (ih shape hrest).cons .openParen
  | case3 => cases h
  | case4 groups ts ih =>
    obtain ⟨rest, hrest, heq⟩ := exists_of_bind_eq_ok h
    cases heq
    exact (ih hrest).cons .openParen
  | case5 groups ts ih =>
    obtain ⟨rest, hrest, heq⟩ := exists_of_bind_eq_ok h
    cases heq
    have hclose := (ih hrest).cons .closeParen
    cases groups.headD none with
    | none => exact hclose
    | some shape =>
      -- the dimensions of a literal have two separators of their own
      intro depth hclosed
      have hcols := (Bool.and_eq_true_iff.mp hclosed).2
      exact hclose depth (Bool.and_eq_true_iff.mp hcols).2
  | case6 groups ts ih =>
    obtain ⟨rest, hrest, heq⟩ := exists_of_bind_eq_ok h
    cases heq
    exact (ih hrest).cons .semicolon
  | case7 groups t ts hliteral hstart hopen hclose hsemicolon ih =>
    obtain ⟨rest, hrest, heq⟩ := exists_of_bind_eq_ok h
    cases heq
    exact (ih hrest).cons t

theorem closes_of_resolveArity {ts ps : List Token} (h : resolveArity ts = .ok ps) :
    Closes ps ts := by
  induction ts generalizing ps with
  | nil =>
    cases h
    exact fun _ h => h
  | cons t ts ih =>
    obtain ⟨f, rfl⟩ | hfunction := eq_function_or t
    · obtain ⟨arity, -, h⟩ := exists_of_bind_eq_ok h
      obtain ⟨rest, hrest, heq⟩ := exists_of_bind_eq_ok h
      cases heq
      exact (ih hrest).cons (.function f none)
    · obtain ⟨rest, hrest, rfl⟩ := resolveArity_cons h hfunction
      exact (ih hrest).cons t

end Token

namespace Postfix

open Token (closedFrom)

/-- The groups that are open. -/
def depth (stack : List Pending) : Nat :=
  stack.countP Pending.isParen

theorem depth_dropWhile {p : Pending → Bool} (hp : p .paren = false) (stack : List Pending) :
    depth (stack.dropWhile p) = depth stack := by
  induction stack with
  | nil => rfl
  | cons x stack ih =>
    by_cases hx : p x = true
    · rw [List.dropWhile_cons_of_pos hx, ih]
      cases x with
      | paren => exact absurd (hp.symm.trans hx) Bool.false_ne_true
      | operator | call => exact (List.countP_cons_of_neg Bool.false_ne_true).symm
    · rw [List.dropWhile_cons_of_neg hx]

theorem depth_push (op : Operator) (stack : List Pending) :
    depth (push op stack).2 = depth stack := by
  rw [push]
  split
  · exact List.countP_cons_of_neg Bool.false_ne_true
  · exact (List.countP_cons_of_neg Bool.false_ne_true).trans (depth_dropWhile rfl stack)

/-- The parenthesis that stays on the stack is one of those that are open. -/
theorem depth_unwind? {stack rest : List Pending} {code : List Instruction}
    (h : unwind? stack = some (code, rest)) :
    depth stack = depth rest.tail + 1 ∧ depth rest = depth stack := by
  have hdepth : depth rest = depth stack := by
    rw [unwind?] at h
    split at h
    · cases h
    · cases h
      exact depth_dropWhile rfl stack
  obtain ⟨others, rfl⟩ := exists_paren_of_unwind? h
  exact ⟨hdepth.symm.trans (List.countP_cons_of_pos rfl), hdepth⟩

/-- **Tokens in postfix order had their groups closed.** -/
theorem closedFrom_of_convert {last : Option Token} {stack : List Pending} {ts : List Token}
    {code : List Instruction} (h : convert last stack ts = .ok code) :
    closedFrom (depth stack) ts = true := by
  fun_induction convert last stack ts generalizing code with
  | case1 => cases h
  | case2 last stack hparen =>
    have hzero : depth stack = 0 := List.countP_eq_zero.mpr fun p hp hisParen =>
      hparen (List.any_eq_true.mpr ⟨p, hp, hisParen⟩)
    rw [hzero]
    rfl
  | case3 _ stack value ts ih | case4 _ stack name ts ih | case5 _ stack size ts ih =>
    obtain ⟨rest, hrest, -⟩ := exists_of_bind_eq_ok h
    exact ih hrest
  | case6 _ stack f arity ts ih => exact ih h
  | case7 => cases h
  | case8 last stack op ts code stack' hpush ih =>
    obtain ⟨rest, hrest, -⟩ := exists_of_bind_eq_ok h
    have hdepth := depth_push (operatorAfter last op) stack
    rw [hpush] at hdepth
    have hclosed := ih hrest
    rwa [hdepth] at hclosed
  | case9 last stack ts ih =>
    have hclosed := ih h
    rwa [depth, List.countP_cons_of_pos rfl] at hclosed
  | case10 => cases h
  | case11 last stack ts code stack' hunwind ih =>
    obtain ⟨rest, hrest, -⟩ := exists_of_bind_eq_ok h
    have hclosed := ih hrest
    obtain ⟨hdepth, -⟩ := depth_unwind? hunwind
    rw [hdepth]
    exact hclosed
  | case12 => cases h
  | case13 last stack ts code stack' hunwind ih | case15 last stack ts code stack' hunwind ih =>
    obtain ⟨rest, hrest, -⟩ := exists_of_bind_eq_ok h
    have hclosed := ih hrest
    obtain ⟨hpos, hdepth⟩ := depth_unwind? hunwind
    rw [hdepth] at hclosed
    refine Bool.and_eq_true_iff.mpr ⟨?_, hclosed⟩
    rw [hpos]
    rfl
  | case14 => cases h
  | case16 => cases h

end Postfix

/-- **Tokens of an expression that is accepted have their groups closed.** -/
theorem Token.closed_of_accepted {ts : List Token} {e : Expr} (h : Expr.ofTokens ts = .ok e) :
    closed ts = true := by
  obtain ⟨ps, hprepare, h⟩ := exists_of_bind_eq_ok h
  obtain ⟨code, hcode, -⟩ := exists_of_bind_eq_ok h
  obtain ⟨rs, hrs, harity⟩ := exists_of_bind_eq_ok hprepare
  have hclosed := closes_of_resolveArity harity 0 (Postfix.closedFrom_of_convert hcode)
  exact closes_resolveBracketsAfter none ts 0 (closes_of_resolveLiteralsIn hrs 0 hclosed)

end MatrixLang
