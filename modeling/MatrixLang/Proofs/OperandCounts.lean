import Mathlib.Algebra.Ring.Int.Defs
import MatrixLang.Expr.Build
import MatrixLang.Proofs.Outcomes

/-! # Counting operands

Postfix code is accepted if it leaves one tree.  How many trees code leaves can be told without
running it: each instruction has a weight, the number of trees by which the stack grows
(`Instruction.weight`), and code that runs through leaves the sum of its weights (`grows_steps`).

Putting tokens into postfix order moves the weights around and changes none, so the sum can be
read off the tokens (`weigh`).  Parentheses and separators weigh nothing there.
-/

namespace MatrixLang

/-! ## Code -/

/-- The number of trees that an operator takes. -/
def Operator.trees : Operator → Nat
  | .binary _ => 2
  | .literal rows cols => rows * cols
  | _ => 1

/-- By how many trees an instruction makes the operand stack grow. -/
def Instruction.weight : Instruction → Int
  | .number _ | .variable _ => 1
  | .dim _ => 0
  | .apply op => 1 - op.trees
  | .call _ arity => 1 - arity

/-- The sum of the weights of some code. -/
def Instruction.total (code : List Instruction) : Int :=
  (code.map weight).sum

namespace Expr

/-- Whether an operand is a tree. -/
def Operand.isNode : Operand → Bool
  | .node _ => true
  | .dim _ => false

/-- The number of trees on the stack. -/
def trees (stack : List Operand) : Nat :=
  stack.countP Operand.isNode

variable {stack : List Operand}

theorem meets_popOperands_split {Q : Error → Prop} {what : String}
    (h : Q (.illFormed (.missingOperand what))) (n : Nat) (stack : List Operand) :
    Meets (fun r => r.1.length = n ∧ stack = r.1.reverse ++ r.2) Q (popOperands n what stack) := by
  rw [popOperands]
  split
  · exact .throw h
  · rename_i hlength
    refine .pure ⟨?_, ?_⟩
    · rw [List.length_reverse, List.length_take, Nat.min_eq_left (Nat.le_of_not_lt hlength)]
    · rw [List.reverse_reverse, List.take_append_drop]

theorem meets_nodes_trees (fault : Error) (operands : List Operand) :
    Meets (fun es => es.length = operands.length ∧ trees operands = operands.length)
      (fun _ => True) (nodes fault operands) := by
  induction operands with
  | nil => exact .pure ⟨rfl, rfl⟩
  | cons o operands ih =>
    cases o with
    | dim size => trivial
    | node e =>
      refine ih.bind fun es hes => .pure ⟨congrArg Nat.succ hes.1, ?_⟩
      rw [trees, List.countP_cons_of_pos rfl, List.length_cons]
      exact congrArg Nat.succ hes.2

theorem trees_append (a b : List Operand) : trees (a ++ b) = trees a + trees b :=
  List.countP_append

theorem trees_reverse (a : List Operand) : trees a.reverse = trees a :=
  List.countP_reverse

theorem trees_node (e : Expr) (stack : List Operand) :
    trees (.node e :: stack) = trees stack + 1 :=
  List.countP_cons_of_pos rfl

theorem meets_popNodes_trees (n : Nat) (what : String) (stack : List Operand) :
    Meets (fun r => r.1.length = n ∧ trees stack = n + trees r.2) (fun _ => True)
      (popNodes n what stack) := by
  refine (meets_popOperands_split trivial n stack).bind fun r hr => ?_
  obtain ⟨operands, rest⟩ := r
  obtain ⟨hlength, rfl⟩ := hr
  refine (meets_nodes_trees _ operands).bind fun es hes => .pure ⟨hes.1.trans hlength, ?_⟩
  rw [trees_append, trees_reverse, hes.2, hlength]

/-- The stack grows by the weight `w`. -/
def Grows (stack : List Operand) (w : Int) (r : List Operand) : Prop :=
  (trees r : Int) = trees stack + w

theorem grows_applyUnary (op : UnaryOperator) (symbol : String) :
    Meets (Grows stack 0) (fun _ => True) (applyUnary op symbol stack) := by
  refine (meets_popNodes_trees 1 symbol stack).bind fun r hr => ?_
  obtain ⟨operands, rest⟩ := r
  split
  · rename_i heq
    cases heq
    have hcount : trees stack = 1 + trees rest := hr.2
    refine .pure ?_
    rw [Grows, trees_node, hcount]
    omega
  · trivial

theorem grows_applyBinary (op : BinaryOperator) :
    Meets (Grows stack (-1)) (fun _ => True) (applyBinary op stack) := by
  refine (meets_popNodes_trees 2 op.symbol stack).bind fun r hr => ?_
  obtain ⟨operands, rest⟩ := r
  split
  · rename_i heq
    cases heq
    have hcount : trees stack = 2 + trees rest := hr.2
    refine .pure ?_
    rw [Grows, trees_node, hcount]
    omega
  · trivial

/-- The dimensions of a literal are not trees, and its other operands are. -/
theorem grows_applyLiteral (rows cols : Nat) :
    Meets (Grows stack (1 - (rows * cols : Nat))) (fun _ => True)
      (applyLiteral rows cols stack) := by
  refine (meets_popOperands_split trivial (rows * cols + 2) stack).bind fun r hr => ?_
  obtain ⟨operands, rest⟩ := r
  obtain ⟨hlength, rfl⟩ := hr
  dsimp only at hlength ⊢
  split
  · rename_i r c hdrop
    split
    · refine (meets_nodes_trees _ (operands.take (rows * cols))).bind fun es hes => .pure ?_
      have hoperands : trees operands = rows * cols := by
        rw [← List.take_append_drop (rows * cols) operands, trees_append, hes.2, hdrop,
          List.length_take, hlength, Nat.min_eq_left (Nat.le_add_right _ 2)]
        rfl
      rw [Grows, trees_node, trees_append, trees_reverse, hoperands]
      omega
    · trivial
  · trivial

theorem grows_applyOperator (op : Operator) :
    Meets (Grows stack (1 - op.trees)) (fun _ => True) (applyOperator op stack) := by
  cases op with
  | binary op => exact grows_applyBinary op
  | neg | transpose | not | bang => exact grows_applyUnary _ _
  | literal rows cols => exact grows_applyLiteral rows cols

theorem grows_applyCall (f : Builtin) (arity : Nat) :
    Meets (Grows stack (1 - arity)) (fun _ => True) (applyCall f arity stack) := by
  rw [applyCall]
  split
  · refine (meets_popNodes_trees arity f.name stack).bind fun r hr => .pure ?_
    rw [Grows, trees_node, hr.2]
    omega
  · trivial

theorem grows_step (i : Instruction) :
    Meets (Grows stack i.weight) (fun _ => True) (step stack i) := by
  cases i with
  | number value => exact .pure (congrArg Int.ofNat (trees_node _ _))
  | «variable» name => exact .pure (congrArg Int.ofNat (trees_node _ _))
  | dim size => exact .pure (Int.add_zero _).symm
  | apply op => exact grows_applyOperator op
  | call f arity => exact grows_applyCall f arity

/-- **Code that runs through makes the stack grow by its weight.** -/
theorem grows_steps (code : List Instruction) :
    Meets (Grows stack (Instruction.total code)) (fun _ => True) (steps stack code) := by
  induction code generalizing stack with
  | nil => exact .pure (Int.add_zero _).symm
  | cons i code ih =>
    refine (grows_step i).bind fun next hnext => ?_
    refine Meets.of_forall_ok fun r hr => ?_
    have hrest : (trees r : Int) = trees next + Instruction.total code := ih.of_ok hr
    have hfirst : (trees next : Int) = trees stack + i.weight := hnext
    rw [Grows, hrest, hfirst, Instruction.total, Instruction.total, List.map_cons, List.sum_cons,
      Int.add_assoc]

/-- Code that runs through calls functions only with as many arguments as they accept. -/
theorem accepts_of_steps {code : List Instruction} {r : List Operand} {f : Builtin} {arity : Nat}
    (h : steps stack code = .ok r) (hcall : .call f arity ∈ code) : f.accepts arity = true := by
  induction code generalizing stack with
  | nil => cases hcall
  | cons i code ih =>
    obtain ⟨next, hstep, hrest⟩ := exists_of_bind_eq_ok h
    rcases List.mem_cons.mp hcall with rfl | hmem
    · rw [step, applyCall] at hstep
      split at hstep
      · assumption
      · cases hstep
    · exact ih hrest hmem

/-- Code of which a tree is made weighs one. -/
theorem total_of_ofPostfix {code : List Instruction} {e : Expr} (h : ofPostfix code = .ok e) :
    Instruction.total code = 1 := by
  obtain ⟨stack, hsteps, hstack⟩ := exists_of_bind_eq_ok h
  have hgrows : (trees stack : Int) = 0 + Instruction.total code := (grows_steps code).of_ok hsteps
  rw [ofStack_eq_ok_iff.mp hstack, Int.zero_add] at hgrows
  exact hgrows.symm

end Expr

/-! ## Postfix order -/

namespace Postfix

/-- The weight of what waits on the operator stack. -/
def Pending.weight (p : Pending) : Int :=
  Instruction.total p.code

/-- The weight of all that waits. -/
def waiting (stack : List Pending) : Int :=
  (stack.map Pending.weight).sum

/-- The weight of a token, with `last` before it. -/
def weight (last : Option Token) : Token → Int
  | .number _ | .name _ => 1
  | .function _ (some arity) => 1 - arity
  | .operator op => 1 - (operatorAfter last op).trees
  | _ => 0

/-- The token that counts as the one before what comes after `t`. -/
def lastAfter (last : Option Token) : Token → Option Token
  | .openParen => last
  | t => some t

/-- The sum of the weights of some tokens, with `last` before them. -/
def weigh (last : Option Token) : List Token → Int
  | [] => 0
  | t :: ts => weight last t + weigh (lastAfter last t) ts

theorem total_append (a b : List Instruction) :
    Instruction.total (a ++ b) = Instruction.total a + Instruction.total b := by
  rw [Instruction.total, List.map_append, List.sum_append]
  rfl

theorem total_flatMap_code (stack : List Pending) :
    Instruction.total (stack.flatMap Pending.code) = waiting stack := by
  induction stack with
  | nil => rfl
  | cons p stack ih =>
    rw [List.flatMap_cons, total_append, ih, waiting, waiting, List.map_cons, List.sum_cons]
    rfl

theorem waiting_append (a b : List Pending) : waiting (a ++ b) = waiting a + waiting b := by
  rw [waiting, List.map_append, List.sum_append]
  rfl

theorem waiting_cons (p : Pending) (stack : List Pending) :
    waiting (p :: stack) = p.weight + waiting stack := by
  rw [waiting, List.map_cons, List.sum_cons]
  rfl

theorem weight_operator (op : Operator) : (Pending.operator op).weight = 1 - op.trees :=
  Int.add_zero _

theorem weight_call (f : Builtin) (arity : Nat) : (Pending.call f arity).weight = 1 - arity :=
  Int.add_zero _

/-- What leaves the stack and what stays on it weigh as much as the stack. -/
theorem waiting_takeWhile_dropWhile (p : Pending → Bool) (stack : List Pending) :
    Instruction.total ((stack.takeWhile p).flatMap Pending.code) + waiting (stack.dropWhile p) =
      waiting stack := by
  rw [total_flatMap_code, ← waiting_append, List.takeWhile_append_dropWhile]

theorem waiting_push (op : Operator) (stack : List Pending) :
    Instruction.total (push op stack).1 + waiting (push op stack).2 =
      waiting stack + (1 - op.trees) := by
  rw [push]
  split
  · show Instruction.total [] + waiting (.operator op :: stack) = _
    rw [waiting_cons, weight_operator]
    show (0 : Int) + _ = _
    omega
  · have hstack := waiting_takeWhile_dropWhile (·.yieldsTo op) stack
    dsimp only
    rw [waiting_cons, weight_operator]
    omega

theorem waiting_unwind? {stack rest : List Pending} {code : List Instruction}
    (h : unwind? stack = some (code, rest)) :
    Instruction.total code + waiting rest = waiting stack := by
  rw [unwind?] at h
  split at h
  · cases h
  · cases h
    exact waiting_takeWhile_dropWhile (!·.isParen) stack

/-- What stays on the stack begins with a parenthesis. -/
theorem exists_paren_of_unwind? {stack rest : List Pending} {code : List Instruction}
    (h : unwind? stack = some (code, rest)) : ∃ rest', rest = .paren :: rest' := by
  rw [unwind?] at h
  split at h
  · cases h
  · rename_i hne
    cases h
    obtain ⟨p, others, hrest⟩ := List.exists_cons_of_ne_nil hne
    have hhead := List.head?_dropWhile_not (!·.isParen) stack
    rw [hrest] at hhead ⊢
    cases p with
    | paren => exact ⟨others, rfl⟩
    | operator op => cases hhead
    | call f arity => cases hhead

/-- **Postfix order keeps the weight of the tokens.** -/
theorem total_convert {last : Option Token} {stack : List Pending} {ts : List Token}
    {code : List Instruction} (h : convert last stack ts = .ok code) :
    Instruction.total code = waiting stack + weigh last ts := by
  fun_induction convert last stack ts generalizing code with
  | case1 => cases h
  | case2 =>
    cases h
    rw [total_flatMap_code, weigh, Int.add_zero]
  | case3 _ _ value ts ih | case4 _ _ name ts ih | case5 _ _ size ts ih =>
    obtain ⟨rest, hrest, heq⟩ := exists_of_bind_eq_ok h
    cases heq
    have htotal := ih hrest
    rw [Instruction.total, List.map_cons, List.sum_cons, weigh]
    simp only [Instruction.total, Instruction.weight, weight, lastAfter] at htotal ⊢
    omega
  | case6 _ stack f arity ts ih =>
    have htotal := ih h
    rw [waiting_cons, weight_call] at htotal
    simp only [weigh, weight, lastAfter]
    omega
  | case7 => cases h
  | case8 last stack op ts code stack' hpush ih =>
    obtain ⟨rest, hrest, heq⟩ := exists_of_bind_eq_ok h
    cases heq
    have htotal := ih hrest
    have hpushed := waiting_push (operatorAfter last op) stack
    rw [hpush] at hpushed
    dsimp only at hpushed
    rw [total_append]
    simp only [weigh, weight, lastAfter]
    omega
  | case9 last stack ts ih =>
    have htotal := ih h
    have hparen : waiting (.paren :: stack) = waiting stack := Int.zero_add _
    simp only [weigh, weight, lastAfter]
    omega
  | case10 => cases h
  | case11 last stack ts code stack' hunwind ih =>
    obtain ⟨rest, hrest, heq⟩ := exists_of_bind_eq_ok h
    cases heq
    have htotal := ih hrest
    obtain ⟨others, rfl⟩ := exists_paren_of_unwind? hunwind
    have hwaiting := waiting_unwind? hunwind
    have hparen : waiting (.paren :: others) = waiting others := Int.zero_add _
    rw [List.tail_cons] at htotal
    rw [total_append]
    simp only [weigh, weight, lastAfter]
    omega
  | case12 => cases h
  | case13 last stack ts code stack' hunwind ih | case15 last stack ts code stack' hunwind ih =>
    obtain ⟨rest, hrest, heq⟩ := exists_of_bind_eq_ok h
    cases heq
    have htotal := ih hrest
    have hwaiting := waiting_unwind? hunwind
    rw [total_append]
    simp only [weigh, weight, lastAfter]
    omega
  | case14 => cases h
  | case16 => cases h

section

variable {f : Builtin} {arity : Nat} {stack : List Pending}

theorem mem_push (op : Operator) (h : .call f arity ∈ stack) :
    .call f arity ∈ (push op stack).2 ∨ .call f arity ∈ (push op stack).1 := by
  rw [push]
  split
  · exact .inl (List.mem_cons_of_mem _ h)
  · rw [← List.takeWhile_append_dropWhile (p := (·.yieldsTo op)) (l := stack)] at h
    rcases List.mem_append.mp h with htake | hdrop
    · exact .inr (List.mem_flatMap.mpr ⟨_, htake, List.mem_cons_self⟩)
    · exact .inl (List.mem_cons_of_mem _ hdrop)

theorem mem_tail_unwind? {rest : List Pending} {code : List Instruction}
    (hunwind : unwind? stack = some (code, rest)) (h : .call f arity ∈ stack) :
    .call f arity ∈ rest.tail ∨ .call f arity ∈ code := by
  obtain ⟨rest', rfl⟩ := exists_paren_of_unwind? hunwind
  rw [unwind?] at hunwind
  split at hunwind
  · cases hunwind
  · obtain ⟨rfl, hdropped⟩ := Prod.mk.inj (Option.some.inj hunwind)
    rw [← List.takeWhile_append_dropWhile (p := (!·.isParen)) (l := stack), hdropped] at h
    rcases List.mem_append.mp h with htake | hdrop
    · exact .inr (List.mem_flatMap.mpr ⟨_, htake, List.mem_cons_self⟩)
    · exact .inl (by simpa using hdrop)

end

/-- Every function among the tokens, or waiting, is called by the code. -/
theorem call_mem_convert {last : Option Token} {stack : List Pending} {ts : List Token}
    {code : List Instruction} {f : Builtin} {arity : Nat} (h : convert last stack ts = .ok code)
    (hmem : .function f (some arity) ∈ ts ∨ .call f arity ∈ stack) : .call f arity ∈ code := by
  fun_induction convert last stack ts generalizing code with
  | case1 => cases h
  | case2 last stack hparen =>
    cases h
    rcases hmem with hnil | hstack
    · cases hnil
    · exact List.mem_flatMap.mpr ⟨_, hstack, List.mem_cons_self⟩
  | case3 _ _ value ts ih | case4 _ _ name ts ih | case5 _ _ size ts ih =>
    obtain ⟨rest, hrest, heq⟩ := exists_of_bind_eq_ok h
    cases heq
    refine List.mem_cons_of_mem _ (ih hrest ?_)
    simpa using hmem
  | case6 _ stack g n ts ih =>
    refine ih h ?_
    simpa [or_assoc, or_comm, or_left_comm] using hmem
  | case7 => cases h
  | case8 last stack op ts code stack' hpush ih =>
    obtain ⟨rest, hrest, heq⟩ := exists_of_bind_eq_ok h
    cases heq
    rcases hmem with hts | hstack
    · exact List.mem_append_right _ (ih hrest (.inl (by simpa using hts)))
    · have hpushed := mem_push (operatorAfter last op) hstack
      rw [hpush] at hpushed
      rcases hpushed with hkept | hcode
      · exact List.mem_append_right _ (ih hrest (.inr hkept))
      · exact List.mem_append_left _ hcode
  | case9 last stack ts ih =>
    refine ih h ?_
    simpa using hmem
  | case10 => cases h
  | case11 last stack ts code stack' hunwind ih =>
    obtain ⟨rest, hrest, heq⟩ := exists_of_bind_eq_ok h
    cases heq
    rcases hmem with hts | hstack
    · exact List.mem_append_right _ (ih hrest (.inl (by simpa using hts)))
    · rcases mem_tail_unwind? hunwind hstack with hkept | hcode
      · exact List.mem_append_right _ (ih hrest (.inr hkept))
      · exact List.mem_append_left _ hcode
  | case12 => cases h
  | case13 last stack ts code stack' hunwind ih | case15 last stack ts code stack' hunwind ih =>
    obtain ⟨rest, hrest, heq⟩ := exists_of_bind_eq_ok h
    cases heq
    rcases hmem with hts | hstack
    · exact List.mem_append_right _ (ih hrest (.inl (by simpa using hts)))
    · rcases mem_tail_unwind? hunwind hstack with hkept | hcode
      · exact List.mem_append_right _ (ih hrest (.inr (List.mem_of_mem_tail hkept)))
      · exact List.mem_append_left _ hcode
  | case14 => cases h
  | case16 => cases h

end Postfix

end MatrixLang
