import MatrixLang.Proofs.OperandCounts
import MatrixLang.Proofs.OperatorStack
import MatrixLang.Proofs.Parts

/-! # The code of a tree

The postfix code of a tree lists it from the leaves up: the operands of each node, then the node
(`Expr.code`).  Reading postfix code with a stack of operands undoes this, and nothing else is
accepted: code makes the tree `e` exactly if it is the code of `e`, and every matrix in `e` has as
many elements as cells and every call a number of arguments that its function accepts
(`Expr.Complete`).  The two signs for the complement make the same node, so code is compared up to
the choice between them (`Instruction.plain`).

While code is read, what lies on the stack is the code that was read so far, cut into trees and
dimensions (`Operand.code`).  So no code can be read in two ways, although calls and literals
take different numbers of operands.

A literal counts its operands before it takes them, and code that comes from nowhere may name a
shape with more cells than a word can count.  That overflows (`build_cases`), but never for the code
of a tree: it has an instruction for each cell (`operands_lt_code`).
-/

namespace MatrixLang

/-- The operator that makes a node with one operand. -/
def UnaryOperator.operator : UnaryOperator → Operator
  | .neg => .neg
  | .transpose => .transpose
  | .not => .not

/-- An instruction with the word for the complement in the place of the sign. -/
def Instruction.plain : Instruction → Instruction
  | .apply .bang => .apply .not
  | i => i

namespace Expr

/-! ## Trees -/

mutual

/-- The postfix code of a tree. -/
def code : Expr → List Instruction
  | .literal value => [.number value]
  | .variable name => [.variable name]
  | .matrix rows cols elements =>
    codeOfAll elements ++ [.dim rows, .dim cols, .apply (.literal rows cols)]
  | .unary op operand => operand.code ++ [.apply op.operator]
  | .binary op left right => left.code ++ right.code ++ [.apply (.binary op)]
  | .call f arguments => codeOfAll arguments ++ [.call f arguments.length]

/-- The code of several trees, one after the other. -/
def codeOfAll : List Expr → List Instruction
  | [] => []
  | e :: es => e.code ++ codeOfAll es

end

/-- Whether a node has as many elements as its shape has cells, or as many arguments as its
function accepts. -/
def isFull : Expr → Bool
  | .matrix rows cols elements => elements.length == rows * cols
  | .call f arguments => f.accepts arguments.length
  | _ => true

/-- Trees in which all matrices have their elements and all calls their arguments. -/
def Complete (e : Expr) : Prop :=
  ∀ part ∈ e.parts, part.isFull = true

instance (e : Expr) : Decidable e.Complete :=
  inferInstanceAs (Decidable (∀ part ∈ e.parts, part.isFull = true))

theorem codeOfAll_eq_flatMap (es : List Expr) : codeOfAll es = es.flatMap code := by
  induction es with
  | nil => rfl
  | cons e es ih => rw [codeOfAll, ih, List.flatMap_cons]

section

variable {rows cols : Nat} {es : List Expr} {operand left right : Expr} {f : Builtin}

theorem complete_literal (value : Float) : (literal value).Complete :=
  List.forall_mem_singleton.mpr rfl

theorem complete_variable (name : String) : (Expr.variable name).Complete :=
  List.forall_mem_singleton.mpr rfl

theorem complete_all : (∀ part ∈ partsOfAll es, part.isFull = true) ↔ ∀ e ∈ es, e.Complete := by
  rw [partsOfAll_eq_flatMap, List.forall_mem_flatMap]
  rfl

theorem complete_matrix : (matrix rows cols es).Complete ↔
    (∀ e ∈ es, e.Complete) ∧ es.length = rows * cols := by
  rw [Complete, parts, List.forall_mem_append, complete_all, List.forall_mem_singleton, isFull,
    beq_iff_eq]

theorem complete_unary {op : UnaryOperator} :
    (unary op operand).Complete ↔ operand.Complete := by
  rw [Complete, parts, List.forall_mem_append, List.forall_mem_singleton]
  exact and_iff_left rfl

theorem complete_binary {op : BinaryOperator} :
    (binary op left right).Complete ↔ left.Complete ∧ right.Complete := by
  rw [Complete, parts, List.forall_mem_append, List.forall_mem_append, List.forall_mem_singleton]
  exact and_iff_left rfl

theorem complete_call : (call f es).Complete ↔
    (∀ e ∈ es, e.Complete) ∧ f.accepts es.length = true := by
  rw [Complete, parts, List.forall_mem_append, complete_all, List.forall_mem_singleton, isFull]

end

/-! ## From the tree to the code -/

variable {stack : List Operand}

mutual

/-- The code of a tree puts it on the stack. -/
theorem steps_code : ∀ {e : Expr} (stack : List Operand), e.Complete →
    steps stack e.code = .ok (.node e :: stack)
  | .literal value, _, _ => rfl
  | .variable name, _, _ => rfl
  | .matrix rows cols elements, stack, h => by
    obtain ⟨helements, hlength⟩ := complete_matrix.mp h
    rw [code, steps_append_ok (steps_codeOfAll stack helements)]
    exact steps_apply (applyLiteral_reverse hlength stack)
  | .unary op operand, stack, h => by
    rw [code, steps_append_ok (steps_code stack (complete_unary.mp h))]
    cases op with
    | neg | transpose | not => exact steps_apply (applyUnary_node _ _ operand stack)
  | .binary op left right, stack, h => by
    obtain ⟨hleft, hright⟩ := complete_binary.mp h
    rw [code, List.append_assoc, steps_append_ok (steps_code stack hleft),
      steps_append_ok (steps_code _ hright)]
    exact steps_apply (applyBinary_nodes op left right stack)
  | .call f arguments, stack, h => by
    obtain ⟨harguments, haccepts⟩ := complete_call.mp h
    rw [code, steps_append_ok (steps_codeOfAll stack harguments), steps, step,
      applyCall_reverse haccepts stack, ok_bind]
    rfl

/-- The code of several trees puts them on the stack, the last one on top. -/
theorem steps_codeOfAll : ∀ {es : List Expr} (stack : List Operand), (∀ e ∈ es, e.Complete) →
    steps stack (codeOfAll es) = .ok ((es.map .node).reverse ++ stack)
  | [], _, _ => rfl
  | e :: es, stack, h => by
    obtain ⟨he, hes⟩ := List.forall_mem_cons.mp h
    rw [codeOfAll, steps_append_ok (steps_code stack he), steps_codeOfAll _ hes, List.map_cons,
      List.reverse_cons, List.append_assoc, List.singleton_append]

end

/-! ## From the code to the tree -/

/-- The code that an operand comes from. -/
def Operand.code : Operand → List Instruction
  | .node e => e.code
  | .dim size => [.dim size]

/-- The code that all operands on the stack come from, the lowest one first. -/
def codeOnStack (stack : List Operand) : List Instruction :=
  stack.reverse.flatMap Operand.code

/-- All trees on the stack are complete. -/
def AllComplete (stack : List Operand) : Prop :=
  ∀ e, .node e ∈ stack → e.Complete

theorem codeOnStack_append (a b : List Operand) :
    codeOnStack (a ++ b) = codeOnStack b ++ codeOnStack a := by
  rw [codeOnStack, List.reverse_append, List.flatMap_append]
  rfl

theorem codeOnStack_cons (o : Operand) (stack : List Operand) :
    codeOnStack (o :: stack) = codeOnStack stack ++ o.code := by
  rw [codeOnStack, List.reverse_cons, List.flatMap_append, List.flatMap_singleton]
  rfl

theorem codeOnStack_nodes (es : List Expr) : codeOnStack (es.map .node).reverse = codeOfAll es := by
  rw [codeOnStack, List.reverse_reverse, List.flatMap_map, codeOfAll_eq_flatMap]
  rfl

theorem AllComplete.cons {e : Expr} (he : e.Complete) (h : AllComplete stack) :
    AllComplete (.node e :: stack) := by
  intro e' hmem
  rcases List.mem_cons.mp hmem with heq | hmem
  · cases heq
    exact he
  · exact h e' hmem

theorem AllComplete.nodes {es : List Expr} (h : AllComplete ((es.map .node).reverse ++ stack)) :
    ∀ e ∈ es, e.Complete := fun e he =>
  h e (List.mem_append_left _ (List.mem_reverse.mpr (List.mem_map_of_mem he)))

theorem AllComplete.below {a : List Operand} (h : AllComplete (a ++ stack)) : AllComplete stack :=
  fun e he => h e (List.mem_append_right _ he)

theorem meets_nodes_map (fault : Error) (operands : List Operand) :
    Meets (fun es => operands = es.map Operand.node) (fun _ => True) (nodes fault operands) := by
  induction operands with
  | nil => exact .pure rfl
  | cons o operands ih =>
    cases o with
    | dim size => trivial
    | node e => exact ih.bind fun es hes => .pure (congrArg (.node e :: ·) hes)

/-- Trees that are taken off the stack were on top of it. -/
theorem meets_popNodes_split (n : Nat) (what : String) (stack : List Operand) :
    Meets (fun r => r.1.length = n ∧ stack = (r.1.map Operand.node).reverse ++ r.2) (fun _ => True)
      (popNodes n what stack) := by
  refine (meets_popOperands_split trivial n stack).bind fun r hr => ?_
  obtain ⟨operands, rest⟩ := r
  obtain ⟨hlength, rfl⟩ := hr
  refine (meets_nodes_map _ operands).bind fun es hes => .pure ⟨?_, ?_⟩
  · rw [← hlength, hes, List.length_map]
  · rw [hes]

/-- The stack after the instruction `i`: complete trees whose code is one instruction longer. -/
def Extends (stack : List Operand) (i : Instruction) (next : List Operand) : Prop :=
  codeOnStack next = codeOnStack stack ++ [i.plain] ∧ AllComplete next

theorem extends_applyUnary (h : AllComplete stack) (op : UnaryOperator) (symbol : String) :
    Meets (Extends stack (.apply op.operator)) (fun _ => True) (applyUnary op symbol stack) := by
  refine (meets_popNodes_split 1 symbol stack).bind fun r hr => ?_
  obtain ⟨operands, rest⟩ := r
  obtain ⟨-, rfl⟩ := hr
  split
  · rename_i operand rest heq
    cases heq
    have hoperand := h.nodes operand List.mem_cons_self
    refine .pure ⟨?_, h.below.cons (complete_unary.mpr hoperand)⟩
    rw [codeOnStack_cons, codeOnStack_append, codeOnStack_nodes]
    cases op <;> simp [Operand.code, code, codeOfAll, UnaryOperator.operator, Instruction.plain]
  · trivial

theorem extends_applyBinary (h : AllComplete stack) (op : BinaryOperator) :
    Meets (Extends stack (.apply (.binary op))) (fun _ => True) (applyBinary op stack) := by
  refine (meets_popNodes_split 2 op.symbol stack).bind fun r hr => ?_
  obtain ⟨operands, rest⟩ := r
  obtain ⟨-, rfl⟩ := hr
  split
  · rename_i left right rest heq
    cases heq
    have hleft := h.nodes left List.mem_cons_self
    have hright := h.nodes right (List.mem_cons_of_mem _ List.mem_cons_self)
    refine .pure ⟨?_, h.below.cons (complete_binary.mpr ⟨hleft, hright⟩)⟩
    rw [codeOnStack_cons, codeOnStack_append, codeOnStack_nodes]
    simp [Operand.code, code, codeOfAll, Instruction.plain]
  · trivial

/-- The operands of a literal are its elements and then its two dimensions. -/
theorem extends_applyLiteral (h : AllComplete stack) (rows cols : Nat) :
    Meets (Extends stack (.apply (.literal rows cols))) (fun _ => True)
      (applyLiteral rows cols stack) := by
  refine (meets_popOperands_split trivial (rows * cols + 2) stack).bind fun r hr => ?_
  obtain ⟨operands, rest⟩ := r
  obtain ⟨hlength, rfl⟩ := hr
  dsimp only at hlength ⊢
  split
  · rename_i r c hdrop
    split
    · rename_i hshape
      obtain ⟨rfl, rfl⟩ := hshape
      refine (meets_nodes_map _ (operands.take (r * c))).bind fun es hes => .pure ?_
      have hoperands : operands = es.map Operand.node ++ [.dim r, .dim c] := by
        rw [← hes, ← hdrop, List.take_append_drop]
      have hcount : es.length = r * c := by
        have hsum := hlength
        rw [hoperands, List.length_append, List.length_map] at hsum
        exact Nat.add_right_cancel hsum
      rw [hoperands, List.reverse_append, List.append_assoc] at h ⊢
      refine ⟨?_, h.below.below.cons (complete_matrix.mpr ⟨h.below.nodes, hcount⟩)⟩
      rw [codeOnStack_cons, codeOnStack_append, codeOnStack_append, codeOnStack_nodes]
      simp [Operand.code, codeOnStack, code, Instruction.plain]
    · trivial
  · trivial

theorem extends_applyCall (h : AllComplete stack) (f : Builtin) (arity : Nat) :
    Meets (Extends stack (.call f arity)) (fun _ => True) (applyCall f arity stack) := by
  rw [applyCall]
  split
  · rename_i haccepts
    refine (meets_popNodes_split arity f.name stack).bind fun r hr => .pure ?_
    obtain ⟨arguments, rest⟩ := r
    obtain ⟨rfl, rfl⟩ := hr
    refine ⟨?_, h.below.cons (complete_call.mpr ⟨h.nodes, haccepts⟩)⟩
    rw [codeOnStack_cons, codeOnStack_append, codeOnStack_nodes]
    simp [Operand.code, code, Instruction.plain]
  · trivial

/-- An instruction adds itself to the code of what is on the stack. -/
theorem extends_step (h : AllComplete stack) (i : Instruction) :
    Meets (Extends stack i) (fun _ => True) (step stack i) := by
  cases i with
  | number value => exact .pure ⟨codeOnStack_cons _ _, h.cons (complete_literal value)⟩
  | «variable» name => exact .pure ⟨codeOnStack_cons _ _, h.cons (complete_variable name)⟩
  | dim size =>
    refine .pure ⟨codeOnStack_cons _ _, fun e he => h e ?_⟩
    simpa using he
  | call f arity => exact extends_applyCall h f arity
  | apply op =>
    cases op with
    | binary op => exact extends_applyBinary h op
    | neg => exact extends_applyUnary h .neg _
    | transpose => exact extends_applyUnary h .transpose _
    | not | bang => exact extends_applyUnary h .not _
    | literal rows cols => exact extends_applyLiteral h rows cols

/-- **What lies on the stack is the code that was read.** -/
theorem extends_steps (h : AllComplete stack) (code : List Instruction) :
    Meets (fun next => codeOnStack next = codeOnStack stack ++ code.map Instruction.plain ∧
      AllComplete next) (fun _ => True) (steps stack code) := by
  induction code generalizing stack with
  | nil => exact .pure ⟨(List.append_nil _).symm, h⟩
  | cons i code ih =>
    refine (extends_step h i).bind fun next hnext => (ih hnext.2).mono_ok fun r hr => ⟨?_, hr.2⟩
    rw [hr.1, hnext.1, List.append_assoc, List.map_cons, List.singleton_append]

/-- Code that makes a tree is the code of that tree, which is complete. -/
theorem code_of_ofPostfix {c : List Instruction} {e : Expr} (h : ofPostfix c = .ok e) :
    c.map Instruction.plain = e.code ∧ e.Complete := by
  obtain ⟨stack, hsteps, hstack⟩ := exists_of_bind_eq_ok h
  have hextends := @extends_steps [] (by simp [AllComplete]) c
  obtain ⟨hcode, hcomplete⟩ := hextends.of_ok hsteps
  rw [ofStack_eq_ok_iff.mp hstack] at hcode hcomplete
  rw [codeOnStack_cons] at hcode
  exact ⟨hcode.symm, hcomplete e List.mem_cons_self⟩

/-! ## Both ways -/

/-- The sign for the complement does what the word does, except that it is named if an operand is
missing. -/
theorem step_of_plain {i : Instruction} {next : List Operand}
    (h : step stack i.plain = .ok next) : step stack i = .ok next := by
  unfold Instruction.plain at h
  split at h
  · obtain ⟨⟨operands, rest⟩, hpop, heq⟩ := exists_of_bind_eq_ok h
    obtain ⟨-, rfl⟩ := (meets_popNodes_split 1 _ stack).of_ok hpop
    split at heq
    · rename_i operand _ hoperands
      cases hoperands
      cases heq
      exact applyUnary_node .not _ operand rest
    · cases heq
  · exact h

theorem steps_of_plain {c : List Instruction} {next : List Operand}
    (h : steps stack (c.map Instruction.plain) = .ok next) : steps stack c = .ok next := by
  induction c generalizing stack with
  | nil => exact h
  | cons i c ih =>
    obtain ⟨middle, hstep, hrest⟩ := exists_of_bind_eq_ok h
    rw [steps, step_of_plain hstep, ok_bind]
    exact ih hrest

/-- The code of a complete tree makes that tree. -/
theorem ofPostfix_of_code {c : List Instruction} {e : Expr} (hcomplete : e.Complete)
    (h : c.map Instruction.plain = e.code) : ofPostfix c = .ok e := by
  have hsteps : steps [] c = .ok [.node e] := steps_of_plain (h ▸ steps_code [] hcomplete)
  rw [ofPostfix, hsteps, ok_bind]
  rfl

/-! ## Counting in words -/

/-- Words can count the operands of an instruction. -/
def Countable : Instruction → Prop
  | .apply (.literal rows cols) => rows * cols + 2 < UInt64.size
  | _ => True

theorem countOperands_ok {i : Instruction} (h : Countable i) : countOperands i = .ok () := by
  cases i with
  | apply op =>
    cases op with
    | literal rows cols =>
      have hcount : rows * cols + 2 < 18446744073709551616 := h
      have hcells : Word.unsigned64.fit (rows * cols : Nat) = .ok ((rows * cols : Nat) : Int) :=
        if_pos ⟨Int.natCast_nonneg _, by show _ ≤ (18446744073709551615 : Int); omega⟩
      have hoperands : Word.unsigned64.fit ((rows * cols : Nat) + 2) =
          .ok (((rows * cols : Nat) : Int) + 2) :=
        if_pos ⟨by show (0 : Int) ≤ _; omega, by show _ ≤ (18446744073709551615 : Int); omega⟩
      rw [countOperands, Operator.arity, hcells, ok_bind, hoperands]
      rfl
    | _ => rfl
  | _ => rfl

theorem countOperands_error {i : Instruction} (h : ¬ Countable i) :
    countOperands i = .error ⟨.unsigned64⟩ := by
  cases i with
  | apply op =>
    cases op with
    | literal rows cols =>
      have hcount : ¬ rows * cols + 2 < 18446744073709551616 := h
      rw [countOperands, Operator.arity]
      by_cases hcells : Word.unsigned64.Holds (rows * cols : Nat)
      · have hoperands : ¬ Word.unsigned64.Holds ((rows * cols : Nat) + 2) := by
          rintro ⟨-, hle⟩
          have hle : ((rows * cols : Nat) : Int) + 2 ≤ 18446744073709551615 := hle
          omega
        rw [Word.fit, if_pos hcells, pure_bind, Word.fit, if_neg hoperands]
        rfl
      · rw [Word.fit, if_neg hcells]
        rfl
    | _ => exact absurd trivial h
  | _ => exact absurd trivial h

/-- Operands are counted before they are taken, and nothing else is different. -/
theorem countedSteps_cases (stack : List Operand) (c : List Instruction) :
    countedSteps stack c = .ok (steps stack c) ∨
      countedSteps stack c = .error ⟨.unsigned64⟩ ∧ ∃ i ∈ c, ¬ Countable i := by
  induction c generalizing stack with
  | nil => exact .inl rfl
  | cons i c ih =>
    rw [countedSteps, steps]
    by_cases hi : Countable i
    · rw [countOperands_ok hi, ok_bind]
      cases step stack i with
      | error e => exact .inl rfl
      | ok next =>
        rcases ih next with hok | ⟨herror, j, hj, hcount⟩
        · exact .inl hok
        · exact .inr ⟨herror, j, List.mem_cons_of_mem i hj, hcount⟩
    · rw [countOperands_error hi]
      exact .inr ⟨rfl, i, List.mem_cons_self, hi⟩

theorem build_cases (c : List Instruction) : build c = .ok (ofPostfix c) ∨
    build c = .error ⟨.unsigned64⟩ ∧ ∃ i ∈ c, ¬ Countable i := by
  rw [build]
  rcases countedSteps_cases [] c with hok | ⟨herror, hcount⟩
  · rw [hok]
    exact .inl rfl
  · rw [herror]
    exact .inr ⟨rfl, hcount⟩

theorem ofPostfix_of_build {c : List Instruction} {e : Expr} (h : build c = .ok (.ok e)) :
    ofPostfix c = .ok e := by
  rcases build_cases c with hok | ⟨herror, -⟩
  · rw [hok] at h
    exact Except.ok.inj h
  · rw [herror] at h
    cases h

theorem code_ne_nil (e : Expr) : e.code ≠ [] := by
  cases e <;> simp [code]

/-- Each tree has at least one instruction. -/
theorem length_le_codeOfAll (es : List Expr) : es.length ≤ (codeOfAll es).length := by
  induction es with
  | nil => exact Nat.le_refl 0
  | cons e es ih =>
    have hpos := List.length_pos_iff.mpr (code_ne_nil e)
    rw [codeOfAll, List.length_append, List.length_cons]
    omega

section

variable {rows cols : Nat}

mutual

/-- The code of a complete tree is longer than the operands of any literal in it. -/
theorem operands_lt_code : ∀ {e : Expr}, e.Complete → .apply (.literal rows cols) ∈ e.code →
    rows * cols + 2 < e.code.length
  | .literal value, _, hmem => by simp [code] at hmem
  | .variable name, _, hmem => by simp [code] at hmem
  | .matrix height width elements, h, hmem => by
    obtain ⟨helements, hcount⟩ := complete_matrix.mp h
    have hlength := length_le_codeOfAll elements
    rw [code, List.mem_append] at hmem
    rw [code, List.length_append]
    rcases hmem with hmem | hmem
    · exact Nat.lt_add_right _ (operands_lt_codeOfAll helements hmem)
    · -- the literal is this one, and its elements come before it
      simp only [List.mem_cons, List.not_mem_nil, or_false, reduceCtorEq, false_or,
        Instruction.apply.injEq, Operator.literal.injEq] at hmem
      obtain ⟨rfl, rfl⟩ := hmem
      simp only [List.length_cons, List.length_nil]
      omega
  | .unary op operand, h, hmem => by
    rw [code, List.mem_append] at hmem
    rw [code, List.length_append]
    rcases hmem with hmem | hmem
    · exact Nat.lt_add_right _ (operands_lt_code (complete_unary.mp h) hmem)
    · cases op <;> simp [UnaryOperator.operator] at hmem
  | .binary op left right, h, hmem => by
    obtain ⟨hleft, hright⟩ := complete_binary.mp h
    rw [code, List.mem_append, List.mem_append] at hmem
    rw [code, List.length_append, List.length_append]
    rcases hmem with (hmem | hmem) | hmem
    · have hlt := operands_lt_code hleft hmem
      omega
    · have hlt := operands_lt_code hright hmem
      omega
    · simp at hmem
  | .call f arguments, h, hmem => by
    rw [code, List.mem_append] at hmem
    rw [code, List.length_append]
    rcases hmem with hmem | hmem
    · exact Nat.lt_add_right _ (operands_lt_codeOfAll (complete_call.mp h).1 hmem)
    · simp at hmem

theorem operands_lt_codeOfAll : ∀ {es : List Expr}, (∀ e ∈ es, e.Complete) →
    .apply (.literal rows cols) ∈ codeOfAll es → rows * cols + 2 < (codeOfAll es).length
  | [], _, hmem => by simp [codeOfAll] at hmem
  | e :: es, h, hmem => by
    obtain ⟨he, hes⟩ := List.forall_mem_cons.mp h
    rw [codeOfAll, List.mem_append] at hmem
    rw [codeOfAll, List.length_append]
    rcases hmem with hmem | hmem
    · have hlt := operands_lt_code he hmem
      omega
    · have hlt := operands_lt_codeOfAll hes hmem
      omega

end

end

/-- The operands of the code of a tree can be counted, if its instructions can be. -/
theorem countable_of_code {c : List Instruction} {e : Expr} (hcomplete : e.Complete)
    (h : c.map Instruction.plain = e.code) (hlength : c.length < UInt64.size) :
    ∀ i ∈ c, Countable i := by
  intro i hi
  have hplain : i.plain ∈ e.code := h ▸ List.mem_map_of_mem hi
  have hcount : c.length = e.code.length := by rw [← h, List.length_map]
  cases i with
  | apply op =>
    cases op with
    | literal rows cols =>
      have hlt : rows * cols + 2 < e.code.length := operands_lt_code hcomplete hplain
      exact Nat.lt_trans hlt (hcount ▸ hlength)
    | _ => trivial
  | _ => trivial

theorem build_of_code {c : List Instruction} {e : Expr} (hcomplete : e.Complete)
    (h : c.map Instruction.plain = e.code) (hlength : c.length < UInt64.size) :
    build c = .ok (.ok e) := by
  rcases build_cases c with hok | ⟨-, i, hi, hcount⟩
  · rw [hok, ofPostfix_of_code hcomplete h]
  · exact absurd (countable_of_code hcomplete h hlength i hi) hcount

/-- **Building undoes linearising.**  Code makes a tree exactly if it is the code of that tree, up
to the sign for the complement, and the tree is complete.  So the code that is accepted is the code
of complete trees, and different code makes different trees.  The instructions are no more than a
word can count, as those of any code in memory are.

Otherwise the result is an error, or the overflow of a word where a literal names a shape with more
cells than a word can count. -/
theorem build_inverts_code :
    (∀ (c : List Instruction) (e : Expr), c.length < UInt64.size →
      (build c = .ok (.ok e) ↔ c.map Instruction.plain = e.code ∧ e.Complete)) ∧
    (∀ c : List Instruction, c.length < UInt64.size →
      ((∃ e, build c = .ok (.ok e)) ↔
        ∃ e : Expr, e.Complete ∧ c.map Instruction.plain = e.code)) ∧
    (∀ (c d : List Instruction) (e : Expr), build c = .ok (.ok e) → build d = .ok (.ok e) →
      c.map Instruction.plain = d.map Instruction.plain) ∧
    ∀ c : List Instruction, build c = .ok (ofPostfix c) ∨
      build c = .error ⟨.unsigned64⟩ ∧
        ∃ rows cols, .apply (.literal rows cols) ∈ c ∧ UInt64.size ≤ rows * cols + 2 := by
  refine ⟨fun c e hc => ⟨fun h => code_of_ofPostfix (ofPostfix_of_build h),
    fun h => build_of_code h.2 h.1 hc⟩, fun c hc => ?_, ?_, fun c => ?_⟩
  · constructor
    · rintro ⟨e, h⟩
      obtain ⟨hcode, hcomplete⟩ := code_of_ofPostfix (ofPostfix_of_build h)
      exact ⟨e, hcomplete, hcode⟩
    · rintro ⟨e, hcomplete, hcode⟩
      exact ⟨e, build_of_code hcomplete hcode hc⟩
  · intro c d e hc hd
    rw [(code_of_ofPostfix (ofPostfix_of_build hc)).1,
      (code_of_ofPostfix (ofPostfix_of_build hd)).1]
  · rcases build_cases c with hok | ⟨herror, i, hi, hcount⟩
    · exact .inl hok
    · refine .inr ⟨herror, ?_⟩
      unfold Countable at hcount
      split at hcount
      · rename_i rows cols
        exact ⟨rows, cols, hi, Nat.le_of_not_lt hcount⟩
      · exact absurd trivial hcount

/-- A row of a number and a complement makes a tree, and a literal that names more cells than a word
can count makes none. -/
theorem build_inverts_code_row :
    let c : List Instruction :=
      [.number 1, .variable "x", .apply .bang, .dim 1, .dim 2, .apply (.literal 1 2)]
    let e : Expr := .matrix 1 2 [.literal 1, .unary .not (.variable "x")]
    (c.length < UInt64.size ∧ c.map Instruction.plain = e.code ∧ e.Complete) ∧
      build c = .ok (.ok e) ∧
      build [.dim 9223372036854775808, .dim 2, .apply (.literal 9223372036854775808 2)] =
        .error ⟨.unsigned64⟩ := by
  intro c e
  have hlength : c.length < UInt64.size := by decide
  have hcode : c.map Instruction.plain = e.code ∧ e.Complete := ⟨rfl, by decide⟩
  exact ⟨⟨hlength, hcode⟩, (build_inverts_code.1 c e hlength).mpr hcode, rfl⟩

end Expr

end MatrixLang
