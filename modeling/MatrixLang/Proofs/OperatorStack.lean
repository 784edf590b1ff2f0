import MatrixLang.Proofs.Preparation

/-! # The operator stack and the operand stack

Postfix code is made with a stack of pending operators, and read with a stack of operands.
While the tokens of a derivation go by, the two stacks together hold the frames of
`Infix.read`: a frame is a pending operator, and its left operand, if it has one, is on the
operand stack.

The operand after the frames is not all there yet.  A call, a literal or an index that has been
read whole still waits on the operator stack, above the frames, and is applied when the next
operator arrives (`Reads`).  A quote waits among the frames, where an index that comes next leaves
it.  This is the one place where the stacks do not read what is written: they agree with
`Infix.walk` where no index stands directly after a quote (`meaning_eq_tree`).
-/

namespace MatrixLang

open Postfix (Pending convert push unwind? minusIsUnary operatorAfter)
open MatrixLang.Expr (Operand steps)

namespace Postfix

/-- Making postfix code only asks whether an operand comes before. -/
theorem convert_congr {last last' : Option Token} (stack : List Pending) (ts : List Token)
    (h : minusIsUnary last = minusIsUnary last') :
    convert last stack ts = convert last' stack ts := by
  induction ts generalizing stack with
  | nil => rfl
  | cons t ts ih =>
    cases t with
    | openParen => exact ih _
    | operator op => simp only [convert, operatorAfter, h]
    | function f arity => cases arity <;> rfl
    | _ => rfl

theorem convert_operand {t : Token} (h : minusIsUnary (some t) = false) (stack : List Pending)
    (ts : List Token) : convert (some t) stack ts = convert (some .closeParen) stack ts :=
  convert_congr stack ts (by rw [h]; rfl)

/-- A stack on which nothing is pending but what a parenthesis holds back. -/
def Base (stack : List Pending) : Prop :=
  ∀ x ∈ stack.head?, x.isParen = true

theorem base_nil : Base [] := nofun

theorem base_paren (stack : List Pending) : Base (.paren :: stack) := by
  simp [Base, Pending.isParen]

theorem takeWhile_base {stack : List Pending} (h : Base stack) (op : Operator) :
    stack.takeWhile (·.yieldsTo op) = [] ∧ stack.dropWhile (·.yieldsTo op) = stack := by
  cases stack with
  | nil => simp
  | cons x stack =>
    have hx : x.isParen = true := h x rfl
    cases x with
    | paren => simp [Pending.yieldsTo]
    | _ => cases hx

end Postfix

namespace Expr

theorem steps_append (stack : List Operand) (c d : List Instruction) :
    steps stack (c ++ d) = steps stack c >>= fun stack => steps stack d := by
  induction c generalizing stack with
  | nil => rfl
  | cons i c ih =>
    rw [List.cons_append, steps, steps, bind_assoc]
    exact bind_congr fun s => ih s

theorem steps_append_ok {stack stack' : List Operand} {c : List Instruction}
    (h : steps stack c = .ok stack') (d : List Instruction) :
    steps stack (c ++ d) = steps stack' d := by
  rw [steps_append, h, ok_bind]

theorem steps_apply {op : Operator} {stack stack' : List Operand}
    (h : applyOperator op stack = .ok stack') : steps stack [.apply op] = .ok stack' := by
  rw [steps, step, h]
  rfl

theorem nodes_map (fault : Error) (es : List Expr) :
    nodes fault (es.map .node) = .ok es := by
  induction es with
  | nil => rfl
  | cons e es ih =>
    rw [List.map_cons, nodes, ih]
    rfl

/-- Operands in source order are taken off the stack in that order. -/
theorem popOperands_reverse (what : String) (operands stack : List Operand) :
    popOperands operands.length what (operands.reverse ++ stack) = .ok (operands, stack) := by
  have hlen : ¬ (operands.reverse ++ stack).length < operands.length := by simp
  rw [popOperands, if_neg hlen, List.take_left' (by simp), List.drop_left' (by simp),
    List.reverse_reverse]
  rfl

theorem popNodes_reverse (what : String) (es : List Expr) (stack : List Operand) :
    popNodes es.length what ((es.map .node).reverse ++ stack) = .ok (es, stack) := by
  have h := popOperands_reverse what (es.map .node) stack
  rw [List.length_map] at h
  rw [popNodes, h, ok_bind]
  simp only [nodes_map, ok_bind]
  rfl

theorem applyCall_reverse {f : Builtin} {es : List Expr} (h : f.accepts es.length = true)
    (stack : List Operand) :
    applyCall f es.length ((es.map .node).reverse ++ stack) =
      .ok (.node (.call f es) :: stack) := by
  rw [applyCall, if_pos h, popNodes_reverse, ok_bind]
  rfl

theorem applyUnary_node (op : UnaryOperator) (symbol : String) (e : Expr) (stack : List Operand) :
    applyUnary op symbol (.node e :: stack) = .ok (.node (.unary op e) :: stack) := by
  have h := popNodes_reverse symbol [e] stack
  rw [applyUnary]
  exact h ▸ rfl

theorem applyBinary_nodes (op : BinaryOperator) (a b : Expr) (stack : List Operand) :
    applyBinary op (.node b :: .node a :: stack) = .ok (.node (.binary op a b) :: stack) := by
  have h := popNodes_reverse op.symbol [a, b] stack
  rw [applyBinary]
  exact h ▸ rfl

theorem applyLiteral_reverse {rows cols : Nat} {es : List Expr} (h : es.length = rows * cols)
    (stack : List Operand) :
    applyLiteral rows cols (.dim cols :: .dim rows :: ((es.map .node).reverse ++ stack)) =
      .ok (.node (.matrix rows cols es) :: stack) := by
  let dims : List Operand := [.dim rows, .dim cols]
  have hpop := popOperands_reverse "#" (es.map .node ++ dims) stack
  have hlength : (es.map Operand.node ++ dims).length = rows * cols + 2 := by simp [dims, h]
  have hstack : (es.map Operand.node ++ dims).reverse ++ stack =
      .dim cols :: .dim rows :: ((es.map .node).reverse ++ stack) := by simp [dims]
  have hdrop : (es.map Operand.node ++ dims).drop (rows * cols) = dims :=
    List.drop_left' (by simpa using h)
  have htake : (es.map Operand.node ++ dims).take (rows * cols) = es.map .node :=
    List.take_left' (by simpa using h)
  rw [hlength, hstack] at hpop
  simp only [applyLiteral, hpop, ok_bind, hdrop, htake, dims, nodes_map, and_self, ite_true]
  rfl

end Expr

namespace Infix

open Token Postfix MatrixLang.Expr

/-! ## Frames on the two stacks -/

/-- A frame on the operator stack. -/
def Frame.pending : Frame → Pending
  | .before p => .operator p.meant
  | .between op _ => .operator (.binary op)
  | .quote => .operator .transpose

/-- What a frame has on the operand stack. -/
def Frame.operands : Frame → List Operand
  | .before _ | .quote => []
  | .between _ left => [.node left]

/-- Frames on the operator stack. -/
def pendings (k : List Frame) : List Pending :=
  k.map Frame.pending

/-- What frames have on the operand stack. -/
def operands (k : List Frame) : List Operand :=
  k.flatMap Frame.operands

/-- The code that applies what is pending. -/
def codeOf (stack : List Pending) : List Instruction :=
  stack.flatMap Pending.code

theorem Frame.yieldsTo_pending (f : Frame) (op : Operator) :
    f.pending.yieldsTo op = decide (f.level ≤ op.priority) := by
  cases f <;> rfl

theorem pendings_no_paren (k : List Frame) : ∀ x ∈ pendings k, x.isParen = false := by
  intro x hx
  obtain ⟨f, _, rfl⟩ := List.mem_map.mp hx
  cases f <;> rfl

theorem steps_frame (f : Frame) (e : Expr) (stack : List Operand) :
    steps (.node e :: (f.operands ++ stack)) f.pending.code = .ok (.node (f.fill e) :: stack) := by
  cases f with
  | before p =>
    have h : applyOperator p.meant (.node e :: stack) = .ok (.node (.unary p.node e) :: stack) := by
      cases p <;> exact applyUnary_node _ _ e stack
    exact steps_apply h
  | between op left =>
    have h : applyOperator (.binary op) (.node e :: .node left :: stack) =
        .ok (.node (.binary op left e) :: stack) := applyBinary_nodes op left e stack
    exact steps_apply h
  | quote => exact steps_apply (applyUnary_node .transpose _ e stack)

/-- The code of frames fills them. -/
theorem steps_fillAll (k : List Frame) (e : Expr) (stack : List Operand) :
    steps (.node e :: (operands k ++ stack)) (codeOf (pendings k)) =
      .ok (.node (fillAll k e) :: stack) := by
  induction k generalizing e with
  | nil => rfl
  | cons f k ih =>
    have hcode : codeOf (pendings (f :: k)) = f.pending.code ++ codeOf (pendings k) := rfl
    have hoperands : operands (f :: k) = f.operands ++ operands k := rfl
    rw [hcode, hoperands, List.append_assoc, steps_append_ok (steps_frame f e _)]
    exact ih (f.fill e)

/-- The code of the frames that an operator finds binding tighter. -/
theorem steps_settle (p : Nat) (r : List Frame × Expr) (stack : List Operand) :
    steps (.node r.2 :: (operands r.1 ++ stack))
        (codeOf (pendings (r.1.takeWhile (·.level ≤ p)))) =
      .ok (.node (settle p r).2 :: (operands (settle p r).1 ++ stack)) := by
  have hsplit : operands r.1 = operands (r.1.takeWhile (·.level ≤ p)) ++
      operands (r.1.dropWhile (·.level ≤ p)) := by
    rw [operands, operands, operands, ← List.flatMap_append, List.takeWhile_append_dropWhile]
  rw [hsplit, List.append_assoc, steps_fillAll]
  rfl

/-- What leaves the operator stack when an operator arrives. -/
theorem push_frames {op : Operator} (hop : op.standsBefore = false) {loose : List Pending}
    (hloose : ∀ x ∈ loose, x.yieldsTo op = true) (k : List Frame) {stack : List Pending}
    (hbase : Base stack) :
    push op (loose ++ (pendings k ++ stack)) =
      (codeOf loose ++ codeOf (pendings (k.takeWhile (·.level ≤ op.priority))),
        .operator op :: (pendings (k.dropWhile (·.level ≤ op.priority)) ++ stack)) := by
  have hframes : (pendings k ++ stack).takeWhile (·.yieldsTo op) =
      pendings (k.takeWhile (·.level ≤ op.priority)) ∧
      (pendings k ++ stack).dropWhile (·.yieldsTo op) =
        pendings (k.dropWhile (·.level ≤ op.priority)) ++ stack := by
    induction k with
    | nil => exact takeWhile_base hbase op
    | cons f k ih =>
      by_cases hf : f.level ≤ op.priority
      · simpa [pendings, Frame.yieldsTo_pending, hf] using ih
      · simp [pendings, Frame.yieldsTo_pending, hf]
  rw [push, hop, List.takeWhile_append_of_pos hloose, List.dropWhile_append_of_pos hloose,
    hframes.1, hframes.2]
  simp [codeOf]

/-- What leaves the operator stack at a separator or a closing parenthesis. -/
theorem unwind?_frames {loose : List Pending} (hloose : ∀ x ∈ loose, x.isParen = false)
    (k : List Frame) (stack : List Pending) :
    unwind? (loose ++ (pendings k ++ .paren :: stack)) =
      some (codeOf loose ++ codeOf (pendings k), .paren :: stack) := by
  have hall : ∀ x ∈ loose ++ pendings k, (!x.isParen) = true := by
    intro x hx
    rcases List.mem_append.mp hx with hx | hx
    · rw [hloose x hx]; rfl
    · rw [pendings_no_paren k x hx]; rfl
  rw [← List.append_assoc, unwind?, List.dropWhile_append_of_pos hall,
    List.takeWhile_append_of_pos hall]
  simp [Pending.isParen, codeOf]

/-! ## Expressions inside a group -/

/-- Tokens in parentheses, up to a comma or the closing parenthesis, whose code puts
`pushed` on the operand stack. -/
structure Compiles (ts : List Token) (code : List Instruction) (pushed : List Operand) : Prop where
  comma : ∀ last stack rest, minusIsUnary last = true →
    convert last (.paren :: stack) (ts ++ .comma :: rest) =
      (code ++ ·) <$> convert (some .comma) (.paren :: stack) rest
  close : ∀ last stack rest, minusIsUnary last = true →
    convert last (.paren :: stack) (ts ++ .closeParen :: rest) =
      (code ++ ·) <$> convert (some .closeParen) stack rest
  steps : ∀ stack, steps stack code = .ok (pushed ++ stack)

namespace Compiles

variable {a b : List Token} {c d : List Instruction} {p q : List Operand}

theorem join (ha : Compiles a c p) (hb : Compiles b d q) :
    Compiles (a ++ .comma :: b) (c ++ d) (q ++ p) where
  comma last stack rest h := by
    rw [List.append_assoc, List.cons_append, ha.comma last stack _ h, hb.comma _ stack rest rfl,
      Functor.map_map]
    simp
  close last stack rest h := by
    rw [List.append_assoc, List.cons_append, ha.comma last stack _ h, hb.close _ stack rest rfl,
      Functor.map_map]
    simp
  steps stack := by
    rw [steps_append_ok (ha.steps stack), hb.steps, List.append_assoc]

theorem dim (size : Nat) : Compiles [.dim size] [.dim size] [.dim size] where
  comma _ _ _ _ := by
    simp [convert, unwind?, Pending.isParen]
  close _ _ _ _ := by
    simp [convert, unwind?, Pending.isParen]
  steps _ := rfl

end Compiles

/-! ## Reading a derivation -/

/-- Frames whose operators all bind less tightly than an index or a literal. -/
def Loose (k : List Frame) : Prop :=
  ∀ f ∈ k, 0 < f.level

theorem loose_nil : Loose [] := by simp [Loose]

theorem Loose.settle {r : List Frame × Expr} (h : Loose r.1) (p : Nat) : Loose (settle p r).1 :=
  fun f hf => h f ((List.dropWhile_suffix _).subset hf)

theorem Loose.cons {f : Frame} {k : List Frame} (hf : 0 < f.level) (h : Loose k) : Loose (f :: k) :=
  List.forall_mem_cons.mpr ⟨hf, h⟩

theorem Loose.dropWhile {k : List Frame} (h : Loose k) :
    k.takeWhile (·.level ≤ 0) = [] ∧ k.dropWhile (·.level ≤ 0) = k := by
  cases k with
  | nil => exact ⟨rfl, rfl⟩
  | cons f k =>
    have hf : ¬ f.level ≤ 0 := Nat.not_le.mpr (h f (by simp))
    rw [List.takeWhile_cons_of_neg (by simpa using hf),
      List.dropWhile_cons_of_neg (by simpa using hf)]
    exact ⟨rfl, rfl⟩

/-- What the two stacks hold after a derivation has been read where the frames `k` were
waiting.  `above` is on top of the operator stack and belongs to the last operand. -/
structure Reads (t : Infix) (k : List Frame) (code : List Instruction) (above : List Pending) :
    Prop where
  convert : ∀ last stack rest, minusIsUnary last = true → Base stack →
    convert last (pendings k ++ stack) (t.spell .prepared ++ rest) =
      (code ++ ·) <$>
        convert (some .closeParen) (above ++ (pendings (t.read k).1 ++ stack)) rest
  steps : ∀ stack, steps (operands k ++ stack) (code ++ codeOf above) =
    .ok (.node (t.read k).2 :: (operands (t.read k).1 ++ stack))
  noParen : ∀ x ∈ above, x.isParen = false
  yields : ∀ x ∈ above, ∀ op : Operator, x.yieldsTo op = true
  loose : Loose (t.read k).1

/-- A derivation that can be read wherever an operand is expected. -/
def Readable (t : Infix) : Prop :=
  ∀ k, Loose k → ∃ code above, Reads t k code above

/-- An operator that arrives after a derivation finds its left operand on the operand stack. -/
theorem Reads.arrive {t : Infix} {k : List Frame} {code : List Instruction} {above : List Pending}
    (hr : Reads t k code above) (op : Operator) (hop : op.standsBefore = false) :
    ∃ code, (∀ last stack rest, minusIsUnary last = true → Base stack →
        Postfix.convert last (pendings k ++ stack) (t.spell .prepared ++ .operator op :: rest) =
          (code ++ ·) <$> Postfix.convert (some (.operator op))
            (.operator op :: (pendings (settle op.priority (t.read k)).1 ++ stack)) rest) ∧
      ∀ stack, Expr.steps (operands k ++ stack) code =
        .ok (.node (settle op.priority (t.read k)).2 ::
          (operands (settle op.priority (t.read k)).1 ++ stack)) := by
  refine ⟨code ++ codeOf above ++
    codeOf (pendings ((t.read k).1.takeWhile (·.level ≤ op.priority))), ?_, ?_⟩
  · intro last stack rest hlast hbase
    have hafter : operatorAfter (some .closeParen) op = op := by simp [operatorAfter, minusIsUnary]
    rw [hr.convert last stack _ hlast hbase, Postfix.convert, hafter,
      push_frames hop (fun x hx => hr.yields x hx op) _ hbase]
    simp [settle]
  · intro stack
    rw [steps_append_ok (hr.steps stack), steps_settle]

/-- A derivation in a group. -/
theorem Readable.compiles {t : Infix} (h : Readable t) :
    ∃ code, Compiles (t.spell .prepared) code [.node t.meaning] ∧
      Postfix.ofTokens (t.spell .prepared) = .ok code := by
  -- nothing waits outside of a group, and what is left inside is unwound where it ends
  obtain ⟨code, above, hr⟩ := h [] nofun
  refine ⟨code ++ (codeOf above ++ codeOf (pendings (t.read []).1)), ⟨?_, ?_, ?_⟩, ?_⟩
  · intro last stack rest hlast
    have hconvert := hr.convert last (.paren :: stack) (.comma :: rest) hlast (base_paren stack)
    rw [Postfix.convert, unwind?_frames hr.noParen] at hconvert
    simpa [pendings] using hconvert
  · intro last stack rest hlast
    have hconvert := hr.convert last (.paren :: stack) (.closeParen :: rest) hlast
      (base_paren stack)
    rw [Postfix.convert, unwind?_frames hr.noParen] at hconvert
    simpa [pendings] using hconvert
  · intro stack
    have hsteps := hr.steps stack
    rw [← List.append_assoc]
    rw [show operands [] ++ stack = stack from rfl] at hsteps
    rw [steps_append_ok hsteps, steps_fillAll]
    rfl
  · have hconvert := hr.convert none [] [] rfl base_nil
    have hparen : (above ++ pendings (t.read []).1).any Pending.isParen = false := by
      rw [List.any_eq_false]
      intro x hx
      rcases List.mem_append.mp hx with hx | hx
      · rw [hr.noParen x hx]; exact Bool.false_ne_true
      · rw [pendings_no_paren _ x hx]; exact Bool.false_ne_true
    simp only [List.append_nil, Postfix.convert, hparen] at hconvert
    rw [Postfix.ofTokens]
    show convert none [] _ = pure _
    simpa [pendings, codeOf] using hconvert

/-- Expressions with commas between them. -/
theorem compiles_joined {ts : List Infix} (hne : ts ≠ [])
    (h : ∀ t ∈ ts, Readable t) :
    ∃ code, Compiles (joined .comma (ts.map (spell .prepared))) code
      ((ts.map meaning).map Operand.node).reverse := by
  obtain ⟨t, ts, rfl⟩ := List.exists_cons_of_ne_nil hne
  clear hne
  induction ts generalizing t with
  | nil =>
    obtain ⟨code, hcode, -⟩ := (h t (by simp)).compiles
    exact ⟨code, by simpa [joined] using hcode⟩
  | cons u ts ih =>
    obtain ⟨code, hcode, -⟩ := (h t (by simp)).compiles
    obtain ⟨codes, hcodes⟩ := ih u fun v hv => h v (List.mem_cons_of_mem _ hv)
    exact ⟨code ++ codes, by simpa [joined] using hcode.join hcodes⟩

/-- Rows of expressions with commas between them. -/
theorem compiles_joinedRows {rows : List (List Infix)} (hrows : rows ≠ [])
    (hne : ∀ row ∈ rows, row ≠ []) (h : ∀ row ∈ rows, ∀ t ∈ row, Readable t) :
    ∃ code, Compiles (joined .comma (rows.map fun row => joined .comma (row.map (spell .prepared))))
      code ((rows.map fun row => row.map meaning).flatten.map Operand.node).reverse := by
  obtain ⟨row, rows, rfl⟩ := List.exists_cons_of_ne_nil hrows
  clear hrows
  induction rows generalizing row with
  | nil =>
    obtain ⟨code, hcode⟩ := compiles_joined (hne row (by simp)) (h row (by simp))
    exact ⟨code, by simpa [joined] using hcode⟩
  | cons other rows ih =>
    obtain ⟨code, hcode⟩ := compiles_joined (hne row (by simp)) (h row (by simp))
    obtain ⟨codes, hcodes⟩ := ih other (fun r hr => hne r (List.mem_cons_of_mem _ hr))
      fun r hr => h r (List.mem_cons_of_mem _ hr)
    exact ⟨code ++ codes, by simpa [joined] using hcode.join hcodes⟩

/-- A number or a name. -/
theorem Reads.operand {t : Infix} {k : List Frame} {token : Token} {i : Instruction} {e : Expr}
    (hspell : t.spell .prepared = [token]) (hread : t.read k = (k, e))
    (htoken : ∀ last stack rest, Postfix.convert last stack (token :: rest) =
      (i :: ·) <$> Postfix.convert (some token) stack rest)
    (hlast : minusIsUnary (some token) = false)
    (hstep : ∀ stack, step stack i = .ok (.node e :: stack)) (hk : Loose k) :
    Reads t k [i] [] where
  convert last stack rest _ _ := by
    rw [hspell, hread, List.singleton_append, htoken, convert_operand hlast]
    rfl
  steps stack := by
    rw [hread, codeOf, List.flatMap_nil, List.append_nil, Expr.steps, hstep]
    rfl
  noParen := nofun
  yields := nofun
  loose := by rwa [hread]

theorem readable_number (value : Float) : Readable (number value) := fun _ hk =>
  ⟨[.number value], [],
    Reads.operand rfl rfl (fun _ _ _ => by simp [convert]) rfl (fun _ => rfl) hk⟩

theorem readable_name (text : String) : Readable (name text) := fun _ hk =>
  ⟨[.variable text], [],
    Reads.operand rfl rfl (fun _ _ _ => by simp [convert]) rfl (fun _ => rfl) hk⟩

theorem Readable.paren {t : Infix} (h : Readable t) : Readable (paren t) := by
  intro k hk
  obtain ⟨code, hcode, -⟩ := h.compiles
  refine ⟨code, [], ?_, ?_, nofun, nofun, hk⟩
  · intro last stack rest hlast _
    rw [spell, List.cons_append, List.append_assoc, List.singleton_append, Postfix.convert,
      hcode.close _ _ _ hlast]
    rfl
  · intro stack
    rw [codeOf, List.flatMap_nil, List.append_nil, hcode.steps]
    rfl

theorem readable_call {f : Builtin} {arguments : List Infix}
    (hcount : f.accepts arguments.length = true) (h : ∀ t ∈ arguments, Readable t) :
    Readable (call f arguments) := by
  intro k hk
  have hne : arguments ≠ [] := List.ne_nil_of_length_pos (accepts_pos hcount)
  obtain ⟨code, hcode⟩ := compiles_joined hne h
  refine ⟨code, [.call f arguments.length], ?_, ?_, by simp [Pending.isParen],
    by simp [Pending.yieldsTo], hk⟩
  · intro last stack rest _ _
    rw [spell, spellAll_eq_map, List.cons_append, List.cons_append, List.append_assoc,
      List.singleton_append]
    show convert last _ (.function f (some arguments.length) :: _) = _
    rw [Postfix.convert, Postfix.convert, hcode.close _ _ _ rfl]
    rfl
  · intro stack
    have happly := @applyCall_reverse f (arguments.map meaning) (by simpa using hcount)
      (operands k ++ stack)
    rw [List.length_map] at happly
    rw [steps_append_ok (hcode.steps _)]
    simp only [codeOf, List.flatMap_cons, List.flatMap_nil, Pending.code, List.append_nil,
      Expr.steps, step, happly, ok_bind, read, meanings_eq_map]
    rfl

theorem readable_literal {rows : List (List Infix)} (hrows : rows ≠ [])
    (hcols : 0 < (shapeOf rows).cols) (hlength : ∀ row ∈ rows, row.length = (shapeOf rows).cols)
    (h : ∀ row ∈ rows, ∀ t ∈ row, Readable t) : Readable (literal rows) := by
  intro k hk
  have hne : ∀ row ∈ rows, row ≠ [] := fun row hr =>
    List.ne_nil_of_length_pos (hlength row hr ▸ hcols)
  obtain ⟨code, hcode⟩ := compiles_joinedRows hrows hne h
  let shape := shapeOf rows
  have hall := (hcode.join (Compiles.dim shape.rows)).join (Compiles.dim shape.cols)
  refine ⟨code ++ [.dim shape.rows] ++ [.dim shape.cols],
    [.operator (.literal shape.rows shape.cols)], ?_, ?_, by simp [Pending.isParen],
    by simp [Pending.yieldsTo, Operator.priority], hk⟩
  -- a literal binds tightest, so nothing leaves the stack before it
  · intro last stack rest _ hbase
    have hpush := @push_frames (.literal shape.rows shape.cols) rfl [] nofun k stack hbase
    rw [show (Operator.literal shape.rows shape.cols).priority = 0 from rfl, hk.dropWhile.1,
      hk.dropWhile.2] at hpush
    have hspell : (literal rows).spell .prepared ++ rest =
        .operator (.literal shape.rows shape.cols) :: .openParen ::
          (joined .comma (rows.map fun row => joined .comma (row.map (spell .prepared))) ++
            [.comma, .dim shape.rows] ++ [.comma, .dim shape.cols] ++ .closeParen :: rest) := by
      simp [spell, spellRows_eq_map, Spelling.prepared, Spelling.shaped, shape]
    have hafter : operatorAfter last (.literal shape.rows shape.cols) =
        .literal shape.rows shape.cols := by simp [operatorAfter]
    rw [hspell, Postfix.convert, hafter]
    rw [List.nil_append] at hpush
    rw [hpush]
    simp only [Postfix.convert, hall.close _ _ _ (show minusIsUnary (some (.operator
      (.literal shape.rows shape.cols))) = true from rfl)]
    simp [codeOf, pendings, read]
  · intro stack
    have hcount : ((rows.map fun row => row.map meaning).flatten).length =
        shape.rows * shape.cols := by
      have hlengths : rows.map (fun row => (row.map meaning).length) =
          List.replicate rows.length shape.cols :=
        List.map_eq_replicate_iff.mpr fun row hr => by rw [List.length_map, hlength row hr]
      rw [List.length_flatten, List.map_map]
      exact (congrArg List.sum hlengths).trans List.sum_replicate_nat
    rw [steps_append_ok (hall.steps _), read, meaningsOfRows_eq_map]
    exact steps_apply (applyLiteral_reverse hcount (operands k ++ stack))

theorem Readable.before {t : Infix} (h : Readable t) (p : Prefix) : Readable (before p t) := by
  intro k hk
  obtain ⟨code, above, hr⟩ := h (.before p :: k)
    (hk.cons p.meant_priority_pos)
  refine ⟨code, above, ?_, hr.steps, hr.noParen, hr.yields, hr.loose⟩
  · intro last stack rest hlast hbase
    have hop : operatorAfter last p.written = p.meant := by
      cases p <;> simp [operatorAfter, Prefix.written, Prefix.meant, hlast]
    have hconvert := hr.convert (some (.operator p.written)) stack rest
      (by simpa [minusIsUnary] using p.written_ne_transpose) hbase
    rw [spell, List.cons_append, Postfix.convert, hop]
    simp only [push, Prefix.meant_standsBefore, ite_true, List.nil_append, bind_pure]
    exact hconvert

theorem Readable.between {a b : Infix} (ha : Readable a) (hb : Readable b) {op : BinaryOperator}
    (hop : op ≠ .index) : Readable (between op a b) := by
  intro k hk
  have hpos : 0 < op.priority := by cases op <;> first | decide | exact absurd rfl hop
  -- the left operand is complete when `op` arrives, and `op` waits for the right one in a frame
  obtain ⟨codea, abovea, hra⟩ := ha k hk
  obtain ⟨code, hconvert, hsteps⟩ := hra.arrive (.binary op) rfl
  obtain ⟨codeb, above, hrb⟩ := hb
    (.between op (settle op.priority (a.read k)).2 :: (settle op.priority (a.read k)).1)
    ((hra.loose.settle _).cons hpos)
  refine ⟨code ++ codeb, above, ?_, ?_, hrb.noParen, hrb.yields, hrb.loose⟩
  · intro last stack rest hlast hbase
    have hright := hrb.convert (some (.operator (.binary op))) stack rest rfl hbase
    rw [spell, List.append_assoc, List.cons_append, hconvert last stack _ hlast hbase]
    refine (congrArg _ hright).trans ?_
    rw [Functor.map_map]
    simp only [List.append_assoc]
    rfl
  · intro stack
    rw [List.append_assoc, steps_append_ok (hsteps stack)]
    exact hrb.steps stack

/-- A quote stays on the operator stack, among the frames. -/
theorem Readable.quote {t : Infix} (h : Readable t) : Readable (quote t) := by
  intro k hk
  obtain ⟨code, above, hr⟩ := h k hk
  obtain ⟨code, hconvert, hsteps⟩ := hr.arrive .transpose rfl
  refine ⟨code, [], ?_, ?_, nofun, nofun, (hr.loose.settle _).cons (by decide)⟩
  · intro last stack rest hlast hbase
    rw [spell, List.append_assoc, List.singleton_append, hconvert last stack rest hlast hbase,
      convert_operand rfl]
    rfl
  · intro stack
    rw [codeOf, List.flatMap_nil, List.append_nil]
    exact hsteps stack

theorem Readable.index {t i : Infix} (ht : Readable t) (hi : Readable i) :
    Readable (index t i) := by
  intro k hk
  obtain ⟨code, above, hr⟩ := ht k hk
  obtain ⟨code, hconvert, hsteps⟩ := hr.arrive (.binary .index) rfl
  obtain ⟨codei, hcode, -⟩ := hi.compiles
  refine ⟨code ++ codei, [.operator (.binary .index)], ?_, ?_, by simp [Pending.isParen],
    by simp [Pending.yieldsTo, Operator.priority, BinaryOperator.priority], hr.loose.settle _⟩
  · intro last stack rest hlast hbase
    have hspell : (Infix.index t i).spell .prepared ++ rest = t.spell .prepared ++
        .operator (.binary .index) :: .openParen :: (i.spell .prepared ++ .closeParen :: rest) := by
      simp [spell, Spelling.prepared, Spelling.shaped]
    rw [hspell, hconvert last stack _ hlast hbase, Postfix.convert, hcode.close _ _ _ rfl,
      Functor.map_map]
    simp only [List.append_assoc]
    rfl
  · intro stack
    rw [List.append_assoc, steps_append_ok (hsteps stack), steps_append_ok (hcode.steps _)]
    exact steps_apply (applyBinary_nodes _ _ _ _)

/-- **The two stacks follow every derivation of the grammar.** -/
theorem readable {t : Infix} (h : t.WellFormed) : Readable t := by
  induction h with
  | number value => exact readable_number value
  | name text => exact readable_name text
  | paren _ ih => exact ih.paren
  | call hcount _ ih => exact readable_call hcount ih
  | literal hrows hcols hlength _ ih => exact readable_literal hrows hcols hlength ih
  | before p _ ih => exact ih.before p
  | between hop _ _ iha ihb => exact iha.between ihb hop
  | quote _ ih => exact ih.quote
  | index _ _ iht ihi => exact iht.index ihi

/-- The tree of the tokens of a derivation. -/
theorem ofTokens_eq_meaning {t : Infix} (h : t.WellFormed) :
    Expr.ofTokens t.tokens = .ok t.meaning := by
  obtain ⟨code, hcompiles, hcode⟩ := (readable h).compiles
  have hsteps : Expr.steps [] code = .ok [.node t.meaning] := hcompiles.steps []
  rw [Expr.ofTokens, prepare_tokens h, ok_bind, hcode, ok_bind, Expr.ofPostfix, hsteps, ok_bind]
  rfl

/-! ## Where no index follows a quote -/

/-- Tokens in which an index stands directly after a quote. -/
def IndexesQuote (ts : List Token) : Prop :=
  [.operator .transpose, .openBracket] <:+: ts

theorem infix_joined {separator : Token} {parts : List (List Token)} {part : List Token}
    (h : part ∈ parts) : part <:+: joined separator parts := by
  induction parts with
  | nil => cases h
  | cons first parts ih =>
    rcases List.mem_cons.mp h with rfl | h
    · exact (List.prefix_append _ _).isInfix
    · obtain ⟨before, after, rfl⟩ := List.append_of_mem h
      exact ⟨first ++ before.flatMap (separator :: ·) ++ [separator],
        after.flatMap (separator :: ·), by simp [joined]⟩

theorem tokens_argument {f : Builtin} {arguments : List Infix} {t : Infix} (h : t ∈ arguments) :
    t.tokens <:+: (call f arguments).tokens := by
  have hjoined : t.tokens <:+: joined .comma (arguments.map tokens) :=
    infix_joined (List.mem_map_of_mem h)
  exact hjoined.trans ⟨[.function f none, .openParen], [.closeParen], by simp⟩

theorem tokens_cell {rows : List (List Infix)} {row : List Infix} {t : Infix} (hr : row ∈ rows)
    (h : t ∈ row) : t.tokens <:+: (literal rows).tokens := by
  have hrow : t.tokens <:+: joined .comma (row.map tokens) := infix_joined (List.mem_map_of_mem h)
  have hjoined : joined .comma (row.map tokens) <:+:
      joined .semicolon (rows.map fun row => joined .comma (row.map tokens)) :=
    infix_joined (List.mem_map_of_mem hr)
  exact hrow.trans (hjoined.trans ⟨[.openBracket], [.closeBracket], by simp⟩)

/-- A waiting quote in its place. -/
def closeQuote : List Frame × Expr → List Frame × Expr
  | (.quote :: k, e) => (k, .unary .transpose e)
  | r => r

theorem closeQuote_of_ne {r : List Frame × Expr} (h : r.1.head? ≠ some .quote) :
    closeQuote r = r := by
  unfold closeQuote
  split
  · exact absurd rfl h
  · rfl

/-- An operator that does not bind tighter than a quote finds it closed. -/
theorem settle_closeQuote {p : Nat} (hp : 0 < p) (r : List Frame × Expr) :
    settle p (closeQuote r) = settle p r := by
  unfold closeQuote
  split
  · have hlevel : Frame.quote.level ≤ p := hp
    simp [settle, hlevel, fillAll, Frame.fill]
  · rfl

theorem finish_closeQuote (r : List Frame × Expr) : finish (closeQuote r) = finish r := by
  unfold closeQuote
  split <;> rfl

theorem WellFormed.loose_read {t : Infix} (h : t.WellFormed) {k : List Frame} (hk : Loose k) :
    Loose (t.read k).1 := by
  obtain ⟨code, above, hr⟩ := readable h k hk
  exact hr.loose

/-- A derivation is read as its operators bind, except that a quote at its end is still waiting. -/
structure Agrees (t : Infix) (k : List Frame) : Prop where
  closes : closeQuote (t.read k) = t.walk k
  quoted : (t.read k).1.head? = some .quote → [.operator .transpose] <:+ t.tokens

/-- Nothing waits after an operand but what waited before it. -/
theorem Agrees.operand {t : Infix} {k : List Frame} {e : Expr} (hread : t.read k = (k, e))
    (hwalk : t.walk k = (k, e)) (hk : k.head? ≠ some .quote) : Agrees t k where
  closes := by
    rw [hread, hwalk]
    exact closeQuote_of_ne hk
  quoted h := by
    rw [hread] at h
    exact absurd h hk

theorem Agrees.meaning_eq {t : Infix} (h : Agrees t []) : t.meaning = t.tree := by
  rw [meaning, tree, ← finish_closeQuote, h.closes]

theorem agrees {t : Infix} (h : t.WellFormed) (hq : ¬ IndexesQuote t.tokens) {k : List Frame}
    (hk : Loose k) (hhead : k.head? ≠ some .quote) : Agrees t k := by
  induction h generalizing k with
  | number value => exact .operand rfl rfl hhead
  | name text => exact .operand rfl rfl hhead
  | @paren t _ ih =>
    have hsub : t.tokens <:+: (paren t).tokens := ⟨[.openParen], [.closeParen], by simp⟩
    have hinside := ih (fun h => hq (h.trans hsub)) loose_nil (by simp)
    refine .operand rfl ?_ hhead
    exact congrArg (k, ·) hinside.meaning_eq.symm
  | @call f arguments _ _ ih =>
    have harguments : meanings arguments = trees arguments := by
      rw [meanings_eq_map, trees_eq_map]
      exact List.map_congr_left fun t ht =>
        (ih t ht (fun h => hq (h.trans (tokens_argument ht))) loose_nil (by simp)).meaning_eq
    refine .operand rfl ?_ hhead
    rw [walk, harguments]
  | @literal rows _ _ _ _ ih =>
    have hrows : meaningsOfRows rows = treesOfRows rows := by
      rw [meaningsOfRows_eq_map, treesOfRows_eq_map]
      exact List.map_congr_left fun row hr => List.map_congr_left fun t ht =>
        (ih row hr t ht (fun h => hq (h.trans (tokens_cell hr ht))) loose_nil (by simp)).meaning_eq
    refine .operand rfl ?_ hhead
    rw [walk, hrows]
  | @before p t _ ih =>
    have hsub : t.tokens <:+: (before p t).tokens := ⟨[.operator p.written], [], by simp⟩
    have hlevel : 0 < (Frame.before p).level := p.meant_priority_pos
    have hoperand := ih (fun h => hq (h.trans hsub)) (hk.cons hlevel) (by simp)
    exact ⟨hoperand.closes, fun h => (hoperand.quoted h).trans (List.suffix_cons _ _)⟩
  | @between op a b hop ha _ iha ihb =>
    have hleft : a.tokens <:+: (between op a b).tokens :=
      ⟨[], .operator (.binary op) :: b.tokens, by simp⟩
    have hright : b.tokens <:+: (between op a b).tokens :=
      ⟨a.tokens ++ [.operator (.binary op)], [], by simp⟩
    have hpos : 0 < op.priority := by cases op <;> first | decide | exact absurd rfl hop
    have hsettle : settle op.priority (a.read k) = settle op.priority (a.walk k) := by
      rw [← (iha (fun h => hq (h.trans hleft)) hk hhead).closes, settle_closeQuote hpos]
    have hlevel : 0 < (Frame.between op (settle op.priority (a.read k)).2).level := hpos
    have hoperand := ihb (fun h => hq (h.trans hright))
      (((ha.loose_read hk).settle op.priority).cons hlevel) (by simp)
    refine ⟨?_, fun h => (hoperand.quoted h).trans
      ((List.suffix_cons _ _).trans (List.suffix_append _ _))⟩
    have hcloses := hoperand.closes
    rw [walk, ← hsettle]
    exact hcloses
  | @quote t _ ih =>
    have hsub : t.tokens <:+: (quote t).tokens := ⟨[], [.operator .transpose], by simp⟩
    have hsettle : settle 1 (t.read k) = settle 1 (t.walk k) := by
      rw [← (ih (fun h => hq (h.trans hsub)) hk hhead).closes, settle_closeQuote Nat.one_pos]
    refine ⟨?_, fun _ => List.suffix_append _ _⟩
    exact congrArg (fun r : List Frame × Expr => (r.1, Expr.unary .transpose r.2)) hsettle
  | @index t i ht _ iht ihi =>
    have hoperand : t.tokens <:+: (index t i).tokens :=
      ⟨[], .openBracket :: (i.tokens ++ [.closeBracket]), by simp⟩
    have hposition : i.tokens <:+: (index t i).tokens :=
      ⟨t.tokens ++ [.openBracket], [.closeBracket], by simp⟩
    -- the one place where the assumption is used, and not only passed on
    have hquote : ¬ [.operator .transpose] <:+ t.tokens := by
      rintro ⟨front, hfront⟩
      exact hq ⟨front, i.tokens ++ [.closeBracket], by simp [← hfront]⟩
    have hagrees := iht (fun h => hq (h.trans hoperand)) hk hhead
    have hne : (t.read k).1.head? ≠ some .quote := fun h => hquote (hagrees.quoted h)
    have hwalk : t.walk k = t.read k := by rw [← hagrees.closes, closeQuote_of_ne hne]
    have hsettle : (settle BinaryOperator.index.priority (t.read k)).1 = (t.read k).1 :=
      (ht.loose_read hk).dropWhile.2
    have hmeaning := (ihi (fun h => hq (h.trans hposition)) loose_nil (by simp)).meaning_eq
    have hread : (index t i).read k = (index t i).walk k := by
      rw [walk, read, hwalk]
      exact congrArg _ (congrArg _ hmeaning)
    refine ⟨?_, fun h => ?_⟩
    · rw [closeQuote_of_ne (hsettle ▸ hne), hread]
    · exact absurd (hsettle ▸ h) hne

/-- Where no index follows a quote, a derivation is read as its operators bind. -/
theorem meaning_eq_tree {t : Infix} (h : t.WellFormed) (hq : ¬ IndexesQuote t.tokens) :
    t.meaning = t.tree :=
  (agrees h hq loose_nil (by simp)).meaning_eq

end Infix

end MatrixLang
