import MatrixLang.Proofs.Guarded
import MatrixLang.Proofs.WellShaped

/-! # Guarded passes

The passes over the tokens of an expression once more, by position.  A group is found from where it
opens by counting what opens and closes after it (`closer`); its separators are counted in a second
scan, with a counter of its own.  No counter gets below zero in either, whatever the tokens are: the
scans start at a token that opens a group and end at the one that closes it.
-/

namespace MatrixLang.Guarded

open Token
open Program (splitGroup_eq_some)

/-! ## Groups -/

/-- Looks for the token that closes the outermost of `depth` groups, from position `i` on. -/
def closerFrom (opens closes : Token → Bool) (i depth : Nat) : List Token → Guarded (Option Nat)
  | [] => return none
  | t :: ts =>
    if opens t then closerFrom opens closes (i + 1) (depth + 1) ts
    else if closes t then do
      let depth ← minus depth 1
      if depth = 0 then return some i else closerFrom opens closes (i + 1) depth ts
    else closerFrom opens closes (i + 1) depth ts

/-- The position of the token that closes the group opened at position `start`. -/
def closer (opens closes : Token → Bool) (ts : List Token) (start : Nat) : Guarded (Option Nat) :=
  closerFrom opens closes start 0 (ts.drop start)

section

variable {opens closes : Token → Bool} (hdisjoint : ∀ t, opens t = true → closes t = false)
include hdisjoint

theorem closerFrom_eq (i depth : Nat) (ts : List Token) :
    closerFrom opens closes i (depth + 1) ts =
      .ok ((splitGroup opens closes depth ts).map fun r => i + r.1.length) := by
  induction ts generalizing i depth with
  | nil => rfl
  | cons t ts ih =>
    have hshift : ∀ r : List Token × List Token, i + (t :: r.1).length = i + 1 + r.1.length := by
      intro r
      rw [List.length_cons]
      omega
    rw [closerFrom]
    by_cases hopen : opens t = true
    · rw [if_pos hopen, ih, splitGroup_open (hdisjoint t hopen) hopen, Option.map_map]
      simp only [Function.comp_def, hshift]
    · rw [if_neg hopen]
      by_cases hclose : closes t = true
      · rw [if_pos hclose, minus_eq (Nat.le_add_left 1 depth), ok_bind, Nat.add_sub_cancel]
        cases depth with
        | zero =>
          rw [if_pos rfl, splitGroup_close_zero hclose]
          rfl
        | succ depth =>
          rw [if_neg (Nat.succ_ne_zero depth), ih, splitGroup_close_succ hclose, Option.map_map]
          simp only [Function.comp_def, hshift]
      · rw [Bool.not_eq_true] at hopen hclose
        rw [if_neg (Bool.eq_false_iff.mp hclose), ih, splitGroup_other hclose hopen, Option.map_map]
        simp only [Function.comp_def, hshift]

/-- **From a token that opens a group, the counter stays above zero.** -/
theorem closer_eq {t : Token} (ht : opens t = true) (before ts : List Token) :
    closer opens closes (before ++ t :: ts) before.length =
      .ok ((splitGroup opens closes 0 ts).map fun r => before.length + 1 + r.1.length) := by
  rw [closer, List.drop_left, closerFrom, if_pos ht, closerFrom_eq hdisjoint]

end

theorem isCloseParen_of_isOpenParen {t : Token} (h : t.isOpenParen = true) :
    t.isCloseParen = false := by
  cases t with
  | openParen => rfl
  | _ => cases h

theorem isCloseBracket_of_isOpenBracket {t : Token} (h : t.isOpenBracket = true) :
    t.isCloseBracket = false := by
  cases t with
  | openBracket => rfl
  | _ => cases h

/-- The position of the parenthesis that closes the one at position `start`. -/
def closingParen (ts : List Token) (start : Nat) : Guarded (Option Nat) :=
  closer isOpenParen isCloseParen ts start

theorem closingParen_eq (before ts : List Token) :
    closingParen (before ++ .openParen :: ts) before.length =
      .ok ((splitParens ts).map fun r => before.length + 1 + r.1.length) :=
  closer_eq (fun _ => isCloseParen_of_isOpenParen) rfl before ts

/-- The position of the bracket that closes the one at position `start`. -/
def closingBracket (ts : List Token) (start : Nat) : Guarded (Option Nat) :=
  closer isOpenBracket isCloseBracket ts start

theorem closingBracket_eq (before ts : List Token) :
    closingBracket (before ++ .openBracket :: ts) before.length =
      .ok ((splitBrackets ts).map fun r => before.length + 1 + r.1.length) :=
  closer_eq (fun _ => isCloseBracket_of_isOpenBracket) rfl before ts

/-- The tokens from a parenthesis at position `start` up to the one that closes it. -/
def groupAt (ts : List Token) (start : Nat) : Guarded (Option (List Token)) := do
  match ← closingParen ts start with
  | none => return none
  | some close =>
    let group ← slice ts start close
    return some group

theorem groupAt_eq (before ts : List Token) :
    groupAt (before ++ .openParen :: ts) before.length =
      .ok ((splitParens ts).map fun r => .openParen :: r.1) := by
  rw [groupAt, closingParen_eq, ok_bind]
  cases hsplit : splitParens ts with
  | none => rfl
  | some r =>
    obtain ⟨inside, rest⟩ := r
    obtain ⟨t, -, rfl⟩ := splitGroup_eq_some hsplit
    have hslice := slice_append before (.openParen :: inside) (t :: rest)
      (b := before.length + 1 + inside.length) (by rw [List.length_cons]; omega)
    dsimp only [Option.map_some]
    rw [List.cons_append] at hslice
    rw [hslice]
    rfl

theorem getElem?_next (before ts : List Token) (t : Token) :
    (before ++ t :: ts)[before.length + 1]? = ts[0]? := by
  rw [List.getElem?_append_right (Nat.le_add_right _ 1), Nat.add_sub_cancel_left]
  rfl

/-! ## Literals -/

/-- Counts the cells of the rows of a literal, and compares them with those of its first row. -/
def rowsFrom (depth rows length : Nat) (first : Option Nat) :
    List Token → ExceptT Error Guarded Shape
  | [] =>
    let cols := first.getD length
    if length = cols then return ⟨rows, cols⟩
    else throw (.malformedLiteral (.ragged rows length cols))
  | .openParen :: ts => rowsFrom (depth + 1) rows length first ts
  | .closeParen :: ts => do
    let depth ← minus depth 1
    rowsFrom depth rows length first ts
  | .comma :: ts => rowsFrom depth rows (if depth = 1 then length + 1 else length) first ts
  | .semicolon :: ts =>
    if depth = 1 then
      match first with
      | none => rowsFrom depth (rows + 1) 1 (some length) ts
      | some cols =>
        if length = cols then rowsFrom depth (rows + 1) 1 (some cols) ts
        else throw (.malformedLiteral (.ragged rows length cols))
    else rowsFrom depth rows length first ts
  | _ :: ts => rowsFrom depth rows length first ts

/-- The shape of the literal that starts at a position. -/
def shapeAt (ts : List Token) (start : Nat) : ExceptT Error Guarded Shape := do
  if ts[start + 1]?.any isOpenParen then
    match ← groupAt ts (start + 1) with
    | none => throw .unbalancedParens
    | some [_] => throw (.malformedLiteral .empty)
    | some group => rowsFrom 0 1 1 none group
  else throw (.malformedLiteral .noBracket)

/-- Resolves the literals of `whole` from position `i` on, where `groups` are open. -/
def literalsFrom (whole : List Token) (i : Nat) (groups : List (Option Shape)) :
    List Token → ExceptT Error Guarded (List Token)
  | [] => return []
  | .literalStart :: .openParen :: ts => do
    let shape ← shapeAt whole i
    let rest ← literalsFrom whole (i + 2) (some shape :: groups) ts
    return .operator (.literal shape.rows shape.cols) :: .openParen :: rest
  | .literalStart :: _ => do
    let _ ← shapeAt whole i
    return []
  | .openParen :: ts => do
    let rest ← literalsFrom whole (i + 1) (none :: groups) ts
    return .openParen :: rest
  | .closeParen :: ts => do
    let rest ← literalsFrom whole (i + 1) groups.tail ts
    return dimensions (groups.headD none) ++ .closeParen :: rest
  | .semicolon :: ts => do
    let rest ← literalsFrom whole (i + 1) groups ts
    return .comma :: rest
  | t :: ts => do
    let rest ← literalsFrom whole (i + 1) groups ts
    return t :: rest

/-- Gives every matrix literal its shape. -/
def resolveLiterals (ts : List Token) : ExceptT Error Guarded (List Token) :=
  literalsFrom ts 0 [] ts

/-- What is left to be found of a shape, from the lengths of the rows from number `rows` on. -/
def shapeFrom (rows : Nat) (first : Option Nat) (lengths : List Nat) : Except Error Shape :=
  let cols := first.getD (lengths.headD 1)
  match raggedRow? cols rows lengths with
  | some fault => throw (.malformedLiteral fault)
  | none => return ⟨rows + lengths.length - 1, cols⟩

theorem shapeFrom_cons (rows length : Nat) (first : Option Nat) (lengths : List Nat) :
    shapeFrom rows first (length :: lengths) =
      if length = first.getD length then shapeFrom (rows + 1) (some (first.getD length)) lengths
      else throw (.malformedLiteral (.ragged rows length (first.getD length))) := by
  have hrows : rows + (length :: lengths).length - 1 = rows + 1 + lengths.length - 1 := by
    rw [List.length_cons]
    omega
  rw [shapeFrom, shapeFrom, List.headD_cons, raggedRow?, hrows]
  by_cases hlength : length = first.getD length
  · rw [if_pos hlength, if_pos hlength]
    rfl
  · rw [if_neg hlength, if_neg hlength]

/-- Inside of a group that is closed, the counter stays above zero. -/
theorem follows_rowsFrom {depth : Nat} {ts inside rest : List Token}
    (h : splitGroup isOpenParen isCloseParen depth ts = some (inside, rest)) (rows length : Nat)
    (first : Option Nat) :
    Follows (rowsFrom (depth + 1) rows length first inside)
      (shapeFrom rows first (rowLengths depth length inside)) := by
  refine splitGroup_induction
    (P := fun depth ts inside => ∀ rows length first,
      Follows (rowsFrom (depth + 1) rows length first inside)
        (shapeFrom rows first (rowLengths depth length inside)))
    (fun ts rows length first => ?_) (fun depth ts inside ih rows length first => ?_)
    (fun depth ts inside ih => ih) (fun depth t ts inside hopen hclose ih rows length first => ?_)
    h rows length first
  · rw [rowsFrom, rowLengths, shapeFrom_cons]
    by_cases hlength : length = first.getD length
    · rw [if_pos hlength, if_pos hlength]
      exact .pure _
    · rw [if_neg hlength, if_neg hlength]
      exact .throw _
  · rw [rowsFrom, rowLengths]
    exact .step (minus_eq (Nat.le_add_left 1 _)) (ih rows length first)
  · cases t with
    | openParen => cases hopen
    | closeParen => cases hclose
    | comma =>
      cases depth with
      | zero => exact ih rows (length + 1) first
      | succ depth => exact ih rows length first
    | semicolon =>
      cases depth with
      | succ depth => exact ih rows length first
      | zero =>
        rw [rowLengths, shapeFrom_cons]
        cases first with
        | none =>
          rw [Option.getD_none, if_pos rfl]
          exact ih (rows + 1) 1 (some length)
        | some cols =>
          rw [Option.getD_some]
          show Follows (if length = cols then rowsFrom 1 (rows + 1) 1 (some cols) inside
            else throw (.malformedLiteral (.ragged rows length cols))) _
          by_cases hlength : length = cols
          · rw [if_pos hlength, if_pos hlength]
            exact ih (rows + 1) 1 (some cols)
          · rw [if_neg hlength, if_neg hlength]
            exact .throw _
    | _ => cases depth <;> exact ih rows length first

theorem shapeFrom_one (lengths : List Nat) : shapeFrom 1 none lengths =
    match raggedRow? (lengths.headD 1) 1 lengths with
    | some fault => throw (.malformedLiteral fault)
    | none => return ⟨lengths.length, lengths.headD 1⟩ := by
  rw [shapeFrom, Nat.add_sub_cancel_left]
  rfl

theorem follows_shapeAt (before ts : List Token) :
    Follows (shapeAt (before ++ .literalStart :: .openParen :: ts) before.length)
      (literalShape ts) := by
  have hgroup := groupAt_eq (before ++ [.literalStart]) ts
  rw [List.append_assoc, List.length_append] at hgroup
  rw [shapeAt, getElem?_next]
  refine .step hgroup ?_
  rw [literalShape]
  cases hsplit : splitParens ts with
  | none => exact .throw _
  | some r =>
    obtain ⟨inside, rest⟩ := r
    cases inside with
    | nil => exact .throw _
    | cons t inside =>
      have hrows := follows_rowsFrom hsplit 1 1 none
      rw [shapeFrom_one] at hrows
      exact hrows

/-- **The pass that resolves literals comes through.** -/
theorem follows_literalsFrom (before ts : List Token) (groups : List (Option Shape)) :
    Follows (literalsFrom (before ++ ts) before.length groups ts)
      (resolveLiteralsIn groups ts) := by
  fun_induction resolveLiteralsIn groups ts generalizing before with
  | case1 groups => exact .pure _
  | case2 groups ts ih =>
    rw [literalsFrom]
    refine .bind (follows_shapeAt before ts) fun shape _ => ?_
    have hrest := ih shape (before ++ [.literalStart, .openParen])
    rw [List.append_assoc, List.length_append] at hrest
    exact .bind hrest fun rest _ => .pure _
  | case3 groups ts hnext =>
    have hopen : ts[0]?.any isOpenParen = false := by
      cases ts with
      | nil => rfl
      | cons t ts =>
        cases t with
        | openParen => exact absurd rfl (hnext ts)
        | _ => rfl
    rw [literalsFrom, shapeAt, getElem?_next, hopen]
    · rfl
    · exact hnext
  | case4 groups ts ih =>
    have hrest := ih (before ++ [.openParen])
    rw [List.append_assoc, List.length_append] at hrest
    exact .bind hrest fun rest _ => .pure _
  | case5 groups ts ih =>
    have hrest := ih (before ++ [.closeParen])
    rw [List.append_assoc, List.length_append] at hrest
    exact .bind hrest fun rest _ => .pure _
  | case6 groups ts ih =>
    have hrest := ih (before ++ [.semicolon])
    rw [List.append_assoc, List.length_append] at hrest
    exact .bind hrest fun rest _ => .pure _
  | case7 groups t ts hliteral hstart hopen hclose hsemicolon ih =>
    have hrest := ih (before ++ [t])
    rw [List.append_assoc, List.length_append] at hrest
    rw [literalsFrom]
    · exact .bind hrest fun rest _ => .pure _
    all_goals assumption

theorem follows_resolveLiterals (ts : List Token) :
    Follows (resolveLiterals ts) (Token.resolveLiterals ts) :=
  follows_literalsFrom [] ts []

/-! ## Argument counts -/

/-- Counts the commas of a call. -/
def commasFrom (depth : Nat) : List Token → Guarded Nat
  | [] => return 0
  | .openParen :: ts => commasFrom (depth + 1) ts
  | .closeParen :: ts => do
    let depth ← minus depth 1
    commasFrom depth ts
  | .comma :: ts => do
    let commas ← commasFrom depth ts
    return if depth = 1 then commas + 1 else commas
  | _ :: ts => commasFrom depth ts

/-- The number of arguments of the call at a position. -/
def arityAt (f : Builtin) (ts : List Token) (i : Nat) : ExceptT Error Guarded Nat := do
  if ts[i + 1]?.any isOpenParen then
    match ← groupAt ts (i + 1) with
    | none => throw (.unresolvedArity f)
    | some [_] => return 0
    | some group =>
      let commas ← commasFrom 0 group
      return commas + 1
  else throw (.unresolvedArity f)

/-- Tells the functions at the next `count` positions from `i` on how many arguments they are
called with. -/
def aritiesFrom : (count i : Nat) → List Token → ExceptT Error Guarded (List Token)
  | 0, _, ts => return ts
  | count + 1, i, ts => do
    match ← (item ts i : Guarded Token) with
    | .function f none =>
      let arity ← arityAt f ts i
      let ts ← put ts i (.function f (some arity))
      aritiesFrom count (i + 1) ts
    | _ => aritiesFrom count (i + 1) ts

/-- Tells every function how many arguments it is called with. -/
def resolveArity (ts : List Token) : ExceptT Error Guarded (List Token) :=
  aritiesFrom ts.length 0 ts

theorem commasFrom_eq {depth : Nat} {ts inside rest : List Token}
    (h : splitGroup isOpenParen isCloseParen depth ts = some (inside, rest)) :
    commasFrom (depth + 1) inside = .ok (topLevelCommas depth inside) := by
  refine splitGroup_induction
    (P := fun depth ts inside => commasFrom (depth + 1) inside = .ok (topLevelCommas depth inside))
    (fun ts => rfl) (fun depth ts inside ih => ?_) (fun depth ts inside ih => ih)
    (fun depth t ts inside hopen hclose ih => ?_) h
  · rw [commasFrom, minus_eq (Nat.le_add_left 1 _)]
    exact ih
  · cases t with
    | openParen => cases hopen
    | closeParen => cases hclose
    | comma =>
      rw [commasFrom, ih]
      cases depth with
      | zero => rfl
      | succ depth => rfl
    | _ => cases depth <;> exact ih

theorem follows_arityAt (f : Builtin) (before ts : List Token) (t : Token) :
    Follows (arityAt f (before ++ t :: ts) before.length) (callArity f ts) := by
  rw [arityAt, getElem?_next]
  cases ts with
  | nil => exact .throw _
  | cons u ts =>
    by_cases hopen : u.isOpenParen = true
    · obtain rfl : u = .openParen := by cases u <;> cases hopen; rfl
      have hgroup := groupAt_eq (before ++ [t]) ts
      rw [List.append_assoc, List.length_append] at hgroup
      refine .step hgroup ?_
      rw [callArity]
      cases hsplit : splitParens ts with
      | none => exact .throw _
      | some r =>
        obtain ⟨inside, rest⟩ := r
        cases inside with
        | nil => exact .pure _
        | cons v inside => exact .step (commasFrom_eq hsplit) (.pure _)
    · cases u with
      | openParen => exact absurd rfl hopen
      | _ => exact .throw _

theorem follows_aritiesFrom (before ts : List Token) :
    Follows (aritiesFrom ts.length before.length (before ++ ts))
      ((before ++ ·) <$> Token.resolveArity ts) := by
  induction ts generalizing before with
  | nil => exact .pure _
  | cons t ts ih =>
    have hrest : ∀ u, Follows (aritiesFrom ts.length (before.length + 1) (before ++ u :: ts))
        ((fun rest => before ++ u :: rest) <$> Token.resolveArity ts) := by
      intro u
      have hih := ih (before ++ [u])
      simp only [List.append_assoc, List.singleton_append, List.length_append] at hih
      exact hih
    refine .step (item_append before ts t) ?_
    obtain ⟨f, rfl⟩ | hfunction := eq_function_or t
    · rw [Token.resolveArity, map_bind]
      refine .bind (follows_arityAt f before ts _) fun arity _ => ?_
      refine .step (put_append before ts _ _) ?_
      rw [map_bind]
      exact hrest _
    · have hkept := Counts.single hfunction ts
      rw [List.singleton_append] at hkept
      rw [hkept, Functor.map_map]
      split
      · rename_i f
        exact absurd rfl (hfunction f)
      · exact hrest t

/-- **The pass that counts arguments comes through.** -/
theorem follows_resolveArity (ts : List Token) :
    Follows (resolveArity ts) (Token.resolveArity ts) := by
  have hall := follows_aritiesFrom [] ts
  simp only [List.nil_append, id_map'] at hall
  exact hall

/-- Resolves the brackets, literals and calls of an expression. -/
def prepare (ts : List Token) : ExceptT Error Guarded (List Token) := do
  let ts ← resolveLiterals (resolveBrackets ts)
  resolveArity ts

theorem follows_prepare (ts : List Token) : Follows (prepare ts) (Token.prepare ts) :=
  .bind (follows_resolveLiterals _) fun rs _ => follows_resolveArity rs

/-! ## Widths of literals -/

/-- The number of operands that an operator takes if it makes a literal: its cells and its
dimensions. -/
def width : Operator → Nat
  | .literal rows cols => rows * cols + 2
  | _ => 0

/-- No literal among some tokens takes more operands than `count`. -/
def AllWithin (count : Nat) (ts : List Token) : Prop :=
  ∀ t ∈ ts, ∀ op, t = .operator op → width op ≤ count

/-- Gives up if a literal takes more operands than `count`. -/
def checkWidths (count : Nat) : List Token → Guarded Unit
  | [] => return ()
  | .operator op :: ts => if width op ≤ count then checkWidths count ts else throw .tooWide
  | _ :: ts => checkWidths count ts

theorem AllWithin.mono {count more : Nat} {ts : List Token} (h : AllWithin count ts)
    (hmore : count ≤ more) : AllWithin more ts :=
  fun t ht op hop => Nat.le_trans (h t ht op hop) hmore

theorem AllWithin.cons {count : Nat} {t : Token} {ts : List Token}
    (ht : ∀ op, t = .operator op → width op ≤ count) (hts : AllWithin count ts) :
    AllWithin count (t :: ts) :=
  List.forall_mem_cons.mpr ⟨ht, hts⟩

theorem width_of_isMarker {count : Nat} {t : Token} (h : t.isMarker = false) :
    ∀ op, t = .operator op → width op ≤ count := by
  rintro op rfl
  cases op with
  | literal rows cols => cases h
  | _ => exact Nat.zero_le _

theorem checkWidths_eq {count : Nat} {ts : List Token} (h : AllWithin count ts) :
    checkWidths count ts = .ok () := by
  induction ts with
  | nil => rfl
  | cons t ts ih =>
    obtain ⟨ht, hts⟩ := List.forall_mem_cons.mp h
    cases t with
    | operator op => rw [checkWidths, if_pos (ht op rfl), ih hts]
    | _ => exact ih hts

theorem unmarked_resolveBracketsAfter {ts : List Token} (h : Unmarked ts) (last : Option Token) :
    Unmarked (resolveBracketsAfter last ts) := by
  induction ts generalizing last with
  | nil => exact List.forall_mem_nil _
  | cons t ts ih =>
    obtain ⟨ht, hts⟩ := List.forall_mem_cons.mp h
    cases t with
    | openBracket =>
      rw [resolveBracketsAfter]
      refine List.forall_mem_cons.mpr ⟨?_, List.forall_mem_cons.mpr ⟨rfl, ih hts _⟩⟩
      split <;> rfl
    | closeBracket => exact List.forall_mem_cons.mpr ⟨rfl, ih hts _⟩
    | _ => exact List.forall_mem_cons.mpr ⟨ht, ih hts _⟩

/-- Of the tokens with their brackets settled, those that can come from a text are no more than
there were before: an opening bracket becomes a parenthesis and a token that is in no text. -/
theorem countP_resolveBracketsAfter_le (last : Option Token) (ts : List Token) :
    (resolveBracketsAfter last ts).countP isWritten ≤ ts.length := by
  induction ts generalizing last with
  | nil => exact Nat.le_refl 0
  | cons t ts ih =>
    have hone (u : Token) (last : Option Token) :
        (u :: resolveBracketsAfter last ts).countP isWritten ≤ ts.length + 1 := by
      have hrest := ih last
      rw [List.countP_cons]
      split <;> omega
    cases t with
    | openBracket =>
      rw [resolveBracketsAfter, List.countP_cons_of_neg]
      · exact hone _ _
      · split <;> decide
    | closeBracket => exact hone _ _
    | _ => exact hone _ _

/-- **The operands of a literal are counted by its tokens.**  It has a separator for each of its
cells but the last, its two parentheses and its start, of which some may be left out of the count
if they are made up for. -/
theorem allWithin_resolveLiteralsIn {p : Token → Bool} (slack : Nat)
    (hp : ∀ t, t.isCloseParen = true ∨ t.isSeparator = true → p t = true)
    (hstart : 2 ≤ [Token.literalStart, .openParen].countP p + slack)
    {groups : List (Option Shape)} {ts rs : List Token}
    (h : resolveLiteralsIn groups ts = .ok rs) (hts : Unmarked ts) :
    AllWithin (ts.countP p + slack) rs := by
  have hmore (t : Token) (ts : List Token) : ts.countP p + slack ≤ (t :: ts).countP p + slack :=
    Nat.add_le_add_right (List.sublist_cons_self t ts).countP_le slack
  fun_induction resolveLiteralsIn groups ts generalizing rs with
  | case1 groups =>
    cases h
    exact List.forall_mem_nil _
  | case2 groups ts ih =>
    obtain ⟨shape, hshape, h⟩ := exists_of_bind_eq_ok h
    obtain ⟨rest, hrest, h⟩ := exists_of_bind_eq_ok h
    cases h
    have hsize := size_le_of_literalShape hp hshape
    have hcount : (literalStart :: openParen :: ts).countP p =
        [literalStart, .openParen].countP p + ts.countP p := by
      rw [← List.countP_append]
      rfl
    have hih := ih shape hrest (List.forall_mem_cons.mp (List.forall_mem_cons.mp hts).2).2
    refine .cons ?_ (.cons (width_of_isMarker rfl) (hih.mono ?_))
    · rintro op ⟨⟩
      rw [hcount, width]
      omega
    · exact Nat.le_trans (hmore _ ts) (hmore _ _)
  | case3 => cases h
  | case4 groups ts ih =>
    obtain ⟨rest, hrest, h⟩ := exists_of_bind_eq_ok h
    cases h
    have hih := ih hrest (List.forall_mem_cons.mp hts).2
    exact .cons (width_of_isMarker rfl) (hih.mono (hmore _ ts))
  | case5 groups ts ih =>
    obtain ⟨rest, hrest, h⟩ := exists_of_bind_eq_ok h
    cases h
    have hih := (ih hrest (List.forall_mem_cons.mp hts).2).mono (hmore .closeParen ts)
    refine List.forall_mem_append.mpr ⟨?_, AllWithin.cons (width_of_isMarker rfl) hih⟩
    cases groups.headD none with
    | none => exact List.forall_mem_nil _
    | some shape => simp [dimensions]
  | case6 groups ts ih =>
    obtain ⟨rest, hrest, h⟩ := exists_of_bind_eq_ok h
    cases h
    have hih := ih hrest (List.forall_mem_cons.mp hts).2
    exact .cons (width_of_isMarker rfl) (hih.mono (hmore _ ts))
  | case7 groups t ts hliteral hparen hopen hclose hsemicolon ih =>
    obtain ⟨rest, hrest, h⟩ := exists_of_bind_eq_ok h
    cases h
    obtain ⟨ht, hts⟩ := List.forall_mem_cons.mp hts
    exact .cons (width_of_isMarker ht) ((ih hrest hts).mono (hmore t ts))

theorem allWithin_resolveArity {count : Nat} {ts rs : List Token}
    (h : Token.resolveArity ts = .ok rs) (hts : AllWithin count ts) : AllWithin count rs := by
  induction ts generalizing rs with
  | nil =>
    cases h
    exact List.forall_mem_nil _
  | cons t ts ih =>
    obtain ⟨ht, htail⟩ := List.forall_mem_cons.mp hts
    obtain ⟨f, rfl⟩ | hfunction := eq_function_or t
    · rw [Token.resolveArity] at h
      obtain ⟨arity, -, h⟩ := exists_of_bind_eq_ok h
      obtain ⟨rest, hrest, h⟩ := exists_of_bind_eq_ok h
      cases h
      exact .cons (width_of_isMarker rfl) (ih hrest htail)
    · obtain ⟨rest, hrest, rfl⟩ := resolveArity_cons h hfunction
      exact .cons ht (ih hrest htail)

/-- **No literal takes more operands than its expression has tokens**, once its brackets are
settled; and at most one more than there were in the text. -/
theorem allWithin_prepare {ts rs : List Token} (h : Token.prepare ts = .ok rs)
    (hts : Unmarked ts) :
    AllWithin (resolveBrackets ts).length rs ∧ AllWithin (ts.length + 1) rs := by
  obtain ⟨ls, hliterals, harity⟩ := exists_of_bind_eq_ok h
  have hunmarked := unmarked_resolveBracketsAfter hts none
  have hwritten : ∀ t : Token, t.isCloseParen = true ∨ t.isSeparator = true →
      t.isWritten = true := by
    intro t ht
    cases t with
    | closeParen | comma | semicolon => rfl
    | _ => rcases ht with ht | ht <;> cases ht
  have hall := allWithin_resolveLiteralsIn (p := fun _ => true) 0 (fun _ _ => rfl)
    (Nat.le_refl 2) hliterals hunmarked
  have hscanned := allWithin_resolveLiteralsIn 1 hwritten (by decide) hliterals hunmarked
  rw [List.countP_true] at hall
  refine ⟨allWithin_resolveArity harity hall, allWithin_resolveArity harity (hscanned.mono ?_)⟩
  exact Nat.add_le_add_right (countP_resolveBracketsAfter_le none ts) 1

end MatrixLang.Guarded
