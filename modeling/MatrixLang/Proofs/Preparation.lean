import MatrixLang.Proofs.Except
import MatrixLang.Proofs.Infix

/-! # The passes over the tokens of a derivation

Each pass turns one spelling of a derivation into the next: brackets are settled
(`bracketed`), literals get their shapes (`shaped`) and calls their numbers of arguments
(`prepared`).  `prepare_tokens` puts them together.

The last two passes count separators outside inner groups.  The tokens of a derivation are
one group to them: they balance, and have no separator of their own (`Nested 0`).  What
stands inside parentheses may have separators, and is not looked at from outside
(`Nested 1`).
-/

namespace MatrixLang

namespace Infix

/-- What holds of the parts of two lists, and of two such parts with a separator between
them, holds of the lists. -/
theorem joined_induction {α : Type} {P : List Token → List Token → Prop} {s s' : Token}
    {f g : α → List Token}
    (hjoin : ∀ {a b c d}, P a b → P c d → P (a ++ s :: c) (b ++ s' :: d)) {x : α} {xs : List α}
    (h : ∀ y ∈ x :: xs, P (f y) (g y)) :
    P (joined s ((x :: xs).map f)) (joined s' ((x :: xs).map g)) := by
  induction xs generalizing x with
  | nil => simpa [joined] using h x (by simp)
  | cons y ys ih =>
    have hrest := @ih y fun z hz => h z (List.mem_cons_of_mem _ hz)
    simpa [joined] using hjoin (h x (by simp)) hrest

/-- The same for the cells of rows. -/
theorem joinedRows_induction {α : Type} {P : List Token → List Token → Prop} {s s' : Token}
    {f g : α → List Token} {rows : List (List α)}
    (hcomma : ∀ {a b c d}, P a b → P c d → P (a ++ .comma :: c) (b ++ .comma :: d))
    (hjoin : ∀ {a b c d}, P a b → P c d → P (a ++ s :: c) (b ++ s' :: d))
    (hrows : rows ≠ []) (hne : ∀ row ∈ rows, row ≠ [])
    (h : ∀ row ∈ rows, ∀ y ∈ row, P (f y) (g y)) :
    P (joined s (rows.map fun row => joined .comma (row.map f)))
      (joined s' (rows.map fun row => joined .comma (row.map g))) := by
  obtain ⟨row, others, rfl⟩ := List.exists_cons_of_ne_nil hrows
  refine joined_induction hjoin fun r hr => ?_
  obtain ⟨x, xs, rfl⟩ := List.exists_cons_of_ne_nil (hne r hr)
  exact joined_induction hcomma (h _ hr)

/-- What holds of the parts of a list, and of two such parts with a separator between them, holds
of the list. -/
theorem joined_closed {α : Type} {P : List Token → Prop} {s : Token} {f : α → List Token}
    (hjoin : ∀ {a b}, P a → P b → P (a ++ s :: b)) {xs : List α} (hne : xs ≠ [])
    (h : ∀ x ∈ xs, P (f x)) : P (joined s (xs.map f)) := by
  obtain ⟨x, xs, rfl⟩ := List.exists_cons_of_ne_nil hne
  exact @joined_induction _ (fun a _ => P a) s s f f hjoin _ _ h

/-- The same for the cells of rows. -/
theorem joinedRows_closed {α : Type} {P : List Token → Prop} {s : Token} {f : α → List Token}
    {rows : List (List α)} (hcomma : ∀ {a b}, P a → P b → P (a ++ .comma :: b))
    (hjoin : ∀ {a b}, P a → P b → P (a ++ s :: b)) (hrows : rows ≠ [])
    (hne : ∀ row ∈ rows, row ≠ []) (h : ∀ row ∈ rows, ∀ x ∈ row, P (f x)) :
    P (joined s (rows.map fun row => joined .comma (row.map f))) :=
  joined_closed hjoin hrows fun row hr => joined_closed hcomma (hne row hr) (h row hr)

end Infix

namespace Token

/-! ## Brackets -/

/-- The pass that settles brackets only asks whether an operand comes before. -/
theorem resolveBracketsAfter_congr {last last' : Option Token} (ts : List Token)
    (h : opensLiteral last = opensLiteral last') :
    resolveBracketsAfter last ts = resolveBracketsAfter last' ts := by
  cases ts with
  | nil => rfl
  | cons t ts => cases t <;> simp only [resolveBracketsAfter, h]

theorem resolveBracketsAfter_cons {t : Token} (last : Option Token) (ts : List Token)
    (hopen : t.isOpenBracket = false) (hclose : t.isCloseBracket = false) :
    resolveBracketsAfter last (t :: ts) = t :: resolveBracketsAfter (some t) ts := by
  cases t with
  | openBracket => cases hopen
  | closeBracket => cases hclose
  | _ => rfl

/-- Where an operand is expected, the pass turns `xs` into `ys` and goes on as after an
operand. -/
def Settles (xs ys : List Token) : Prop :=
  ∀ last rest, opensLiteral last = true →
    resolveBracketsAfter last (xs ++ rest) = ys ++ resolveBracketsAfter (some .closeParen) rest

/-- A token that is an operand by itself, or the last one of an operand. -/
theorem resolveBracketsAfter_operand {t : Token} (last : Option Token) (ts : List Token)
    (hopen : t.isOpenBracket = false) (hclose : t.isCloseBracket = false)
    (h : opensLiteral (some t) = false) :
    resolveBracketsAfter last (t :: ts) = t :: resolveBracketsAfter (some .closeParen) ts := by
  rw [resolveBracketsAfter_cons last ts hopen hclose]
  exact congrArg (t :: ·) (resolveBracketsAfter_congr ts (by rw [h]; rfl))

namespace Settles

variable {a b c d : List Token}

/-- A token before an operand. -/
theorem cons {t : Token} (h : Settles a b) (hopen : t.isOpenBracket = false)
    (hclose : t.isCloseBracket = false) (ht : opensLiteral (some t) = true) :
    Settles (t :: a) (t :: b) := by
  intro last rest _
  rw [List.cons_append, resolveBracketsAfter_cons last _ hopen hclose, h _ _ ht, List.cons_append]

/-- A token between two operands. -/
theorem join {t : Token} (hab : Settles a b) (hcd : Settles c d) (hopen : t.isOpenBracket = false)
    (hclose : t.isCloseBracket = false) (ht : opensLiteral (some t) = true) :
    Settles (a ++ t :: c) (b ++ t :: d) := by
  intro last rest h
  rw [List.append_assoc, hab last _ h, List.cons_append,
    resolveBracketsAfter_cons _ _ hopen hclose, hcd _ _ ht]
  simp

/-- A token after an operand. -/
theorem snoc {t : Token} (hab : Settles a b) (hopen : t.isOpenBracket = false)
    (hclose : t.isCloseBracket = false) (ht : opensLiteral (some t) = false) :
    Settles (a ++ [t]) (b ++ [t]) := by
  intro last rest h
  rw [List.append_assoc, hab last _ h, List.singleton_append,
    resolveBracketsAfter_operand _ _ hopen hclose ht]
  simp

theorem brackets (h : Settles a b) (last : Option Token) (rest : List Token) :
    resolveBracketsAfter last (.openBracket :: (a ++ .closeBracket :: rest)) =
      (if opensLiteral last then .literalStart else .operator (.binary .index)) :: .openParen ::
        (b ++ .closeParen :: resolveBracketsAfter (some .closeParen) rest) := by
  rw [resolveBracketsAfter, h _ _ rfl, resolveBracketsAfter]

end Settles

end Token

namespace Infix

open Token

theorem settles {t : Infix} (h : t.Rough) : Settles t.tokens (t.spell .bracketed) := by
  induction h with
  | number value => exact fun last rest _ => resolveBracketsAfter_operand last rest rfl rfl rfl
  | name text => exact fun last rest _ => resolveBracketsAfter_operand last rest rfl rfl rfl
  | paren _ ih => exact (ih.snoc rfl rfl rfl).cons rfl rfl rfl
  | @call f arguments hne _ ih =>
    intro last rest _
    obtain ⟨t, ts, rfl⟩ := List.exists_cons_of_ne_nil hne
    have hjoined : Settles (joined .comma ((t :: ts).map tokens)) _ :=
      joined_induction (fun h₁ h₂ => h₁.join h₂ rfl rfl rfl) ih
    have hclosed : Settles (joined .comma ((t :: ts).map tokens) ++ [.closeParen]) _ :=
      hjoined.snoc rfl rfl rfl
    rw [tokens_call, List.cons_append, List.cons_append, resolveBracketsAfter_cons _ _ rfl rfl,
      resolveBracketsAfter_cons _ _ rfl rfl, hclosed _ _ rfl, spell, spellAll_eq_map]
    rfl
  | @literal rows hrows hne _ ih =>
    intro last rest hlast
    have hjoined : Settles (joined .semicolon (rows.map fun row =>
        joined .comma (row.map tokens))) _ :=
      joinedRows_induction (fun h₁ h₂ => h₁.join h₂ rfl rfl rfl)
        (fun h₁ h₂ => h₁.join h₂ rfl rfl rfl) hrows hne ih
    rw [tokens_literal, List.cons_append, List.append_assoc, List.singleton_append,
      hjoined.brackets, if_pos hlast, spell, spellRows_eq_map]
    simp [Spelling.bracketed]
  | before p _ ih => exact ih.cons rfl rfl (by cases p <;> rfl)
  | @between op _ _ hop _ _ iha ihb => exact iha.join ihb rfl rfl rfl
  | quote _ ih => exact ih.snoc rfl rfl rfl
  | index _ _ iht ihi =>
    intro last rest hlast
    rw [tokens_index, List.append_assoc, List.cons_append, List.append_assoc,
      List.singleton_append, iht _ _ hlast, ihi.brackets]
    simp [spell, Spelling.bracketed, opensLiteral]

end Infix

namespace Token

/-! ## Levels -/

section

variable {opens closes : Token → Bool} {t : Token}

theorem splitGroup_close_zero (h : closes t = true) (ts : List Token) :
    splitGroup opens closes 0 (t :: ts) = some ([], ts) := by
  simp [splitGroup, h]

theorem splitGroup_close_succ (h : closes t = true) (depth : Nat) (ts : List Token) :
    splitGroup opens closes (depth + 1) (t :: ts) =
      (splitGroup opens closes depth ts).map fun r => (t :: r.1, r.2) := by
  simp [splitGroup, h]

theorem splitGroup_open (hclose : closes t = false) (hopen : opens t = true) (depth : Nat)
    (ts : List Token) :
    splitGroup opens closes depth (t :: ts) =
      (splitGroup opens closes (depth + 1) ts).map fun r => (t :: r.1, r.2) := by
  simp [splitGroup, hopen, hclose]

theorem splitGroup_other (hclose : closes t = false) (hopen : opens t = false) (depth : Nat)
    (ts : List Token) :
    splitGroup opens closes depth (t :: ts) =
      (splitGroup opens closes depth ts).map fun r => (t :: r.1, r.2) := by
  simp [splitGroup, hopen, hclose]

end

/-- Tokens that balance, and in which nothing is counted from outside where at least `least`
groups are open around them. -/
structure Nested (least : Nat) (ts : List Token) : Prop where
  split : ∀ depth rest, splitGroup isOpenParen isCloseParen depth (ts ++ rest) =
    (splitGroup isOpenParen isCloseParen depth rest).map fun r => (ts ++ r.1, r.2)
  lengths : ∀ depth length rest, least ≤ depth →
    rowLengths depth length (ts ++ rest) = rowLengths depth length rest
  commas : ∀ depth rest, least ≤ depth →
    topLevelCommas depth (ts ++ rest) = topLevelCommas depth rest

namespace Nested

variable {least : Nat} {a b : List Token}

theorem nil : Nested least [] where
  split depth rest := by simp
  lengths _ _ _ _ := rfl
  commas _ _ _ := rfl

theorem append (ha : Nested least a) (hb : Nested least b) : Nested least (a ++ b) where
  split depth rest := by
    rw [List.append_assoc, ha.split, hb.split, Option.map_map]
    simp [Function.comp_def]
  lengths depth length rest h := by rw [List.append_assoc, ha.lengths _ _ _ h, hb.lengths _ _ _ h]
  commas depth rest h := by rw [List.append_assoc, ha.commas _ _ h, hb.commas _ _ h]

/-- What balances outside all groups does so inside one. -/
theorem inside (h : Nested 0 a) : Nested 1 a where
  split := h.split
  lengths depth length rest _ := h.lengths depth length rest (Nat.zero_le _)
  commas depth rest _ := h.commas depth rest (Nat.zero_le _)

/-- A token that neither opens nor closes a group nor separates anything. -/
theorem single {t : Token} (hopen : t.isOpenParen = false) (hclose : t.isCloseParen = false)
    (hcomma : t ≠ .comma) (hsemicolon : t ≠ .semicolon) : Nested 0 [t] where
  split depth rest := splitGroup_other hclose hopen depth rest
  lengths depth length rest _ := by
    cases t with
    | openParen => cases hopen
    | closeParen => cases hclose
    | comma => exact absurd rfl hcomma
    | semicolon => exact absurd rfl hsemicolon
    | _ => cases depth <;> rfl
  commas depth rest _ := by
    cases t with
    | openParen => cases hopen
    | closeParen => cases hclose
    | comma => exact absurd rfl hcomma
    | _ => cases depth <;> rfl

theorem comma : Nested 1 [.comma] where
  split _ _ := rfl
  lengths depth length rest h := by
    obtain ⟨d, rfl⟩ := Nat.exists_eq_succ_of_ne_zero (Nat.ne_of_gt h)
    rfl
  commas depth rest h := by
    obtain ⟨d, rfl⟩ := Nat.exists_eq_succ_of_ne_zero (Nat.ne_of_gt h)
    rfl

theorem semicolon : Nested 1 [.semicolon] where
  split _ _ := rfl
  lengths depth length rest h := by
    obtain ⟨d, rfl⟩ := Nat.exists_eq_succ_of_ne_zero (Nat.ne_of_gt h)
    rfl
  commas depth rest h := by
    obtain ⟨d, rfl⟩ := Nat.exists_eq_succ_of_ne_zero (Nat.ne_of_gt h)
    rfl

/-- Parentheses around tokens. -/
theorem parens (h : Nested 1 a) : Nested 0 (.openParen :: (a ++ [.closeParen])) where
  split depth rest := by
    rw [List.cons_append, List.append_assoc, splitGroup_open rfl rfl, h.split,
      List.singleton_append, splitGroup_close_succ rfl]
    simp [Function.comp_def]
  lengths depth length rest _ := by
    rw [List.cons_append, List.append_assoc, rowLengths, h.lengths _ _ _ (Nat.succ_pos depth)]
    rfl
  commas depth rest _ := by
    rw [List.cons_append, List.append_assoc, topLevelCommas, h.commas _ _ (Nat.succ_pos depth)]
    rfl

/-- What a parenthesis before balanced tokens encloses. -/
theorem splitParens (h : Nested least a) (rest : List Token) :
    Token.splitParens (a ++ .closeParen :: rest) = some (a, rest) := by
  rw [Token.splitParens, h.split, splitGroup_close_zero rfl]
  simp

end Nested

end Token

namespace Infix

open Token

/-- A spelling in which literals and indices stand in parentheses. -/
structure Spelling.Grouped (s : Spelling) : Prop where
  function : ∀ f count, Nested 0 [s.function f count]
  literal : ∀ shape ts, Nested 1 ts → Nested 0 (s.openLiteral shape ++ (ts ++ s.closeLiteral shape))
  rowBreak : Nested 1 [s.rowBreak]
  index : ∀ ts, Nested 1 ts → Nested 0 (s.openIndex ++ (ts ++ [s.closeIndex]))

theorem Spelling.bracketed_grouped : bracketed.Grouped where
  function _ _ := Nested.single rfl rfl nofun nofun
  literal _ _ h := (Nested.single (t := .literalStart) rfl rfl nofun nofun).append h.parens
  rowBreak := Nested.semicolon
  index _ h :=
    (Nested.single (t := .operator (.binary .index)) rfl rfl nofun nofun).append h.parens

theorem Spelling.shaped_grouped : shaped.Grouped where
  function _ _ := Nested.single rfl rfl nofun nofun
  literal shape _ h := by
    have hdim : ∀ n, Nested 1 [.comma, .dim n] := fun n =>
      Nested.comma.append (Nested.single (t := .dim n) rfl rfl nofun nofun).inside
    have hts := (h.append ((hdim shape.rows).append (hdim shape.cols))).parens
    have := (Nested.single (t := .operator (.literal shape.rows shape.cols)) rfl rfl nofun
      nofun).append hts
    simpa [Spelling.shaped] using this
  rowBreak := Nested.comma
  index _ h :=
    (Nested.single (t := .operator (.binary .index)) rfl rfl nofun nofun).append h.parens

/-- Tokens with separators between them, which count for nothing inside a group. -/
theorem nested_joined {separator : Token} (hs : Nested 1 [separator]) {parts : List (List Token)}
    (h : ∀ part ∈ parts, Nested 1 part) : Nested 1 (joined separator parts) := by
  cases parts with
  | nil => exact Nested.nil
  | cons part parts =>
    have hparts := flatMap_separator Nested.nil Nested.append hs fun p hp =>
      h p (List.mem_cons_of_mem part hp)
    exact (h part (by simp)).append hparts

/-- The tokens of a derivation are one group. -/
theorem nested_spell {s : Spelling} (hs : s.Grouped) {t : Infix} (h : t.WellFormed) :
    Nested 0 (t.spell s) := by
  induction h with
  | number value => exact Nested.single rfl rfl (by simp) (by simp)
  | name text => exact Nested.single rfl rfl (by simp) (by simp)
  | paren _ ih => exact ih.inside.parens
  | @call f arguments _ _ ih =>
    rw [spell, spellAll_eq_map]
    refine (hs.function f arguments.length).append (Nested.parens ?_)
    refine nested_joined Nested.comma fun part hpart => ?_
    obtain ⟨t, ht, rfl⟩ := List.mem_map.mp hpart
    exact (ih t ht).inside
  | @literal rows _ _ _ _ ih =>
    rw [spell, spellRows_eq_map]
    refine hs.literal _ _ (nested_joined hs.rowBreak fun part hpart => ?_)
    obtain ⟨row, hrow, rfl⟩ := List.mem_map.mp hpart
    refine nested_joined Nested.comma fun cell hcell => ?_
    obtain ⟨t, ht, rfl⟩ := List.mem_map.mp hcell
    exact (ih row hrow t ht).inside
  | before p _ ih =>
    exact (Nested.single (t := .operator p.written) rfl rfl (by simp) (by simp)).append ih
  | between _ _ _ iha ihb =>
    exact iha.append ((Nested.single (t := .operator _) rfl rfl (by simp) (by simp)).append ihb)
  | quote _ ih => exact ih.append (Nested.single rfl rfl (by simp) (by simp))
  | index _ _ iht ihi => exact iht.append (hs.index _ ihi.inside)

/-! ## Shapes of literals -/

/-- The cells of a row. -/
theorem rowLengths_cells {cells : List (List Token)} (h : ∀ cell ∈ cells, Nested 0 cell)
    (hne : cells ≠ []) (rest : List Token) (n : Nat) :
    rowLengths 0 (n + 1) (joined .comma cells ++ rest) = rowLengths 0 (n + cells.length) rest := by
  obtain ⟨cell, cells, rfl⟩ := List.exists_cons_of_ne_nil hne
  clear hne
  induction cells generalizing cell n with
  | nil => simpa [joined] using (h cell (by simp)).lengths 0 (n + 1) rest (Nat.le_refl 0)
  | cons other cells ih =>
    have hother := ih (n + 1) other fun c hc => h c (List.mem_cons_of_mem _ hc)
    rw [joined, List.append_assoc, (h cell (by simp)).lengths 0 _ _ (Nat.le_refl 0),
      List.flatMap_cons, List.cons_append, List.cons_append, rowLengths]
    rw [joined, List.append_assoc] at hother
    rw [List.append_assoc, hother]
    simp only [List.length_cons]
    congr 1
    omega

/-- The rows of a literal. -/
theorem rowLengths_rows {rows : List (List (List Token))}
    (h : ∀ row ∈ rows, ∀ cell ∈ row, Nested 0 cell) (hne : ∀ row ∈ rows, row ≠ [])
    (hrows : rows ≠ []) :
    rowLengths 0 1 (joined .semicolon (rows.map (joined .comma))) = rows.map List.length := by
  obtain ⟨row, rows, rfl⟩ := List.exists_cons_of_ne_nil hrows
  clear hrows
  induction rows generalizing row with
  | nil =>
    have hrow := rowLengths_cells (h row (by simp)) (hne row (by simp)) [] 0
    simpa [joined, rowLengths] using hrow
  | cons other rows ih =>
    have hother := ih other (fun r hr => h r (List.mem_cons_of_mem _ hr))
      fun r hr => hne r (List.mem_cons_of_mem _ hr)
    have hrow := rowLengths_cells (h row (by simp)) (hne row (by simp))
      (.semicolon :: joined .semicolon ((other :: rows).map (joined .comma))) 0
    rw [rowLengths, hother] at hrow
    simpa [joined] using hrow

theorem raggedRow?_eq_none {cols : Nat} {lengths : List Nat} (h : ∀ n ∈ lengths, n = cols)
    (row : Nat) : raggedRow? cols row lengths = none := by
  induction lengths generalizing row with
  | nil => rfl
  | cons n lengths ih =>
    rw [raggedRow?, if_pos (h n (by simp)), ih fun m hm => h m (List.mem_cons_of_mem _ hm)]

theorem bracketed_ne_nil (t : Infix) : t.spell .bracketed ≠ [] := by
  cases t <;> simp [spell, Spelling.bracketed]

theorem shaped_ne_nil (t : Infix) : t.spell .shaped ≠ [] := by
  cases t <;> simp [spell, Spelling.shaped]

theorem joined_ne_nil {separator : Token} {parts : List (List Token)} (hne : parts ≠ [])
    (h : ∀ part ∈ parts, part ≠ []) : joined separator parts ≠ [] := by
  obtain ⟨part, parts, rfl⟩ := List.exists_cons_of_ne_nil hne
  exact List.append_ne_nil_of_left_ne_nil (h part (by simp)) _

theorem literalShape_eq {ts inside rest : List Token} {cols : Nat} {lengths : List Nat}
    (hsplit : splitParens ts = some (inside, rest)) (hne : inside ≠ [])
    (hlengths : rowLengths 0 1 inside = cols :: lengths) (h : ∀ n ∈ lengths, n = cols) :
    literalShape ts = .ok ⟨lengths.length + 1, cols⟩ := by
  have hragged : raggedRow? cols 1 (cols :: lengths) = none :=
    raggedRow?_eq_none (by simpa using h) 1
  unfold literalShape
  rw [hsplit]
  split
  · simp_all
  · simp_all
  · rename_i heq
    simp only [Option.some.injEq, Prod.mk.injEq] at heq
    rw [← heq.1, hlengths]
    simp only [List.headD_cons, hragged]
    rfl

/-- The rows of a literal are nested in its parentheses. -/
theorem nested_spellRows {rows : List (List Infix)} (h : ∀ row ∈ rows, ∀ t ∈ row, t.WellFormed) :
    Nested 1 (joined .semicolon (spellRows .bracketed rows)) := by
  refine nested_joined Nested.semicolon fun part hpart => ?_
  rw [spellRows_eq_map] at hpart
  obtain ⟨row, hr, rfl⟩ := List.mem_map.mp hpart
  refine nested_joined Nested.comma fun cell hcell => ?_
  obtain ⟨t, ht, rfl⟩ := List.mem_map.mp hcell
  exact (nested_spell Spelling.bracketed_grouped (h row hr t ht)).inside

/-- The lengths of the rows are counted over all of their tokens. -/
theorem rowLengths_spellRows {rows : List (List Infix)} (hrows : rows ≠ [])
    (hne : ∀ row ∈ rows, row ≠ []) (h : ∀ row ∈ rows, ∀ t ∈ row, t.WellFormed) :
    rowLengths 0 1 (joined .semicolon (spellRows .bracketed rows)) = rows.map List.length := by
  have hspell : spellRows .bracketed rows =
      (rows.map fun row => row.map (spell .bracketed)).map (joined .comma) := by
    rw [spellRows_eq_map, List.map_map]
    rfl
  rw [hspell, rowLengths_rows]
  · simp [Function.comp_def]
  · intro cells hrow cell hcell
    obtain ⟨row, hr, rfl⟩ := List.mem_map.mp hrow
    obtain ⟨t, ht, rfl⟩ := List.mem_map.mp hcell
    exact nested_spell Spelling.bracketed_grouped (h row hr t ht)
  · intro cells hrow
    obtain ⟨row, hr, rfl⟩ := List.mem_map.mp hrow
    simpa using hne row hr
  · simpa using hrows

/-- The shape that a literal is found to have. -/
theorem literalShape_rows {rows : List (List Infix)} (hwf : (literal rows).WellFormed)
    (rest : List Token) :
    literalShape (joined .semicolon (spellRows .bracketed rows) ++ .closeParen :: rest) =
      .ok (shapeOf rows) := by
  cases hwf with
  | literal hrows hcols hlength h =>
    have hne : ∀ row ∈ rows, row ≠ [] := fun row hr =>
      List.ne_nil_of_length_pos (hlength row hr ▸ hcols)
    have hnonempty : joined .semicolon (spellRows .bracketed rows) ≠ [] := by
      rw [spellRows_eq_map]
      refine joined_ne_nil (by simpa using hrows) fun part hpart => ?_
      obtain ⟨row, hr, rfl⟩ := List.mem_map.mp hpart
      refine joined_ne_nil (by simpa using hne row hr) fun cell hcell => ?_
      obtain ⟨t, _, rfl⟩ := List.mem_map.mp hcell
      exact bracketed_ne_nil t
    have hlengths := rowLengths_spellRows hrows hne h
    have hsplit := (nested_spellRows h).splitParens rest
    obtain ⟨row, others, rfl⟩ := List.exists_cons_of_ne_nil hrows
    rw [literalShape_eq hsplit hnonempty hlengths]
    · simp [shapeOf]
    · intro n hn
      obtain ⟨other, hother, rfl⟩ := List.mem_map.mp hn
      exact hlength other (List.mem_cons_of_mem _ hother)

end Infix

namespace Token

/-- The pass that resolves literals turns `xs` into `ys`, whatever comes around them. -/
def Resolves (xs ys : List Token) : Prop :=
  ∀ groups rest, resolveLiteralsIn groups (xs ++ rest) =
    (ys ++ ·) <$> resolveLiteralsIn groups rest

namespace Resolves

variable {a b c d : List Token}

theorem append (hab : Resolves a b) (hcd : Resolves c d) : Resolves (a ++ c) (b ++ d) := by
  intro groups rest
  rw [List.append_assoc, hab, hcd, Functor.map_map]
  simp

theorem single {t : Token} (hliteral : t ≠ .literalStart) (hopen : t ≠ .openParen)
    (hclose : t ≠ .closeParen) (hsemicolon : t ≠ .semicolon) : Resolves [t] [t] := by
  intro groups rest
  rw [List.singleton_append, resolveLiteralsIn]
  · rfl
  all_goals simp_all

/-- A token between two operands. -/
theorem join {t : Token} (hab : Resolves a b) (hcd : Resolves c d) (hliteral : t ≠ .literalStart)
    (hopen : t ≠ .openParen) (hclose : t ≠ .closeParen) (hsemicolon : t ≠ .semicolon) :
    Resolves (a ++ t :: c) (b ++ t :: d) :=
  hab.append ((single hliteral hopen hclose hsemicolon).append hcd)

theorem semicolon : Resolves [.semicolon] [.comma] :=
  fun _ _ => rfl

theorem parens (h : Resolves a b) :
    Resolves (.openParen :: (a ++ [.closeParen])) (.openParen :: (b ++ [.closeParen])) := by
  intro groups rest
  rw [List.cons_append, List.append_assoc, resolveLiteralsIn, h, List.singleton_append,
    resolveLiteralsIn]
  simp [dimensions]

/-- A literal whose shape has been found. -/
theorem literal {shape : Shape} (h : Resolves a b)
    (hshape : ∀ rest, literalShape (a ++ .closeParen :: rest) = .ok shape) :
    Resolves (.literalStart :: .openParen :: (a ++ [.closeParen]))
      (.operator (.literal shape.rows shape.cols) :: .openParen ::
        (b ++ [.comma, .dim shape.rows, .comma, .dim shape.cols, .closeParen])) := by
  intro groups rest
  rw [List.cons_append, List.cons_append, List.append_assoc, List.singleton_append,
    resolveLiteralsIn, hshape, ok_bind, h, resolveLiteralsIn]
  simp [dimensions]

end Resolves

end Token

namespace Infix

open Token

theorem resolves {t : Infix} (h : t.WellFormed) :
    Resolves (t.spell .bracketed) (t.spell .shaped) := by
  induction h with
  | number value => exact Resolves.single (by simp) (by simp) (by simp) (by simp)
  | name text => exact Resolves.single (by simp) (by simp) (by simp) (by simp)
  | paren _ ih => exact ih.parens
  | @call f arguments hcount _ ih =>
    obtain ⟨t, ts, rfl⟩ := List.exists_cons_of_length_pos (accepts_pos hcount)
    have hjoined : Resolves (joined .comma ((t :: ts).map (spell .bracketed)))
        (joined .comma ((t :: ts).map (spell .shaped))) :=
      joined_induction (fun h₁ h₂ => h₁.join h₂ (by simp) (by simp) (by simp) (by simp)) ih
    rw [spell, spell, spellAll_eq_map, spellAll_eq_map]
    have hname : Resolves [.function f none] [.function f none] :=
      .single (by simp) (by simp) (by simp) (by simp)
    exact hname.append hjoined.parens
  | @literal rows hrows hcols hlength h ih =>
    have hne : ∀ row ∈ rows, row ≠ [] := fun row hr =>
      List.ne_nil_of_length_pos (hlength row hr ▸ hcols)
    have hjoined : Resolves (joined .semicolon (spellRows .bracketed rows))
        (joined .comma (spellRows .shaped rows)) := by
      rw [spellRows_eq_map, spellRows_eq_map]
      exact joinedRows_induction (fun h₁ h₂ => h₁.join h₂ (by simp) (by simp) (by simp) (by simp))
        (fun h₁ h₂ => h₁.append (Resolves.semicolon.append h₂)) hrows hne ih
    exact hjoined.literal (literalShape_rows (.literal hrows hcols hlength h))
  | before p _ ih =>
    have hoperator : Resolves [.operator p.written] [.operator p.written] :=
      .single (by simp) (by simp) (by simp) (by simp)
    exact hoperator.append ih
  | between _ _ _ iha ihb => exact iha.join ihb (by simp) (by simp) (by simp) (by simp)
  | quote _ ih => exact ih.append (Resolves.single (by simp) (by simp) (by simp) (by simp))
  | index _ _ iht ihi => exact iht.join ihi.parens (by simp) (by simp) (by simp) (by simp)

end Infix

namespace Token

/-! ## Argument counts -/

/-- The pass that counts arguments turns `xs` into `ys`, whatever comes after them. -/
def Counts (xs ys : List Token) : Prop :=
  ∀ rest, resolveArity (xs ++ rest) = (ys ++ ·) <$> resolveArity rest

namespace Counts

variable {a b c d : List Token}

theorem append (hab : Counts a b) (hcd : Counts c d) : Counts (a ++ c) (b ++ d) := by
  intro rest
  rw [List.append_assoc, hab, hcd, Functor.map_map]
  simp

theorem single {t : Token} (h : ∀ f, t ≠ .function f none) : Counts [t] [t] := by
  intro rest
  rw [List.singleton_append, resolveArity]
  · rfl
  · simp_all

/-- A token between two operands. -/
theorem join {t : Token} (hab : Counts a b) (hcd : Counts c d) (h : ∀ f, t ≠ .function f none) :
    Counts (a ++ t :: c) (b ++ t :: d) :=
  hab.append ((single h).append hcd)

theorem parens (h : Counts a b) :
    Counts (.openParen :: (a ++ [.closeParen])) (.openParen :: (b ++ [.closeParen])) :=
  (single (t := .openParen) nofun).append (h.append (single nofun))

end Counts

end Token

namespace Infix

open Token

/-- The commas between arguments. -/
theorem topLevelCommas_joined {cells : List (List Token)} (h : ∀ cell ∈ cells, Nested 0 cell)
    (hne : cells ≠ []) : topLevelCommas 0 (joined .comma cells) + 1 = cells.length := by
  obtain ⟨cell, cells, rfl⟩ := List.exists_cons_of_ne_nil hne
  clear hne
  induction cells generalizing cell with
  | nil => simpa [joined, topLevelCommas] using (h cell (by simp)).commas 0 [] (Nat.le_refl 0)
  | cons other cells ih =>
    have hother := ih other fun c hc => h c (List.mem_cons_of_mem _ hc)
    rw [joined, (h cell (by simp)).commas 0 _ (Nat.le_refl 0), List.flatMap_cons, List.cons_append,
      topLevelCommas]
    rw [joined] at hother
    rw [hother]
    rfl

theorem callArity_arguments {f : Builtin} {arguments : List Infix}
    (hwf : (call f arguments).WellFormed) (rest : List Token) :
    callArity f (.openParen :: (joined .comma (spellAll .shaped arguments) ++
      .closeParen :: rest)) = .ok arguments.length := by
  cases hwf with
  | call hcount h =>
    have hcells : ∀ cell ∈ spellAll .shaped arguments, Nested 0 cell := by
      intro cell hcell
      rw [spellAll_eq_map] at hcell
      obtain ⟨t, ht, rfl⟩ := List.mem_map.mp hcell
      exact nested_spell Spelling.shaped_grouped (h t ht)
    have hne : spellAll .shaped arguments ≠ [] := by
      rw [spellAll_eq_map]
      exact List.ne_nil_of_length_pos (by simpa using accepts_pos hcount)
    have hnested : Nested 1 (joined .comma (spellAll .shaped arguments)) :=
      nested_joined Nested.comma fun cell hcell => (hcells cell hcell).inside
    have hnonempty : joined .comma (spellAll .shaped arguments) ≠ [] := by
      refine joined_ne_nil hne fun cell hcell => ?_
      rw [spellAll_eq_map] at hcell
      obtain ⟨t, _, rfl⟩ := List.mem_map.mp hcell
      exact shaped_ne_nil t
    have hcommas := topLevelCommas_joined hcells hne
    rw [spellAll_eq_map, List.length_map] at hcommas
    rw [callArity, hnested.splitParens rest]
    simp only [argumentCount, List.isEmpty_iff, hnonempty, ite_false]
    rw [spellAll_eq_map, hcommas]
    rfl

theorem counts {t : Infix} (h : t.WellFormed) : Counts (t.spell .shaped) (t.spell .prepared) := by
  induction h with
  | number value => exact Counts.single (by simp)
  | name text => exact Counts.single (by simp)
  | paren _ ih => exact ih.parens
  | @call f arguments hcount h ih =>
    have hjoined : Counts (joined .comma (spellAll .shaped arguments))
        (joined .comma (spellAll .prepared arguments)) := by
      obtain ⟨t, ts, rfl⟩ := List.exists_cons_of_length_pos (accepts_pos hcount)
      rw [spellAll_eq_map, spellAll_eq_map]
      exact joined_induction (fun h₁ h₂ => h₁.join h₂ (by simp)) ih
    intro rest
    have hcount := callArity_arguments (.call hcount h) rest
    have hgroup := hjoined.parens rest
    rw [List.cons_append, List.append_assoc, List.singleton_append] at hgroup
    rw [spell, spell, List.cons_append, List.cons_append, List.append_assoc, List.singleton_append]
    show resolveArity (.function f none :: _) = _
    rw [resolveArity, hcount, ok_bind, hgroup]
    simp [Spelling.prepared]
  | @literal rows hrows hcols hlength h ih =>
    have hne : ∀ row ∈ rows, row ≠ [] := fun row hr =>
      List.ne_nil_of_length_pos (hlength row hr ▸ hcols)
    have hjoined : Counts (joined .comma (spellRows .shaped rows))
        (joined .comma (spellRows .prepared rows)) := by
      rw [spellRows_eq_map, spellRows_eq_map]
      exact joinedRows_induction (fun h₁ h₂ => h₁.join h₂ (by simp))
        (fun h₁ h₂ => h₁.join h₂ (by simp)) hrows hne ih
    have hdim : ∀ n, Counts [.comma, .dim n] [.comma, .dim n] := fun n =>
      (Counts.single (t := .comma) (by simp)).append (Counts.single (t := .dim n) (by simp))
    have hgroup := (hjoined.append
      ((hdim (shapeOf rows).rows).append (hdim (shapeOf rows).cols))).parens
    have hliteral := (Counts.single (t := .operator (.literal (shapeOf rows).rows
      (shapeOf rows).cols)) (by simp)).append hgroup
    simpa [spell, Spelling.shaped, Spelling.prepared] using hliteral
  | before p _ ih => exact (Counts.single (t := .operator p.written) (by simp)).append ih
  | between _ _ _ iha ihb => exact iha.join ihb (by simp)
  | quote _ ih => exact ih.append (Counts.single (by simp))
  | index _ _ iht ihi => exact iht.join ihi.parens (by simp)

/-- **The passes before postfix code spell a derivation out.** -/
theorem prepare_tokens {t : Infix} (h : t.WellFormed) :
    prepare t.tokens = .ok (t.spell .prepared) := by
  have hbrackets : resolveBrackets (t.tokens ++ []) = t.spell .bracketed ++ [] :=
    settles h.rough none [] rfl
  have hliterals : resolveLiterals (t.spell .bracketed ++ []) = .ok (t.spell .shaped ++ []) :=
    resolves h [] []
  have harity : resolveArity (t.spell .shaped ++ []) = .ok (t.spell .prepared ++ []) := counts h []
  simp only [List.append_nil] at hbrackets hliterals harity
  rw [prepare, hbrackets, hliterals, ok_bind, harity]

end Infix

end MatrixLang
