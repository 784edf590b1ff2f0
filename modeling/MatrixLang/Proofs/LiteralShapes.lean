import MatrixLang.Proofs.Groups

/-! # Resolving literals

The pass that resolves literals goes over the tokens once, with a stack of the shapes of the
groups that are open.  What it makes of a token can be said from what stands before and after the
token (`Image`), at every depth alike: the start of a literal gets the shape of the group after
it, and a closing parenthesis gets the dimensions in front of it if a literal is what it closes.
The stack is right about that because the parentheses before a token that are still open are the
groups on the stack (`Enclosed`).
-/

namespace MatrixLang.Token

/-! ## Shapes -/

/-- The shape of a literal, from what its parentheses enclose: its rows, and the cells of the
first. -/
def groupShape (inside : List Token) : Shape :=
  ⟨(rows inside).length, (cells ((rows inside).headD [])).length⟩

/-- Something is enclosed, and all rows of it have as many cells as the first. -/
structure Rectangular (inside : List Token) : Prop where
  ne_nil : inside ≠ []
  uniform : ∀ row ∈ rows inside, (cells row).length = (groupShape inside).cols

/-- The parentheses of a literal come next. -/
def StartsLiteral (ts : List Token) : Prop :=
  ∃ inside rest, ts = .openParen :: (inside ++ .closeParen :: rest) ∧ Matched inside ∧
    Rectangular inside

theorem rowLengths_eq_cons (inside : List Token) : ∃ first others,
    rows inside = first :: others ∧ rowLengths 0 1 inside =
      (groupShape inside).cols :: others.map fun row => (cells row).length := by
  have hne : rows inside ≠ [] := divide_ne_nil 0 inside
  obtain ⟨first, others, hrows⟩ := List.exists_cons_of_ne_nil hne
  refine ⟨first, others, hrows, ?_⟩
  rw [rowLengths_eq_map, groupShape, hrows]
  rfl

/-- A literal has the shape of its group, if that is closed and rectangular. -/
theorem literalShape_eq_ok_iff {ts : List Token} {shape : Shape} :
    literalShape ts = .ok shape ↔ ∃ inside rest, ts = inside ++ .closeParen :: rest ∧
      Matched inside ∧ Rectangular inside ∧ shape = groupShape inside := by
  constructor
  · intro h
    unfold literalShape at h
    split at h
    · cases h
    · cases h
    · rename_i inside rest hne hsplit
      obtain ⟨rfl, hinside⟩ := splitParens_eq_some_iff.mp hsplit
      obtain ⟨first, others, hrows, hlengths⟩ := rowLengths_eq_cons inside
      have hcols : (rowLengths 0 1 inside).headD 1 = (groupShape inside).cols := by
        rw [hlengths]
        rfl
      dsimp only at h
      split at h
      · cases h
      · rename_i hragged
        have huniform := forall_of_raggedRow?_eq_none hragged
        rw [hcols, rowLengths_eq_map] at huniform
        cases h
        refine ⟨inside, rest, rfl, hinside, ⟨?_, List.forall_mem_map.mp huniform⟩, ?_⟩
        · rintro rfl
          exact hne rfl
        · rw [hcols, rowLengths_eq_map, List.length_map]
          rfl
  · rintro ⟨inside, rest, rfl, hinside, hrectangular, rfl⟩
    obtain ⟨first, others, hrows, hlengths⟩ := rowLengths_eq_cons inside
    have huniform : ∀ n ∈ others.map fun row => (cells row).length,
        n = (groupShape inside).cols := by
      refine List.forall_mem_map.mpr fun row hrow => hrectangular.uniform row ?_
      rw [hrows]
      exact List.mem_cons_of_mem first hrow
    rw [Infix.literalShape_eq (hinside.splitParens rest) hrectangular.ne_nil hlengths huniform,
      groupShape, hrows, List.length_map, List.length_cons]

/-- The group that has the shape is the one up to the parenthesis that closes it. -/
theorem shape_of_literalShape {inside rest : List Token} {shape : Shape}
    (h : literalShape (inside ++ .closeParen :: rest) = .ok shape) (hinside : Matched inside) :
    Rectangular inside ∧ shape = groupShape inside := by
  obtain ⟨inside', rest', hts, hinside', hrectangular, hshape⟩ := literalShape_eq_ok_iff.mp h
  have hsplit := hinside.splitParens rest
  rw [hts, hinside'.splitParens rest'] at hsplit
  cases hsplit
  exact ⟨hrectangular, hshape⟩

/-! ## Success -/

/-- Every start of a literal has the parentheses of one after it. -/
def LiteralsStart (ts : List Token) : Prop :=
  ∀ before after, ts = before ++ .literalStart :: after → StartsLiteral after

theorem literalsStart_cons {t : Token} {ts : List Token} :
    LiteralsStart (t :: ts) ↔ (t = .literalStart → StartsLiteral ts) ∧ LiteralsStart ts := by
  constructor
  · intro h
    refine ⟨?_, fun before after hts => h (t :: before) after (by rw [hts]; rfl)⟩
    rintro rfl
    exact h [] ts rfl
  · rintro ⟨hfirst, hrest⟩ before after hts
    rcases before with _ | ⟨u, before⟩
    · obtain ⟨ht, rfl⟩ := List.cons.inj hts
      exact hfirst ht
    · exact hrest before after (List.cons.inj hts).2

theorem literalsStart_other {t : Token} {ts : List Token} (ht : t ≠ .literalStart) :
    LiteralsStart (t :: ts) ↔ LiteralsStart ts := by
  rw [literalsStart_cons]
  exact and_iff_right fun h => absurd h ht

theorem startsLiteral_iff {ts : List Token} :
    StartsLiteral (.openParen :: ts) ↔ ∃ shape, literalShape ts = .ok shape := by
  simp only [literalShape_eq_ok_iff]
  constructor
  · rintro ⟨inside, rest, hts, hinside, hrectangular⟩
    exact ⟨_, inside, rest, (List.cons.inj hts).2, hinside, hrectangular, rfl⟩
  · rintro ⟨_, inside, rest, rfl, hinside, hrectangular, rfl⟩
    exact ⟨inside, rest, rfl, hinside, hrectangular⟩

/-- **Literals are resolved exactly if each has its parentheses**, whatever groups are open. -/
theorem exists_resolveLiteralsIn_iff (groups : List (Option Shape)) (ts : List Token) :
    (∃ out, resolveLiteralsIn groups ts = .ok out) ↔ LiteralsStart ts := by
  fun_induction resolveLiteralsIn groups ts with
  | case1 groups => exact ⟨fun _ before after hts => by simp at hts, fun _ => ⟨[], rfl⟩⟩
  | case2 groups ts ih =>
    rw [literalsStart_cons, startsLiteral_iff, literalsStart_other (by rintro ⟨⟩)]
    constructor
    · rintro ⟨out, hout⟩
      obtain ⟨shape, hshape, hrest⟩ := exists_of_bind_eq_ok hout
      exact ⟨fun _ => ⟨shape, hshape⟩, (ih shape).mp (exists_map_eq_ok.mp ⟨out, hrest⟩)⟩
    · rintro ⟨hfirst, hrest⟩
      obtain ⟨shape, hshape⟩ := hfirst rfl
      rw [hshape]
      exact exists_map_eq_ok.mpr ((ih shape).mpr hrest)
  | case3 groups ts hnext =>
    constructor
    · rintro ⟨out, ⟨⟩⟩
    · intro h
      obtain ⟨inside, rest, hts, -⟩ := (literalsStart_cons.mp h).1 rfl
      exact absurd hts (hnext _)
  | case4 groups ts ih | case5 groups ts ih | case6 groups ts ih =>
    rw [exists_map_eq_ok, ih, literalsStart_other (by rintro ⟨⟩)]
  | case7 groups t ts hliteral hstart hopen hclose hsemicolon ih =>
    rw [exists_map_eq_ok, ih, literalsStart_other hstart]

/-! ## What tokens become -/

/-- What a token becomes that stands between `before` and `after`. -/
inductive Image (before : List Token) : (t : Token) → (after image : List Token) → Prop where
  /-- A literal starts. -/
  | start {after inside rest : List Token}
      (hafter : after = .openParen :: (inside ++ .closeParen :: rest)) (h : Matched inside) :
      Image before .literalStart after
        [.operator (.literal (groupShape inside).rows (groupShape inside).cols)]
  /-- The parenthesis closes a literal. -/
  | closeLiteral {b inside after : List Token}
      (hbefore : before = b ++ .literalStart :: .openParen :: inside) (h : Matched inside) :
      Image before .closeParen after
        [.comma, .dim (groupShape inside).rows, .comma, .dim (groupShape inside).cols, .closeParen]
  /-- The parenthesis closes no literal. -/
  | close {after : List Token}
      (h : ∀ b inside, before = b ++ .literalStart :: .openParen :: inside → ¬ Matched inside) :
      Image before .closeParen after [.closeParen]
  | semicolon {after : List Token} : Image before .semicolon after [.comma]
  | other {t : Token} {after : List Token} (hstart : t ≠ .literalStart) (hclose : t ≠ .closeParen)
      (hsemicolon : t ≠ .semicolon) : Image before t after [t]

/-- What the tokens `ts` become, one after the other, that stand between `before` and `after`. -/
inductive Images : (before ts after out : List Token) → Prop where
  | nil {before after : List Token} : Images before [] after []
  | cons {before after ts image out : List Token} {t : Token}
      (h : Image before t (ts ++ after) image) (hts : Images (before ++ [t]) ts after out) :
      Images before (t :: ts) after (image ++ out)

theorem Images.of_append {before a b after out : List Token}
    (h : Images before (a ++ b) after out) :
    ∃ x y, out = x ++ y ∧ Images before a (b ++ after) x ∧ Images (before ++ a) b after y := by
  induction a generalizing before out with
  | nil =>
    refine ⟨[], out, rfl, .nil, ?_⟩
    rw [List.append_nil]
    exact h
  | cons t a ih =>
    rw [List.cons_append] at h
    rcases h with _ | ⟨himage, hrest⟩
    obtain ⟨x, y, rfl, hx, hy⟩ := ih hrest
    rw [List.append_assoc] at himage hy
    exact ⟨_, y, (List.append_assoc ..).symm, .cons himage hx, hy⟩

/-! ### Open groups -/

/-- The groups that are open after `before`, where `ts` comes next: the innermost first, with the
shapes of those that are literals. -/
inductive Enclosed :
    (before : List Token) → (groups : List (Option Shape)) → (ts : List Token) → Prop where
  | outside {before ts : List Token} (h : NoneOpen before) : Enclosed before [] ts
  | group {b inside ts : List Token} {groups : List (Option Shape)}
      (hb : Enclosed b groups (.openParen :: (inside ++ ts)))
      (hlast : b.getLast? ≠ some .literalStart) (h : Matched inside) :
      Enclosed (b ++ .openParen :: inside) (none :: groups) ts
  | literal {b inside ts : List Token} {groups : List (Option Shape)} {shape : Shape}
      (hb : Enclosed b groups (.literalStart :: .openParen :: (inside ++ ts)))
      (hshape : literalShape (inside ++ ts) = .ok shape) (h : Matched inside) :
      Enclosed (b ++ .literalStart :: .openParen :: inside) (some shape :: groups) ts

/-- Matched tokens leave the same groups open. -/
theorem Enclosed.append {before a ts : List Token} {groups : List (Option Shape)}
    (h : Enclosed before groups (a ++ ts)) (ha : Matched a) : Enclosed (before ++ a) groups ts := by
  generalize hts : a ++ ts = tokens at h
  cases h with
  | outside h => exact .outside (h.append ha.noneOpen)
  | @group b inside _ groups hb hlast hinside =>
    subst hts
    rw [List.append_assoc, List.cons_append]
    rw [← List.append_assoc] at hb
    exact .group hb hlast (hinside.append ha)
  | @literal b inside _ groups shape hb hshape hinside =>
    subst hts
    rw [List.append_assoc, List.cons_append, List.cons_append]
    rw [← List.append_assoc] at hb hshape
    exact .literal hb hshape (hinside.append ha)

section

variable {before ts : List Token} {groups : List (Option Shape)}

/-- A closing parenthesis closes the innermost group. -/
theorem Enclosed.close (h : Enclosed before groups (.closeParen :: ts)) :
    Enclosed (before ++ [.closeParen]) groups.tail ts := by
  rcases h with h | @⟨b, inside, _, groups, hb, hlast, hinside⟩ |
    @⟨b, inside, _, groups, shape, hb, hshape, hinside⟩
  · exact .outside (h.append .closeParen)
  · have hgroup : Matched (.openParen :: (inside ++ [.closeParen])) := .group hinside .nil
    rw [group_append] at hb
    simpa using hb.append hgroup
  · have hgroup : Matched (.literalStart :: .openParen :: (inside ++ [.closeParen])) :=
      .single rfl rfl (.group hinside .nil)
    rw [group_append] at hb
    simpa using Enclosed.append hb hgroup

/-- The stack says what a closing parenthesis closes. -/
theorem Enclosed.image_close (h : Enclosed before groups (.closeParen :: ts)) (after : List Token) :
    Image before .closeParen after (dimensions (groups.headD none) ++ [.closeParen]) := by
  rcases h with h | @⟨b, inside, _, groups, hb, hlast, hinside⟩ |
    @⟨b, inside, _, groups, shape, hb, hshape, hinside⟩
  · refine .close fun b inside hbefore => ?_
    rw [hbefore, List.append_cons] at h
    exact h.not_matched
  · refine .close fun b' inside' hbefore hinside' => hlast ?_
    rw [List.append_cons b' .literalStart] at hbefore
    rw [(hinside.opening_unique hinside' hbefore).1, List.getLast?_concat]
  · obtain ⟨-, rfl⟩ := shape_of_literalShape hshape hinside
    exact .closeLiteral rfl hinside

theorem getLast?_append_ne {t : Token} (before : List Token) (ht : t ≠ .literalStart) :
    (before ++ [t]).getLast? ≠ some .literalStart := by
  rw [List.getLast?_concat]
  exact fun h => ht (Option.some.inj h)

/-- **Each token becomes what its place says.** -/
theorem images_of_resolveLiteralsIn {out : List Token} (h : resolveLiteralsIn groups ts = .ok out)
    (hbefore : Enclosed before groups ts) (hlast : before.getLast? ≠ some .literalStart) :
    Images before ts [] out := by
  -- the start of a literal is taken together with its parenthesis, so that `before` never ends
  -- between the two
  fun_induction resolveLiteralsIn groups ts generalizing before out with
  | case1 groups =>
    cases h
    exact .nil
  | case2 groups ts ih =>
    obtain ⟨shape, hshape, h⟩ := exists_of_bind_eq_ok h
    obtain ⟨rest, hrest, heq⟩ := exists_of_bind_eq_ok h
    cases heq
    have hinside : Enclosed (before ++ [.literalStart] ++ [.openParen]) (some shape :: groups)
        ts := by
      rw [List.append_assoc]
      exact .literal hbefore hshape .nil
    have hout := ih shape hrest hinside (getLast?_append_ne _ (by rintro ⟨⟩))
    have hopen : Images (before ++ [.literalStart]) (.openParen :: ts) [] (.openParen :: rest) :=
      .cons (.other (by rintro ⟨⟩) (by rintro ⟨⟩) (by rintro ⟨⟩)) hout
    obtain ⟨inside, more, rfl, hmatched, -, rfl⟩ := literalShape_eq_ok_iff.mp hshape
    exact .cons (.start (List.append_nil _) hmatched) hopen
  | case3 groups ts hnext => cases h
  | case4 groups ts ih =>
    obtain ⟨rest, hrest, heq⟩ := exists_of_bind_eq_ok h
    cases heq
    have hout := ih hrest (.group hbefore hlast .nil) (getLast?_append_ne _ (by rintro ⟨⟩))
    exact .cons (.other (by rintro ⟨⟩) (by rintro ⟨⟩) (by rintro ⟨⟩)) hout
  | case5 groups ts ih =>
    obtain ⟨rest, hrest, heq⟩ := exists_of_bind_eq_ok h
    cases heq
    have hout := ih hrest hbefore.close (getLast?_append_ne _ (by rintro ⟨⟩))
    have himages := Images.cons (hbefore.image_close (ts ++ [])) hout
    rw [List.append_assoc] at himages
    exact himages
  | case6 groups ts ih =>
    obtain ⟨rest, hrest, heq⟩ := exists_of_bind_eq_ok h
    cases heq
    have hnext : Enclosed (before ++ [.semicolon]) groups ts :=
      hbefore.append (.single rfl rfl .nil)
    exact .cons .semicolon (ih hrest hnext (getLast?_append_ne _ (by rintro ⟨⟩)))
  | case7 groups t ts hliteral hstart hopen hclose hsemicolon ih =>
    obtain ⟨rest, hrest, heq⟩ := exists_of_bind_eq_ok h
    cases heq
    have ht : Matched [t] := by
      cases t with
      | openParen => exact absurd rfl hopen
      | closeParen => exact absurd rfl hclose
      | _ => exact .single rfl rfl .nil
    have hout := ih hrest (hbefore.append ht) (getLast?_append_ne _ hstart)
    exact .cons (.other hstart hclose hsemicolon) hout

end

/-! ### Cells -/

theorem Matched.withDims {a : List Token} (h : Matched a) (rows cols : Nat) :
    Matched (a ++ [.comma, .dim rows, .comma, .dim cols]) :=
  h.append (.single rfl rfl (.single rfl rfl (.single rfl rfl (.single rfl rfl .nil))))

/-- The cells of a literal stay apart, and keep their number. -/
theorem Images.cells {before ts after out : List Token} (hts : Matched ts)
    (h : Images before ts after out) :
    Matched out ∧ (cells out).length = (divide isSeparator 0 ts).length := by
  unfold Token.cells
  induction hts generalizing before after out with
  | nil =>
    cases h
    exact ⟨.nil, rfl⟩
  | @single t ts hopen hclose hts ih =>
    rcases h with _ | ⟨himage, hrest⟩
    obtain ⟨hmatched, hlength⟩ := ih hrest
    rw [length_divide_single hopen hclose, ← hlength]
    cases himage with
    | start hafter h => exact ⟨.single rfl rfl hmatched, length_divide_single rfl rfl _⟩
    | closeLiteral hbefore h => cases hclose
    | close h => cases hclose
    | semicolon => exact ⟨.single rfl rfl hmatched, length_divide_single rfl rfl _⟩
    | other hstart hclosing hsemicolon =>
      refine ⟨.single hopen hclose hmatched, ?_⟩
      have hcomma : t.isSeparator = t.isComma := by
        cases t with
        | semicolon => exact absurd rfl hsemicolon
        | _ => rfl
      rw [hcomma]
      exact length_divide_single hopen hclose _
  | @group inside ts hinside hts ihinside ih =>
    rcases h with _ | ⟨himage, hrest⟩
    obtain ⟨x, y, rfl, hx, hy⟩ := hrest.of_append
    rcases hy with _ | ⟨hclose, hy⟩
    obtain ⟨hmatchedy, hlength⟩ := ih hy
    obtain ⟨hmatchedx, -⟩ := ihinside hx
    rw [length_divide_group rfl hinside, ← hlength]
    cases himage with
    | other =>
      cases hclose with
      | @closeLiteral _ inner _ hbefore h =>
        have hgroup := hmatchedx.withDims (groupShape inner).rows (groupShape inner).cols
        have hmatched := Matched.group hgroup hmatchedy
        have hlength := @length_divide_group isComma rfl _ hgroup
        simp only [List.append_assoc, List.cons_append, List.nil_append] at hmatched hlength ⊢
        exact ⟨hmatched, hlength _⟩
      | close => exact ⟨.group hmatchedx hmatchedy, length_divide_group rfl hmatchedx _⟩
      | other hstart hclosing => exact absurd rfl hclosing

/-! ### Literals -/

section

variable {before inside rest after image out : List Token}

theorem Image.eq_start (hinside : Matched inside)
    (h : Image before .literalStart (.openParen :: (inside ++ .closeParen :: rest)) image) :
    image = [.operator (.literal (groupShape inside).rows (groupShape inside).cols)] := by
  cases h with
  | @start _ inside' rest' hafter hinside' =>
    have hsplit := hinside.splitParens rest
    rw [(List.cons.inj hafter).2, hinside'.splitParens rest'] at hsplit
    cases hsplit
    rfl
  | other hstart => exact absurd rfl hstart

theorem Image.eq_closeLiteral (hinside : Matched inside)
    (h : Image (before ++ .literalStart :: .openParen :: inside) .closeParen after image) :
    image = [.comma, .dim (groupShape inside).rows, .comma, .dim (groupShape inside).cols,
      .closeParen] := by
  cases h with
  | @closeLiteral b inside' _ hbefore hinside' =>
    rw [List.append_cons, List.append_cons b] at hbefore
    rw [(hinside.opening_unique hinside' hbefore).2]
  | close h => exact absurd hinside (h _ _ rfl)
  | other _ hclose => exact absurd rfl hclose

/-- What becomes of a literal. -/
theorem Images.literal (hinside : Matched inside)
    (h : Images before (.literalStart :: .openParen :: (inside ++ .closeParen :: rest)) after out) :
    ∃ x y, out = .operator (.literal (groupShape inside).rows (groupShape inside).cols) ::
        .openParen :: (x ++ [.comma, .dim (groupShape inside).rows, .comma,
          .dim (groupShape inside).cols] ++ .closeParen :: y) ∧
      Images (before ++ [.literalStart, .openParen]) inside (.closeParen :: (rest ++ after)) x := by
  rcases h with _ | ⟨hstart, h⟩
  rcases h with _ | ⟨hopen, h⟩
  obtain ⟨x, y, rfl, hx, hy⟩ := h.of_append
  rcases hy with _ | @⟨_, _, _, _, y, _, hclose, hy⟩
  simp only [List.append_assoc, List.cons_append, List.nil_append] at hstart hclose hx
  rw [hstart.eq_start hinside, hclose.eq_closeLiteral hinside]
  cases hopen with
  | other => exact ⟨x, y, by simp, hx⟩

end

/-- **Literals are resolved exactly, at every depth.**  This succeeds if and only if every start of
a literal has parentheses after it that are closed and enclose rows of as many cells as the first.
Each token then becomes what its place says, and a literal of `rows` by `cols` has that many cells
in its parentheses and the two dimensions after them. -/
theorem resolveLiterals_exact (ts : List Token) :
    ((∃ out, resolveLiterals ts = .ok out) ↔
      ∀ before after, ts = before ++ .literalStart :: after → StartsLiteral after) ∧
    ∀ out, resolveLiterals ts = .ok out → Images [] ts [] out ∧
      ∀ before inside rest,
        ts = before ++ .literalStart :: .openParen :: (inside ++ .closeParen :: rest) →
        Matched inside → ∃ a group b items,
          Images [] before (ts.drop before.length) a ∧
          out = a ++ .operator (.literal (groupShape inside).rows (groupShape inside).cols) ::
            .openParen :: (group ++ .closeParen :: b) ∧
          Matched group ∧
          cells group =
            items ++ [[.dim (groupShape inside).rows], [.dim (groupShape inside).cols]] ∧
          items.length = (groupShape inside).rows * (groupShape inside).cols := by
  refine ⟨exists_resolveLiteralsIn_iff [] ts, fun out h => ?_⟩
  have himages : Images [] ts [] out :=
    images_of_resolveLiteralsIn h (.outside .nil) (by rintro ⟨⟩)
  refine ⟨himages, ?_⟩
  rintro before inside rest rfl hinside
  have hstart : StartsLiteral (.openParen :: (inside ++ .closeParen :: rest)) :=
    (exists_resolveLiteralsIn_iff [] _).mp ⟨out, h⟩ before _ rfl
  obtain ⟨shape, hshape⟩ := startsLiteral_iff.mp hstart
  obtain ⟨hrectangular, -⟩ := shape_of_literalShape hshape hinside
  obtain ⟨a, y, rfl, ha, hy⟩ := himages.of_append
  obtain ⟨x, b, rfl, hx⟩ := hy.literal hinside
  obtain ⟨hmatched, hlength⟩ := hx.cells hinside
  refine ⟨a, _, b, cells x, ?_, rfl, hmatched.withDims _ _, ?_, ?_⟩
  · rw [List.drop_left, ← List.append_nil (_ :: _)]
    exact ha
  · exact divide_append rfl rfl _ (foldl_level hmatched 0)
  · rw [hlength]
    exact length_divide_of_rows hrectangular.uniform

/-- A literal in each row of a literal: the inner ones have shapes of their own. -/
example : resolveLiterals [.literalStart, .openParen, .literalStart, .openParen, .name "a", .comma,
    .name "b", .closeParen, .semicolon, .name "c", .closeParen] =
    .ok [.operator (.literal 2 1), .openParen, .operator (.literal 1 2), .openParen, .name "a",
      .comma, .name "b", .comma, .dim 1, .comma, .dim 2, .closeParen, .comma, .name "c", .comma,
      .dim 2, .comma, .dim 1, .closeParen] :=
  rfl

end MatrixLang.Token
