import MatrixLang.Program
import MatrixLang.Proofs.Precedence

/-! # Parts of statements

How the tokens of a statement are taken apart.  Those of an expression hold no keyword and no
assignment, and their parentheses and brackets are closed (`Balanced`).  So the sides of an
assignment, its coordinates and the bounds of a loop are found where they were put, and a
condition before a block is never taken for one with its body on the same line.
-/

namespace MatrixLang.Program

open Token

/-! ## Tokens of expressions -/

/-- Tokens with no keyword and no assignment, in which every parenthesis and bracket is closed. -/
structure Balanced (ts : List Token) : Prop where
  assign : .assign ∉ ts
  keyword : ∀ k, .keyword k ∉ ts
  depth : ∀ d, ts.foldl depthAfter d = d
  split : ∀ depth rest, splitGroup isOpenBracket isCloseBracket depth (ts ++ rest) =
    (splitGroup isOpenBracket isCloseBracket depth rest).map fun r => (ts ++ r.1, r.2)

namespace Balanced

variable {a b ts : List Token}

theorem nil : Balanced [] where
  assign := nofun
  keyword _ := nofun
  depth _ := rfl
  split depth rest := by simp

theorem append (ha : Balanced a) (hb : Balanced b) : Balanced (a ++ b) where
  assign h := (List.mem_append.mp h).elim ha.assign hb.assign
  keyword k h := (List.mem_append.mp h).elim (ha.keyword k) (hb.keyword k)
  depth d := by rw [List.foldl_append, ha.depth, hb.depth]
  split depth rest := by
    rw [List.append_assoc, ha.split, hb.split, Option.map_map]
    simp [Function.comp_def]

/-- A token that neither opens nor closes a group. -/
theorem single {t : Token} (hassign : .assign ≠ t) (hkeyword : ∀ k, .keyword k ≠ t)
    (hdepth : ∀ d, depthAfter d t = d) : Balanced [t] where
  assign := by simpa using hassign
  keyword := by simpa using hkeyword
  depth := hdepth
  split depth rest := by
    cases t with
    | openBracket => exact absurd (hdepth 0) (by decide)
    | closeBracket => exact absurd (hdepth 0) (by decide)
    | _ => rfl

theorem parens (h : Balanced ts) : Balanced (.openParen :: (ts ++ [.closeParen])) where
  assign := by simpa using h.assign
  keyword := by simpa using h.keyword
  depth d := by
    rw [List.foldl_cons, List.foldl_append, h.depth]
    show d + 1 - 1 = d
    omega
  split depth rest := by
    rw [List.cons_append, List.append_assoc, splitGroup_other rfl rfl, h.split,
      List.singleton_append, splitGroup_other rfl rfl]
    simp [Function.comp_def]

theorem brackets (h : Balanced ts) : Balanced (.openBracket :: (ts ++ [.closeBracket])) where
  assign := by simpa using h.assign
  keyword := by simpa using h.keyword
  depth d := by
    rw [List.foldl_cons, List.foldl_append, h.depth]
    show d + 1 - 1 = d
    omega
  split depth rest := by
    rw [List.cons_append, List.append_assoc, splitGroup_open rfl rfl, h.split,
      List.singleton_append, splitGroup_close_succ rfl]
    simp [Function.comp_def]

theorem joined {separator : Token} (hs : Balanced [separator]) {parts : List (List Token)}
    (h : ∀ part ∈ parts, Balanced part) : Balanced (Infix.joined separator parts) := by
  cases parts with
  | nil => exact nil
  | cons part parts =>
    have hparts := Infix.flatMap_separator nil append hs fun p hp =>
      h p (List.mem_cons_of_mem part hp)
    exact (h part (by simp)).append hparts

theorem comma : Balanced [.comma] := single nofun nofun fun _ => rfl

theorem operator (op : Operator) : Balanced [.operator op] := single nofun nofun fun _ => rfl

/-- What a bracket before balanced tokens encloses. -/
theorem splitBrackets (h : Balanced ts) (rest : List Token) :
    Token.splitBrackets (ts ++ .closeBracket :: rest) = some (ts, rest) := by
  rw [Token.splitBrackets, h.split, splitGroup_close_zero rfl]
  simp

end Balanced

/-- The tokens of a derivation are balanced. -/
theorem balanced_tokens {t : Infix} (h : t.WellFormed) : Balanced t.tokens := by
  induction h with
  | number value => exact .single nofun nofun fun _ => rfl
  | name text => exact .single nofun nofun fun _ => rfl
  | paren _ ih => exact ih.parens
  | @call f arguments _ _ ih =>
    rw [Infix.tokens_call]
    refine (Balanced.single (t := .function f none) nofun nofun fun _ => rfl).append (.parens ?_)
    refine .joined .comma fun part hpart => ?_
    obtain ⟨t, ht, rfl⟩ := List.mem_map.mp hpart
    exact ih t ht
  | @literal rows _ _ _ _ ih =>
    rw [Infix.tokens_literal]
    have hsemicolon : Balanced [.semicolon] := .single nofun nofun fun _ => rfl
    refine .brackets (.joined hsemicolon fun part hpart => ?_)
    obtain ⟨row, hrow, rfl⟩ := List.mem_map.mp hpart
    refine .joined .comma fun cell hcell => ?_
    obtain ⟨t, ht, rfl⟩ := List.mem_map.mp hcell
    exact ih row hrow t ht
  | before p _ ih => exact (Balanced.operator p.written).append ih
  | between _ _ _ iha ihb => exact iha.append ((Balanced.operator _).append ihb)
  | quote _ ih => exact ih.append (.operator .transpose)
  | index _ _ iht ihi => exact iht.append ihi.brackets

/-! ## Taking tokens apart -/

section

variable {α : Type} {mark : Token → Option α} {ts : List Token}

/-- Tokens without a mark are passed over. -/
theorem splitTopLevel_append (h : ∀ t ∈ ts, mark t = none) (d : Int) (rest : List Token) :
    splitTopLevel mark d (ts ++ rest) =
      (splitTopLevel mark (ts.foldl depthAfter d) rest).map fun r => (ts ++ r.1, r.2) := by
  induction ts generalizing d with
  | nil => simp
  | cons t ts ih =>
    have ht : mark t = none := h t (by simp)
    have hts := ih (fun u hu => h u (List.mem_cons_of_mem t hu)) (depthAfter d t)
    rw [List.cons_append, splitTopLevel, ht, hts, Option.map_map]
    rfl

theorem splitTopLevel_eq_none (h : ∀ t ∈ ts, mark t = none) (d : Int) :
    splitTopLevel mark d ts = none := by
  have hsplit := splitTopLevel_append h d []
  rw [List.append_nil] at hsplit
  rw [hsplit]
  rfl

theorem splitTopLevel_mark {m : Token} {x : α} (hts : Balanced ts)
    (h : ∀ t ∈ ts, mark t = none) (hm : mark m = some x) (rest : List Token) :
    splitTopLevel mark 0 (ts ++ m :: rest) = some (ts, x, rest) := by
  rw [splitTopLevel_append h, hts.depth, splitTopLevel, hm]
  simp

end

/-- The mark of an assignment. -/
theorem assignMark_eq_none {ts : List Token} (h : .assign ∉ ts) : ∀ t ∈ ts,
    (match t with | .assign => some () | _ => none) = none := by
  intro t ht
  cases t with
  | assign => exact absurd ht h
  | _ => rfl

theorem splitAssign_assign {target : List Token} (h : Balanced target) (value : List Token) :
    splitAssign (target ++ .assign :: value) = some (target, value) := by
  rw [splitAssign, splitTopLevel_mark h (x := ()) (by exact assignMark_eq_none h.assign) rfl]
  rfl

theorem splitAssign_eq_none {ts : List Token} (h : .assign ∉ ts) : splitAssign ts = none := by
  rw [splitAssign, splitTopLevel_eq_none (by exact assignMark_eq_none h)]
  rfl

/-- The bounds of a loop, with the direction between them. -/
theorem splitTopLevel_direction {start : List Token} (h : Balanced start) (direction : Direction)
    (limit : List Token) :
    splitTopLevel directionOf 0 (start ++ Token.ofWord direction.text :: limit) =
      some (start, direction, limit) := by
  refine splitTopLevel_mark h ?_ (by cases direction <;> rfl) limit
  intro t ht
  cases t with
  | keyword k => exact absurd ht (h.keyword k)
  | _ => rfl

/-- A group, the token that closes it and what comes after it are what was split. -/
theorem splitGroup_eq_some {opens closes : Token → Bool} {depth : Nat}
    {ts inside rest : List Token} (h : splitGroup opens closes depth ts = some (inside, rest)) :
    ∃ t, closes t = true ∧ ts = inside ++ t :: rest := by
  induction ts generalizing depth inside with
  | nil => cases h
  | cons u ts ih =>
    -- every token but the one that closes the group goes inside it
    have hmore {d : Nat} (hd : (splitGroup opens closes d ts).map (fun r => (u :: r.1, r.2)) =
        some (inside, rest)) : ∃ t, closes t = true ∧ u :: ts = inside ++ t :: rest := by
      obtain ⟨⟨more, after⟩, hsplit, heq⟩ := Option.map_eq_some_iff.mp hd
      obtain ⟨rfl, rfl⟩ := Prod.mk.inj heq
      obtain ⟨t, ht, rfl⟩ := ih hsplit
      exact ⟨t, ht, rfl⟩
    cases hclose : closes u with
    | true =>
      cases depth with
      | zero =>
        rw [splitGroup_close_zero hclose] at h
        obtain ⟨rfl, rfl⟩ := Prod.mk.inj (Option.some.inj h)
        exact ⟨u, hclose, rfl⟩
      | succ depth => exact hmore (splitGroup_close_succ hclose depth ts ▸ h)
    | false =>
      cases hopen : opens u with
      | true => exact hmore (splitGroup_open hclose hopen depth ts ▸ h)
      | false => exact hmore (splitGroup_other hclose hopen depth ts ▸ h)

/-- A condition before a block has no body on its line. -/
theorem inlineBody?_eq_none {ts : List Token} (h : .assign ∉ ts) : inlineBody? true ts = none := by
  unfold inlineBody?
  split
  · rename_i rest
    split
    · rename_i inside body hsplit
      obtain ⟨t, -, rfl⟩ := splitGroup_eq_some hsplit
      have hbody : .assign ∉ body := fun hmem => h (by simp [hmem])
      simp [splitAssign_eq_none hbody]
    · rfl
  · rfl

/-! ## Compiling the parts -/

section

variable {ts us vs : List Token} {e f g : Expr}

theorem result_expression (h : Expr.ofTokens ts = .ok e) (line : Nat) :
    (expression line ts).result = .ok e := by
  rw [Expr.ofTokens] at h
  cases hprepared : Token.prepare ts with
  | error cause => simp [hprepared] at h
  | ok prepared =>
    rw [hprepared, ok_bind] at h
    cases hcode : Postfix.ofTokens prepared with
    | error cause => simp [hcode] at h
    | ok code =>
      rw [hcode, ok_bind] at h
      simp [expression, hprepared, hcode, h]

theorem ne_nil_of_ofTokens (h : Expr.ofTokens ts = .ok e) : ts ≠ [] := by
  rintro rfl
  cases h

/-- A name with its coordinates is the target of an assignment. -/
theorem simple_assignment (hus : Balanced us) (line : Nat) (name : String) (ts : List Token) :
    simple line (.name name :: us ++ .assign :: ts) = assignment line (.name name :: us) ts := by
  have htarget : Balanced (.name name :: us) :=
    (Balanced.single (t := .name name) nofun nofun fun _ => rfl).append hus
  rw [simple, splitAssign_assign htarget]

theorem result_assign (h : Expr.ofTokens ts = .ok e) (line : Nat) (name : String) :
    (simple line (.name name :: .assign :: ts)).result = .ok (.assign line name e) := by
  have hne : ts.isEmpty = false := by simpa using ne_nil_of_ofTokens h
  have hsimple : simple line (.name name :: .assign :: ts) = assignment line [.name name] ts :=
    simple_assignment .nil line name ts
  rw [hsimple]
  simp [assignment, coordinates?, hne, result_expression h]

theorem result_assignIndex (hus : Balanced us) (hf : Expr.ofTokens us = .ok f)
    (h : Expr.ofTokens ts = .ok e) (line : Nat) (name : String) :
    (simple line (.name name :: .openBracket :: (us ++ [.closeBracket]) ++ .assign :: ts)).result =
      .ok (.assignIndex line name f e) := by
  have hne : ts.isEmpty = false := by simpa using ne_nil_of_ofTokens h
  have hsplit := hus.splitBrackets []
  rw [simple_assignment hus.brackets]
  simp [assignment, coordinates?, hsplit, hne, result_expression h, result_expression hf]

theorem result_assignBlock (hus : Balanced us) (hf : Expr.ofTokens us = .ok f)
    (hvs : Balanced vs) (hg : Expr.ofTokens vs = .ok g) (h : Expr.ofTokens ts = .ok e)
    (line : Nat) (name : String) :
    (simple line (.name name :: (.openBracket :: (us ++ [.closeBracket]) ++
      .openBracket :: (vs ++ [.closeBracket])) ++ .assign :: ts)).result =
      .ok (.assignBlock line name f g e) := by
  have hne : ts.isEmpty = false := by simpa using ne_nil_of_ofTokens h
  have hrow := hus.splitBrackets (.openBracket :: (vs ++ [.closeBracket]))
  have hcol := hvs.splitBrackets []
  rw [simple_assignment (hus.brackets.append hvs.brackets)]
  simp [assignment, coordinates?, hrow, hcol, hne, result_expression h, result_expression hf,
    result_expression hg]

theorem result_eval (hts : Balanced ts) (h : Expr.ofTokens ts = .ok e) (line : Nat) :
    (simple line ts).result = .ok (.eval line e) := by
  simp [simple, splitAssign_eq_none hts.assign, result_expression h]

theorem result_clause (hts : Balanced ts) (h : Expr.ofTokens ts = .ok e) (line : Nat) :
    (clause line true ts).result = .ok (.head e) := by
  have hne : ts.isEmpty = false := by simpa using ne_nil_of_ofTokens h
  simp [clause, hne, inlineBody?_eq_none hts.assign, result_expression h]

theorem result_forHead (hus : Balanced us) (hf : Expr.ofTokens us = .ok f)
    (h : Expr.ofTokens ts = .ok e) (line : Nat) (name : String) (direction : Direction) :
    (forHead line (.name name :: .assign :: (us ++ Token.ofWord direction.text :: ts))).result =
      .ok ⟨name, f, e, direction⟩ := by
  have hnet : ts.isEmpty = false := by simpa using ne_nil_of_ofTokens h
  have hneu : us.isEmpty = false := by simpa using ne_nil_of_ofTokens hf
  simp [forHead, splitTopLevel_direction hus, hnet, hneu, result_expression h, result_expression hf]

/-- A text that starts with no keyword is a statement by itself. -/
theorem result_start (hts : ∀ k, .keyword k ∉ ts.head?) (line : Nat) (braced : Bool) :
    (start line braced ts).result = (fun s => ([s], .nothing)) <$> (simple line ts).result := by
  unfold start
  split
  case h_6 =>
    cases hsimple : (simple line ts).result with
    | error failure => simp [hsimple]
    | ok s => simp [finish, hsimple]
  -- the other alternatives start with a keyword
  all_goals exact absurd rfl (hts _)

end

/-! ## Statements -/

/-- An outline that does not go on with an `if`. -/
def Fresh : Outline → Prop
  | .text _ text _ => ∃ ts, Token.scan text = .ok ts ∧
      .keyword .elseifWord ∉ ts.head? ∧ .keyword .elseWord ∉ ts.head?
  | _ => True

/-- An outline that has a statement put before it. -/
structure Compiles (o : Outline → Outline) (s : Statement) : Prop where
  fresh : ∀ rest, Fresh (o rest)
  result : ∀ rest, Fresh rest → (statementsFrom .nothing (o rest)).result =
    (s :: ·) <$> (statementsFrom .nothing rest).result

section

variable {line here : Nat} {text : String} {ts : List Token} {e : Expr} {s : Statement}
  {opened next : Open} {ready body : List Statement} {inside rest : Outline}

theorem result_text (hread : (opened.read line text rest.startsWithBlock).result =
    .ok (ready, next)) : (statementsFrom opened (.text line text rest)).result =
      (ready ++ ·) <$> (statementsFrom next rest).result := by
  rw [statementsFrom, Noted.result_bind, hread]
  cases hrest : (statementsFrom next rest).result with
  | error failure => simp [hrest]
  | ok ss => simp [hrest]

theorem result_block (henter : opened.enter = return ([], opened))
    (hbody : (statementsFrom .nothing inside).result = .ok body)
    (hclose : (opened.close line body).result = .ok (ready, next)) :
    (statementsFrom opened (.block line inside rest)).result =
      (ready ++ ·) <$> (statementsFrom next rest).result := by
  rw [statementsFrom, Noted.result_bind, henter]
  cases hrest : (statementsFrom next rest).result with
  | error failure => simp [hbody, hclose, hrest]
  | ok ss => simp [hbody, hclose, hrest]

/-- The head of a statement gives nothing yet. -/
theorem result_head (hread : (opened.read line text rest.startsWithBlock).result =
    .ok ([], next)) : (statementsFrom opened (.text line text rest)).result =
      (statementsFrom next rest).result := by
  rw [result_text hread]
  exact id_map _

/-- A block that is the end of a statement. -/
theorem result_body (henter : opened.enter = return ([], opened))
    (hbody : (statementsFrom .nothing inside).result = .ok body)
    (hclose : (opened.close line body).result = .ok ([s], .nothing)) :
    (statementsFrom opened (.block line inside rest)).result =
      (s :: ·) <$> (statementsFrom .nothing rest).result :=
  result_block henter hbody hclose

theorem result_read_nothing (h : Token.scan text = .ok ts) (line : Nat) (braced : Bool) :
    (Open.read .nothing line text braced).result = (start line braced ts).result := by
  simp [Open.read, h]

theorem result_read_chain (h : Token.scan text = .ok ts) (line : Nat) (branches : List Branch)
    (here : Nat) (braced : Bool) : (Open.read (.chain line branches) here text braced).result =
      (continueIf line branches here braced ts).result := by
  simp [Open.read, h]

theorem result_continueIf (helseif : .keyword .elseifWord ∉ ts.head?)
    (helse : .keyword .elseWord ∉ ts.head?) (branches : List Branch) (braced : Bool) :
    (continueIf line branches here braced ts).result =
      (fun r => (.choose line branches none :: r.1, r.2)) <$> (start here braced ts).result := by
  unfold continueIf
  split
  case h_5 =>
    cases hstart : (start here braced ts).result with
    | error failure => simp [finish, hstart]
    | ok r => simp [finish, hstart]
  case h_1 => exact absurd rfl helseif
  all_goals exact absurd rfl helse

/-- An `if` ends before what does not go on with it. -/
theorem result_chain (h : Fresh rest) (line : Nat) (branches : List Branch) :
    (statementsFrom (.chain line branches) rest).result =
      (.choose line branches none :: ·) <$> (statementsFrom .nothing rest).result := by
  cases rest with
  | done => simp [statementsFrom, Open.settle, finish]
  | block here inside rest =>
    cases hbody : (statementsFrom .nothing inside).result with
    | error failure => simp [statementsFrom, Open.enter, finish, hbody]
    | ok body =>
      cases hrest : (statementsFrom .nothing rest).result with
      | error failure => simp [statementsFrom, Open.enter, Open.close, finish, hbody, hrest]
      | ok ss => simp [statementsFrom, Open.enter, Open.close, finish, hbody, hrest]
  | text here text rest =>
    obtain ⟨ts, hscan, helseif, helse⟩ := h
    -- after the `if` the text is read as it would be read by itself
    have hread := result_read_chain hscan line branches here rest.startsWithBlock
    have hstart := result_read_nothing hscan here rest.startsWithBlock
    rw [result_continueIf helseif helse] at hread
    cases hready : (start here rest.startsWithBlock ts).result with
    | error failure =>
      rw [hready] at hread hstart
      simp [statementsFrom, hread, hstart]
    | ok r =>
      obtain ⟨ready, next⟩ := r
      rw [hready] at hread hstart
      rw [result_text hread, result_text hstart, Functor.map_map]
      rfl

/-! ### Statements on one line -/

theorem Compiles.simple (hscan : Token.scan text = .ok ts) (hts : ∀ k, .keyword k ∉ ts.head?)
    (hs : (simple line ts).result = .ok s) : Compiles (.text line text) s where
  fresh _ := ⟨ts, hscan, hts _, hts _⟩
  result rest _ := by
    have hread := result_read_nothing hscan line rest.startsWithBlock
    rw [result_start hts, hs] at hread
    exact result_text hread

/-- Statements one after the other. -/
theorem Compiles.sequence {α : Type} {o : α → Outline → Outline} {f : α → Statement} {xs : List α}
    (h : ∀ x ∈ xs, Compiles (o x) (f x)) :
    (statementsFrom .nothing (xs.foldr o .done)).result = .ok (xs.map f) := by
  have hfresh (ys : List α) (hys : ∀ y ∈ ys, Compiles (o y) (f y)) : Fresh (ys.foldr o .done) := by
    cases ys with
    | nil => trivial
    | cons y ys => exact (hys y (by simp)).fresh _
  induction xs with
  | nil => rfl
  | cons x xs ih =>
    have hxs : ∀ y ∈ xs, Compiles (o y) (f y) := fun y hy => h y (List.mem_cons_of_mem x hy)
    rw [List.foldr_cons, (h x (by simp)).result _ (hfresh xs hxs), ih hxs]
    rfl

/-! ### Statements with a body -/

theorem Compiles.block (hbody : (statementsFrom .nothing inside).result = .ok body) :
    Compiles (.block line inside) (.block line body) where
  fresh _ := trivial
  result _ _ := result_body rfl hbody rfl

theorem Compiles.whileLoop (hscan : Token.scan text = .ok (.keyword .whileWord :: ts))
    (hts : Balanced ts) (he : Expr.ofTokens ts = .ok e)
    (hbody : (statementsFrom .nothing inside).result = .ok body) :
    Compiles (fun rest => .text line text (.block here inside rest)) (.whileLoop line e body) where
  fresh _ := ⟨_, hscan, nofun, nofun⟩
  result rest _ := by
    have hread : (Open.read .nothing line text true).result = .ok ([], .whileBody line e) := by
      simp [result_read_nothing hscan, start, result_clause hts he]
    rw [result_head hread]
    exact result_body rfl hbody rfl

theorem Compiles.forLoop {us : List Token} {f : Expr} {name : String} {direction : Direction}
    (hscan : Token.scan text = .ok (.keyword .forWord :: .name name :: .assign ::
      (us ++ Token.ofWord direction.text :: ts)))
    (hus : Balanced us) (hf : Expr.ofTokens us = .ok f) (he : Expr.ofTokens ts = .ok e)
    (hbody : (statementsFrom .nothing inside).result = .ok body) :
    Compiles (fun rest => .text line text (.block here inside rest))
      (.forLoop line name f e direction body) where
  fresh _ := ⟨_, hscan, nofun, nofun⟩
  result rest _ := by
    have hread : (Open.read .nothing line text true).result =
        .ok ([], .forBody line ⟨name, f, e, direction⟩) := by
      simp [result_read_nothing hscan, start, result_forHead hus hf he]
    rw [result_head hread]
    exact result_body rfl hbody rfl

/-! ### Branches -/

/-- An outline that has further branches of an `if` put before it. -/
def Continues (o : Outline → Outline) (more : List Branch) : Prop :=
  ∀ line branches rest, (statementsFrom (.chain line branches) (o rest)).result =
    (statementsFrom (.chain line (branches ++ more)) rest).result

/-- An outline that has the end of an `if` put before it. -/
def Ends (o : Outline → Outline) (otherwise : Option (List Statement)) : Prop :=
  ∀ line branches rest, Fresh rest → (statementsFrom (.chain line branches) (o rest)).result =
    (.choose line branches otherwise :: ·) <$> (statementsFrom .nothing rest).result

/-- The body of a branch. -/
theorem result_branchBody (hbody : (statementsFrom .nothing inside).result = .ok body)
    (branches : List Branch) (e : Expr) :
    (statementsFrom (.branchBody line branches here e) (.block here inside rest)).result =
      (statementsFrom (.chain line (branches ++ [.mk e body])) rest).result := by
  have hblock : (statementsFrom (.branchBody line branches here e)
      (.block here inside rest)).result =
      ([] ++ ·) <$> (statementsFrom (.chain line (branches ++ [.mk e body])) rest).result :=
    result_block rfl hbody rfl
  rw [hblock]
  exact id_map _

theorem continues_nil : Continues id [] := by
  intro line branches rest
  rw [List.append_nil]
  rfl

theorem Continues.append {o p : Outline → Outline} {more others : List Branch}
    (ho : Continues o more) (hp : Continues p others) : Continues (o ∘ p) (more ++ others) := by
  intro line branches rest
  rw [Function.comp_apply, ho, hp, List.append_assoc]

theorem continues_elseif (hscan : Token.scan text = .ok (.keyword .elseifWord :: ts))
    (hts : Balanced ts) (he : Expr.ofTokens ts = .ok e)
    (hbody : (statementsFrom .nothing inside).result = .ok body) :
    Continues (fun rest => .text here text (.block here inside rest)) [.mk e body] := by
  intro line branches rest
  have hread : (Open.read (.chain line branches) here text true).result =
      .ok ([], .branchBody line branches here e) := by
    simp [result_read_chain hscan, continueIf, branch, result_clause hts he]
  rw [result_head hread, result_branchBody hbody]

theorem ends_none : Ends id none :=
  fun line branches _ hrest => result_chain hrest line branches

theorem ends_else (hscan : Token.scan text = .ok [.keyword .elseWord])
    (hbody : (statementsFrom .nothing inside).result = .ok body) :
    Ends (fun rest => .text here text (.block here inside rest)) (some body) := by
  intro line branches rest _
  have hread : (Open.read (.chain line branches) here text true).result =
      .ok ([], .elseBody line branches here) := by
    simp [result_read_chain hscan, continueIf]
  rw [result_head hread]
  exact result_body rfl hbody rfl

theorem Compiles.choose {o p : Outline → Outline} {more : List Branch}
    {otherwise : Option (List Statement)}
    (hscan : Token.scan text = .ok (.keyword .ifWord :: ts)) (hts : Balanced ts)
    (he : Expr.ofTokens ts = .ok e) (hbody : (statementsFrom .nothing inside).result = .ok body)
    (ho : Continues o more) (hp : Ends p otherwise) :
    Compiles (fun rest => .text line text (.block line inside (o (p rest))))
      (.choose line (.mk e body :: more) otherwise) where
  fresh _ := ⟨_, hscan, nofun, nofun⟩
  result rest hrest := by
    have hread : (Open.read .nothing line text true).result =
        .ok ([], .branchBody line [] line e) := by
      simp [result_read_nothing hscan, start, branch, result_clause hts he]
    rw [result_head hread, result_branchBody hbody, ho, hp _ _ _ hrest]
    rfl

end

end MatrixLang.Program
