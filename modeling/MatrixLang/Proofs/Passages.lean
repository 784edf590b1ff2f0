import MatrixLang.Proofs.Fragments
import MatrixLang.Proofs.Precedence
import MatrixLang.Proofs.Scanning

/-! # Texts of expressions

A `Passage` is a text together with the derivation it is written for and the tree it means.
It is scanned as the tokens of the derivation, it stays in one segment of a source text, and
no index stands directly after a quote in it; so compiling it gives the tree
(`Passage.ofTokens_eq`).  Passages are put together the way texts are written: operators
between blanks, commas and semicolons with a blank after them, and parentheses around every
operation.
-/

namespace MatrixLang

open Segment (Fragment Tight)
open Token (Scans Lexes)

/-! ## Quotes -/

/-- Tokens after which an index is not directly after a quote, and in which none is. -/
def Calm (ts : List Token) : Prop :=
  ∀ rest, Infix.IndexesQuote (ts ++ rest) → Infix.IndexesQuote rest

namespace Calm

variable {a b : List Token} {t : Token}

theorem not_indexesQuote (h : Calm a) : ¬ Infix.IndexesQuote a := by
  intro ha
  rw [← List.append_nil a] at ha
  have hnil := h [] ha
  simp [Infix.IndexesQuote] at hnil

theorem nil : Calm [] := fun _ h => h

theorem append (ha : Calm a) (hb : Calm b) : Calm (a ++ b) := by
  intro rest h
  rw [List.append_assoc] at h
  exact hb rest (ha _ h)

theorem single (h : t ≠ .operator .transpose) : Calm [t] := by
  intro rest hrest
  rcases List.infix_cons_iff.mp hrest with hprefix | hinfix
  · exact absurd (List.cons_prefix_cons.mp hprefix).1.symm h
  · exact hinfix

/-- A quote with a parenthesis after it. -/
theorem quote : Calm [.operator .transpose, .closeParen] := by
  intro rest hrest
  rcases List.infix_cons_iff.mp hrest with hprefix | hinfix
  · obtain ⟨_, hbracket⟩ := List.cons_prefix_cons.mp hprefix
    cases (List.cons_prefix_cons.mp hbracket).1
  · exact single (t := .closeParen) nofun rest hinfix

theorem joined {separator : Token} (hs : Calm [separator]) {parts : List (List Token)}
    (h : ∀ part ∈ parts, Calm part) : Calm (Infix.joined separator parts) := by
  cases parts with
  | nil => exact nil
  | cons part parts =>
    have hparts := Infix.flatMap_separator nil append hs fun p hp =>
      h p (List.mem_cons_of_mem part hp)
    exact (h part (by simp)).append hparts

end Calm

/-! ## Lists of texts -/

theorem scans_intercalate {α : Type} {f : α → List Char} {g : α → List Token} {c : Char}
    {separator : List Char} {s : Token} (hs : Lexes (c :: separator) [s])
    (hc : c.isAlphanum = false ∧ c ≠ '.') {xs : List α} (hne : xs ≠ [])
    (h : ∀ x ∈ xs, Scans (f x) (g x)) :
    Scans ((c :: separator).intercalate (xs.map f)) (Infix.joined s (xs.map g)) := by
  obtain ⟨x, xs, rfl⟩ := List.exists_cons_of_ne_nil hne
  clear hne
  induction xs generalizing x with
  | nil => simpa [Infix.joined] using h x (by simp)
  | cons y xs ih =>
    have hxs := ih y fun z hz => h z (List.mem_cons_of_mem x hz)
    have hx := ((h x (by simp)).lexes hs hc).scans hxs
    simpa [Infix.joined] using hx

theorem fragment_intercalate {separator : List Char} (hs : Fragment 1 separator)
    {parts : List (List Char)} (h : ∀ part ∈ parts, Fragment 1 part) :
    Fragment 1 (separator.intercalate parts) := by
  induction parts with
  | nil => exact .nil
  | cons part parts ih =>
    have hpart := h part (by simp)
    cases parts with
    | nil => simpa using hpart
    | cons other parts =>
      rw [List.intercalate_cons_cons]
      exact (hpart.append hs).append (ih fun p hp => h p (List.mem_cons_of_mem part hp))

/-! ## Passages -/

/-- A text, the derivation it is written for and the tree it means. -/
structure Passage where
  text : List Char
  derivation : Infix
  tree : Expr
  wellFormed : derivation.WellFormed
  tree_eq : derivation.tree = tree
  calm : Calm derivation.tokens
  scans : Scans text derivation.tokens
  fragment : Fragment 0 text
  tight : Tight text

namespace Passage

/-- Nothing outside takes part in what the passage means: it is an operand by itself. -/
def Closed (p : Passage) : Prop :=
  ∀ k, Infix.Loose k → p.derivation.walk k = (k, p.tree)

/-- **What a passage is compiled to.** -/
theorem ofTokens_eq (p : Passage) : Expr.ofTokens p.derivation.tokens = .ok p.tree := by
  rw [Infix.ofTokens_tokens p.wellFormed p.calm.not_indexesQuote, p.tree_eq]

/-! ### Numbers and names -/

theorem not_blank_of_isAlphanum {c : Char} (h : c.isAlphanum = true) : Text.isBlank c = false := by
  have hrange : 48 ≤ c.toNat ∧ c.toNat ≤ 57 ∨ 65 ≤ c.toNat ∧ c.toNat ≤ 90 ∨
      97 ≤ c.toNat ∧ c.toNat ≤ 122 := by
    rcases Bool.or_eq_true_iff.mp h with h | h
    · exact .inr (Token.isAlpha_range h)
    · exact .inl (Token.isDigit_range h)
  rw [← Bool.not_eq_true]
  intro hblank
  simp only [Text.isBlank, Text.blankRanges, List.any_cons, List.any_nil, Bool.or_eq_true,
    Bool.and_eq_true, decide_eq_true_eq, Bool.false_eq_true, or_false] at hblank
  omega

theorem not_mark_of_isAlphanum {c : Char} (h : c.isAlphanum = true) : c ∉ Fragment.marks := by
  intro hc
  simp only [Fragment.marks, List.mem_cons, List.not_mem_nil, or_false] at hc
  rcases hc with rfl | rfl | rfl | rfl | rfl | rfl | rfl | rfl | rfl <;> cases h

theorem isAlphanum_of_isWord {cs : List Char} (h : Token.IsWord cs) :
    cs ≠ [] ∧ ∀ c ∈ cs, c.isAlphanum = true := by
  obtain ⟨c, rest, rfl, hc, hrest⟩ := h
  exact ⟨by simp, List.forall_mem_cons.mpr ⟨Token.isAlphanum_of_isAlpha hc, hrest⟩⟩

theorem fragment_word {cs : List Char} (h : Token.IsWord cs) : Fragment 0 cs :=
  Fragment.ofPlain fun c hc => not_mark_of_isAlphanum ((isAlphanum_of_isWord h).2 c hc)

theorem tight_word {cs : List Char} (h : Token.IsWord cs) : Tight cs :=
  Tight.ofAll (isAlphanum_of_isWord h).1 fun c hc =>
    not_blank_of_isAlphanum ((isAlphanum_of_isWord h).2 c hc)

theorem fragment_positional {cs whole fraction : List Char}
    (h : Number.Positional cs whole fraction) : Fragment 0 cs := by
  have hdigits {ds : List Char} (hds : Number.AllDigits ds) : Fragment 0 ds :=
    Fragment.ofPlain fun c hc => not_mark_of_isAlphanum (Token.isAlphanum_of_isDigit (hds c hc))
  rw [h.eq, Number.pointed]
  split
  · rw [List.append_nil]
    exact hdigits h.whole
  · exact (hdigits h.whole).append ((Fragment.single (by decide)).append (hdigits h.fraction))

theorem tight_positional {cs whole fraction : List Char}
    (h : Number.Positional cs whole fraction) : Tight cs := by
  have hdigits {ds : List Char} (hne : ds ≠ []) (hds : Number.AllDigits ds) : Tight ds :=
    Tight.ofAll hne fun c hc => not_blank_of_isAlphanum (Token.isAlphanum_of_isDigit (hds c hc))
  rw [h.eq, Number.pointed]
  split
  · rw [List.append_nil]
    exact hdigits h.ne_nil h.whole
  · rename_i hne
    exact (hdigits h.ne_nil h.whole).around (hdigits hne h.fraction) ['.']

/-- A number without a sign. -/
def number (x : Float) (h : Number.isUnsigned x = true) : Passage where
  text := Number.chars x
  derivation := .number x
  tree := .literal x
  wellFormed := .number x
  tree_eq := rfl
  calm := .single nofun
  scans := by
    obtain ⟨whole, fraction, hpositional, hvalue⟩ := Number.chars_unsigned h
    have hscans := Token.scans_positional hpositional
    rwa [hvalue] at hscans
  fragment := by
    obtain ⟨whole, fraction, hpositional, -⟩ := Number.chars_unsigned h
    exact fragment_positional hpositional
  tight := by
    obtain ⟨whole, fraction, hpositional, -⟩ := Number.chars_unsigned h
    exact tight_positional hpositional

instance : Inhabited Passage :=
  ⟨number 0 (by decide)⟩

theorem closed_number (x : Float) (h : Number.isUnsigned x = true) : (number x h).Closed :=
  fun _ _ => rfl

end Passage

/-- A text that names a variable: a word that is no keyword, no operator and no function. -/
structure IsName (text : String) : Prop where
  word : Token.IsWord text.toList
  keyword : Keyword.ofText? text = none
  operator : Token.operatorWords.find? (·.symbol == text) = none
  builtin : Builtin.ofName? text = none

instance (text : String) : Decidable (IsName text) :=
  decidable_of_iff (Token.IsWord text.toList ∧ Keyword.ofText? text = none ∧
    Token.operatorWords.find? (·.symbol == text) = none ∧ Builtin.ofName? text = none)
    ⟨fun ⟨hword, hkeyword, hoperator, hbuiltin⟩ => ⟨hword, hkeyword, hoperator, hbuiltin⟩,
      fun h => ⟨h.word, h.keyword, h.operator, h.builtin⟩⟩

theorem IsName.ofWord_eq {text : String} (h : IsName text) : Token.ofWord text = .name text := by
  simp only [Token.ofWord, h.keyword, h.operator, h.builtin]

theorem IsName.scans {text : String} (h : IsName text) : Scans text.toList [.name text] := by
  have hscans := Token.scans_word h.word
  rwa [String.ofList_toList, h.ofWord_eq] at hscans

namespace Passage

/-- The name of a variable. -/
def name (text : String) (h : IsName text) : Passage where
  text := text.toList
  derivation := .name text
  tree := .variable text
  wellFormed := .name text
  tree_eq := rfl
  calm := .single nofun
  scans := h.scans
  fragment := fragment_word h.word
  tight := tight_word h.word

theorem closed_name (text : String) (h : IsName text) : (name text h).Closed :=
  fun _ _ => rfl

/-! ### Operations -/

/-- A passage in parentheses. -/
def paren (p : Passage) : Passage where
  text := '(' :: (p.text ++ [')'])
  derivation := .paren p.derivation
  tree := p.tree
  wellFormed := .paren p.wellFormed
  tree_eq := p.tree_eq
  calm := (Calm.single (t := .openParen) nofun).append (p.calm.append (.single nofun))
  scans := (Token.lexes_openParen.append
    (p.scans.lexes Token.lexes_closeParen (by decide))).toScans
  fragment := p.fragment.inside.parens
  tight := (Tight.single (c := '(') (by decide)).around (Tight.single (by decide)) p.text

theorem closed_paren (p : Passage) : p.paren.Closed := fun k _ => by
  show (k, p.derivation.tree) = (k, p.tree)
  rw [p.tree_eq]

theorem loose_before (p : Prefix) : Infix.Loose [.before p] :=
  Infix.Loose.cons p.meant_priority_pos nofun

/-- A sign before a passage: a minus or the word for the complement. -/
def before (sign : Prefix) (text : List Char) (p : Passage) (hp : p.Closed)
    (hlexes : Lexes text [.operator sign.written]) (hfragment : Fragment 0 text)
    (hfirst : Tight (text ++ p.text)) : Passage where
  text := text ++ p.text
  derivation := .before sign p.derivation
  tree := .unary sign.node p.tree
  wellFormed := .before sign p.wellFormed
  tree_eq := by
    have hwalk := hp [.before sign] (loose_before sign)
    rw [Infix.tree, Infix.walk, hwalk]
    rfl
  calm := (Calm.single (by simpa using sign.written_ne_transpose)).append p.calm
  scans := hlexes.scans p.scans
  fragment := hfragment.append p.fragment
  tight := hfirst

/-- A quote after a passage, in parentheses. -/
def quoted (p : Passage) (hp : p.Closed) : Passage where
  text := '(' :: (p.text ++ ['\'', ')'])
  derivation := .paren (.quote p.derivation)
  tree := .unary .transpose p.tree
  wellFormed := .paren (.quote p.wellFormed)
  tree_eq := by
    have hwalk := hp [] nofun
    show Infix.finish (Infix.walk (.quote p.derivation) []) = _
    rw [Infix.walk, hwalk]
    rfl
  calm := by
    have hcalm := (Calm.single (t := .openParen) nofun).append (p.calm.append Calm.quote)
    simpa using hcalm
  scans := by
    have hlexes := p.scans.lexes (Token.lexes_quote.append Token.lexes_closeParen) (by decide)
    simpa using (Token.lexes_openParen.append hlexes).toScans
  fragment := by
    have hquote : Fragment 1 ['\''] := Fragment.single (by decide)
    simpa using (p.fragment.inside.append hquote).parens
  tight := by
    have htight := (Tight.single (c := '(') (by decide)).around
      (Tight.single (c := ')') (by decide)) (p.text ++ ['\''])
    simpa using htight

theorem closed_quoted (p : Passage) (hp : p.Closed) : (p.quoted hp).Closed := fun k _ => by
  rw [← (p.quoted hp).tree_eq]
  rfl

/-- A minus before a passage. -/
def negated (p : Passage) (hp : p.Closed) : Passage :=
  p.before .minus ['-'] hp Token.lexes_minus (Fragment.single (by decide))
    ((Tight.single (by decide)).append p.tight)

theorem isWord_not : Token.IsWord "not".toList := by decide

/-- The word for the complement before a passage. -/
def complemented (p : Passage) (hp : p.Closed) : Passage :=
  p.before .not ("not".toList ++ [' ']) hp (Token.lexes_word isWord_not)
    ((fragment_word isWord_not).append (Fragment.single (by decide)))
    (by
      have htight := (tight_word isWord_not).around p.tight [' ']
      simpa using htight)

/-- A binary operator between two passages. -/
def between (op : BinaryOperator) (hop : op ≠ .index) (p q : Passage) (hp : p.Closed)
    (hq : q.Closed) : Passage where
  text := p.text ++ (' ' :: op.symbol.toList ++ [' '] ++ q.text)
  derivation := .between op p.derivation q.derivation
  tree := .binary op p.tree q.tree
  wellFormed := .between hop p.wellFormed q.wellFormed
  tree_eq := by
    have hnested : 0 < op.priority := by cases op <;> first | decide | exact absurd rfl hop
    have hleft := hp [] nofun
    have hright := hq [.between op p.tree] (Infix.Loose.cons hnested nofun)
    rw [Infix.tree, Infix.walk, hleft]
    show Infix.finish (Infix.walk q.derivation [.between op p.tree]) = _
    rw [hright]
    rfl
  calm := by
    have hop : Calm [.operator (.binary op)] := Calm.single nofun
    simpa using p.calm.append (hop.append q.calm)
  scans := by
    have hlexes := p.scans.lexes (Token.lexes_binary hop) (by decide)
    simpa using hlexes.scans q.scans
  fragment := by
    have hop : Fragment 0 (' ' :: op.symbol.toList ++ [' ']) := by
      cases op with
      | div => exact (Fragment.single (by decide)).append Fragment.slash
      | cellDiv =>
        have hpoint : Fragment 0 [' ', '.'] := Fragment.plain rfl
        exact hpoint.append Fragment.slash
      | _ => exact Fragment.plain rfl
    exact p.fragment.append (hop.append q.fragment)
  tight := p.tight.around q.tight _

/-- An index after a passage. -/
def index (p i : Passage) (hp : p.Closed) : Passage where
  text := p.text ++ ('[' :: (i.text ++ [']']))
  derivation := .index p.derivation i.derivation
  tree := .binary .index p.tree i.tree
  wellFormed := .index p.wellFormed i.wellFormed
  tree_eq := by
    have hwalk := hp [] nofun
    rw [Infix.tree, Infix.walk, hwalk, ← i.tree_eq]
    rfl
  calm := p.calm.append ((Calm.single (t := .openBracket) nofun).append
    (i.calm.append (.single nofun)))
  scans := (p.scans.lexes (Token.lexes_openBracket.append
    (i.scans.lexes Token.lexes_closeBracket (by decide))) (by decide)).toScans
  fragment := p.fragment.append i.fragment.inside.brackets
  tight := p.tight.around (Tight.single (c := ']') (by decide)) ('[' :: i.text)

theorem closed_index (p i : Passage) (hp : p.Closed) : (p.index i hp).Closed := fun k hk => by
  show Infix.walk (.index p.derivation i.derivation) k = (k, .binary .index p.tree i.tree)
  have hsettle : Infix.settle BinaryOperator.index.priority (k, p.tree) = (k, p.tree) := by
    rw [Infix.settle, show BinaryOperator.index.priority = 0 from rfl, hk.dropWhile.1,
      hk.dropWhile.2]
    rfl
  rw [Infix.walk, hp k hk, hsettle, ← i.tree_eq]
  rfl

/-! ### Lists -/

/-- Passages with commas between them. -/
def commas (ps : List Passage) : List Char :=
  [',', ' '].intercalate (ps.map text)

theorem lexes_comma : Lexes [',', ' '] [.comma] :=
  Token.lexes_comma.append (Token.lexes_gap rfl)

theorem fragment_commas (ps : List Passage) : Fragment 1 (commas ps) :=
  fragment_intercalate (Fragment.plain rfl) fun part hpart => by
    obtain ⟨p, -, rfl⟩ := List.mem_map.mp hpart
    exact p.fragment.inside

theorem scans_commas {ps : List Passage} (hne : ps ≠ []) :
    Scans (commas ps) (Infix.joined .comma (ps.map fun p => p.derivation.tokens)) :=
  scans_intercalate lexes_comma (by decide) hne fun p _ => p.scans

theorem calm_commas (ps : List Passage) :
    Calm (Infix.joined .comma (ps.map fun p => p.derivation.tokens)) :=
  Calm.joined (Calm.single (t := .comma) nofun) fun part hpart => by
    obtain ⟨p, -, rfl⟩ := List.mem_map.mp hpart
    exact p.calm

theorem map_tree_derivation (ps : List Passage) :
    (ps.map derivation).map Infix.tree = ps.map tree := by
  rw [List.map_map]
  exact List.map_congr_left fun p _ => p.tree_eq

theorem isWord_name (f : Builtin) : Token.IsWord f.name.toList := by
  cases f <;> decide

theorem ofWord_name (f : Builtin) : Token.ofWord f.name = .function f none := by
  cases f <;> rfl

/-- A call with passages as arguments. -/
def call (f : Builtin) (arguments : List Passage) (hcount : f.accepts arguments.length = true) :
    Passage where
  text := f.name.toList ++ ('(' :: (commas arguments ++ [')']))
  derivation := .call f (arguments.map derivation)
  tree := .call f (arguments.map tree)
  wellFormed := .call (by simpa using hcount) fun t ht => by
    obtain ⟨p, -, rfl⟩ := List.mem_map.mp ht
    exact p.wellFormed
  tree_eq := by
    show Expr.call f (Infix.trees _) = _
    rw [Infix.trees_eq_map, map_tree_derivation]
  calm := by
    rw [Infix.tokens_call, List.map_map]
    exact (Calm.single (t := .function f none) nofun).append
      ((Calm.single (t := .openParen) nofun).append
        ((calm_commas arguments).append (.single nofun)))
  scans := by
    have hne : arguments ≠ [] := List.ne_nil_of_length_pos (Infix.accepts_pos hcount)
    have hword := Token.scans_word (isWord_name f)
    rw [String.ofList_toList, ofWord_name] at hword
    have hclose := (scans_commas hne).lexes Token.lexes_closeParen (by decide)
    rw [Infix.tokens_call, List.map_map]
    exact (hword.lexes (Token.lexes_openParen.append hclose) (by decide)).toScans
  fragment := (fragment_word (isWord_name f)).append (fragment_commas arguments).parens
  tight := (tight_word (isWord_name f)).around (Tight.single (c := ')') (by decide))
    ('(' :: commas arguments)

theorem closed_call (f : Builtin) (arguments : List Passage)
    (hcount : f.accepts arguments.length = true) : (call f arguments hcount).Closed := fun k _ => by
  rw [← (call f arguments hcount).tree_eq]
  rfl

/-- Rows of equally many passages, of which there is at least one. -/
structure Rows where
  rows : List (List Passage)
  cols : Nat
  ne_nil : rows ≠ []
  cols_pos : 0 < cols
  length_eq : ∀ row ∈ rows, row.length = cols

namespace Rows

variable (r : Rows)

/-- The rows of derivations. -/
def derivations : List (List Infix) :=
  r.rows.map fun row => row.map derivation

/-- The text between the brackets of a literal. -/
def text : List Char :=
  [';', ' '].intercalate (r.rows.map commas)

theorem row_ne_nil {row : List Passage} (h : row ∈ r.rows) : row ≠ [] :=
  List.ne_nil_of_length_pos (r.length_eq row h ▸ r.cols_pos)

theorem shapeOf_derivations : Infix.shapeOf r.derivations = ⟨r.rows.length, r.cols⟩ := by
  obtain ⟨row, rows, hrows⟩ := List.exists_cons_of_ne_nil r.ne_nil
  have hrow := r.length_eq row (by simp [hrows])
  simp [Infix.shapeOf, derivations, hrows, hrow]

theorem map_derivations_tokens :
    (r.derivations.map fun row => Infix.joined .comma (row.map Infix.tokens)) =
      r.rows.map fun row => Infix.joined .comma (row.map fun p => p.derivation.tokens) := by
  simp [derivations, Function.comp_def]

end Rows

/-- A literal with passages as cells. -/
def literal (r : Rows) : Passage where
  text := '[' :: (r.text ++ [']'])
  derivation := .literal r.derivations
  tree := .matrix r.rows.length r.cols (r.rows.flatten.map tree)
  wellFormed := by
    refine .literal (by simpa [Rows.derivations] using r.ne_nil) ?_ ?_ ?_
    · rw [r.shapeOf_derivations]
      exact r.cols_pos
    · intro row hrow
      obtain ⟨ps, hps, rfl⟩ := List.mem_map.mp hrow
      rw [r.shapeOf_derivations, List.length_map, r.length_eq ps hps]
    · intro row hrow t ht
      obtain ⟨ps, -, rfl⟩ := List.mem_map.mp hrow
      obtain ⟨p, -, rfl⟩ := List.mem_map.mp ht
      exact p.wellFormed
  tree_eq := by
    show Expr.matrix _ _ (Infix.treesOfRows _).flatten = _
    rw [r.shapeOf_derivations, Infix.treesOfRows_eq_map, Rows.derivations, List.map_map,
      List.map_flatten]
    congr 2
    exact List.map_congr_left fun ps _ => map_tree_derivation ps
  calm := by
    have hrows : Calm (Infix.joined .semicolon (r.rows.map fun row =>
        Infix.joined .comma (row.map fun p => p.derivation.tokens))) :=
      Calm.joined (Calm.single (t := .semicolon) nofun) fun part hpart => by
        obtain ⟨ps, -, rfl⟩ := List.mem_map.mp hpart
        exact calm_commas ps
    rw [Infix.tokens_literal, r.map_derivations_tokens]
    exact (Calm.single (t := .openBracket) nofun).append (hrows.append (.single nofun))
  scans := by
    have hseparator : Lexes [';', ' '] [.semicolon] :=
      Token.lexes_semicolon.append (Token.lexes_gap rfl)
    have hrows := scans_intercalate hseparator (by decide) r.ne_nil fun row hrow =>
      scans_commas (r.row_ne_nil hrow)
    rw [Infix.tokens_literal, r.map_derivations_tokens]
    exact (Token.lexes_openBracket.append
      (hrows.lexes Token.lexes_closeBracket (by decide))).toScans
  fragment := by
    have hseparator : Fragment 1 [';', ' '] :=
      Fragment.semicolon.append (Fragment.single (by decide))
    refine Fragment.brackets (fragment_intercalate hseparator fun part hpart => ?_)
    obtain ⟨ps, -, rfl⟩ := List.mem_map.mp hpart
    exact fragment_commas ps
  tight := (Tight.single (c := '[') (by decide)).around (Tight.single (by decide)) r.text

theorem closed_literal (r : Rows) : (literal r).Closed := fun k _ => by
  rw [← (literal r).tree_eq]
  rfl

section

variable {α : Type} (f : α → Passage) {table : List (List α)} {cols : Nat} (hne : table ≠ [])
  (hcols : 0 < cols) (hlength : ∀ row ∈ table, row.length = cols)

/-- The rows of a table, with a passage for each of its entries. -/
def Rows.ofTable : Rows where
  rows := table.map fun row => row.map f
  cols := cols
  ne_nil := by simpa using hne
  cols_pos := hcols
  length_eq := by
    intro row hrow
    obtain ⟨xs, hxs, rfl⟩ := List.mem_map.mp hrow
    rw [List.length_map, hlength xs hxs]

theorem text_ofTable {g : α → List Char} (h : ∀ x ∈ table.flatten, (f x).text = g x) :
    (literal (.ofTable f hne hcols hlength)).text = '[' :: ([';', ' '].intercalate
      (table.map fun row => [',', ' '].intercalate (row.map g)) ++ [']']) := by
  have hrow : ∀ row ∈ table, commas (row.map f) = [',', ' '].intercalate (row.map g) := by
    intro row hrow
    rw [commas, List.map_map]
    refine congrArg _ (List.map_congr_left fun x hx => h x ?_)
    exact List.mem_flatten.mpr ⟨row, hrow, hx⟩
  show '[' :: ([';', ' '].intercalate ((table.map fun row => row.map f).map commas) ++ [']']) = _
  rw [List.map_map, ← List.map_congr_left hrow]
  rfl

theorem tree_ofTable : (literal (.ofTable f hne hcols hlength)).tree =
    .matrix table.length cols (table.flatten.map fun x => (f x).tree) := by
  show Expr.matrix (table.map fun row => row.map f).length cols
    ((table.map fun row => row.map f).flatten.map tree) = _
  rw [List.length_map, List.map_flatten, List.map_flatten, List.map_map]
  simp [Function.comp_def]

end

end Passage

end MatrixLang
