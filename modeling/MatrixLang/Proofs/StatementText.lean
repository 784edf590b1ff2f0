import MatrixLang.Proofs.Clauses
import MatrixLang.Proofs.ExprText
import MatrixLang.Proofs.LineTags
import MatrixLang.Proofs.Outlines

/-! # Statements from their texts

The text of a statement is a program for it: compiling the text gives that one statement back,
with every line set to the first (`compile_text`).  The proof follows the statement.  The text
of each part is known to be cut into segments, to have an outline and to be compiled, whatever
comes after it; the text of a head or of a simple statement is a `Phrase`, put together from
words and from the passages of its expressions.
-/

namespace MatrixLang

open Segment (Fragment Tight)
open Token (Scans Lexes)

/-! ## Statements -/

namespace Statement

/-- Statements that a text can be compiled to: targets and counters are names, expressions are
well-formed, and an `if` has a branch. -/
inductive WellFormed : Statement → Prop
  | assign {line : Nat} {target : String} {value : Expr} (htarget : IsName target)
      (hvalue : value.WellFormed) : WellFormed (.assign line target value)
  | assignIndex {line : Nat} {target : String} {index value : Expr} (htarget : IsName target)
      (hindex : index.WellFormed) (hvalue : value.WellFormed) :
      WellFormed (.assignIndex line target index value)
  | assignBlock {line : Nat} {target : String} {row col value : Expr} (htarget : IsName target)
      (hrow : row.WellFormed) (hcol : col.WellFormed) (hvalue : value.WellFormed) :
      WellFormed (.assignBlock line target row col value)
  | eval {line : Nat} {value : Expr} (hvalue : value.WellFormed) : WellFormed (.eval line value)
  | choose {line : Nat} {branches : List Branch} {otherwise : Option (List Statement)}
      (hne : branches ≠ []) (hconditions : ∀ b ∈ branches, b.condition.WellFormed)
      (hbodies : ∀ b ∈ branches, ∀ s ∈ b.body, WellFormed s)
      (hotherwise : ∀ body ∈ otherwise, ∀ s ∈ body, WellFormed s) :
      WellFormed (.choose line branches otherwise)
  | whileLoop {line : Nat} {condition : Expr} {body : List Statement}
      (hcondition : condition.WellFormed) (hbody : ∀ s ∈ body, WellFormed s) :
      WellFormed (.whileLoop line condition body)
  | forLoop {line : Nat} {counter : String} {start limit : Expr} {direction : Direction}
      {body : List Statement} (hcounter : IsName counter) (hstart : start.WellFormed)
      (hlimit : limit.WellFormed) (hbody : ∀ s ∈ body, WellFormed s) :
      WellFormed (.forLoop line counter start limit direction body)
  | block {line : Nat} {body : List Statement} (hbody : ∀ s ∈ body, WellFormed s) :
      WellFormed (.block line body)

/-- A statement with all its lines set to a given one. -/
def atLine (line : Nat) (s : Statement) : Statement :=
  s.mapLines fun _ => line

theorem atLine_choose (line first : Nat) (branches : List Branch)
    (otherwise : Option (List Statement)) :
    (choose first branches otherwise).atLine line =
      .choose line (mapLinesOfBranches (fun _ => line) branches)
        (otherwise.map (mapLinesOfBody fun _ => line)) := by
  cases otherwise <;> rw [atLine, mapLines] <;> rfl

theorem text_choose (first : Nat) (branches : List Branch) (otherwise : Option (List Statement)) :
    (choose first branches otherwise).text = textOfBranches "if " branches ++
      otherwise.elim "" fun body => " else " ++ textOfBody body := by
  cases otherwise <;> rw [text] <;> rfl

/-- Statements in braces, each with a blank before it and a semicolon after it. -/
theorem toList_textOfBody (body : List Statement) : (textOfBody body).toList =
    '{' :: ((body.flatMap fun s => ' ' :: (s.text.toList ++ [';'])) ++ [' '] ++ ['}']) := by
  have hbody : ' ' :: (textOfStatements body).toList =
      (body.flatMap fun s => ' ' :: (s.text.toList ++ [';'])) ++ [' '] := by
    induction body with
    | nil => simp [textOfStatements]
    | cons s body ih => simp [textOfStatements, ← ih]
  rw [← hbody, textOfBody]
  simp

end Statement

/-! ## Phrases -/

/-- A text that stays in one segment, and its tokens. -/
structure Phrase where
  text : List Char
  tokens : List Token
  scans : Scans text tokens
  fragment : Fragment 0 text
  tight : Tight text

namespace Phrase

/-- The text of an expression. -/
def ofPassage (p : Passage) : Phrase :=
  ⟨p.text, p.derivation.tokens, p.scans, p.fragment, p.tight⟩

/-- A word. -/
def word (text : String) (h : Token.IsWord text.toList) : Phrase where
  text := text.toList
  tokens := [Token.ofWord text]
  scans := by
    have hscans := Token.scans_word h
    rwa [String.ofList_toList] at hscans
  fragment := Passage.fragment_word h
  tight := Passage.tight_word h

/-- Two phrases with a sign between them, which has a blank at either end. -/
def join (p : Phrase) (sign : List Char) (ts : List Token) (q : Phrase)
    (hlexes : Lexes (' ' :: sign) ts) (hfragment : Fragment 0 (' ' :: sign)) : Phrase where
  text := p.text ++ (' ' :: sign ++ q.text)
  tokens := p.tokens ++ (ts ++ q.tokens)
  scans := by
    have hscans := (p.scans.lexes hlexes (by decide)).scans q.scans
    simpa using hscans
  fragment := p.fragment.append (hfragment.append q.fragment)
  tight := p.tight.around q.tight (' ' :: sign)

/-- A phrase with another in brackets after it. -/
def indexed (p q : Phrase) : Phrase where
  text := p.text ++ '[' :: (q.text ++ [']'])
  tokens := p.tokens ++ .openBracket :: (q.tokens ++ [.closeBracket])
  scans := by
    have hindex := Token.lexes_openBracket.append (q.scans.lexes Token.lexes_closeBracket
      (by decide))
    exact (p.scans.lexes hindex (by decide)).toScans
  fragment := p.fragment.append q.fragment.inside.brackets
  tight := by
    have htight := p.tight.around (Tight.single (c := ']') (by decide)) ('[' :: q.text)
    simpa using htight

/-- A word with a phrase after it. -/
def after (text : String) (h : Token.IsWord text.toList) (p : Phrase) : Phrase :=
  (word text h).join [] [] p (Token.lexes_gap rfl) (.single (by decide))

/-- An assignment. -/
def assigned (p q : Phrase) : Phrase :=
  p.join ['=', ' '] [.assign] q Token.lexes_assign (.plain rfl)

/-- The bounds of a loop. -/
def range (p : Phrase) (direction : Direction) (q : Phrase) : Phrase :=
  have hword : Token.IsWord direction.text.toList := by cases direction <;> decide
  p.join (direction.text.toList ++ [' ']) [Token.ofWord direction.text] q
    ((Token.lexes_gap rfl).append (by simpa using Token.lexes_word hword))
    ((Fragment.single (by decide)).append ((Passage.fragment_word hword).append
      (.single (by decide))))

theorem scan_eq (p : Phrase) : Token.scan (String.ofList p.text) = .ok p.tokens :=
  Token.Scans.scan (by rw [String.toList_ofList]; exact p.scans)

end Phrase

namespace Statement

open Program (Balanced Compiles Continues Ends statementsFrom)

variable {line : Nat} {s : Statement} {body : List Statement}

/-- What is known of the text of a statement. -/
def Written (line : Nat) (s : Statement) : Prop :=
  ∃ o, Stands line s.text.toList o ∧ Compiles o (s.atLine line)

/-- A phrase that is a whole statement. -/
theorem written_phrase (p : Phrase) (htext : p.text = s.text.toList)
    (hstart : ∀ k, .keyword k ∉ p.tokens.head?)
    (hsimple : (Program.simple line p.tokens).result = .ok (s.atLine line)) : Written line s := by
  have hstands : Stands line p.text (.text line (String.ofList p.text)) :=
    stands_text p.fragment p.tight
  rw [htext] at hstands
  exact ⟨_, hstands, .simple (htext ▸ p.scan_eq) hstart hsimple⟩

/-- What is known of an expression in a statement. -/
theorem exists_phrase {e : Expr} (h : e.WellFormed) : ∃ p : Phrase, p.text = e.text.toList ∧
    Balanced p.tokens ∧ Expr.ofTokens p.tokens = .ok e := by
  obtain ⟨p, htext, rfl, -⟩ := Expr.exists_passage h
  exact ⟨.ofPassage p, htext, Program.balanced_tokens p.wellFormed, p.ofTokens_eq⟩

/-! ### Bodies -/

theorem exists_body (h : ∀ s ∈ body, Written line s) : ∃ cs inside,
    (textOfBody body).toList = '{' :: cs ∧ Spans line ('{' :: cs) (.block line inside) ∧
      (statementsFrom .nothing inside).result =
        .ok (mapLinesOfBody (fun _ => line) body) := by
  choose! o hstands hcompiles using h
  have hspans := ((Spans.sequence hstands).append Spans.nil.blank).block
  have hresult := Compiles.sequence hcompiles
  rw [mapLinesOfBody_eq_map]
  exact ⟨_, _, toList_textOfBody body, hspans, hresult⟩

/-- A word, a condition and a body. -/
theorem exists_clause {e : Expr} (word : String) (hword : Token.IsWord word.toList)
    (he : e.WellFormed) (hbody : ∀ s ∈ body, Written line s) : ∃ text ts inside,
    Token.scan text = .ok (Token.ofWord word :: ts) ∧ Balanced ts ∧ Expr.ofTokens ts = .ok e ∧
    (statementsFrom .nothing inside).result = .ok (mapLinesOfBody (fun _ => line) body) ∧
    Spans line (word.toList ++ ' ' :: (e.text.toList ++ ' ' :: (textOfBody body).toList))
      fun rest => .text line text (.block line inside rest) := by
  obtain ⟨p, htext, hbalanced, htokens⟩ := exists_phrase he
  obtain ⟨cs, inside, hcs, hspans, hresult⟩ := exists_body hbody
  let head := Phrase.after word hword p
  have hall : word.toList ++ ' ' :: (e.text.toList ++ ' ' :: (textOfBody body).toList) =
      head.text ++ ' ' :: '{' :: cs := by
    simp [head, Phrase.after, Phrase.join, Phrase.word, htext, hcs]
  rw [hall]
  exact ⟨_, p.tokens, inside, head.scan_eq, hbalanced, htokens, hresult,
    hspans.head head.fragment head.tight⟩

/-! ### Branches -/

/-- The branches of an `if` after the first. -/
theorem exists_branches {branches : List Branch}
    (hconditions : ∀ b ∈ branches, b.condition.WellFormed)
    (hbodies : ∀ b ∈ branches, ∀ s ∈ b.body, Written line s) :
    ∃ o, Spans line (textOfBranches " elseif " branches).toList o ∧
      Continues o (mapLinesOfBranches (fun _ => line) branches) := by
  induction branches with
  | nil =>
    rw [textOfBranches]
    exact ⟨id, .nil, Program.continues_nil⟩
  | cons branch branches ih =>
    obtain ⟨e, body⟩ := branch
    obtain ⟨o, hspans, hcontinues⟩ := ih (fun b hb => hconditions b (List.mem_cons_of_mem _ hb))
      fun b hb => hbodies b (List.mem_cons_of_mem _ hb)
    obtain ⟨text, ts, inside, hscan, hts, he, hbody, hclause⟩ :=
      exists_clause "elseif" (by decide)
        (hconditions _ List.mem_cons_self) (hbodies _ List.mem_cons_self)
    have htext : (textOfBranches " elseif " (.mk e body :: branches)).toList =
        ' ' :: ("elseif".toList ++ ' ' :: (e.text.toList ++ ' ' :: (textOfBody body).toList)) ++
          (textOfBranches " elseif " branches).toList := by
      simp [textOfBranches]
    rw [htext]
    exact ⟨_, hclause.blank.append hspans,
      (Program.continues_elseif hscan hts he hbody).append hcontinues⟩

/-- What comes after the branches of an `if`. -/
theorem exists_otherwise {otherwise : Option (List Statement)}
    (h : ∀ body ∈ otherwise, ∀ s ∈ body, Written line s) :
    ∃ o, Spans line (otherwise.elim "" fun body => " else " ++ textOfBody body).toList o ∧
      Ends o (otherwise.map (mapLinesOfBody fun _ => line)) := by
  cases otherwise with
  | none => exact ⟨id, .nil, Program.ends_none⟩
  | some body =>
    obtain ⟨cs, inside, hcs, hspans, hresult⟩ := exists_body (h body rfl)
    let p := Phrase.word "else" (by decide)
    have htext : (" else " ++ textOfBody body).toList = ' ' :: (p.text ++ ' ' :: '{' :: cs) := by
      simp [p, Phrase.word, hcs]
    refine ⟨fun rest => .text line _ (.block line inside rest), ?_,
      Program.ends_else p.scan_eq hresult⟩
    rw [Option.elim_some, htext]
    exact (hspans.head p.fragment p.tight).blank

/-! ### Statements -/

theorem written_choose {branches : List Branch} {otherwise : Option (List Statement)} {first : Nat}
    (hne : branches ≠ []) (hconditions : ∀ b ∈ branches, b.condition.WellFormed)
    (hbodies : ∀ b ∈ branches, ∀ s ∈ b.body, Written line s)
    (hotherwise : ∀ body ∈ otherwise, ∀ s ∈ body, Written line s) :
    Written line (.choose first branches otherwise) := by
  obtain ⟨⟨e, body⟩, branches, rfl⟩ := List.exists_cons_of_ne_nil hne
  obtain ⟨text, ts, inside, hscan, hts, he, hbody, hclause⟩ :=
    exists_clause "if" (by decide)
      (hconditions _ List.mem_cons_self) (hbodies _ List.mem_cons_self)
  obtain ⟨o, hspans, hcontinues⟩ := exists_branches
    (fun b hb => hconditions b (List.mem_cons_of_mem _ hb))
    fun b hb => hbodies b (List.mem_cons_of_mem _ hb)
  obtain ⟨p, hlast, hends⟩ := exists_otherwise hotherwise
  have htext : (textOfBranches "if " (.mk e body :: branches)).toList =
      "if".toList ++ ' ' :: (e.text.toList ++ ' ' :: (textOfBody body).toList) ++
        (textOfBranches " elseif " branches).toList := by
    simp [textOfBranches]
  rw [Written, atLine_choose, text_choose, String.toList_append, htext]
  exact ⟨_, ((hclause.append hspans).append hlast).stands,
    .choose hscan hts he hbody hcontinues hends⟩

/-- The text of a well-formed statement. -/
theorem WellFormed.written (h : s.WellFormed) : Written line s := by
  induction h with
  | @assign first target value htarget hvalue =>
    obtain ⟨p, htext, hbalanced, hp⟩ := exists_phrase hvalue
    refine written_phrase ((Phrase.ofPassage (.name target htarget)).assigned p) ?_ (by rintro k ⟨⟩)
      (Program.result_assign hp line target)
    simp [text, Phrase.assigned, Phrase.join, Phrase.ofPassage, Passage.name, htext]
  | @assignIndex first target index value htarget hindex hvalue =>
    obtain ⟨p, hptext, hpbalanced, hp⟩ := exists_phrase hindex
    obtain ⟨q, hqtext, -, hq⟩ := exists_phrase hvalue
    refine written_phrase (((Phrase.ofPassage (.name target htarget)).indexed p).assigned q)
      ?_ (by rintro k ⟨⟩) (Program.result_assignIndex hpbalanced hp hq line target)
    simp [text, Phrase.assigned, Phrase.join, Phrase.indexed, Phrase.ofPassage, Passage.name,
      hptext, hqtext]
  | @assignBlock first target row col value htarget hrow hcol hvalue =>
    obtain ⟨p, hptext, hpbalanced, hp⟩ := exists_phrase hrow
    obtain ⟨q, hqtext, hqbalanced, hq⟩ := exists_phrase hcol
    obtain ⟨r, hrtext, -, hr⟩ := exists_phrase hvalue
    refine written_phrase
      ((((Phrase.ofPassage (.name target htarget)).indexed p).indexed q).assigned r)
      ?_ (by rintro k ⟨⟩) (Program.result_assignBlock hpbalanced hp hqbalanced hq hr line target)
    simp [text, Phrase.assigned, Phrase.join, Phrase.indexed, Phrase.ofPassage, Passage.name,
      hptext, hqtext, hrtext]
  | @eval first value hvalue =>
    obtain ⟨p, htext, hbalanced, hp⟩ := exists_phrase hvalue
    refine written_phrase p (htext.trans (by rw [text])) ?_ (Program.result_eval hbalanced hp line)
    exact fun k hk => hbalanced.keyword k (List.mem_of_mem_head? hk)
  | choose hne hconditions _ _ ihbodies ihotherwise =>
    exact written_choose hne hconditions ihbodies ihotherwise
  | @whileLoop first condition body hcondition _ ih =>
    obtain ⟨text, ts, inside, hscan, hts, he, hbody, hclause⟩ :=
      exists_clause "while" (by decide) hcondition ih
    have htext : (Statement.text (.whileLoop first condition body)).toList = "while".toList ++
        ' ' :: (condition.text.toList ++ ' ' :: (textOfBody body).toList) := by
      simp [Statement.text]
    exact ⟨_, htext ▸ hclause.stands, .whileLoop hscan hts he hbody⟩
  | @forLoop first counter start limit direction body hcounter hstart hlimit _ ih =>
    obtain ⟨p, hptext, hpbalanced, hp⟩ := exists_phrase hstart
    obtain ⟨q, hqtext, -, hq⟩ := exists_phrase hlimit
    obtain ⟨cs, inside, hcs, hspans, hresult⟩ := exists_body ih
    -- the head of the loop is one phrase, from its word to its second bound
    let head := Phrase.after "for" (by decide)
      ((Phrase.ofPassage (.name counter hcounter)).assigned (p.range direction q))
    have htext : (text (.forLoop first counter start limit direction body)).toList =
        head.text ++ ' ' :: '{' :: cs := by
      simp [text, head, Phrase.after, Phrase.word, Phrase.assigned, Phrase.range, Phrase.join,
        Phrase.ofPassage, Passage.name, hptext, hqtext, hcs]
    have hstands := (hspans.head head.fragment head.tight).stands
    exact ⟨_, htext ▸ hstands, .forLoop head.scan_eq hpbalanced hp hq hresult⟩
  | @block first body _ ih =>
    obtain ⟨cs, inside, hcs, hspans, hresult⟩ := exists_body ih
    refine ⟨_, ?_, .block hresult⟩
    rw [text, hcs]
    exact hspans.stands

end Statement

/-- **The text of a statement is a program for it**: it is compiled to that one statement, whose
lines all become the first. -/
theorem compile_text {s : Statement} (h : s.WellFormed) :
    ∃ program, compile s.text = .ok program ∧ program.statements = [s.atLine 1] := by
  obtain ⟨o, hstands, hcompiles⟩ : Statement.Written 1 s := h.written
  obtain ⟨segments, hsegment, houtline⟩ := hstands.segment_eq
  have hresult : (Program.statementsOf s.text).result = .ok [s.atLine 1] := by
    simp only [Program.statementsOf, Noted.result_bind, hsegment, ok_bind, houtline]
    exact hcompiles.result .done trivial
  refine ⟨⟨[s.atLine 1], Names.ofList (Statement.namesOfBody [s.atLine 1])⟩, ?_, rfl⟩
  rw [compile, compileNoted, Noted.result_bind, hresult]
  rfl

/-- A negative zero has a sign, so its text is not that of a literal. -/
example : Number.isUnsigned (-0) = false ∧ Number.chars (-0) = ['-', '0'] := by
  decide +kernel

/-- A loop that assigns a literal to a block. -/
def fillColumn : Statement :=
  .forLoop 4 "i" (.literal 1) (.call .max [.variable "x", .literal 2]) .down
    [.assignBlock 5 "x" (.variable "i") (.literal 1)
      (.matrix 2 1 [.unary .neg (.variable "i"), .unary .transpose (.variable "x")])]

/-- A loop around an assignment to an element and an empty block. -/
def clearFirst : Statement :=
  .whileLoop 8 (.unary .not (.binary .index (.variable "x") (.literal 1)))
    [.assignIndex 9 "x" (.literal 1) (.literal 0), .block 10 []]

/-- Two branches and an `else`. -/
def nestedLoops : Statement :=
  .choose 3
    [.mk (.binary .lt (.variable "x") (.literal 0.5)) [fillColumn], .mk (.variable "i") []]
    (some [clearFirst, .eval 11 (.variable "x")])

theorem nestedLoops_wellFormed : nestedLoops.WellFormed := by
  have hx : IsName "x" := by decide
  have hi : IsName "i" := by decide
  have hone : (Expr.literal 1).WellFormed := .number (by decide +kernel)
  have hcells : (Expr.matrix 2 1 [.unary .neg (.variable "i"),
      .unary .transpose (.variable "x")]).WellFormed :=
    .matrix (by decide) (by decide) rfl
      (by simpa using ⟨.unary .neg (.name hi), .unary .transpose (.name hx)⟩)
  have hlimit : (Expr.call .max [.variable "x", .literal 2]).WellFormed :=
    .call rfl (by simpa using ⟨.name hx, .number (by decide +kernel)⟩)
  have hfill : fillColumn.WellFormed :=
    .forLoop hi hone hlimit (by simpa using .assignBlock hx (.name hi) hone hcells)
  have hclear : clearFirst.WellFormed := by
    refine .whileLoop (.unary .not (.binary .index (.name hx) hone)) ?_
    simpa using ⟨.assignIndex hx hone (.number (by decide +kernel)), .block nofun⟩
  refine .choose nofun ?_ ?_ ?_
  · simpa [Branch.condition] using
      ⟨.binary .lt (.name hx) (.number (by decide +kernel)), .name hi⟩
  · simpa [Branch.body] using hfill
  · simpa using ⟨hclear, .eval (.name hx)⟩

theorem compile_text_nestedLoops : nestedLoops.WellFormed ∧ ∃ program,
    compile nestedLoops.text = .ok program ∧ program.statements = [nestedLoops.atLine 1] :=
  ⟨nestedLoops_wellFormed, compile_text nestedLoops_wellFormed⟩

end MatrixLang
