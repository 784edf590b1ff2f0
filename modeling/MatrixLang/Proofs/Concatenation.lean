import MatrixLang.Proofs.Clauses
import MatrixLang.Proofs.Cutting
import MatrixLang.Proofs.Nesting

/-! # Source texts one after the other

Two source texts that compile can be put one after the other, on lines of their own, and the
result compiles to the statements of both (`compile_append`).  This is so although compiling
looks ahead: what comes next decides whether a clause has its body on its own line, and whether
an `if` goes on.  The first is the same as at the end of the text if no block comes next
(`result_append`); and a text that compiles does not start with `else` (`fresh_of_ok`), so no
`if` goes on into it.

The segments of both texts are those of each, the lines of the second moved down (`cut_append`).
Its statements are then the ones it has by itself, moved down too, because lines are only copied.
-/

namespace MatrixLang

/-! ## Statements of both texts -/

namespace Program

variable {opened : Open} {o p : Outline} {ss ts : List Statement}

/-- What compiles does not go on with an `if`. -/
theorem fresh_of_ok (h : (statementsFrom .nothing p).result = .ok ss) : Fresh p := by
  cases p with
  | done => trivial
  | block line inside rest => trivial
  | text line source rest =>
    rw [statementsFrom, Noted.result_bind] at h
    cases hscan : Token.scan source with
    | error cause => simp [Open.read, hscan] at h
    | ok us =>
      rw [result_read_nothing hscan] at h
      refine ⟨us, hscan, ?_, ?_⟩
      all_goals
        intro hhead
        obtain ⟨vs, rfl⟩ := List.head?_eq_some_iff.mp hhead
        cases h

theorem startsWithBlock_append (h : p.startsWithBlock = false) (o : Outline) :
    (o.append p).startsWithBlock = o.startsWithBlock := by
  cases o with
  | done => exact h
  | _ => rfl

/-- An outline after which no block comes next is compiled as it is at the end. -/
theorem result_append (ho : (statementsFrom opened o).result = .ok ss)
    (hp : (statementsFrom .nothing p).result = .ok ts) (hblock : p.startsWithBlock = false) :
    (statementsFrom opened (o.append p)).result = .ok (ss ++ ts) := by
  induction o generalizing opened ss with
  | done =>
    rw [Outline.append]
    cases opened with
    | nothing =>
      cases ho
      exact hp
    | chain line branches =>
      cases ho
      rw [result_chain (fresh_of_ok hp), hp]
      rfl
    | _ => cases ho
  | text line source rest ih =>
    rw [statementsFrom, Noted.result_bind] at ho
    obtain ⟨⟨ready, next⟩, hread, ho⟩ := exists_of_bind_eq_ok ho
    obtain ⟨more, hmore, ho⟩ := exists_of_bind_eq_ok (Noted.result_bind _ _ ▸ ho)
    cases ho
    rw [← startsWithBlock_append hblock rest] at hread
    rw [Outline.append, result_text hread, ih hmore, map_ok, List.append_assoc]
  | block line inside rest _ ih =>
    rw [statementsFrom, Noted.result_bind] at ho
    obtain ⟨⟨ready, inner⟩, henter, ho⟩ := exists_of_bind_eq_ok ho
    obtain ⟨body, hbody, ho⟩ := exists_of_bind_eq_ok (Noted.result_bind _ _ ▸ ho)
    obtain ⟨⟨closed, next⟩, hclose, ho⟩ := exists_of_bind_eq_ok (Noted.result_bind _ _ ▸ ho)
    obtain ⟨more, hmore, ho⟩ := exists_of_bind_eq_ok (Noted.result_bind _ _ ▸ ho)
    cases ho
    simp [Outline.append, statementsFrom, henter, hbody, hclose, ih hmore]

end Program

/-! ## Programs -/

theorem Statement.namesOfBody_append (ss ts : List Statement) :
    namesOfBody (ss ++ ts) = namesOfBody ss ++ namesOfBody ts := by
  induction ss with
  | nil => rfl
  | cons s ss ih => rw [List.cons_append, namesOfBody, namesOfBody, ih, List.append_assoc]

/-- **Compiling is compositional.**  If two source texts compile, and the second does not start
with a block, then the first with the second on lines of its own after it compiles to the
statements of the first followed by those of the second.  At every depth the lines of the latter
have moved down by the lines of the first text.  The names are those of both. -/
theorem compile_append {a b : String} {p q : Program} (ha : compile a = .ok p)
    (hb : compile b = .ok q) (hblock : ∀ line, (Segment.cut b).head? ≠ some (.opening line)) :
    ∃ r, compile (a ++ "\n" ++ b) = .ok r ∧
      r.statements = p.statements ++
        q.statements.map (Statement.mapLines (· + (a.toList.count '\n' + 1))) ∧
      ∀ x, x ∈ r.names ↔ x ∈ p.names ∨ x ∈ q.names := by
  obtain ⟨habraces, hastatements, hanames⟩ := compile_eq_ok_iff.mp ha
  obtain ⟨hbbraces, hbstatements, hbnames⟩ := compile_eq_ok_iff.mp hb
  have hbnests := nests_ofSegments hbbraces
  -- the outline of both texts is that of the first before that of the second, moved down
  have hnests := (nests_ofSegments habraces).append
    (hbnests.mapLines (· + (a.toList.count '\n' + 1)))
  rw [← Segment.cut_append] at hnests
  have hmoved := Program.result_mapLines (· + (a.toList.count '\n' + 1)) hbstatements
  have hstart : (Outline.ofSegments (Segment.cut b)).startsWithBlock = false := by
    rw [← Bool.not_eq_true, hbnests.startsWithBlock_iff]
    rintro ⟨line, hhead⟩
    exact hblock line hhead
  have hresult := Program.result_append hastatements hmoved
    ((Outline.startsWithBlock_mapLines _).trans hstart)
  refine ⟨⟨_, Names.ofList (Statement.namesOfBody _)⟩, compile_eq_ok_iff.mpr
    ⟨hnests.checkBraces_eq, hnests.ofSegments_eq.symm ▸ hresult, rfl⟩, ?_, ?_⟩
  · rw [Statement.mapLinesOfBody_eq_map]
  · intro x
    rw [hanames, hbnames, Names.mem_ofList, Names.mem_ofList, Names.mem_ofList,
      Statement.namesOfBody_append, List.mem_append, Statement.namesOfBody_mapLines]

/-- An `if` that could go on, after two lines. -/
def endsWithIf : String :=
  "x = 3\nfor i = 1 to x \x7b y = i \x7d\nif (y > 2) y = 0"

/-- A block inside a block. -/
def countsDown : String :=
  "while (x > 0) \x7b\n  x = x - 1\n  if (y) \x7b y = x \x7d else \x7b z = y \x7d\n\x7d"

/-- The `while` comes three lines further down, and is no part of the `if`. -/
theorem compile_append_countsDown : ∃ p q r, compile endsWithIf = .ok p ∧
    compile countsDown = .ok q ∧ compile (endsWithIf ++ "\n" ++ countsDown) = .ok r ∧
    r.statements = p.statements ++ q.statements.map (Statement.mapLines (· + 3)) ∧
    ∀ x, x ∈ r.names ↔ x ∈ p.names ∨ x ∈ q.names := by
  have hfirst : (compile endsWithIf).isOk = true := by decide +kernel
  have hsecond : (compile countsDown).isOk = true := by decide +kernel
  have hstart : (Segment.cut countsDown).head? = some (.text 1 "while (x > 0)") := by
    decide +kernel
  cases ha : compile endsWithIf with
  | error failure => simp [ha, Except.isOk, Except.toBool] at hfirst
  | ok p =>
    cases hb : compile countsDown with
    | error failure => simp [hb, Except.isOk, Except.toBool] at hsecond
    | ok q =>
      have hblock (line : Nat) : (Segment.cut countsDown).head? ≠ some (.opening line) := by
        simp [hstart]
      obtain ⟨r, hr, hstatements, hnames⟩ := compile_append ha hb hblock
      exact ⟨p, q, r, rfl, rfl, hr, hstatements, hnames⟩

end MatrixLang
