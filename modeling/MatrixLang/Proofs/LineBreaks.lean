import MatrixLang.Proofs.Cutting
import MatrixLang.Proofs.Nesting

/-! # Line breaks and semicolons

A line in which no comment starts and as many brackets are opened as closed may end with a
semicolon instead of a line break (`semicolon_for_newline`).  The line after it is then part of
it, so all further lines move up by one (`joinedLine`), and this is the only difference: the
segments are the same, and compiling them gives the same statements or fails for the same reason.

The two are told apart by different means.  At a semicolon the characters before it count, whose
brackets have to balance; at a line break the next line starts with none open.
-/

namespace MatrixLang

/-- The number of line `n` once the line after line `k` has become part of that. -/
def joinedLine (k n : Nat) : Nat :=
  if n ≤ k then n else n - 1

/-! ## Balanced brackets -/

namespace Segment

variable {line : Nat} {depth : Int} {current cs m : List Char} {g : Nat → Nat}

/-- How many more parentheses and brackets are opened than closed. -/
def balance (cs : List Char) : Int :=
  (cs.count '(' + cs.count '[' : Nat) - (cs.count ')' + cs.count ']' : Nat)

theorem depthAfter_add_balance (depth : Int) (c : Char) (cs : List Char) :
    depthAfter depth c + balance cs = depth + balance (c :: cs) := by
  unfold depthAfter balance
  simp only [List.count_cons, beq_iff_eq]
  split
  · rename_i h
    rcases h with rfl | rfl
    · simp
      omega
    · simp
      omega
  split
  · rename_i h
    rcases h with rfl | rfl
    · simp
      omega
    · simp
      omega
  · rename_i hopen hclose
    simp only [not_or] at hopen hclose
    rw [if_neg hopen.1, if_neg hopen.2, if_neg hclose.1, if_neg hclose.2]
    rfl

theorem balance_cons_of_eq {c : Char} (h : ∀ depth, depthAfter depth c = depth) (cs : List Char) :
    balance (c :: cs) = balance cs := by
  have hadd := depthAfter_add_balance 0 c cs
  rw [h] at hadd
  omega

/-- A semicolon after balanced brackets ends the statement before it. -/
theorem cutLine_semicolon (h : depth + balance cs ≤ 0) :
    cutLine line depth current (cs ++ ';' :: m) =
      cutLine line depth current cs ++ cutLine line (depth + balance cs) [] m := by
  fun_induction cutLine line depth current cs with
  | case1 depth current =>
    have hdepth : depth + balance [] = depth := Int.add_zero depth
    rw [hdepth] at h ⊢
    rw [List.nil_append, cutLine, if_neg (by decide), if_neg (by decide), if_pos ⟨rfl, h⟩]
  | case2 depth current cs ih =>
    rw [balance_cons_of_eq fun _ => rfl] at h ⊢
    rw [List.cons_append, cutLine, if_pos rfl, ih h, List.append_assoc, List.cons_append]
  | case3 depth current cs hne ih =>
    rw [balance_cons_of_eq fun _ => rfl] at h ⊢
    rw [List.cons_append, cutLine, if_neg hne, if_pos rfl, ih h, List.append_assoc,
      List.cons_append]
  | case4 depth current d cs hne hne' hend ih =>
    obtain ⟨rfl, hdepth⟩ := hend
    rw [balance_cons_of_eq fun _ => rfl] at h ⊢
    rw [List.cons_append, cutLine, if_neg hne, if_neg hne', if_pos ⟨rfl, hdepth⟩, ih h,
      List.append_assoc]
  | case5 depth current d cs hne hne' hend ih =>
    rw [← depthAfter_add_balance] at h ⊢
    rw [List.cons_append, cutLine, if_neg hne, if_neg hne', if_neg hend, ih h]

/-- A text in which no comment starts is kept, also before something that starts with no slash. -/
theorem stripComment_append {l : List Char} (h : ¬ ['/', '/'] <:+: l) (hm : m.head? ≠ some '/') :
    stripComment (l ++ m) = l ++ stripComment m := by
  induction l with
  | nil => rfl
  | cons d l ih =>
    have hl : ¬ ['/', '/'] <:+: l := fun hinside => h (hinside.trans (List.suffix_cons d l).isInfix)
    rw [List.cons_append, stripComment, ih hl, List.cons_append]
    rintro tail rfl htail
    cases l with
    | nil => exact hm (by rw [← List.nil_append m, htail, List.head?_cons])
    | cons e l =>
      obtain ⟨rfl, -⟩ := List.cons.inj htail
      exact h ⟨[], l, rfl⟩

/-! ## Joined lines -/

/-- A line that goes on after a semicolon where there was a line break. -/
theorem cutLine_joined {l : List Char} (hcomment : ¬ ['/', '/'] <:+: l) (hbalance : balance l = 0)
    (line : Nat) (m : List Char) :
    cutLine line 0 [] (stripComment (l ++ ';' :: m)) =
      cutLine line 0 [] (stripComment l) ++ cutLine line 0 [] (stripComment m) := by
  have hstrip : stripComment l = l := by
    simpa [stripComment] using stripComment_append (m := []) hcomment (by simp)
  have hdepth : (0 : Int) + balance l = 0 := by rw [hbalance]; rfl
  rw [stripComment_append hcomment (by simp), stripComment_cons (by decide), hstrip,
    cutLine_semicolon (by omega), hdepth]

/-- The segments of a text after a line that it is joined to, where `current` has been read of
its own first line. -/
theorem cutLines_joined {l : List Char} (hcomment : ¬ ['/', '/'] <:+: l) (hbalance : balance l = 0)
    (line : Nat) (current b : List Char) :
    cutLines line (Text.linesFrom (current ++ ';' :: l.reverse) b) =
      cutLine line 0 [] (stripComment l) ++ cutLines line (Text.linesFrom current b) := by
  have hline (current : List Char) :
      cutLine line 0 [] (stripComment (current ++ ';' :: l.reverse).reverse) =
        cutLine line 0 [] (stripComment l) ++ cutLine line 0 [] (stripComment current.reverse) := by
    rw [List.reverse_append, List.reverse_cons, List.reverse_reverse, List.append_assoc,
      List.singleton_append, cutLine_joined hcomment hbalance]
  fun_induction Text.linesFrom current b with
  | case1 =>
    have hempty : cutLine line 0 [] (stripComment []) = [] := flush_blank .nil
    have hjoined := hline []
    rw [List.reverse_nil, hempty, List.append_nil] at hjoined
    rw [Text.linesFrom, if_neg (by simp)]
    exact congrArg (· ++ []) hjoined
  | case2 current hne =>
    rw [Text.linesFrom, if_neg (by simp), cutLines, cutLines, cutLines, hline, List.append_assoc]
    rfl
  | case3 current cs =>
    rw [Text.linesFrom, cutLines, cutLines, cutLine_dropReturn, cutLine_dropReturn, hline,
      List.append_assoc]
  | case4 current c cs hne ih =>
    rw [Text.linesFrom, ← List.cons_append, ih]
    exact hne

/-! ## Moved lines -/

theorem map_mapLine_eq_self {segments : List Segment} (h : ∀ s ∈ segments, g s.line = s.line) :
    segments.map (mapLine g) = segments := by
  refine (List.map_congr_left fun s hs => ?_).trans (List.map_id segments)
  have hline := h s hs
  cases s with
  | text n source => exact congrArg (Segment.text · source) hline
  | opening n => exact congrArg Segment.opening hline
  | closing n => exact congrArg Segment.closing hline

/-- Lines further down move up to where the joined one ends. -/
theorem map_joinedLine_cutLines (k : Nat) (ls : List (List Char)) :
    (cutLines (k + 1) ls).map (mapLine (joinedLine k)) = cutLines k ls := by
  rw [cutLines_add, List.map_map]
  have hmaps : mapLine (joinedLine k) ∘ mapLine (· + 1) =
      mapLine fun n => joinedLine k (n + 1) := by
    funext s
    cases s <;> rfl
  rw [hmaps]
  refine map_mapLine_eq_self fun s hs => ?_
  have hbounds := line_bounds_of_mem_cutLines hs
  rw [joinedLine, if_neg (by omega), Nat.add_sub_cancel]

theorem linesFrom_append {l : List Char} (h : '\n' ∉ l) (current b : List Char) :
    Text.linesFrom current (l ++ b) = Text.linesFrom (l.reverse ++ current) b := by
  induction l generalizing current with
  | nil => rfl
  | cons c l ih =>
    have hc : c ≠ '\n' := fun heq => h (by simp [heq])
    rw [List.cons_append, Text.linesFrom, ih fun hmem => h (List.mem_cons_of_mem c hmem),
      List.reverse_cons, List.append_assoc, List.singleton_append]
    exact hc

theorem length_linesFrom_le (current cs : List Char) :
    (Text.linesFrom current cs).length ≤ cs.count '\n' + 1 := by
  fun_induction Text.linesFrom current cs with
  | case1 => simp
  | case2 current hne => simp
  | case3 current cs ih => simpa using ih
  | case4 current c cs hne ih =>
    rw [List.count_cons_of_ne hne]
    exact ih

/-- What comes after whole lines is cut as it is by itself, further down. -/
theorem cutLines_lines_append {a : List Char} (h : a = [] ∨ ∃ s, a = s ++ ['\n']) :
    ∃ first, (∀ s ∈ first, s.line ≤ a.count '\n') ∧ ∀ rest, cutLines 1 (Text.lines (a ++ rest)) =
      first ++ cutLines (a.count '\n' + 1) (Text.lines rest) := by
  rcases h with rfl | ⟨s, rfl⟩
  · exact ⟨[], List.forall_mem_nil _, fun rest => rfl⟩
  · have hcount : (s ++ ['\n']).count '\n' = s.count '\n' + 1 := by simp
    refine ⟨cutLines 1 (Text.lines s), fun t ht => ?_, fun rest => ?_⟩
    · have hbounds := line_bounds_of_mem_cutLines ht
      have hlength := length_linesFrom_le [] s
      rw [Text.lines] at hbounds
      omega
    · rw [hcount, List.append_assoc, List.singleton_append, Text.lines, cutLines_linesFrom_append,
        Nat.add_comm 1]
      rfl

/-- A line and the lines after it. -/
theorem cutLines_newline {l e : List Char} (hl : '\n' ∉ l) (he : e = ['\n'] ∨ e = ['\r', '\n'])
    (line : Nat) (b : List Char) : cutLines line (Text.lines (l ++ (e ++ b))) =
      cutLine line 0 [] (stripComment l) ++ cutLines (line + 1) (Text.lines b) := by
  rw [Text.lines, linesFrom_append hl, List.append_nil]
  rcases he with rfl | rfl
  · rw [List.singleton_append, Text.linesFrom, cutLines, cutLine_dropReturn, List.reverse_reverse]
    rfl
  · rw [List.cons_append, List.singleton_append, Text.linesFrom, Text.linesFrom, cutLines,
      Text.dropReturn, List.reverse_reverse]
    · rfl
    · decide

/-- The segments of a text in which a line break has become a semicolon. -/
theorem cut_joined {a l e b : String} (ha : a.toList = [] ∨ ∃ s, a.toList = s ++ ['\n'])
    (hl : '\n' ∉ l.toList) (he : e.toList = ['\n'] ∨ e.toList = ['\r', '\n'])
    (hcomment : ¬ ['/', '/'] <:+: l.toList) (hbalance : balance l.toList = 0) :
    cut (a ++ l ++ ";" ++ b) =
      (cut (a ++ l ++ e ++ b)).map (mapLine (joinedLine (a.toList.count '\n' + 1))) := by
  obtain ⟨first, hfirst, hrest⟩ := cutLines_lines_append ha
  have hjoined : cutLines (a.toList.count '\n' + 1) (Text.lines (l.toList ++ ';' :: b.toList)) =
      cutLine (a.toList.count '\n' + 1) 0 [] (stripComment l.toList) ++
        cutLines (a.toList.count '\n' + 1) (Text.lines b.toList) := by
    rw [Text.lines, linesFrom_append hl, Text.linesFrom, List.append_nil]
    · exact cutLines_joined hcomment hbalance _ [] b.toList
    · decide
  rw [cut, cut]
  simp only [String.toList_append, List.append_assoc, hrest]
  rw [cutLines_newline hl he, show ";".toList ++ b.toList = ';' :: b.toList from rfl, hjoined,
    List.map_append, List.map_append, map_joinedLine_cutLines, map_mapLine_eq_self,
    map_mapLine_eq_self]
  · intro s hs
    rw [line_of_mem_cutLine hs, joinedLine, if_pos (Nat.le_refl _)]
  · intro s hs
    rw [joinedLine, if_pos (Nat.le_succ_of_le (hfirst s hs))]

/-! ## Compiling segments with moved lines -/

theorem checkBraces_mapLine (opened : List Nat) (segments : List Segment) :
    checkBraces (opened.map g) (segments.map (mapLine g)) =
      (checkBraces opened segments).mapError (Failure.mapLine g) := by
  fun_induction checkBraces opened segments with
  | case1 => rfl
  | case2 => rfl
  | case3 opened n source segments ih => exact ih
  | case4 opened n segments ih => exact ih
  | case5 => rfl
  | case6 n segments first opened ih => exact ih

end Segment

/-- A program with all its lines changed. -/
def Program.mapLines (g : Nat → Nat) (p : Program) : Program :=
  { p with statements := p.statements.map (Statement.mapLines g) }

section

variable {g : Nat → Nat} {source other : String}

theorem segment_mapLine (h : Segment.cut other = (Segment.cut source).map (Segment.mapLine g)) :
    segment other = ((segment source).map (List.map (Segment.mapLine g))).mapError
      (Failure.mapLine g) := by
  have hbraces := Segment.checkBraces_mapLine (g := g) [] (Segment.cut source)
  rw [List.map_nil] at hbraces
  rw [segment, segment, h, hbraces]
  cases Segment.checkBraces [] (Segment.cut source) <;> rfl

/-- Compiling sees nothing of a source text but its segments, and copies their lines. -/
theorem compile_mapLine (h : Segment.cut other = (Segment.cut source).map (Segment.mapLine g)) :
    compile other = ((compile source).map (Program.mapLines g)).mapError (Failure.mapLine g) := by
  have hbraces := Segment.checkBraces_mapLine (g := g) [] (Segment.cut source)
  rw [List.map_nil] at hbraces
  rw [compile_eq, compile_eq, h, hbraces]
  cases hcheck : Segment.checkBraces [] (Segment.cut source) with
  | error failure => rfl
  | ok =>
    have hretags := Program.retags_statementsFrom (g := g) .nothing
      (Outline.ofSegments (Segment.cut source))
    rw [((nests_ofSegments hcheck).mapLines g).ofSegments_eq]
    unfold Program.Retags at hretags
    cases hresult : (Program.statementsFrom .nothing
        (Outline.ofSegments (Segment.cut source))).result with
    | error failure =>
      rw [hresult] at hretags
      rw [show (Program.statementsFrom .nothing _).result = _ from hretags]
      rfl
    | ok ss =>
      rw [hresult] at hretags
      rw [show (Program.statementsFrom .nothing _).result = _ from hretags]
      show Except.ok (Program.mk _ (Names.ofList (Statement.namesOfBody _))) = _
      rw [Statement.namesOfBody_mapLines, Statement.mapLinesOfBody_eq_map]
      rfl

end

/-- **A semicolon does for a line break.**  After whole lines `a`, let `l` be line `k`, in which no
comment starts and as many parentheses and brackets are opened as closed.  With a semicolon in the
place of its end `e`, the segments and the program are the same but for their lines, and if there
is none, it is for the same reason.  The lines after line `k` have moved up by one. -/
theorem semicolon_for_newline {a l e b : String} {k : Nat} (ha : a = "" ∨ ∃ s, a = s ++ "\n")
    (hk : k = a.toList.count '\n' + 1) (hl : '\n' ∉ l.toList) (he : e = "\n" ∨ e = "\r\n")
    (hcomment : ¬ "//".toList <:+: l.toList)
    (hbalance : l.toList.count '(' + l.toList.count '[' = l.toList.count ')' + l.toList.count ']') :
    segment (a ++ l ++ ";" ++ b) =
        ((segment (a ++ l ++ e ++ b)).map (List.map (Segment.mapLine (joinedLine k)))).mapError
          (Failure.mapLine (joinedLine k)) ∧
      compile (a ++ l ++ ";" ++ b) =
        ((compile (a ++ l ++ e ++ b)).map (Program.mapLines (joinedLine k))).mapError
          (Failure.mapLine (joinedLine k)) := by
  subst hk
  have hcut : Segment.cut (a ++ l ++ ";" ++ b) = (Segment.cut (a ++ l ++ e ++ b)).map
      (Segment.mapLine (joinedLine (a.toList.count '\n' + 1))) := by
    refine Segment.cut_joined ?_ hl ?_ hcomment ?_
    · rcases ha with rfl | ⟨s, rfl⟩
      · exact .inl rfl
      · exact .inr ⟨s.toList, by simp⟩
    · rcases he with rfl | rfl
      · exact .inl rfl
      · exact .inr rfl
    · rw [Segment.balance, hbalance, Int.sub_self]
  exact ⟨segment_mapLine hcut, compile_mapLine hcut⟩

/-- The head of a loop, with a semicolon inside brackets. -/
def loopHead : String :=
  "while (x > [0; 1][1]) \x7b"

/-- The body of the loop and what follows it. -/
def loopRest : String :=
  "  x = x - 1 // down\n\x7d\ny = [x; 2]"

/-- The head of the loop in the second line goes on with its body. -/
theorem semicolon_for_newline_loopHead :
    (compile ("x = 3\n" ++ loopHead ++ "\r\n" ++ loopRest)).isOk = true ∧
    segment ("x = 3\n" ++ loopHead ++ ";" ++ loopRest) =
        ((segment ("x = 3\n" ++ loopHead ++ "\r\n" ++ loopRest)).map
          (List.map (Segment.mapLine (joinedLine 2)))).mapError (Failure.mapLine (joinedLine 2)) ∧
      compile ("x = 3\n" ++ loopHead ++ ";" ++ loopRest) =
        ((compile ("x = 3\n" ++ loopHead ++ "\r\n" ++ loopRest)).map
          (Program.mapLines (joinedLine 2))).mapError (Failure.mapLine (joinedLine 2)) := by
  have hlines : "x = 3\n" = "" ∨ ∃ s, "x = 3\n" = s ++ "\n" := .inr ⟨"x = 3", by decide +kernel⟩
  have hline : 2 = "x = 3\n".toList.count '\n' + 1 := by decide +kernel
  have hend : '\n' ∉ loopHead.toList := by decide +kernel
  have hcomment : ¬ "//".toList <:+: loopHead.toList := by decide +kernel
  have hbalance : loopHead.toList.count '(' + loopHead.toList.count '[' =
      loopHead.toList.count ')' + loopHead.toList.count ']' := by decide +kernel
  have hok : (compile ("x = 3\n" ++ loopHead ++ "\r\n" ++ loopRest)).isOk = true := by
    decide +kernel
  exact ⟨hok, semicolon_for_newline hlines hline hend (.inr rfl) hcomment hbalance⟩

end MatrixLang
