import MatrixLang.Proofs.GuardedSegment
import MatrixLang.Proofs.LineBreaks

/-! # What becomes of the characters of a source text

Cutting a source text loses nothing of it.  Its glyphs are its characters outside of comments,
each with its line and with what stands before it there (`Glyph.ofSource`).  Blanks apart, the
segments hold the glyphs in their order and under their lines, but for the semicolons that end a
statement, which are those with no more brackets opened than closed before them on their line
(`faithful_of_segment`).  That is also true with brackets counted in words of 32 bits, as long as
they do not overflow (`segment_keeps_glyphs`).

A line is cut with the characters of a statement in hand that have been read and not yet given
out.  Together with the segments that are still to come they are what is left of the line, at
every step of the cutting (`written_cutLine`).
-/

namespace MatrixLang

/-! ## Glyphs -/

/-- A character in a line. -/
structure Glyph where
  line : Nat
  /-- What stands before it on its line. -/
  before : List Char
  char : Char
deriving DecidableEq, Repr

namespace Glyph

/-- The characters outside of comments, from one on: its line, what stands before it there, and
whether it is in a comment, which two slashes start and the end of the line ends. -/
def scan (comment : Bool) (line : Nat) (before : List Char) : List Char → List Glyph
  | [] => []
  | c :: cs =>
    if c = '\n' then scan false (line + 1) [] cs
    else if comment = true ∨ (c = '/' ∧ cs.head? = some '/') then scan true line before cs
    else ⟨line, before, c⟩ :: scan false line (before ++ [c]) cs

/-- The characters of a source text outside of its comments. -/
def ofSource (source : String) : List Glyph :=
  scan false 1 [] source.toList

/-- A character with its line. -/
def tagged (g : Glyph) : Nat × Char :=
  (g.line, g.char)

/-- Whether a character ends a statement: a semicolon before which no more parentheses and
brackets are opened than closed. -/
def endsStatement (g : Glyph) : Bool :=
  g.char == ';' && decide (Segment.balance g.before ≤ 0)

theorem scan_comment {cs : List Char} (h : '\n' ∉ cs) (line : Nat) (before : List Char) :
    scan true line before cs = [] := by
  induction cs with
  | nil => rfl
  | cons c cs ih =>
    have hc : c ≠ '\n' := fun heq => h (by simp [heq])
    rw [scan, if_neg hc, if_pos (.inl rfl), ih fun hmem => h (List.mem_cons_of_mem c hmem)]

/-- The characters of a line, and those of the lines after it. -/
theorem scan_newline {l : List Char} (h : '\n' ∉ l) (comment : Bool) (line : Nat)
    (before cs : List Char) : scan comment line before (l ++ '\n' :: cs) =
      scan comment line before l ++ scan false (line + 1) [] cs := by
  induction l generalizing comment before with
  | nil => simp [scan]
  | cons c l ih =>
    have hc : c ≠ '\n' := fun heq => h (by simp [heq])
    have htail := ih fun hmem => h (List.mem_cons_of_mem c hmem)
    have hhead : (l ++ '\n' :: cs).head? = some '/' ↔ l.head? = some '/' := by
      cases l with
      | nil => simp
      | cons d l => simp
    simp only [List.cons_append, scan, if_neg hc, hhead, htail]
    split <;> rfl

/-- A character that starts no comment. -/
theorem scan_cons {c : Char} (hc : c ≠ '\n') {cs : List Char}
    (hslash : ∀ tail, c = '/' → cs = '/' :: tail → False) (line : Nat) (before : List Char) :
    scan false line before (c :: cs) =
      ⟨line, before, c⟩ :: scan false line (before ++ [c]) cs := by
  rw [scan, if_neg hc, if_neg]
  rintro (hfalse | ⟨hc, hhead⟩)
  · cases hfalse
  · obtain ⟨tail, rfl⟩ := List.head?_eq_some_iff.mp hhead
    exact hslash tail hc rfl

end Glyph

namespace Segment

variable {line : Nat} {current cs : List Char}

/-- The characters of a segment, each with the line of the segment. -/
def written : Segment → List (Nat × Char)
  | .text line source => source.toList.map (line, ·)
  | .opening line => [(line, '{')]
  | .closing line => [(line, '}')]

/-- Whether a character is not blank. -/
def isSolid (p : Nat × Char) : Bool :=
  !Text.isBlank p.2

/-! ## Characters of a line -/

theorem filter_dropWhile {α : Type} {p q : α → Bool} (h : ∀ a, p a = true → q a = false)
    (as : List α) : (as.dropWhile p).filter q = as.filter q := by
  induction as with
  | nil => rfl
  | cons a as ih =>
    by_cases ha : p a = true
    · rw [List.dropWhile_cons_of_pos ha, ih, List.filter_cons_of_neg (by simp [h a ha])]
    · rw [List.dropWhile_cons_of_neg ha]

theorem filter_trim (cs : List Char) :
    (Text.trim cs).filter (fun c => !Text.isBlank c) = cs.filter (fun c => !Text.isBlank c) := by
  have hblank : ∀ c, Text.isBlank c = true → (!Text.isBlank c) = false := by simp
  rw [Text.trim, List.filter_reverse, filter_dropWhile hblank, List.filter_reverse,
    List.reverse_reverse, filter_dropWhile hblank]

theorem filter_tag (line : Nat) (cs : List Char) :
    (cs.map (line, ·)).filter isSolid = (cs.filter (fun c => !Text.isBlank c)).map (line, ·) := by
  rw [List.filter_map]
  rfl

/-- A segment of the characters in hand holds those that are not blank. -/
theorem written_flush (line : Nat) (current : List Char) :
    ((flush line current).flatMap written).filter isSolid =
      (current.reverse.map (line, ·)).filter isSolid := by
  rw [filter_tag, ← filter_trim, flush]
  cases Text.trim current.reverse with
  | nil => rfl
  | cons c cs =>
    rw [List.flatMap_singleton, written, String.toList_ofList, filter_tag]

theorem balance_concat (before : List Char) (c : Char) :
    balance (before ++ [c]) = depthAfter (balance before) c := by
  have hsum : balance (before ++ [c]) = balance before + balance [c] := by
    simp only [balance, List.count_append]
    omega
  have hstep := depthAfter_add_balance (balance before) c []
  rw [hsum, ← hstep]
  exact Int.add_zero _

/-- **One step of the cutting after the other.**  The characters in hand and those of the glyphs
to come that end no statement are the characters of the segments to come, blanks apart. -/
theorem written_cutLine {l : List Char} (h : '\n' ∉ l) (line : Nat) (before current : List Char) :
    ((cutLine line (balance before) current (stripComment l)).flatMap written).filter isSolid =
      (current.reverse.map (line, ·) ++ ((Glyph.scan false line before l).filter
        fun g => !g.endsStatement).map Glyph.tagged).filter isSolid := by
  fun_induction stripComment l generalizing before current with
  | case1 cs =>
    have hcs : '\n' ∉ '/' :: cs := fun hmem => h (List.mem_cons_of_mem '/' hmem)
    rw [cutLine, written_flush, Glyph.scan, if_neg (by decide), if_pos (.inr ⟨rfl, rfl⟩),
      Glyph.scan_comment hcs]
    simp
  | case2 c cs hslash ih =>
    have hc : c ≠ '\n' := fun heq => h (by simp [heq])
    have htail := ih fun hmem => h (List.mem_cons_of_mem c hmem)
    rw [cutLine, Glyph.scan_cons hc hslash]
    split
    · rename_i hopen
      subst hopen
      have hrest := htail (before ++ ['{']) []
      rw [balance_concat, show depthAfter (balance before) '{' = balance before from rfl] at hrest
      simp [written_flush, written, hrest, Glyph.endsStatement, Glyph.tagged, List.filter_cons]
    split
    · rename_i hclose
      subst hclose
      have hrest := htail (before ++ ['}']) []
      rw [balance_concat, show depthAfter (balance before) '}' = balance before from rfl] at hrest
      simp [written_flush, written, hrest, Glyph.endsStatement, Glyph.tagged, List.filter_cons]
    split
    · rename_i hend
      obtain ⟨rfl, hdepth⟩ := hend
      have hrest := htail (before ++ [';']) []
      rw [balance_concat, show depthAfter (balance before) ';' = balance before from rfl] at hrest
      simp [written_flush, hrest, Glyph.endsStatement, hdepth]
    · rename_i hend
      have hkept : (Glyph.mk line before c).endsStatement = false := by
        simpa [Glyph.endsStatement] using hend
      rw [← balance_concat, htail (before ++ [c]) (c :: current)]
      simp [hkept, Glyph.tagged, List.filter_cons]
  | case3 =>
    rw [cutLine, written_flush]
    simp [Glyph.scan]

/-! ## Texts of segments -/

theorem tight_trim {cs : List Char} (h : Text.trim cs ≠ []) : Tight (Text.trim cs) := by
  have hnot (ds : List Char) (c : Char) (hc : c ∈ (ds.dropWhile Text.isBlank).head?) :
      Text.isBlank c = false := by
    have hhead := List.head?_dropWhile_not Text.isBlank ds
    rw [hc] at hhead
    exact hhead
  refine ⟨h, fun c hc => ?_, fun c hc => ?_⟩
  · -- the end of the text is cut off after its beginning, which is still the same
    have hprefix : Text.trim cs <+: cs.dropWhile Text.isBlank := by
      rw [Text.trim, ← List.reverse_suffix, List.reverse_reverse]
      exact List.dropWhile_suffix _
    obtain ⟨ds, hds⟩ := hprefix
    obtain ⟨d, tail, htrim⟩ := List.exists_cons_of_ne_nil h
    refine hnot cs c ?_
    rw [← hds, htrim]
    rw [htrim] at hc
    exact hc
  · rw [Text.trim, List.getLast?_reverse] at hc
    exact hnot _ c hc

/-- The text that is made of the characters in hand. -/
theorem text_of_mem_flush {n : Nat} {source : String} (h : .text n source ∈ flush line current) :
    Tight source.toList ∧ ∀ c ∈ source.toList, c ∈ current := by
  have hsub := text_sublist_of_mem_flush h
  refine ⟨?_, fun c hc => List.mem_reverse.mp (hsub.mem hc)⟩
  have htight := @tight_trim current.reverse
  unfold flush at h
  split at h
  · cases h
  · rename_i hne
    cases List.mem_singleton.mp h
    rw [String.toList_ofList]
    exact htight hne

/-- The characters of a text are in hand or to come, and no braces. -/
theorem text_of_mem_cutLine {P : Char → Prop} {n : Nat} {depth : Int} {source : String}
    (hcurrent : ∀ c ∈ current, P c) (hcs : ∀ c ∈ cs, c ≠ '{' → c ≠ '}' → P c)
    (h : .text n source ∈ cutLine line depth current cs) :
    Tight source.toList ∧ ∀ c ∈ source.toList, P c := by
  have hflush {current : List Char} (hcurrent : ∀ c ∈ current, P c)
      (h : .text n source ∈ flush line current) :
      Tight source.toList ∧ ∀ c ∈ source.toList, P c := by
    obtain ⟨htight, hmem⟩ := text_of_mem_flush h
    exact ⟨htight, fun c hc => hcurrent c (hmem c hc)⟩
  fun_induction cutLine line depth current cs with
  | case1 depth current => exact hflush hcurrent h
  | case2 depth current cs ih =>
    simp only [List.mem_append, List.mem_cons, reduceCtorEq, false_or] at h
    rcases h with h | h
    · exact hflush hcurrent h
    · exact ih (List.forall_mem_nil _) (List.forall_mem_cons.mp hcs).2 h
  | case3 depth current cs hne ih =>
    simp only [List.mem_append, List.mem_cons, reduceCtorEq, false_or] at h
    rcases h with h | h
    · exact hflush hcurrent h
    · exact ih (List.forall_mem_nil _) (List.forall_mem_cons.mp hcs).2 h
  | case4 depth current d cs hne hne' hend ih =>
    rcases List.mem_append.mp h with h | h
    · exact hflush hcurrent h
    · exact ih (List.forall_mem_nil _) (List.forall_mem_cons.mp hcs).2 h
  | case5 depth current d cs hne hne' hend ih =>
    have hd : P d := hcs d List.mem_cons_self hne hne'
    exact ih (List.forall_mem_cons.mpr ⟨hd, hcurrent⟩) (List.forall_mem_cons.mp hcs).2 h

theorem newline_not_mem_linesFrom {l : List Char} (hcurrent : '\n' ∉ current)
    (h : l ∈ Text.linesFrom current cs) : '\n' ∉ l := by
  fun_induction Text.linesFrom current cs with
  | case1 => cases h
  | case2 current hne =>
    rw [List.mem_singleton.mp h]
    simpa using hcurrent
  | case3 current cs ih =>
    rcases List.mem_cons.mp h with rfl | h
    · have hdrop := dropReturn_sublist current
      exact fun hmem => hcurrent (hdrop.mem (List.mem_reverse.mp hmem))
    · exact ih List.not_mem_nil h
  | case4 current c cs hne ih =>
    refine ih ?_ h
    rw [List.mem_cons]
    rintro (rfl | hmem)
    · exact hne rfl
    · exact hcurrent hmem

theorem text_of_mem_cutLines {n : Nat} {ls : List (List Char)} {source : String}
    (hls : ∀ l ∈ ls, '\n' ∉ l) (h : .text n source ∈ cutLines line ls) :
    Tight source.toList ∧ ∀ c ∈ source.toList, c ≠ '{' ∧ c ≠ '}' ∧ c ≠ '\n' := by
  induction ls generalizing line with
  | nil => cases h
  | cons l ls ih =>
    obtain ⟨hl, hls⟩ := List.forall_mem_cons.mp hls
    rcases List.mem_append.mp h with h | h
    · refine text_of_mem_cutLine (List.forall_mem_nil _) (fun c hc hopen hclose => ?_) h
      refine ⟨hopen, hclose, ?_⟩
      rintro rfl
      exact hl ((stripComment_sublist l).mem hc)
    · exact ih hls h

/-- The characters of the segments of a source text, blanks apart. -/
theorem written_cut (source : String) : ((cut source).flatMap written).filter isSolid =
    (((Glyph.ofSource source).filter fun g => !g.endsStatement).map Glyph.tagged).filter
      isSolid := by
  let scan (line : Nat) (cs : List Char) : List (Nat × Char) :=
    (((Glyph.scan false line [] cs).filter fun g => !g.endsStatement).map Glyph.tagged).filter
      isSolid
  have hline (line : Nat) {l : List Char} (hl : '\n' ∉ l) :
      (cutLine line 0 [] (stripComment l)).flatMap (fun s => (written s).filter isSolid) =
        scan line l := by
    rw [← List.filter_flatMap]
    exact written_cutLine hl line [] []
  have hnewline (line : Nat) {l : List Char} (cs : List Char) (hl : '\n' ∉ l) :
      scan line (l ++ '\n' :: cs) = scan line l ++ scan (line + 1) cs := by
    simp only [scan, Glyph.scan_newline hl, List.filter_append, List.map_append]
  rw [List.filter_flatMap]
  exact flatMap_cutLines (fun _ => rfl) hline hnewline List.not_mem_nil 1 source.toList

end Segment

/-- Segments that lose nothing of a source text. -/
structure Faithful (source : String) (segments : List Segment) : Prop where
  /-- A text is not empty, is not blank at an end, and holds no brace and no line end. -/
  texts : ∀ line text, .text line text ∈ segments → Segment.Tight text.toList ∧
    ∀ c ∈ text.toList, c ≠ '{' ∧ c ≠ '}' ∧ c ≠ '\n'
  /-- Blanks and semicolons apart, the characters are those outside of comments, each under the
  line it stands in. -/
  characters : (segments.flatMap Segment.written).filter
      (fun p => p.2 != ';' && Segment.isSolid p) =
    ((Glyph.ofSource source).map Glyph.tagged).filter (fun p => p.2 != ';' && Segment.isSolid p)
  /-- The lines never go back. -/
  lines : (segments.map Segment.line).Pairwise (· ≤ ·)
  /-- Of the semicolons, those that end a statement are left out and the others are kept in their
  places. -/
  semicolons : (segments.flatMap Segment.written).filter Segment.isSolid =
    (((Glyph.ofSource source).filter fun g => !g.endsStatement).map Glyph.tagged).filter
      Segment.isSolid

theorem faithful_of_segment {source : String} {segments : List Segment}
    (h : segment source = .ok segments) : Faithful source segments := by
  have hcut : segments = Segment.cut source := by
    obtain ⟨-, -, hcut⟩ := exists_of_bind_eq_ok h
    exact (Except.ok.inj hcut).symm
  subst hcut
  have hwritten := Segment.written_cut source
  refine ⟨fun line text hmem => ?_, ?_, Segment.pairwise_line_cutLines 1 _, hwritten⟩
  · exact Segment.text_of_mem_cutLines
      (fun l hl => Segment.newline_not_mem_linesFrom List.not_mem_nil hl) hmem
  · -- a character that is no semicolon ends no statement
    rw [← List.filter_filter, hwritten, List.filter_filter, List.filter_map, List.filter_map,
      List.filter_filter]
    refine congrArg (List.map Glyph.tagged) (List.filter_congr fun g _ => ?_)
    by_cases hc : g.char = ';' <;> simp [Glyph.tagged, Glyph.endsStatement, hc]

/-- **Cutting loses nothing.**  With the depth of brackets in a word of 32 bits, a source text is
cut as without such a limit, or else the word overflows and a line has too many brackets for it;
and what it is cut into is faithful. -/
theorem segment_keeps_glyphs (source : String) :
    ((Guarded.segment source).run = .ok (segment source) ∨
      (Guarded.segment source).run = .error (.overflow .signed32) ∧ Segment.Deep source) ∧
    ∀ segments, (Guarded.segment source).run = .ok (.ok segments) →
      Faithful source segments := by
  have hcases : (Guarded.segment source).run = .ok (segment source) ∨
      (Guarded.segment source).run = .error (.overflow .signed32) ∧ Segment.Deep source := by
    rcases Guarded.followsUnless_segment source with hok | ⟨fault, ⟨rfl, hdeep⟩, herror⟩
    · exact .inl hok
    · exact .inr ⟨herror, hdeep⟩
  refine ⟨hcases, fun segments h => faithful_of_segment ?_⟩
  rcases hcases with hok | ⟨herror, -⟩
  · rw [hok] at h
    exact Except.ok.inj h
  · rw [herror] at h
    cases h

/-- Braces, comments, blanks and semicolons in all kinds of places. -/
def crowded : String :=
  "a = [1; 2] ;; if (a) \x7b b = (3;4 // one; two \x7b\n  ; c = )1;2( \x7d \r\n\n; d = 5 ;"

/-- What that text is cut into. -/
def crowdedSegments : List Segment :=
  [.text 1 "a = [1; 2]", .text 1 "if (a)", .opening 1, .text 1 "b = (3;4", .text 2 "c = )1",
    .text 2 "2(", .closing 2, .text 4 "d = 5"]

theorem segment_crowded : segment crowded = .ok crowdedSegments := by
  have hcut : Segment.cut crowded = crowdedSegments := by decide +kernel
  rw [segment, hcut]
  rfl

/-- The semicolons between brackets are kept, also after a bracket that is not closed on its line;
the others are not, also where more brackets are closed than opened. -/
theorem segment_keeps_glyphs_crowded :
    (Guarded.segment crowded).run = .ok (.ok crowdedSegments) ∧
      Faithful crowded crowdedSegments := by
  have hrun : (Guarded.segment crowded).run = .ok (.ok crowdedSegments) := by
    rcases (segment_keeps_glyphs crowded).1 with hok | ⟨-, hdeep⟩
    · rw [hok, segment_crowded]
    · exact absurd hdeep (by decide +kernel)
  exact ⟨hrun, (segment_keeps_glyphs crowded).2 crowdedSegments hrun⟩

end MatrixLang
