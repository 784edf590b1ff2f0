import MatrixLang.Proofs.Except
import MatrixLang.Proofs.Fragments

/-! # Lines and their outlines

How statements written on one line are cut into segments, and the outline of those.  A piece
of a line is cut the same whatever comes after it (`Parts`), or as long as something comes
after it that ends a statement (`Cuts`); blanks before a piece do not matter.  Segments in
which every brace is closed are put before an outline as a whole (`Prepends`).  `Spans` and
`Stands` say both of a text.
-/

namespace MatrixLang

namespace Segment

variable {line : Nat} {a b cs current : List Char} {segments : List Segment}

/-! ## Cutting -/

/-- A text before which a statement ends. -/
def Stops (cs : List Char) : Prop :=
  ∀ c ∈ cs.head?, c = ';' ∨ c = '{' ∨ c = '}'

/-- Nothing but blanks. -/
def Blank (cs : List Char) : Prop :=
  ∀ c ∈ cs, Text.isBlank c = true

theorem Blank.nil : Blank [] := nofun

theorem Blank.cons (h : Blank cs) : Blank (' ' :: cs) :=
  List.forall_mem_cons.mpr ⟨rfl, h⟩

theorem flush_blank (h : Blank current) : flush line current = [] := by
  have hdrop : (current.reverse ++ []).dropWhile Text.isBlank = [] :=
    List.dropWhile_append_of_pos fun c hc => h c (List.mem_reverse.mp hc)
  rw [flush, ← List.append_nil current.reverse, Text.trim, hdrop]
  rfl

theorem flush_tight (line : Nat) (h : Tight cs) {before after : List Char} (hb : Blank before)
    (ha : Blank after) :
    flush line (after ++ (cs.reverse ++ before)) = [.text line (String.ofList cs)] := by
  have htrim : Text.trim (after ++ (cs.reverse ++ before)).reverse = cs := by
    rw [List.reverse_append, List.reverse_append, List.reverse_reverse, List.append_assoc]
    exact h.trim (fun c hc => hb c (List.mem_reverse.mp hc)) fun c hc =>
      ha c (List.mem_reverse.mp hc)
  obtain ⟨c, tail, rfl⟩ := List.exists_cons_of_ne_nil h.ne_nil
  rw [flush, htrim]

theorem cutLine_stop (h : Stops cs) :
    cutLine line 0 current cs = flush line current ++ cutLine line 0 [] cs := by
  have hnil : flush line [] = [] := flush_blank .nil
  cases cs with
  | nil => simp [cutLine, hnil]
  | cons c cs =>
    rcases h c rfl with rfl | rfl | rfl
    · simp [cutLine, hnil]
    · simp [cutLine, hnil]
    · simp [cutLine, hnil]

/-- Blanks do not matter where a statement ends. -/
theorem cutLine_blank (h : Blank current) (hcs : Stops cs) :
    cutLine line 0 current cs = cutLine line 0 [] cs := by
  rw [cutLine_stop hcs, flush_blank h, List.nil_append]

/-- A text that is cut into some segments, whatever comes after it.  What is left at its end is
blank. -/
def Parts (line : Nat) (cs : List Char) (segments : List Segment) : Prop :=
  ∀ current rest, Blank current → ∃ left, Blank left ∧
    cutLine line 0 current (cs ++ rest) = segments ++ cutLine line 0 left rest

/-- A text that is cut into some segments if the statement at its end ends there. -/
def Cuts (line : Nat) (cs : List Char) (segments : List Segment) : Prop :=
  ∀ current rest, Blank current → Stops rest →
    cutLine line 0 current (cs ++ rest) = segments ++ cutLine line 0 [] rest

section

variable {more : List Segment}

theorem Parts.cuts (h : Parts line cs segments) : Cuts line cs segments := by
  intro current rest hblank hstops
  obtain ⟨left, hleft, hcut⟩ := h current rest hblank
  rw [hcut, cutLine_blank hleft hstops]

theorem Parts.nil : Parts line [] [] :=
  fun current _ hblank => ⟨current, hblank, rfl⟩

theorem Parts.append (ha : Parts line a segments) (hb : Parts line b more) :
    Parts line (a ++ b) (segments ++ more) := by
  intro current rest hblank
  obtain ⟨middle, hmiddle, hfirst⟩ := ha current (b ++ rest) hblank
  obtain ⟨left, hleft, hsecond⟩ := hb middle rest hmiddle
  exact ⟨left, hleft, by rw [List.append_assoc, hfirst, hsecond, List.append_assoc]⟩

theorem parts_blank : Parts line [' '] [] :=
  fun _ _ hblank => ⟨_, hblank.cons, rfl⟩

theorem parts_opening : Parts line ['{'] [.opening line] := by
  intro current rest hblank
  refine ⟨[], .nil, ?_⟩
  show flush line current ++ .opening line :: cutLine line 0 [] rest = _
  rw [flush_blank hblank]
  rfl

theorem parts_closing : Parts line ['}'] [.closing line] := by
  intro current rest hblank
  refine ⟨[], .nil, ?_⟩
  show flush line current ++ .closing line :: cutLine line 0 [] rest = _
  rw [flush_blank hblank]
  rfl

/-- A statement with a semicolon after it. -/
theorem Cuts.semicolon (h : Cuts line cs segments) : Parts line (cs ++ [';']) segments := by
  intro current rest hblank
  have hstops : Stops (';' :: rest) := by simp [Stops]
  have hcut : cutLine line 0 [] (';' :: rest) = flush line [] ++ cutLine line 0 [] rest := rfl
  refine ⟨[], .nil, ?_⟩
  rw [List.append_assoc, List.singleton_append, h current _ hblank hstops, hcut,
    flush_blank .nil, List.nil_append]

/-- The text of a whole statement. -/
theorem cuts_text (hf : Fragment 0 cs) (ht : Tight cs) :
    Cuts line cs [.text line (String.ofList cs)] := by
  intro current rest hblank hstops
  have hflush := flush_tight line ht hblank .nil
  rw [List.nil_append] at hflush
  rw [hf.cut _ _ _ _ (Int.le_refl 0), cutLine_stop hstops, hflush]

/-- The head of a statement, before the block that is its body. -/
theorem Parts.head (hf : Fragment 0 cs) (ht : Tight cs) (hbody : Parts line ('{' :: a) segments) :
    Parts line (cs ++ ' ' :: '{' :: a) (.text line (String.ofList cs) :: segments) := by
  intro current rest hblank
  have hstops : Stops ('{' :: a ++ rest) := by simp [Stops]
  have hflush := flush_tight line ht hblank Blank.nil.cons
  have hskip : cutLine line 0 (cs.reverse ++ current) (' ' :: ('{' :: a ++ rest)) =
      cutLine line 0 ([' '] ++ (cs.reverse ++ current)) ('{' :: a ++ rest) := rfl
  obtain ⟨left, hleft, hcut⟩ := hbody [] rest .nil
  refine ⟨left, hleft, ?_⟩
  rw [List.append_assoc, hf.cut _ _ _ _ (Int.le_refl 0), List.cons_append, hskip,
    cutLine_stop hstops, hflush, hcut]
  rfl

end

/-! ## Whole lines -/

theorem linesFrom_eq (h : '\n' ∉ cs) (hne : current ≠ [] ∨ cs ≠ []) :
    Text.linesFrom current cs = [current.reverse ++ cs] := by
  induction cs generalizing current with
  | nil =>
    have hcurrent : current ≠ [] := hne.resolve_right fun h => h rfl
    simp [Text.linesFrom, hcurrent]
  | cons c cs ih =>
    have hc : c ≠ '\n' := fun heq => h (by simp [heq])
    have hcs : Text.linesFrom (c :: current) cs = [(c :: current).reverse ++ cs] :=
      ih (fun hmem => h (List.mem_cons_of_mem c hmem)) (.inl (by simp))
    rw [Text.linesFrom, hcs]
    · simp
    · exact hc

/-- The segments of a text on one line. -/
theorem cut_eq {source : String} (h : OneLine source.toList)
    (hcuts : Cuts 1 source.toList segments) : cut source = segments := by
  have hstrip := h.comment []
  have hcut := hcuts [] [] .nil nofun
  have hend : cutLine 1 0 [] [] = [] := flush_blank .nil
  rw [stripComment, List.append_nil] at hstrip
  rw [List.append_nil, hend, List.append_nil] at hcut
  by_cases hne : source.toList = []
  · rw [hne, hend] at hcut
    rw [cut, hne, ← hcut]
    rfl
  · rw [cut, Text.lines, linesFrom_eq h.newline (.inr hne), List.reverse_nil, List.nil_append,
      cutLines, cutLines, hstrip, hcut, List.append_nil]

end Segment

/-! ## Outlines -/

open Segment (OneLine Fragment Tight Parts Cuts)

/-- Segments in which every brace is closed, and what they put before an outline. -/
structure Prepends (segments : List Segment) (o : Outline → Outline) : Prop where
  braces : ∀ opened rest,
    Segment.checkBraces opened (segments ++ rest) = Segment.checkBraces opened rest
  fold : ∀ rest outer, segments.foldr Outline.prepend (rest :: outer) = o rest :: outer

namespace Prepends

variable {line : Nat} {segments more : List Segment} {o p : Outline → Outline}

theorem nil : Prepends [] id where
  braces _ _ := rfl
  fold _ _ := rfl

theorem append (h : Prepends segments o) (hmore : Prepends more p) :
    Prepends (segments ++ more) (o ∘ p) where
  braces opened rest := by rw [List.append_assoc, h.braces, hmore.braces]
  fold rest outer := by
    rw [List.foldr_append, hmore.fold, h.fold]
    rfl

theorem text (line : Nat) (source : String) :
    Prepends [.text line source] (.text line source) where
  braces _ _ := rfl
  fold _ _ := rfl

theorem block {last : Nat} (h : Prepends segments o) :
    Prepends (.opening line :: (segments ++ [.closing last])) (.block line (o .done)) where
  braces opened rest := by
    rw [List.cons_append, List.append_assoc, Segment.checkBraces, h.braces]
    rfl
  fold rest outer := by
    rw [List.foldr_cons, List.foldr_append]
    show Outline.prepend _ (segments.foldr Outline.prepend (.done :: rest :: outer)) = _
    rw [h.fold]
    rfl

theorem checkBraces_eq (h : Prepends segments o) : Segment.checkBraces [] segments = .ok () := by
  have hbraces := h.braces [] []
  rwa [List.append_nil] at hbraces

theorem ofSegments_eq (h : Prepends segments o) : Outline.ofSegments segments = o .done := by
  rw [Outline.ofSegments, h.fold]
  rfl

end Prepends

/-! ## Texts with their outlines -/

/-- A text on one line and what it puts before an outline, whatever comes after it. -/
structure Spans (line : Nat) (cs : List Char) (o : Outline → Outline) : Prop where
  oneLine : OneLine cs
  parts : ∃ segments, Parts line cs segments ∧ Prepends segments o

/-- A text on one line and what it puts before an outline, if the statement at its end ends
there. -/
structure Stands (line : Nat) (cs : List Char) (o : Outline → Outline) : Prop where
  oneLine : OneLine cs
  cuts : ∃ segments, Cuts line cs segments ∧ Prepends segments o

section

variable {line : Nat} {a b cs : List Char} {o p : Outline → Outline}

theorem Spans.stands (h : Spans line cs o) : Stands line cs o := by
  obtain ⟨segments, hparts, hprepends⟩ := h.parts
  exact ⟨h.oneLine, segments, hparts.cuts, hprepends⟩

theorem Spans.nil : Spans line [] id :=
  ⟨⟨fun _ => rfl, nofun⟩, [], .nil, .nil⟩

theorem Spans.append (ha : Spans line a o) (hb : Spans line b p) : Spans line (a ++ b) (o ∘ p) := by
  obtain ⟨segments, hparts, hprepends⟩ := ha.parts
  obtain ⟨more, hmore, hafter⟩ := hb.parts
  exact ⟨ha.oneLine.append hb.oneLine, _, hparts.append hmore, hprepends.append hafter⟩

theorem Spans.blank (h : Spans line cs o) : Spans line (' ' :: cs) o := by
  obtain ⟨segments, hparts, hprepends⟩ := h.parts
  have hblank : OneLine [' '] := .single (by decide) (by decide)
  exact ⟨hblank.append h.oneLine, segments, Segment.parts_blank.append hparts, hprepends⟩

theorem Stands.semicolon (h : Stands line cs o) : Spans line (cs ++ [';']) o := by
  obtain ⟨segments, hcuts, hprepends⟩ := h.cuts
  have hsemicolon : OneLine [';'] := .single (by decide) (by decide)
  exact ⟨h.oneLine.append hsemicolon, segments, hcuts.semicolon, hprepends⟩

/-- The text of a whole statement. -/
theorem stands_text (hf : Fragment 0 cs) (ht : Tight cs) :
    Stands line cs (.text line (String.ofList cs)) :=
  ⟨hf.toOneLine, _, Segment.cuts_text hf ht, .text line _⟩

/-- The head of a statement, before its body. -/
theorem Spans.head (hf : Fragment 0 cs) (ht : Tight cs) (hbody : Spans line ('{' :: a) o) :
    Spans line (cs ++ ' ' :: '{' :: a) (.text line (String.ofList cs) ∘ o) := by
  obtain ⟨segments, hparts, hprepends⟩ := hbody.parts
  have hblank : OneLine [' '] := .single (by decide) (by decide)
  exact ⟨hf.toOneLine.append (hblank.append hbody.oneLine), _, hparts.head hf ht,
    (Prepends.text line _).append hprepends⟩

/-- A block. -/
theorem Spans.block (h : Spans line cs o) :
    Spans line ('{' :: (cs ++ ['}'])) (.block line (o .done)) := by
  obtain ⟨segments, hparts, hprepends⟩ := h.parts
  have hopening : OneLine ['{'] := .single (by decide) (by decide)
  have hclosing : OneLine ['}'] := .single (by decide) (by decide)
  exact ⟨hopening.append (h.oneLine.append hclosing), _,
    Segment.parts_opening.append (hparts.append Segment.parts_closing), hprepends.block⟩

/-- Statements one after the other, each with a semicolon after it. -/
theorem Spans.sequence {α : Type} {f : α → List Char} {o : α → Outline → Outline} {xs : List α}
    (h : ∀ x ∈ xs, Stands line (f x) (o x)) :
    Spans line (xs.flatMap fun x => ' ' :: (f x ++ [';'])) fun rest => xs.foldr o rest := by
  induction xs with
  | nil => exact .nil
  | cons x xs ih =>
    exact (h x (by simp)).semicolon.blank.append (ih fun y hy => h y (List.mem_cons_of_mem x hy))

/-- The segments of a whole source text. -/
theorem Stands.segment_eq {source : String} (h : Stands 1 source.toList o) :
    ∃ segments, segment source = .ok segments ∧ Outline.ofSegments segments = o .done := by
  obtain ⟨segments, hcuts, hprepends⟩ := h.cuts
  refine ⟨segments, ?_, hprepends.ofSegments_eq⟩
  rw [segment, Segment.cut_eq h.oneLine hcuts, hprepends.checkBraces_eq]
  rfl

end

end MatrixLang
