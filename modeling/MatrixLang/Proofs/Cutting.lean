import MatrixLang.Proofs.LineTags
import MatrixLang.Proofs.Outlines

/-! # Segments of several lines

How the lines of a source text are cut into segments.  The carriage return at the end of a line
does not matter (`cutLine_dropReturn`).  The number of a line is only copied into its segments,
so the segments of two texts, the second on lines of its own, are those of each with the lines of
the second moved down (`cut_append`).  The lines of all segments are in order, and none is beyond
the last line of the text (`pairwise_line_cutLines`, `line_bounds_of_mem_cutLines`).
-/

namespace MatrixLang

namespace Segment

variable {g : Nat → Nat}

/-- A blank at the end of a statement is dropped. -/
theorem trim_blank_end {c : Char} (h : Text.isBlank c = true) (cs : List Char) :
    Text.trim (cs ++ [c]) = Text.trim cs := by
  unfold Text.trim
  rw [List.dropWhile_append]
  split
  · rename_i hempty
    rw [List.isEmpty_iff.mp hempty, List.dropWhile_cons_of_pos h]
    rfl
  · rw [List.reverse_append, List.reverse_singleton, List.singleton_append,
      List.dropWhile_cons_of_pos h]

theorem cutLine_blank_end {c : Char} (h : Text.isBlank c = true) (hopen : c ≠ '{')
    (hclose : c ≠ '}') (hsemicolon : c ≠ ';') (line : Nat) (depth : Int)
    (current cs : List Char) :
    cutLine line depth current (cs ++ [c]) = cutLine line depth current cs := by
  fun_induction cutLine line depth current cs with
  | case1 depth current =>
    rw [List.nil_append, cutLine, if_neg hopen, if_neg hclose, if_neg (fun hc => hsemicolon hc.1),
      cutLine, flush, List.reverse_cons, trim_blank_end h]
    rfl
  | case2 depth current cs ih => rw [List.cons_append, cutLine, if_pos rfl, ih]
  | case3 depth current cs hne ih =>
    rw [List.cons_append, cutLine, if_neg hne, if_pos rfl, ih]
  | case4 depth current d cs hne hne' hend ih =>
    rw [List.cons_append, cutLine, if_neg hne, if_neg hne', if_pos hend, ih]
  | case5 depth current d cs hne hne' hend ih =>
    rw [List.cons_append, cutLine, if_neg hne, if_neg hne', if_neg hend, ih]

/-- A character at the end of a line goes with its comment, or stays there. -/
theorem stripComment_append_single {c : Char} (hc : c ≠ '/') (cs : List Char) :
    stripComment (cs ++ [c]) = stripComment cs ∨
      stripComment (cs ++ [c]) = stripComment cs ++ [c] := by
  fun_induction stripComment cs with
  | case1 cs => exact .inl rfl
  | case2 d cs hslash ih =>
    have hstrip : stripComment (d :: cs ++ [c]) = d :: stripComment (cs ++ [c]) := by
      rw [List.cons_append, stripComment]
      intro tail hd htail
      cases cs with
      | nil => exact hc (List.cons.inj htail).1
      | cons e cs =>
        rw [List.cons_append] at htail
        exact hslash cs hd (by rw [(List.cons.inj htail).1])
    rw [hstrip]
    rcases ih with ih | ih
    · exact .inl (by rw [ih])
    · exact .inr (by rw [ih]; rfl)
  | case3 => exact .inr (by simp [stripComment])

/-- The carriage return at the end of a line does not matter. -/
theorem cutLine_dropReturn (line : Nat) (current : List Char) :
    cutLine line 0 [] (stripComment (Text.dropReturn current).reverse) =
      cutLine line 0 [] (stripComment current.reverse) := by
  unfold Text.dropReturn
  split
  · rename_i cs
    rw [List.reverse_cons]
    have hend := cutLine_blank_end (c := '\r') rfl (by decide) (by decide) (by decide) line 0 []
    rcases stripComment_append_single (c := '\r') (by decide) cs.reverse with h | h
    · rw [h]
    · rw [h, hend]
  · rfl

theorem flush_mapLine (line : Nat) (current : List Char) :
    flush (g line) current = (flush line current).map (mapLine g) := by
  unfold flush
  cases Text.trim current.reverse <;> rfl

theorem cutLine_mapLine (line : Nat) (depth : Int) (current cs : List Char) :
    cutLine (g line) depth current cs = (cutLine line depth current cs).map (mapLine g) := by
  fun_induction cutLine line depth current cs with
  | case1 depth current => rw [cutLine, flush_mapLine]
  | case2 depth current cs ih =>
    rw [cutLine, if_pos rfl, ih, flush_mapLine, List.map_append]
    rfl
  | case3 depth current cs hne ih =>
    rw [cutLine, if_neg hne, if_pos rfl, ih, flush_mapLine, List.map_append]
    rfl
  | case4 depth current d cs hne hne' hend ih =>
    rw [cutLine, if_neg hne, if_neg hne', if_pos hend, ih, flush_mapLine, List.map_append]
  | case5 depth current d cs hne hne' hend ih =>
    rw [cutLine, if_neg hne, if_neg hne', if_neg hend, ih]

/-- The line of a segment. -/
def line : Segment → Nat
  | .text line _ | .opening line | .closing line => line

@[simp] theorem line_mapLine (s : Segment) : (s.mapLine g).line = g s.line := by
  cases s <;> rfl

theorem line_of_mem_cutLine {n : Nat} {depth : Int} {current cs : List Char} {s : Segment}
    (h : s ∈ cutLine n depth current cs) : s.line = n := by
  rw [cutLine_mapLine (g := fun _ => n) n] at h
  obtain ⟨t, -, rfl⟩ := List.mem_map.mp h
  rw [line_mapLine]

theorem line_bounds_of_mem_cutLines {n : Nat} {ls : List (List Char)} {s : Segment}
    (h : s ∈ cutLines n ls) : n ≤ s.line ∧ s.line < n + ls.length := by
  induction ls generalizing n with
  | nil => cases h
  | cons l ls ih =>
    rw [List.length_cons]
    rcases List.mem_append.mp h with h | h
    · have hline := line_of_mem_cutLine h
      omega
    · have hlines := ih h
      omega

theorem pairwise_line_cutLines (n : Nat) (ls : List (List Char)) :
    ((cutLines n ls).map line).Pairwise (· ≤ ·) := by
  induction ls generalizing n with
  | nil => exact .nil
  | cons l ls ih =>
    rw [cutLines, List.map_append, List.pairwise_append]
    refine ⟨?_, ih (n + 1), ?_⟩
    · refine List.pairwise_map.mpr (List.pairwise_of_forall_mem_list fun s hs t ht => ?_)
      have hsame : s.line = t.line := by rw [line_of_mem_cutLine hs, line_of_mem_cutLine ht]
      exact Nat.le_of_eq hsame
    · intro a ha b hb
      obtain ⟨s, hs, rfl⟩ := List.mem_map.mp ha
      obtain ⟨t, ht, rfl⟩ := List.mem_map.mp hb
      have hbounds := line_bounds_of_mem_cutLines ht
      rw [line_of_mem_cutLine hs]
      omega

/-- Lines further down are cut in the same way. -/
theorem cutLines_add (line k : Nat) (ls : List (List Char)) :
    cutLines (line + k) ls = (cutLines line ls).map (mapLine (· + k)) := by
  induction ls generalizing line with
  | nil => rfl
  | cons l ls ih =>
    have hline := cutLine_mapLine (g := (· + k)) line 0 [] (stripComment l)
    rw [cutLines, cutLines, List.map_append, ← hline, ← ih, Nat.add_right_comm]

theorem cutLines_linesFrom_append (line : Nat) (current a b : List Char) :
    cutLines line (Text.linesFrom current (a ++ '\n' :: b)) =
      cutLines line (Text.linesFrom current a) ++
        cutLines (line + (a.count '\n' + 1)) (Text.linesFrom [] b) := by
  fun_induction Text.linesFrom current a generalizing line with
  | case1 =>
    have hempty : cutLine line 0 [] (stripComment []) = [] := flush_blank .nil
    rw [List.nil_append, Text.linesFrom, cutLines]
    show cutLine line 0 [] (stripComment []) ++ _ = _
    rw [hempty]
    rfl
  | case2 current hne =>
    rw [List.nil_append, Text.linesFrom, cutLines, cutLine_dropReturn, cutLines, cutLines,
      List.append_nil]
    rfl
  | case3 current cs ih =>
    rw [List.cons_append, Text.linesFrom, cutLines, cutLines, ih, List.append_assoc,
      List.count_cons_self]
    congr 3
    omega
  | case4 current c cs hne ih =>
    rw [List.cons_append, Text.linesFrom, ih, List.count_cons_of_ne hne]
    exact hne

/-- What is read off the segments of a text is what `scan` finds in it, if that is so line by line.
The characters of the first line that have been read are `current`. -/
theorem flatMap_cutLines {β : Type} {f : Segment → List β} {scan : Nat → List Char → List β}
    (hnil : ∀ line, scan line [] = [])
    (hline : ∀ line {l : List Char}, '\n' ∉ l →
      (cutLine line 0 [] (stripComment l)).flatMap f = scan line l)
    (hnewline : ∀ line {l : List Char} cs, '\n' ∉ l →
      scan line (l ++ '\n' :: cs) = scan line l ++ scan (line + 1) cs)
    {current : List Char} (h : '\n' ∉ current) (line : Nat) (cs : List Char) :
    (cutLines line (Text.linesFrom current cs)).flatMap f = scan line (current.reverse ++ cs) := by
  have hreverse {l : List Char} (hl : '\n' ∉ l) : '\n' ∉ l.reverse :=
    fun hmem => hl (List.mem_reverse.mp hmem)
  fun_induction Text.linesFrom current cs generalizing line with
  | case1 => exact (hnil line).symm
  | case2 current hne =>
    rw [cutLines, cutLines, List.append_nil, List.append_nil, hline line (hreverse h)]
  | case3 current cs ih =>
    rw [cutLines, List.flatMap_append, cutLine_dropReturn, hline line (hreverse h),
      hnewline line cs (hreverse h), ih List.not_mem_nil]
    rfl
  | case4 current c cs hne ih =>
    have hmore : '\n' ∉ c :: current := by
      rw [List.mem_cons]
      rintro (rfl | hmem)
      · exact hne rfl
      · exact h hmem
    rw [ih hmore, List.reverse_cons, List.append_assoc]
    rfl

/-- The segments of two texts, the second on lines of its own. -/
theorem cut_append (a b : String) : cut (a ++ "\n" ++ b) =
    cut a ++ (cut b).map (mapLine (· + (a.toList.count '\n' + 1))) := by
  have htext : (a ++ "\n" ++ b).toList = a.toList ++ '\n' :: b.toList := by simp
  rw [cut, htext, Text.lines, cutLines_linesFrom_append, cutLines_add]
  rfl

end Segment

end MatrixLang
