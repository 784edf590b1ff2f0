import MatrixLang.Proofs.Cutting
import MatrixLang.Proofs.Guarded
import MatrixLang.Proofs.Nesting

/-! # Guarded cutting

Cutting a source text once more, in one go: the braces are counted while the text is cut, and the
depth of parentheses and brackets is kept in a word of 32 bits, which overflows where a line opens
or closes too many of them.  That takes 2147483648 of them in one line (`Segment.Deep`), and a text
that has no such line is cut as `segment` cuts it (`followsUnless_segment`).
-/

namespace MatrixLang

/-! ## Depths -/

/-- A depth is out of the range of its word, for which there is a reason. -/
def Fault.TooDeep (reason : Prop) (fault : Fault) : Prop :=
  fault = .overflow .signed32 ∧ reason

theorem givesUnless_depth {reason : Prop} {depth : Int}
    (h : 2147483648 ≤ depth.natAbs → reason) :
    GivesUnless (Fault.TooDeep reason) (Guarded.fit .machine .signed32 depth) depth := by
  by_cases hholds : Word.signed32.Holds depth
  · exact .inl (if_pos hholds)
  · refine .inr ⟨.overflow .signed32, ⟨rfl, h (Nat.le_of_not_lt fun hsmall => hholds ?_)⟩,
      if_neg hholds⟩
    exact ⟨show -2147483648 ≤ depth by omega, show depth ≤ 2147483647 by omega⟩

namespace Segment

variable {line : Nat} {current cs : List Char}

/-- Whether a character changes the depth. -/
def isBracket (c : Char) : Bool :=
  c = '(' || c = '[' || c = ')' || c = ']'

/-- The number of parentheses and brackets in a text. -/
def brackets (cs : List Char) : Nat :=
  cs.countP isBracket

/-- A source text with a line of at least 2147483648 parentheses and brackets, those in a comment
left out. -/
def Deep (source : String) : Prop :=
  ∃ l ∈ Text.lines source.toList, 2147483648 ≤ brackets (stripComment l)

instance (source : String) : Decidable (Deep source) :=
  inferInstanceAs (Decidable (∃ l ∈ Text.lines source.toList, _))

/-- One character makes a difference of one. -/
theorem natAbs_depthAfter_le (depth : Int) (c : Char) (cs : List Char) :
    (depthAfter depth c).natAbs + brackets cs ≤ depth.natAbs + brackets (c :: cs) := by
  rw [brackets, brackets, List.countP_cons, depthAfter]
  by_cases hopen : c = '(' ∨ c = '['
  · have hc : isBracket c = true := by
      rcases hopen with rfl | rfl <;> rfl
    rw [if_pos hopen, if_pos hc]
    omega
  · rw [if_neg hopen]
    by_cases hclose : c = ')' ∨ c = ']'
    · have hc : isBracket c = true := by
        rcases hclose with rfl | rfl <;> rfl
      rw [if_pos hclose, if_pos hc]
      omega
    · rw [if_neg hclose]
      omega

/-! ## Texts and lines -/

theorem trim_sublist (cs : List Char) : (Text.trim cs).Sublist cs := by
  have hend := (List.dropWhile_suffix (l := (cs.dropWhile Text.isBlank).reverse)
    Text.isBlank).sublist.reverse
  rw [List.reverse_reverse] at hend
  exact hend.trans (List.dropWhile_suffix _).sublist

theorem text_sublist_of_mem_flush {n : Nat} {source : String}
    (h : .text n source ∈ flush line current) : source.toList.Sublist current.reverse := by
  have htrim := trim_sublist current.reverse
  unfold flush at h
  split at h
  · cases h
  · cases List.mem_singleton.mp h
    rwa [String.toList_ofList]

/-- Where something is cut off, a text was in hand before it or comes after it. -/
theorem text_sublist_around {n : Nat} {c : Char} {source : String} {segments : List Segment}
    (h : .text n source ∈ flush line current ∨ .text n source ∈ segments)
    (hafter : .text n source ∈ segments → source.toList.Sublist cs) :
    source.toList.Sublist (current.reverse ++ c :: cs) := by
  rcases h with h | h
  · exact (text_sublist_of_mem_flush h).trans (List.sublist_append_left _ _)
  · exact (hafter h).trans ((List.sublist_cons_self c cs).trans (List.sublist_append_right _ _))

/-- A text is taken out of the characters in hand and those to come. -/
theorem text_sublist_of_mem_cutLine {n : Nat} {depth : Int} {source : String}
    (h : .text n source ∈ cutLine line depth current cs) :
    source.toList.Sublist (current.reverse ++ cs) := by
  fun_induction cutLine line depth current cs with
  | case1 depth current =>
    rw [List.append_nil]
    exact text_sublist_of_mem_flush h
  | case2 depth current cs ih | case3 depth current cs hne ih =>
    simp only [List.mem_append, List.mem_cons, reduceCtorEq, false_or] at h
    exact text_sublist_around h ih
  | case4 depth current c cs hne hne' hend ih =>
    exact text_sublist_around (List.mem_append.mp h) ih
  | case5 depth current c cs hne hne' hend ih =>
    have hnext := ih h
    rwa [List.reverse_cons, List.append_assoc] at hnext

theorem text_sublist_of_mem_cutLines {n : Nat} {ls : List (List Char)} {source : String}
    (h : .text n source ∈ cutLines line ls) :
    ∃ l ∈ ls, source.toList.Sublist (stripComment l) := by
  induction ls generalizing line with
  | nil => cases h
  | cons l ls ih =>
    rcases List.mem_append.mp h with h | h
    · exact ⟨l, List.mem_cons_self, text_sublist_of_mem_cutLine h⟩
    · obtain ⟨l', hl', hsub⟩ := ih h
      exact ⟨l', List.mem_cons_of_mem l hl', hsub⟩

theorem stripComment_sublist (l : List Char) : (stripComment l).Sublist l := by
  fun_induction stripComment l with
  | case1 cs => exact List.nil_sublist _
  | case2 c cs hslash ih => exact ih.cons_cons c
  | case3 => exact .refl []

theorem dropReturn_sublist (cs : List Char) : (Text.dropReturn cs).Sublist cs := by
  unfold Text.dropReturn
  split
  · exact List.sublist_cons_self _ _
  · exact .refl _

theorem sublist_of_mem_linesFrom {l : List Char} (h : l ∈ Text.linesFrom current cs) :
    l.Sublist (current.reverse ++ cs) := by
  fun_induction Text.linesFrom current cs with
  | case1 => cases h
  | case2 current hne =>
    rw [List.mem_singleton.mp h]
    exact List.sublist_append_left _ _
  | case3 current cs ih =>
    rcases List.mem_cons.mp h with rfl | h
    · exact (dropReturn_sublist current).reverse.trans (List.sublist_append_left _ _)
    · exact (ih h).trans ((List.sublist_cons_self _ _).trans (List.sublist_append_right _ _))
  | case4 current c cs hne ih =>
    have hnext := ih h
    rwa [List.reverse_cons, List.append_assoc] at hnext

/-- **Every text of a source is taken out of one of its lines.** -/
theorem text_sublist_of_mem_cut {n : Nat} {source text : String} (h : .text n text ∈ cut source) :
    ∃ l ∈ Text.lines source.toList, text.toList.Sublist (stripComment l) ∧
      text.toList.Sublist source.toList := by
  obtain ⟨l, hl, hsub⟩ := text_sublist_of_mem_cutLines h
  exact ⟨l, hl, hsub, hsub.trans ((stripComment_sublist l).trans (sublist_of_mem_linesFrom hl))⟩

/-! ## Open braces -/

/-- Closes the innermost of the braces that were opened in some lines. -/
def closeBrace (line : Nat) : List Nat → Except Failure (List Nat)
  | [] => throw ⟨.compile, line, .unbalancedBraces⟩
  | _ :: opened => return opened

/-- The lines of the braces that are open after some segments, where `opened` were open before. -/
def openAfter (opened : List Nat) : List Segment → Except Failure (List Nat)
  | [] => return opened
  | .text .. :: segments => openAfter opened segments
  | .opening line :: segments => openAfter (line :: opened) segments
  | .closing line :: segments => do
    let opened ← closeBrace line opened
    openAfter opened segments

theorem openAfter_flush (opened : List Nat) (line : Nat) (current : List Char)
    (segments : List Segment) :
    openAfter opened (flush line current ++ segments) = openAfter opened segments := by
  unfold flush
  split <;> rfl

/-- Braces are checked up to some place, and on from there. -/
theorem checkBraces_append (opened : List Nat) (segments more : List Segment) :
    checkBraces opened (segments ++ more) =
      openAfter opened segments >>= fun opened => checkBraces opened more := by
  induction segments generalizing opened with
  | nil => rfl
  | cons s segments ih =>
    cases s with
    | text line source => exact ih opened
    | opening line => exact ih (line :: opened)
    | closing line =>
      cases opened with
      | nil => rfl
      | cons first opened => exact ih opened

end Segment

namespace Guarded

open Fault (TooDeep)
open Segment (brackets closeBrace flush openAfter)

/-! ## Cutting -/

/-- The segments of the rest of a line, and the lines of the braces that are open after it. -/
def cutLine (line : Nat) (depth : Int) (current : List Char) (opened : List Nat) :
    List Char → ExceptT Failure Guarded (List Segment × List Nat)
  | [] => return (flush line current, opened)
  | c :: cs =>
    if c = '{' then do
      let (segments, opened) ← cutLine line depth [] (line :: opened) cs
      return (flush line current ++ .opening line :: segments, opened)
    else if c = '}' then do
      let opened ← plain (closeBrace line opened)
      let (segments, opened) ← cutLine line depth [] opened cs
      return (flush line current ++ .closing line :: segments, opened)
    else if c = ';' ∧ depth ≤ 0 then do
      let (segments, opened) ← cutLine line depth [] opened cs
      return (flush line current ++ segments, opened)
    else do
      let depth ← fit .machine .signed32 (Segment.depthAfter depth c)
      cutLine line depth (c :: current) opened cs

/-- The segments of several lines, the first of which has number `line`. -/
def cutLines (line : Nat) (opened : List Nat) :
    List (List Char) → ExceptT Failure Guarded (List Segment)
  | [] =>
    match opened with
    | [] => return []
    | line :: _ => throw ⟨.compile, line, .unbalancedBraces⟩
  | l :: ls => do
    let (segments, opened) ← cutLine line 0 [] opened (Segment.stripComment l)
    let rest ← cutLines (line + 1) opened ls
    return segments ++ rest

/-- The segments of a source text, if its braces balance. -/
def segment (source : String) : ExceptT Failure Guarded (List Segment) :=
  cutLines 1 [] (Text.lines source.toList)

/-- **One character after the other**, the depth is the number that it should be, or there have
been too many brackets for its word. -/
theorem followsUnless_cutLine {reason : Prop} (depth : Int) {cs : List Char}
    (h : 2147483648 ≤ depth.natAbs + brackets cs → reason) (line : Nat) (current : List Char)
    (opened : List Nat) :
    FollowsUnless (TooDeep reason) (cutLine line depth current opened cs)
      ((Segment.cutLine line depth current cs, ·) <$>
        openAfter opened (Segment.cutLine line depth current cs)) := by
  induction cs generalizing depth current opened with
  | nil =>
    have hopened := Segment.openAfter_flush opened line current []
    rw [List.append_nil] at hopened
    rw [Segment.cutLine, hopened]
    exact .of_follows (.pure _)
  | cons c cs ih =>
    -- where something is cut off, the depth stays
    have hcut (opened : List Nat) := ih depth (fun hdeep => h (Nat.le_trans hdeep
      (Nat.add_le_add_left (List.sublist_cons_self c cs).countP_le _))) [] opened
    rw [cutLine, Segment.cutLine]
    by_cases hopen : c = '{'
    · rw [if_pos hopen, if_pos hopen, Segment.openAfter_flush]
      have hrest := (hcut (line :: opened)).map fun r =>
        (flush line current ++ .opening line :: r.1, r.2)
      rwa [Functor.map_map] at hrest
    rw [if_neg hopen, if_neg hopen]
    by_cases hclose : c = '}'
    · rw [if_pos hclose, if_pos hclose, Segment.openAfter_flush]
      rw [openAfter, map_bind]
      refine .bind (.of_follows (.plain _)) fun opened _ => ?_
      have hrest := (hcut opened).map fun r => (flush line current ++ .closing line :: r.1, r.2)
      rwa [Functor.map_map] at hrest
    rw [if_neg hclose, if_neg hclose]
    by_cases hend : c = ';' ∧ depth ≤ 0
    · rw [if_pos hend, if_pos hend, Segment.openAfter_flush]
      have hrest := (hcut opened).map fun r => (flush line current ++ r.1, r.2)
      rwa [Functor.map_map] at hrest
    · rw [if_neg hend, if_neg hend]
      have hnext := Segment.natAbs_depthAfter_le depth c cs
      refine .step (givesUnless_depth fun hdeep => h (by omega)) ?_
      exact ih _ (fun hdeep => h (by omega)) (c :: current) opened

/-- Line after line, the braces that are open are handed on. -/
theorem followsUnless_cutLines {reason : Prop} {ls : List (List Char)}
    (h : ∀ l ∈ ls, 2147483648 ≤ brackets (Segment.stripComment l) → reason) (line : Nat)
    (opened : List Nat) :
    FollowsUnless (TooDeep reason) (cutLines line opened ls) (do
      Segment.checkBraces opened (Segment.cutLines line ls)
      return Segment.cutLines line ls) := by
  induction ls generalizing line opened with
  | nil =>
    cases opened with
    | nil => exact .of_follows (.pure _)
    | cons first opened => exact .of_follows (.throw _)
  | cons l ls ih =>
    obtain ⟨hl, hls⟩ := List.forall_mem_cons.mp h
    have hline := followsUnless_cutLine 0
      (fun hdeep => hl (by rwa [Int.natAbs_zero, Nat.zero_add] at hdeep)) line [] opened
    have hrest := hline.bind fun r _ => (ih hls (line + 1) r.2).map (r.1 ++ ·)
    simp only [bind_map_left, map_bind, map_pure] at hrest
    rw [Segment.cutLines, Segment.checkBraces_append, bind_assoc]
    exact hrest

/-- **A text is cut as it should be, unless a line of it is too deep.** -/
theorem followsUnless_segment (source : String) :
    FollowsUnless (TooDeep (Segment.Deep source)) (segment source) (MatrixLang.segment source) :=
  followsUnless_cutLines (fun l hl hdeep => ⟨l, hl, hdeep⟩) 1 []

/-- A row of parentheses that are all opened. -/
theorem cutLine_replicate (line : Nat) (opened : List Nat) {n : Nat} (depth : Int)
    (hlow : 0 ≤ depth) (hhigh : depth ≤ 2147483647) (h : 2147483648 ≤ depth + n)
    (current : List Char) :
    (cutLine line depth current opened (List.replicate n '(')).run =
      .error (.overflow .signed32) := by
  induction n generalizing depth current with
  | zero => omega
  | succ n ih =>
    rw [List.replicate_succ, cutLine, if_neg (by decide), if_neg (by decide), if_neg (by simp)]
    have hdepth : Segment.depthAfter depth '(' = depth + 1 := rfl
    rw [hdepth]
    by_cases hlast : depth = 2147483647
    · subst hlast
      rfl
    · have hfit : fit .machine .signed32 (depth + 1) = .ok (depth + 1) :=
        if_pos ⟨show -2147483648 ≤ depth + 1 by omega, show depth + 1 ≤ 2147483647 by omega⟩
      rw [hfit]
      exact ih _ (by omega) (by omega) (by omega) ('(' :: current)

/-- A depth does get out of the range of its word. -/
theorem segment_replicate {n : Nat} (h : 2147483648 ≤ n) :
    (segment (String.ofList (List.replicate n '('))).run = .error (.overflow .signed32) := by
  have hmem {c : Char} (hc : c ≠ '(') : c ∉ List.replicate n '(' :=
    fun hmem => hc (List.eq_of_mem_replicate hmem)
  have hlines : Text.lines (List.replicate n '(') = [List.replicate n '('] :=
    Segment.linesFrom_eq (hmem (by decide)) (.inr (by simp; omega))
  have hstrip (k : Nat) :
      Segment.stripComment (List.replicate k '(') = List.replicate k '(' := by
    induction k with
    | zero => rfl
    | succ k ih => rw [List.replicate_succ, Segment.stripComment_cons (by decide), ih]
  have hcut := cutLine_replicate 1 [] 0 (Int.le_refl 0) (by decide)
    (show (2147483648 : Int) ≤ 0 + n by omega) []
  rw [segment, String.toList_ofList, hlines, cutLines, hstrip]
  show (cutLine 1 0 [] [] (List.replicate n '(')).run >>= _ = _
  rw [hcut]
  rfl

end Guarded

end MatrixLang
