import MatrixLang.Segment

/-! # Texts that stay in one segment

The characters of an expression pass through the cutting of a source text unchanged: they
hold no brace, no comment and no line end, and a semicolon only between brackets
(`Fragment`).  What is cut off at the end is trimmed, which leaves a text that neither starts
nor ends with a blank as it is (`Tight`).
-/

namespace MatrixLang.Segment

/-- Characters with no comment and no line end among them. -/
structure OneLine (cs : List Char) : Prop where
  comment : ∀ rest, stripComment (cs ++ rest) = cs ++ stripComment rest
  newline : '\n' ∉ cs

/-- Characters that stay in the statement they are in, where at least `least` parentheses and
brackets are open. -/
structure Fragment (least : Int) (cs : List Char) : Prop extends OneLine cs where
  cut : ∀ line depth current rest, least ≤ depth →
    cutLine line depth current (cs ++ rest) = cutLine line depth (cs.reverse ++ current) rest

theorem stripComment_cons {c : Char} (h : c ≠ '/') (rest : List Char) :
    stripComment (c :: rest) = c :: stripComment rest := by
  rw [stripComment]
  rintro _ rfl
  exact absurd rfl h

namespace OneLine

variable {a b : List Char}

theorem single {c : Char} (hslash : c ≠ '/') (hnewline : c ≠ '\n') : OneLine [c] where
  comment := stripComment_cons hslash
  newline := by simpa using hnewline.symm

theorem append (ha : OneLine a) (hb : OneLine b) : OneLine (a ++ b) where
  comment rest := by rw [List.append_assoc, ha.comment, hb.comment, List.append_assoc]
  newline h := (List.mem_append.mp h).elim ha.newline hb.newline

end OneLine

namespace Fragment

variable {least : Int} {a b cs : List Char}

theorem nil : Fragment least [] where
  comment _ := rfl
  newline := nofun
  cut _ _ _ _ _ := rfl

theorem append (ha : Fragment least a) (hb : Fragment least b) : Fragment least (a ++ b) where
  toOneLine := ha.toOneLine.append hb.toOneLine
  cut line depth current rest h := by
    rw [List.append_assoc, ha.cut _ _ _ _ h, hb.cut _ _ _ _ h]
    simp

/-- What stays together outside parentheses does so inside. -/
theorem inside (h : Fragment 0 cs) : Fragment 1 cs where
  toOneLine := h.toOneLine
  cut line depth current rest hd := h.cut line depth current rest (by omega)

/-- The characters that mean something to the cutting of a text. -/
def marks : List Char :=
  ['(', ')', '[', ']', '{', '}', ';', '/', '\n']

theorem single {c : Char} (h : c ∉ marks) : Fragment least [c] where
  toOneLine := .single (by rintro rfl; exact h (by decide)) (by rintro rfl; exact h (by decide))
  cut line depth current rest _ := by
    simp only [marks, List.mem_cons, List.not_mem_nil, or_false, not_or] at h
    simp [cutLine, depthAfter, h]

theorem ofPlain (h : ∀ c ∈ cs, c ∉ marks) : Fragment least cs := by
  induction cs with
  | nil => exact nil
  | cons c cs ih =>
    exact (single (h c (by simp))).append (ih fun d hd => h d (List.mem_cons_of_mem c hd))

theorem plain (h : (cs.all fun c => decide (c ∉ marks)) = true) : Fragment least cs :=
  ofPlain (by simpa using h)

/-- A slash with a blank after it starts no comment. -/
theorem slash : Fragment least ['/', ' '] where
  comment rest := by simp [stripComment]
  newline := by decide
  cut line depth current rest _ := by simp [cutLine, depthAfter]

/-- A semicolon inside parentheses or brackets ends no statement. -/
theorem semicolon : Fragment 1 [';'] where
  toOneLine := .single (by decide) (by decide)
  cut line depth current rest h := by
    have hdepth : ¬ depth ≤ 0 := by omega
    simp [cutLine, depthAfter, hdepth]

/-- A semicolon may stand inside a group. -/
theorem group {o c : Char} (ho : o = '(' ∨ o = '[') (hc : c = ')' ∨ c = ']') (h : Fragment 1 cs) :
    Fragment 0 (o :: (cs ++ [c])) where
  toOneLine := by
    have hopen : OneLine [o] := by
      rcases ho with rfl | rfl <;> exact .single (by decide) (by decide)
    have hclose : OneLine [c] := by
      rcases hc with rfl | rfl <;> exact .single (by decide) (by decide)
    exact hopen.append (h.toOneLine.append hclose)
  cut line depth current rest hd := by
    have hopen (rest : List Char) :
        cutLine line depth current (o :: rest) = cutLine line (depth + 1) (o :: current) rest := by
      rcases ho with rfl | rfl <;> simp [cutLine, depthAfter]
    have hclose (current : List Char) :
        cutLine line (depth + 1) current (c :: rest) = cutLine line depth (c :: current) rest := by
      rcases hc with rfl | rfl <;> simp [cutLine, depthAfter]
    rw [List.cons_append, List.append_assoc, hopen, h.cut _ _ _ _ (by omega),
      List.singleton_append, hclose]
    simp

theorem parens (h : Fragment 1 cs) : Fragment 0 ('(' :: (cs ++ [')'])) :=
  group (.inl rfl) (.inl rfl) h

theorem brackets (h : Fragment 1 cs) : Fragment 0 ('[' :: (cs ++ [']'])) :=
  group (.inr rfl) (.inr rfl) h

end Fragment

/-! ## Trimming -/

/-- A text with no blank at either end. -/
structure Tight (cs : List Char) : Prop where
  ne_nil : cs ≠ []
  first : ∀ c ∈ cs.head?, Text.isBlank c = false
  last : ∀ c ∈ cs.getLast?, Text.isBlank c = false

namespace Tight

variable {a b cs : List Char}

theorem single {c : Char} (h : Text.isBlank c = false) : Tight [c] :=
  ⟨by simp, by simpa, by simpa⟩

/-- Only the two ends count. -/
theorem around (ha : Tight a) (hb : Tight b) (middle : List Char) : Tight (a ++ (middle ++ b)) where
  ne_nil := by simp [ha.ne_nil]
  first c hc := by
    obtain ⟨x, tail, rfl⟩ := List.exists_cons_of_ne_nil ha.ne_nil
    exact ha.first c hc
  last c hc := by
    rw [← List.append_assoc, List.getLast?_append, List.getLast?_eq_some_getLast hb.ne_nil,
      Option.some_or, ← List.getLast?_eq_some_getLast] at hc
    exact hb.last c hc

theorem append (ha : Tight a) (hb : Tight b) : Tight (a ++ b) := by
  simpa using ha.around hb []

theorem ofAll (hne : cs ≠ []) (h : ∀ c ∈ cs, Text.isBlank c = false) : Tight cs :=
  ⟨hne, fun c hc => h c (List.mem_of_mem_head? hc), fun c hc => h c (List.mem_of_getLast? hc)⟩

/-- Blanks around a tight text are trimmed off. -/
theorem trim (h : Tight cs) {before after : List Char} (hb : ∀ c ∈ before, Text.isBlank c = true)
    (ha : ∀ c ∈ after, Text.isBlank c = true) : Text.trim (before ++ (cs ++ after)) = cs := by
  obtain ⟨c, tail, rfl⟩ := List.exists_cons_of_ne_nil h.ne_nil
  have hfirst : Text.isBlank c = false := h.first c rfl
  have hdrop : (c :: tail).reverse.dropWhile Text.isBlank = (c :: tail).reverse := by
    obtain ⟨d, hd⟩ : ∃ d, (c :: tail).getLast? = some d :=
      ⟨_, List.getLast?_eq_some_getLast (by simp)⟩
    have hlast := h.last d hd
    rw [← List.head?_reverse] at hd
    cases hr : (c :: tail).reverse with
    | nil => rfl
    | cons x xs =>
      rw [hr] at hd
      obtain rfl : x = d := Option.some.inj hd
      simp [hlast]
  rw [Text.trim, List.dropWhile_append_of_pos hb, List.cons_append,
    List.dropWhile_cons_of_neg (by simp [hfirst]), ← List.cons_append, List.reverse_append,
    List.dropWhile_append_of_pos (by simpa using ha), hdrop, List.reverse_reverse]

end Tight

end MatrixLang.Segment
