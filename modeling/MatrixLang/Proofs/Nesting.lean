import MatrixLang.Proofs.LineTags
import MatrixLang.Proofs.Outlines

/-! # Blocks and their braces

Segments pass the check of braces exactly if they are those of an outline, written out with a
pair of braces around the inside of every block (`nests_ofSegments`).  `Nests` says this of
segments and an outline; it follows the outline, so it is what an induction over segments whose
braces balance goes by.
-/

namespace MatrixLang

variable {segments more : List Segment} {o p : Outline}

/-! ## Outlines written out -/

/-- Segments that are those of an outline: every block is its inside in braces. -/
inductive Nests : List Segment → Outline → Prop where
  | done : Nests [] .done
  | text {line : Nat} {source : String} {segments : List Segment} {rest : Outline}
      (h : Nests segments rest) :
      Nests (.text line source :: segments) (.text line source rest)
  | block {line last : Nat} {segments more : List Segment} {inside rest : Outline}
      (hinside : Nests segments inside) (hrest : Nests more rest) :
      Nests (.opening line :: (segments ++ .closing last :: more)) (.block line inside rest)

/-- One outline after the other. -/
def Outline.append : Outline → Outline → Outline
  | .done, p => p
  | .text line source rest, p => .text line source (rest.append p)
  | .block line inside rest, p => .block line inside (rest.append p)

theorem Outline.append_done (o : Outline) : o.append .done = o := by
  induction o with
  | done => rfl
  | text line source rest ih => rw [append, ih]
  | block line inside rest _ ih => rw [append, ih]

namespace Nests

/-- Segments of an outline put it before the outline of what follows. -/
theorem prepends (h : Nests segments o) : Prepends segments o.append := by
  induction h with
  | done => exact .nil
  | text _ ih => exact (Prepends.text _ _).append ih
  | @block line last segments more inside rest _ _ ihinside ihrest =>
    have hblock : Prepends (.opening line :: (segments ++ [.closing last]) ++ more) _ :=
      ihinside.block.append ihrest
    rw [Outline.append_done, List.cons_append, List.append_assoc] at hblock
    exact hblock

theorem append (ho : Nests segments o) (hp : Nests more p) :
    Nests (segments ++ more) (o.append p) := by
  induction ho with
  | done => exact hp
  | text _ ih => exact .text ih
  | block hinside _ _ ih =>
    rw [List.cons_append, List.append_assoc, List.cons_append]
    exact .block hinside ih

theorem mapLines (h : Nests segments o) (g : Nat → Nat) :
    Nests (segments.map (Segment.mapLine g)) (o.mapLines g) := by
  induction h with
  | done => exact .done
  | text _ ih => exact .text ih
  | block _ _ ihinside ihrest =>
    rw [List.map_cons, List.map_append, List.map_cons]
    exact .block ihinside ihrest

theorem checkBraces_eq (h : Nests segments o) : Segment.checkBraces [] segments = .ok () :=
  h.prepends.checkBraces_eq

theorem ofSegments_eq (h : Nests segments o) : Outline.ofSegments segments = o := by
  rw [h.prepends.ofSegments_eq, Outline.append_done]

theorem startsWithBlock_iff (h : Nests segments o) :
    o.startsWithBlock = true ↔ ∃ line, segments.head? = some (.opening line) := by
  cases h with
  | done => simp [Outline.startsWithBlock]
  | text h => simp [Outline.startsWithBlock]
  | block hinside hrest => simp [Outline.startsWithBlock]

end Nests

/-! ## Segments whose braces balance -/

/-- Segments that close `n` blocks which were opened before them. -/
inductive Closes : Nat → List Segment → Prop where
  | last {segments : List Segment} {o : Outline} (h : Nests segments o) : Closes 0 segments
  | next {n line : Nat} {segments more : List Segment} {o : Outline} (h : Nests segments o)
      (hmore : Closes n more) : Closes (n + 1) (segments ++ .closing line :: more)

theorem Closes.text {n line : Nat} {source : String} (h : Closes n segments) :
    Closes n (.text line source :: segments) := by
  cases h with
  | last h => exact .last h.text
  | next h hmore => exact .next h.text hmore

/-- The first block that is closed is the one that was opened last. -/
theorem Closes.opening {n line : Nat} (h : Closes (n + 1) segments) :
    Closes n (.opening line :: segments) := by
  cases h with
  | @next _ first inside _ _ hinside hmore =>
    cases hmore with
    | last hrest => exact .last (.block hinside hrest)
    | @next n second rest more _ hrest hmore =>
      have hnext : Closes (n + 1) (.opening line :: (inside ++ .closing first :: rest) ++
          .closing second :: more) := .next (.block hinside hrest) hmore
      rwa [List.cons_append, List.append_assoc, List.cons_append] at hnext

theorem closes_of_checkBraces {opened : List Nat}
    (h : Segment.checkBraces opened segments = .ok ()) : Closes opened.length segments := by
  fun_induction Segment.checkBraces opened segments with
  | case1 => exact .last .done
  | case2 => cases h
  | case3 opened line source segments ih => exact (ih h).text
  | case4 opened line segments ih => exact (ih h).opening
  | case5 => cases h
  | case6 line segments first opened ih => exact .next .done (ih h)

/-- Segments that pass the check of braces are those of their outline. -/
theorem nests_ofSegments (h : Segment.checkBraces [] segments = .ok ()) :
    Nests segments (Outline.ofSegments segments) := by
  cases closes_of_checkBraces h with
  | last hnests => exact hnests.ofSegments_eq.symm ▸ hnests

end MatrixLang
