import Mathlib.Data.List.Basic
import MatrixLang.Proofs.Cutting

/-! # Which braces balance

The braces of a source text are read off its characters, those in comments left out (`braces`).
They balance if they pair up (`Matched`).  Where they do not, the fault is the first closing
brace at which none is open; or, if there is no such brace, the last opening one that is never
closed (`FaultAt`).

The check goes over segments and keeps the lines of the open braces.  What it has passed is
matched pieces with an open brace between each two (`Leaves`), which is all that is needed to see
that it accepts exactly braces that balance and otherwise finds the fault
(`checkBraces_eq_ok_iff`, `fault_of_checkBraces`).
-/

namespace MatrixLang

/-- A brace in a line. -/
structure Brace where
  opens : Bool
  line : Nat
deriving DecidableEq, Repr

namespace Brace

variable {a b bs inside more : List Brace}

/-! ## Matched braces -/

/-- Braces that pair up. -/
inductive Matched : List Brace → Prop where
  | nil : Matched []
  | pair {line last : Nat} {inside rest : List Brace} (hinside : Matched inside)
      (hrest : Matched rest) : Matched (⟨true, line⟩ :: (inside ++ ⟨false, last⟩ :: rest))

/-- A brace among these is still open after them. -/
def LeavesOpen (bs : List Brace) : Prop :=
  ∃ outer line inside, bs = outer ++ ⟨true, line⟩ :: inside ∧ Matched inside

/-- A brace that is open before these is closed by one of them. -/
def ClosesOne (bs : List Brace) : Prop :=
  ∃ inside line rest, bs = inside ++ ⟨false, line⟩ :: rest ∧ Matched inside

/-- The first closing brace at which none is open stands in a line. -/
def FirstUnopened (bs : List Brace) (line : Nat) : Prop :=
  ∃ before after, bs = before ++ ⟨false, line⟩ :: after ∧ ¬ LeavesOpen before ∧
    ∀ earlier other rest, before = earlier ++ ⟨false, other⟩ :: rest → LeavesOpen earlier

/-- The last opening brace that is never closed stands in a line. -/
def LastUnclosed (bs : List Brace) (line : Nat) : Prop :=
  ∃ before after, bs = before ++ ⟨true, line⟩ :: after ∧ ¬ ClosesOne after ∧
    ∀ between other rest, after = between ++ ⟨true, other⟩ :: rest → ClosesOne rest

/-- Where braces that do not balance are at fault. -/
def FaultAt (bs : List Brace) (line : Nat) : Prop :=
  FirstUnopened bs line ∨ (∀ other, ¬ FirstUnopened bs other) ∧ LastUnclosed bs line

theorem LeavesOpen.after (h : LeavesOpen b) (a : List Brace) : LeavesOpen (a ++ b) := by
  obtain ⟨outer, line, inside, rfl, hinside⟩ := h
  exact ⟨a ++ outer, line, inside, (List.append_assoc ..).symm, hinside⟩

theorem ClosesOne.before (h : ClosesOne a) (b : List Brace) : ClosesOne (a ++ b) := by
  obtain ⟨inside, line, rest, rfl, hinside⟩ := h
  exact ⟨inside, line, rest ++ b, List.append_assoc .., hinside⟩

/-- The brace after `c` and before `d` is to the left of, at, or to the right of the one after `a`
and before `b`. -/
theorem append_cons_cases {α : Type} {a b c d : List α} {x y : α}
    (h : a ++ x :: b = c ++ y :: d) :
    (∃ m, a = c ++ y :: m ∧ d = m ++ x :: b) ∨ (a = c ∧ x = y ∧ b = d) ∨
      ∃ m, c = a ++ x :: m ∧ b = m ++ y :: d := by
  rcases List.append_eq_append_iff.mp h with ⟨m, hc, hm⟩ | ⟨m, ha, hm⟩
  · cases m with
    | nil =>
      obtain ⟨rfl, rfl⟩ := List.cons.inj hm
      exact .inr (.inl ⟨by rw [hc, List.append_nil], rfl, rfl⟩)
    | cons z m =>
      obtain ⟨rfl, rfl⟩ := List.cons.inj hm
      exact .inr (.inr ⟨m, hc, rfl⟩)
  · cases m with
    | nil =>
      obtain ⟨rfl, rfl⟩ := List.cons.inj hm
      exact .inr (.inl ⟨by rw [ha, List.append_nil], rfl, rfl⟩)
    | cons z m =>
      obtain ⟨rfl, rfl⟩ := List.cons.inj hm
      exact .inl ⟨m, ha, rfl⟩

/-- How many more braces are opened than closed. -/
def height : List Brace → Int
  | [] => 0
  | b :: bs => (if b.opens then 1 else -1) + height bs

@[simp] theorem height_opening (line : Nat) (bs : List Brace) :
    height (⟨true, line⟩ :: bs) = 1 + height bs := rfl

@[simp] theorem height_closing (line : Nat) (bs : List Brace) :
    height (⟨false, line⟩ :: bs) = -1 + height bs := rfl

theorem height_append (a b : List Brace) : height (a ++ b) = height a + height b := by
  induction a with
  | nil => simp [height]
  | cons x a ih => rw [List.cons_append, height, height, ih, Int.add_assoc]

namespace Matched

theorem append (ha : Matched a) (hb : Matched b) : Matched (a ++ b) := by
  induction ha with
  | nil => exact hb
  | pair hinside _ _ ih =>
    rw [List.cons_append, List.append_assoc, List.cons_append]
    exact .pair hinside ih

theorem height_eq (h : Matched bs) : height bs = 0 := by
  induction h with
  | nil => rfl
  | pair _ _ ihinside ihrest =>
    rw [height_opening, height_append, height_closing, ihinside, ihrest]
    rfl

/-- Nowhere are more braces closed than opened before. -/
theorem height_nonneg (h : Matched bs) (hbs : bs = a ++ b) : 0 ≤ height a := by
  induction h generalizing a b with
  | nil =>
    rw [(List.nil_eq_append_iff.mp hbs).1]
    exact Int.le_refl 0
  | @pair line last inside rest hinside _ ihinside ihrest =>
    cases a with
    | nil => exact Int.le_refl 0
    | cons x a =>
      obtain ⟨rfl, htail⟩ := List.cons.inj hbs
      rw [height_opening]
      rcases List.append_eq_append_iff.mp htail with ⟨m, rfl, hm⟩ | ⟨m, hm, -⟩
      · rw [height_append, hinside.height_eq]
        cases m with
        | nil => exact Int.le_of_lt Int.zero_lt_one
        | cons y m =>
          obtain ⟨rfl, hrest⟩ := List.cons.inj hm
          have hnonneg := ihrest hrest
          rw [height_closing]
          omega
      · have hnonneg := ihinside hm
        omega

/-- After matched braces none is open. -/
theorem not_leavesOpen (h : Matched bs) : ¬ LeavesOpen bs := by
  rintro ⟨outer, line, inside, hbs, hinside⟩
  have hheight := h.height_eq
  have houter := h.height_nonneg hbs
  rw [hbs, height_append, height_opening, hinside.height_eq] at hheight
  omega

/-- Matched braces close no other. -/
theorem not_closesOne (h : Matched bs) : ¬ ClosesOne bs := by
  rintro ⟨inside, line, rest, hbs, hinside⟩
  have hsplit : bs = (inside ++ [⟨false, line⟩]) ++ rest := by rw [hbs]; simp
  have hnonneg := h.height_nonneg hsplit
  rw [height_append, hinside.height_eq, height_closing, height] at hnonneg
  omega

/-- At every closing brace of matched ones another is open. -/
theorem leavesOpen (h : Matched bs) {line : Nat} (hbs : bs = a ++ ⟨false, line⟩ :: b) :
    LeavesOpen a := by
  induction h generalizing a b with
  | nil => cases List.nil_eq_append_iff.mp hbs |>.2
  | @pair first last inside rest hinside _ ihinside ihrest =>
    cases a with
    | nil => cases hbs
    | cons x a =>
      obtain ⟨rfl, htail⟩ := List.cons.inj hbs
      rcases append_cons_cases htail with ⟨m, hm, -⟩ | ⟨rfl, -, -⟩ | ⟨m, rfl, hm⟩
      · exact (ihinside hm).after [_]
      · exact ⟨[], first, inside, rfl, hinside⟩
      · have hopen := (ihrest hm).after (⟨true, first⟩ :: (inside ++ [⟨false, last⟩]))
        rwa [List.cons_append, List.append_assoc] at hopen

/-- Every opening brace of matched ones is closed. -/
theorem closesOne (h : Matched bs) {line : Nat} (hbs : bs = a ++ ⟨true, line⟩ :: b) :
    ClosesOne b := by
  induction h generalizing a b with
  | nil => cases List.nil_eq_append_iff.mp hbs |>.2
  | @pair first last inside rest hinside _ ihinside ihrest =>
    cases a with
    | nil =>
      obtain ⟨-, rfl⟩ := List.cons.inj hbs
      exact ⟨inside, last, rest, rfl, hinside⟩
    | cons x a =>
      obtain ⟨rfl, htail⟩ := List.cons.inj hbs
      rcases append_cons_cases htail with ⟨m, hm, rfl⟩ | ⟨-, heq, -⟩ | ⟨m, rfl, hm⟩
      · exact (ihinside hm).before _
      · cases heq
      · exact ihrest hm

/-- Matched braces have no fault. -/
theorem not_fault (h : Matched bs) (line : Nat) : ¬ FaultAt bs line := by
  rintro (⟨before, after, hbs, hopen, -⟩ | ⟨-, before, after, hbs, hclose, -⟩)
  · exact hopen (h.leavesOpen hbs)
  · exact hclose (h.closesOne hbs)

end Matched

/-! ## The check -/

/-- Braces after which those in some lines are open, the innermost first. -/
inductive Leaves : List Brace → List Nat → Prop where
  | nothing {bs : List Brace} (h : Matched bs) : Leaves bs []
  | one {bs inside : List Brace} {line : Nat} {opened : List Nat} (h : Leaves bs opened)
      (hinside : Matched inside) : Leaves (bs ++ ⟨true, line⟩ :: inside) (line :: opened)

namespace Leaves

variable {opened : List Nat}

theorem append (h : Leaves bs opened) (hmore : Matched more) : Leaves (bs ++ more) opened := by
  cases h with
  | nothing h => exact .nothing (h.append hmore)
  | one h hinside =>
    rw [List.append_assoc, List.cons_append]
    exact .one h (hinside.append hmore)

theorem opening (h : Leaves bs opened) (line : Nat) :
    Leaves (bs ++ [⟨true, line⟩]) (line :: opened) :=
  .one h .nil

theorem closing {line : Nat} (h : Leaves bs (line :: opened)) (last : Nat) :
    Leaves (bs ++ [⟨false, last⟩]) opened := by
  cases h with
  | one h hinside =>
    rw [List.append_assoc, List.cons_append]
    exact h.append (.pair hinside .nil)

/-- At every closing brace that has been passed another was open. -/
theorem leavesOpen (h : Leaves bs opened) {line : Nat} (hbs : bs = a ++ ⟨false, line⟩ :: b) :
    LeavesOpen a := by
  induction h generalizing a b with
  | nothing h => exact h.leavesOpen hbs
  | @one bs inside first opened _ hinside ih =>
    rcases append_cons_cases hbs with ⟨m, hm, -⟩ | ⟨-, heq, -⟩ | ⟨m, rfl, hm⟩
    · exact ih hm
    · cases heq
    · have hopen := (hinside.leavesOpen hm).after (bs ++ [⟨true, first⟩])
      rwa [List.append_assoc] at hopen

/-- A closing brace too many is at fault. -/
theorem fault_closing (h : Leaves bs []) (line : Nat) (more : List Brace) :
    FaultAt (bs ++ ⟨false, line⟩ :: more) line := by
  cases h with
  | nothing h => exact .inl ⟨bs, more, rfl, h.not_leavesOpen, fun _ _ _ => h.leavesOpen⟩

/-- The last brace that is open at the end is at fault. -/
theorem fault_end {line : Nat} (h : Leaves bs (line :: opened)) : FaultAt bs line := by
  refine .inr ⟨?_, ?_⟩
  · rintro other ⟨before, after, hbs, hopen, -⟩
    exact hopen (h.leavesOpen hbs)
  · cases h with
    | @one before inside _ _ _ hinside =>
      exact ⟨before, inside, rfl, hinside.not_closesOne, fun _ _ _ => hinside.closesOne⟩

end Leaves

end Brace

namespace Segment

open Brace (Matched FaultAt Leaves)

variable {segments : List Segment}

/-- The brace that a segment is. -/
def brace? : Segment → Option Brace
  | .text .. => none
  | .opening line => some ⟨true, line⟩
  | .closing line => some ⟨false, line⟩

/-- The check goes on from braces that it has passed: it ends with all of them matched, or at the
fault. -/
theorem checkBraces_leaves {bs : List Brace} {opened : List Nat} (h : Leaves bs opened)
    (segments : List Segment) :
    match checkBraces opened segments with
    | .ok () => Matched (bs ++ segments.filterMap brace?)
    | .error failure => FaultAt (bs ++ segments.filterMap brace?) failure.line := by
  fun_induction checkBraces opened segments generalizing bs with
  | case1 =>
    cases h with
    | nothing h => exact (List.append_nil bs).symm ▸ h
  | case2 line opened => exact (List.append_nil bs).symm ▸ h.fault_end
  | case3 opened line source segments ih => exact ih h
  | case4 opened line segments ih => simpa [brace?] using ih (h.opening line)
  | case5 line segments => exact h.fault_closing line _
  | case6 line segments first opened ih => simpa [brace?] using ih (h.closing line)

theorem checkBraces_eq_ok_iff :
    checkBraces [] segments = .ok () ↔ Matched (segments.filterMap brace?) := by
  have hcheck := checkBraces_leaves (.nothing .nil) segments
  rw [List.nil_append] at hcheck
  cases hresult : checkBraces [] segments with
  | ok =>
    rw [hresult] at hcheck
    exact ⟨fun _ => hcheck, fun _ => rfl⟩
  | error failure =>
    rw [hresult] at hcheck
    exact ⟨nofun, fun hmatched => absurd hcheck (hmatched.not_fault _)⟩

theorem fault_of_checkBraces {failure : Failure} (h : checkBraces [] segments = .error failure) :
    FaultAt (segments.filterMap brace?) failure.line := by
  have hcheck := checkBraces_leaves (.nothing .nil) segments
  rw [h] at hcheck
  exact hcheck

end Segment

/-! ## Braces of a source text -/

namespace Brace

/-- The braces outside of comments, from a character on: its line, and whether it is in a comment,
which two slashes start and the end of the line ends. -/
def scan (comment : Bool) (line : Nat) : List Char → List Brace
  | [] => []
  | c :: cs =>
    if c = '\n' then scan false (line + 1) cs
    else if comment = true ∨ (c = '/' ∧ cs.head? = some '/') then scan true line cs
    else if c = '{' then ⟨true, line⟩ :: scan false line cs
    else if c = '}' then ⟨false, line⟩ :: scan false line cs
    else scan false line cs

/-- The braces of a source text outside of its comments. -/
def ofSource (source : String) : List Brace :=
  scan false 1 source.toList

theorem scan_comment {cs : List Char} (h : '\n' ∉ cs) (line : Nat) : scan true line cs = [] := by
  induction cs with
  | nil => rfl
  | cons c cs ih =>
    have hc : c ≠ '\n' := fun heq => h (by simp [heq])
    rw [scan, if_neg hc, if_pos (.inl rfl), ih fun hmem => h (List.mem_cons_of_mem c hmem)]

/-- The braces of a line, and those of the lines after it. -/
theorem scan_newline {l : List Char} (h : '\n' ∉ l) (comment : Bool) (line : Nat)
    (cs : List Char) :
    scan comment line (l ++ '\n' :: cs) = scan comment line l ++ scan false (line + 1) cs := by
  induction l generalizing comment with
  | nil => simp [scan]
  | cons c l ih =>
    have hc : c ≠ '\n' := fun heq => h (by simp [heq])
    have htail := ih fun hmem => h (List.mem_cons_of_mem c hmem)
    have hhead : (l ++ '\n' :: cs).head? = some '/' ↔ l.head? = some '/' := by
      cases l with
      | nil => simp
      | cons d l => simp
    simp only [List.cons_append, scan, if_neg hc, hhead, htail]
    split
    · rfl
    split
    · rfl
    split <;> rfl

end Brace

namespace Segment

theorem filterMap_flush (line : Nat) (current : List Char) :
    (flush line current).filterMap brace? = [] := by
  unfold flush
  cases Text.trim current.reverse <;> rfl

/-- The braces of a line are kept when it is cut. -/
theorem filterMap_cutLine {l : List Char} (h : '\n' ∉ l) (line : Nat) (depth : Int)
    (current : List Char) :
    (cutLine line depth current (stripComment l)).filterMap brace? = Brace.scan false line l := by
  fun_induction stripComment l generalizing depth current with
  | case1 cs =>
    have hcs : '\n' ∉ '/' :: cs := fun hmem => h (List.mem_cons_of_mem '/' hmem)
    rw [cutLine, filterMap_flush, Brace.scan, if_neg (by decide), if_pos (.inr ⟨rfl, rfl⟩),
      Brace.scan_comment hcs]
  | case2 c cs hslash ih =>
    have hc : c ≠ '\n' := fun heq => h (by simp [heq])
    have hcomment : ¬ (false = true ∨ (c = '/' ∧ cs.head? = some '/')) := by
      rintro (hfalse | ⟨rfl, hhead⟩)
      · cases hfalse
      · obtain ⟨tail, rfl⟩ := List.head?_eq_some_iff.mp hhead
        exact hslash tail rfl rfl
    have htail := ih fun hmem => h (List.mem_cons_of_mem c hmem)
    rw [cutLine, Brace.scan, if_neg hc, if_neg hcomment]
    split
    · simp [filterMap_flush, brace?, htail]
    split
    · simp [filterMap_flush, brace?, htail]
    split
    · simp [filterMap_flush, htail]
    · exact htail _ _
  | case3 => exact filterMap_flush line current

/-- The braces among the segments of a source text are its braces outside of comments. -/
theorem filterMap_cut (source : String) :
    (cut source).filterMap brace? = Brace.ofSource source := by
  have hline (line : Nat) {l : List Char} (h : '\n' ∉ l) :
      (cutLine line 0 [] (stripComment l)).flatMap (fun s => (brace? s).toList) =
        Brace.scan false line l := by
    rw [← List.filterMap_eq_flatMap_toList, filterMap_cutLine h]
  rw [List.filterMap_eq_flatMap_toList]
  exact flatMap_cutLines (fun _ => rfl) hline
    (fun line _ cs h => Brace.scan_newline h false line cs) List.not_mem_nil 1 source.toList

end Segment

end MatrixLang
