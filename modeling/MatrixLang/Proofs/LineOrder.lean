import MatrixLang.Proofs.LineBreaks
import MatrixLang.Proofs.Outcomes

/-! # The order of lines

The lines of the statements of a program, each before those of the statements inside of it, never
go back (`pairwise_tags`), and every one of them is a line of the source text.  The latter needs no
walk through the compiler, nor does it for the line of a failure: as compiling only copies lines, a
change of other lines than those of the segments would change nothing, so no other line can come
out of it (`line_of_compile`).

For the order, `Rises` says of lines that they go up from one to another.  While a source text is
compiled, the lines of what is finished and open go up to that of the segment that comes next, and
its own lines go up from there.
-/

namespace MatrixLang

/-! ## Lines that go up -/

/-- Lines go up from `lo` to `hi`. -/
def Rises : Nat → List Nat → Nat → Prop
  | lo, [], hi => lo ≤ hi
  | lo, n :: ns, hi => lo ≤ n ∧ Rises n ns hi

namespace Rises

variable {lo mid hi n : Nat} {a b ns : List Nat}

theorem lower {lo' : Nat} (hlo : lo' ≤ lo) (h : Rises lo ns hi) : Rises lo' ns hi := by
  cases ns with
  | nil => exact Nat.le_trans hlo h
  | cons n ns => exact ⟨Nat.le_trans hlo h.1, h.2⟩

theorem single (n : Nat) : Rises n [n] n :=
  ⟨Nat.le_refl n, Nat.le_refl n⟩

theorem append (ha : Rises lo a mid) (hb : Rises mid b hi) : Rises lo (a ++ b) hi := by
  induction a generalizing lo with
  | nil => exact hb.lower ha
  | cons n a ih => exact ⟨ha.1, ih ha.2⟩

theorem split (h : Rises lo (a ++ b) hi) : ∃ mid, Rises lo a mid ∧ Rises mid b hi := by
  induction a generalizing lo with
  | nil => exact ⟨lo, Nat.le_refl lo, h⟩
  | cons n a ih =>
    obtain ⟨mid, ha, hb⟩ := ih h.2
    exact ⟨mid, ⟨h.1, ha⟩, hb⟩

theorem le (h : Rises lo ns hi) : lo ≤ hi := by
  induction ns generalizing lo with
  | nil => exact h
  | cons n ns ih => exact Nat.le_trans h.1 (ih h.2)

theorem raise {hi' : Nat} (h : Rises lo ns hi) (hhi : hi ≤ hi') : Rises lo ns hi' := by
  have happend := h.append (b := []) hhi
  rwa [List.append_nil] at happend

/-- The first part goes up to the same line. -/
theorem left (h : Rises lo (a ++ b) hi) : Rises lo a hi := by
  obtain ⟨mid, ha, hb⟩ := h.split
  exact ha.raise hb.le

theorem pairwise (h : Rises lo ns hi) : (lo :: ns).Pairwise (· ≤ ·) := by
  induction ns generalizing lo with
  | nil => exact List.pairwise_singleton _ lo
  | cons n ns ih =>
    have htail := ih h.2
    refine List.pairwise_cons.mpr ⟨List.forall_mem_cons.mpr ⟨h.1, fun m hm => ?_⟩, htail⟩
    exact Nat.le_trans h.1 ((List.pairwise_cons.mp htail).1 m hm)

theorem of_pairwise (h : ns.Pairwise (· ≤ ·)) (hlo : ∀ n ∈ ns, lo ≤ n) (hhi : ∀ n ∈ ns, n ≤ hi)
    (hle : lo ≤ hi) : Rises lo ns hi := by
  induction ns generalizing lo with
  | nil => exact hle
  | cons n ns ih =>
    obtain ⟨hn, hns⟩ := List.pairwise_cons.mp h
    exact ⟨hlo n List.mem_cons_self,
      ih hns hn (List.forall_mem_cons.mp hhi).2 (hhi n List.mem_cons_self)⟩

end Rises

/-! ## Lines of statements -/

namespace Statement

variable {g : Nat → Nat}

mutual

/-- The line of a statement and after it those of the statements inside. -/
def tags : Statement → List Nat
  | .choose line branches otherwise =>
    line :: (tagsOfBranches branches ++
      match otherwise with
      | none => []
      | some body => tagsOfBody body)
  | .whileLoop line _ body => line :: tagsOfBody body
  | .forLoop line _ _ _ _ body => line :: tagsOfBody body
  | .block line body => line :: tagsOfBody body
  | .assign line .. | .assignIndex line .. | .assignBlock line .. | .eval line .. => [line]

/-- The lines of several statements. -/
def tagsOfBody : List Statement → List Nat
  | [] => []
  | s :: ss => s.tags ++ tagsOfBody ss

/-- The lines of the statements in branches. -/
def tagsOfBranches : List Branch → List Nat
  | [] => []
  | .mk _ body :: branches => tagsOfBody body ++ tagsOfBranches branches

end

theorem tagsOfBody_append (ss ts : List Statement) :
    tagsOfBody (ss ++ ts) = tagsOfBody ss ++ tagsOfBody ts := by
  induction ss with
  | nil => rfl
  | cons s ss ih => rw [List.cons_append, tagsOfBody, tagsOfBody, ih, List.append_assoc]

theorem tagsOfBranches_append (branches more : List Branch) :
    tagsOfBranches (branches ++ more) = tagsOfBranches branches ++ tagsOfBranches more := by
  induction branches with
  | nil => rfl
  | cons branch branches ih =>
    obtain ⟨condition, body⟩ := branch
    rw [List.cons_append, tagsOfBranches, tagsOfBranches, ih, List.append_assoc]

mutual

theorem tags_mapLines (s : Statement) : (s.mapLines g).tags = s.tags.map g := by
  cases s with
  | choose line branches otherwise =>
    cases otherwise with
    | none => simp [mapLines, tags, tagsOfBranches_mapLines branches]
    | some body =>
      simp [mapLines, tags, tagsOfBranches_mapLines branches, tagsOfBody_mapLines body]
  | whileLoop line condition body => rw [mapLines, tags, tags, tagsOfBody_mapLines body]; rfl
  | forLoop line counter start limit direction body =>
    rw [mapLines, tags, tags, tagsOfBody_mapLines body]; rfl
  | block line body => rw [mapLines, tags, tags, tagsOfBody_mapLines body]; rfl
  | _ => rfl

theorem tagsOfBody_mapLines (body : List Statement) :
    tagsOfBody (mapLinesOfBody g body) = (tagsOfBody body).map g := by
  cases body with
  | nil => rfl
  | cons s body =>
    rw [mapLinesOfBody, tagsOfBody, tagsOfBody, tags_mapLines s, tagsOfBody_mapLines body,
      List.map_append]

theorem tagsOfBranches_mapLines (branches : List Branch) :
    tagsOfBranches (mapLinesOfBranches g branches) = (tagsOfBranches branches).map g := by
  cases branches with
  | nil => rfl
  | cons branch branches =>
    obtain ⟨condition, body⟩ := branch
    rw [mapLinesOfBranches, tagsOfBranches, tagsOfBranches, tagsOfBody_mapLines body,
      tagsOfBranches_mapLines branches, List.map_append]

end

end Statement

/-! ## Lines of what has been read -/

namespace Noted

variable {α β : Type} {P : α → Prop} {R : β → Prop} {x : Noted α} {f : α → Noted β}

/-- What is compiled, if anything is, has the property `P`. -/
def Gives (P : α → Prop) (x : Noted α) : Prop :=
  ∀ a, x.result = .ok a → P a

namespace Gives

theorem pure {a : α} (h : P a) : Gives P (pure a) := by
  intro b hb
  cases hb
  exact h

theorem any (x : Noted α) : Gives (fun _ => True) x :=
  fun _ _ => trivial

theorem failForm (line : Nat) (fault : FormFault) : Gives P (Program.failForm line fault) := by
  intro a ha
  cases ha

theorem bind (hx : Gives P x) (hf : ∀ a, P a → Gives R (f a)) : Gives R (x >>= f) := by
  intro b hb
  rw [result_bind] at hb
  obtain ⟨a, ha, hb⟩ := exists_of_bind_eq_ok hb
  exact hf a (hx a ha) b hb

end Gives

end Noted

namespace Program

open Noted (Gives)
open Statement (tagsOfBody tagsOfBranches tagsOfBody_append tagsOfBranches_append)

variable {lo mid hi line here : Nat} {branches : List Branch} {opened : Open}
  {body : List Statement}

/-- The lines of what is open. -/
def Open.tags : Open → List Nat
  | .nothing => []
  | .whileBody line _ | .forBody line _ => [line]
  | .chain line branches | .branchBody line branches .. | .elseBody line branches _ =>
    line :: tagsOfBranches branches

/-- The lines of what has been finished and what is open. -/
def tagsSoFar (r : List Statement × Open) : List Nat :=
  tagsOfBody r.1 ++ r.2.tags

/-! ### Statements of one line -/

theorem tags_assignment (line : Nat) (target value : List Token) :
    Gives (fun s => s.tags = [line]) (assignment line target value) := by
  unfold assignment
  split
  · exact .failForm _ _
  split
  · split
    · exact .failForm _ _
    · exact (Gives.any _).bind fun _ _ => .pure rfl
    · exact (Gives.any _).bind fun _ _ => (Gives.any _).bind fun _ _ => .pure rfl
    · refine (Gives.any _).bind fun _ _ => (Gives.any _).bind fun _ _ => ?_
      exact (Gives.any _).bind fun _ _ => .pure rfl
  · exact .failForm _ _

theorem tags_simple (line : Nat) (ts : List Token) :
    Gives (fun s => s.tags = [line]) (simple line ts) := by
  unfold simple
  split
  · exact tags_assignment line _ _
  · exact (Gives.any _).bind fun _ _ => .pure rfl

/-- The lines of the body of a clause, if it stands on the same line. -/
def Clause.tags : Clause → List Nat
  | .inline _ body => body.tags
  | .head _ => []

theorem rises_clause (line : Nat) (braced : Bool) (ts : List Token) :
    Gives (fun c => Rises line c.tags line) (clause line braced ts) := by
  unfold clause
  split
  · exact .failForm _ _
  split
  · refine (Gives.any _).bind fun _ _ => (tags_simple line _).bind fun body hbody => .pure ?_
    rw [Clause.tags, hbody]
    exact .single line
  · exact (Gives.any _).bind fun _ _ => .pure (Nat.le_refl line)

/-! ### Steps -/

theorem tags_finish (s : Statement) : Gives (fun r => tagsSoFar r = s.tags) (finish s) := by
  refine (Gives.any _).bind fun _ _ => .pure ?_
  simp [tagsSoFar, tagsOfBody, Open.tags]

theorem rises_finish {s : Statement} (h : Rises lo s.tags hi) :
    Gives (fun r => Rises lo (tagsSoFar r) hi) (finish s) := by
  intro r hr
  rw [tags_finish s r hr]
  exact h

theorem rises_branch (h : Rises lo (line :: tagsOfBranches branches) here) (braced : Bool)
    (ts : List Token) :
    Gives (fun r => Rises lo (tagsSoFar r) here) (branch line branches here braced ts) := by
  refine (rises_clause here braced ts).bind fun c hc => ?_
  cases c with
  | inline condition body =>
    refine .pure ?_
    have happend := h.append hc
    simpa [tagsSoFar, tagsOfBody, Open.tags, tagsOfBranches_append, tagsOfBranches, Clause.tags]
      using happend
  | head condition => exact .pure h

theorem rises_start (line : Nat) (braced : Bool) (ts : List Token) :
    Gives (fun r => Rises line (tagsSoFar r) line) (start line braced ts) := by
  unfold start
  split
  · exact rises_branch (.single line) braced _
  · refine (rises_clause line braced _).bind fun c hc => ?_
    cases c with
    | inline condition body =>
      refine rises_finish ?_
      have happend := (Rises.single line).append hc
      simpa [Statement.tags, tagsOfBody, Clause.tags] using happend
    | head condition => exact .pure (.single line)
  · exact (Gives.any _).bind fun _ _ => .pure (.single line)
  · exact .failForm _ _
  · exact .failForm _ _
  · refine (tags_simple line _).bind fun s hs => rises_finish ?_
    rw [hs]
    exact .single line

/-- An `if` without an `else` is finished with the lines it has. -/
theorem tags_choose (line : Nat) (branches : List Branch) :
    (Statement.choose line branches none).tags = line :: tagsOfBranches branches := by
  rw [Statement.tags, List.append_nil]

theorem rises_continueIf (h : Rises lo (line :: tagsOfBranches branches) here) (braced : Bool)
    (ts : List Token) :
    Gives (fun r => Rises lo (tagsSoFar r) here) (continueIf line branches here braced ts) := by
  unfold continueIf
  split
  · exact rises_branch h braced _
  · exact rises_branch h braced _
  · exact .pure h
  · refine (tags_simple here _).bind fun body hbody => rises_finish ?_
    have happend := h.append (Rises.single here)
    simpa [Statement.tags, tagsOfBody, hbody] using happend
  · refine (tags_finish (.choose line branches none)).bind fun closed hclosed => ?_
    refine (rises_start here braced _).bind fun ready hready => .pure ?_
    have hbefore : Rises lo (tagsOfBody closed.1) here := by
      rw [← tags_choose, ← hclosed] at h
      exact h.left
    rw [tagsSoFar, tagsOfBody_append, List.append_assoc]
    exact hbefore.append hready

theorem tags_settle (opened : Open) :
    Gives (fun r => tagsSoFar r = opened.tags) opened.settle := by
  cases opened with
  | nothing => exact .pure rfl
  | chain line branches =>
    rw [Open.tags, ← tags_choose]
    exact tags_finish _
  | _ => exact .failForm _ _

theorem tags_enter (opened : Open) :
    Gives (fun r => tagsSoFar r = opened.tags) opened.enter := by
  cases opened with
  | chain line branches =>
    rw [Open.tags, ← tags_choose]
    exact tags_finish _
  | _ => exact .pure rfl

theorem rises_read (h : Rises lo opened.tags line) (source : String) (braced : Bool) :
    Gives (fun r => Rises lo (tagsSoFar r) line) (opened.read line source braced) := by
  cases opened with
  | nothing =>
    refine (Gives.any _).bind fun ts _ r hr => ?_
    exact (rises_start line braced ts r hr).lower h
  | chain first branches => exact (Gives.any _).bind fun ts _ => rises_continueIf h braced ts
  | _ => exact .failForm _ _

theorem rises_close (h : Rises lo opened.tags line) (hbody : Rises line (tagsOfBody body) hi) :
    Gives (fun r => Rises lo (tagsSoFar r) hi) (opened.close line body) := by
  have happend := h.append hbody
  have hblock : Rises line (Statement.block line body).tags hi := ⟨Nat.le_refl line, hbody⟩
  cases opened with
  | nothing =>
    refine .pure ?_
    have hlower := hblock.lower h
    simpa [tagsSoFar, tagsOfBody, Open.tags] using hlower
  | whileBody first condition => exact rises_finish happend
  | forBody first head => exact rises_finish happend
  | branchBody first branches here condition =>
    refine .pure ?_
    simpa [tagsSoFar, tagsOfBody, Open.tags, tagsOfBranches_append, tagsOfBranches] using happend
  | elseBody first branches here => exact rises_finish happend
  | chain first branches =>
    refine (tags_finish (.choose first branches none)).bind fun closed hclosed => .pure ?_
    have hbefore : Rises lo (tagsOfBody closed.1) line := by
      rw [Open.tags, ← tags_choose, ← hclosed] at h
      exact h.left
    have hafter := hbefore.append hblock
    simpa [tagsSoFar, tagsOfBody, tagsOfBody_append, Open.tags] using hafter

end Program

/-! ## Whole programs -/

/-- The lines of the texts and blocks of an outline, each block before what is inside. -/
def Outline.tags : Outline → List Nat
  | .done => []
  | .text line _ rest => line :: rest.tags
  | .block line inside rest => line :: (inside.tags ++ rest.tags)

theorem Nests.tags_sublist {segments : List Segment} {o : Outline} (h : Nests segments o) :
    o.tags.Sublist (segments.map Segment.line) := by
  induction h with
  | done => exact .refl []
  | text _ ih => exact ih.cons_cons _
  | block _ _ ihinside ihrest =>
    rw [List.map_cons, List.map_append, List.map_cons]
    exact (ihinside.append (ihrest.cons _)).cons_cons _

/-- **Compiling keeps the order of lines.**  If the lines of what is open go up to some line and
those of an outline go up from there, then so do the lines of its statements. -/
theorem Program.rises_statementsFrom {lo mid hi : Nat} {opened : Open} {o : Outline}
    (hopened : Rises lo opened.tags mid) (ho : Rises mid o.tags hi) :
    Noted.Gives (fun ss => Rises lo (Statement.tagsOfBody ss) hi) (statementsFrom opened o) := by
  induction o generalizing lo mid hi opened with
  | done =>
    refine (tags_settle opened).bind fun r hr => .pure ?_
    rw [← hr] at hopened
    exact hopened.left.raise ho
  | text line source rest ih =>
    have hline := hopened.raise ho.1
    refine (rises_read hline source _).bind fun r hr => ?_
    obtain ⟨m, hready, hnext⟩ := Rises.split hr
    refine (ih hnext ho.2).bind fun ss hss => .pure ?_
    rw [Statement.tagsOfBody_append]
    exact hready.append hss
  | block line inside rest ihinside ihrest =>
    have hline := hopened.raise ho.1
    obtain ⟨last, hinside, hrest⟩ := ho.2.split
    refine (tags_enter opened).bind fun r hr => ?_
    rw [← hr] at hline
    obtain ⟨m, hready, hinner⟩ := Rises.split hline
    refine (@ihinside line line last .nothing (Nat.le_refl line) hinside).bind fun body hbody => ?_
    refine (rises_close hinner hbody).bind fun c hc => ?_
    obtain ⟨m', hclosed, hnext⟩ := Rises.split hc
    refine (ihrest hnext hrest).bind fun ss hss => .pure ?_
    rw [Statement.tagsOfBody_append, Statement.tagsOfBody_append]
    exact (hready.append hclosed).append hss

theorem line_bounds_of_mem_cut {source : String} {n : Nat}
    (h : n ∈ (Segment.cut source).map Segment.line) :
    1 ≤ n ∧ n ≤ (Text.lines source.toList).length := by
  obtain ⟨s, hs, rfl⟩ := List.mem_map.mp h
  have hbounds := Segment.line_bounds_of_mem_cutLines hs
  omega

/-- The lines of a program never go back. -/
theorem pairwise_tags {source : String} {p : Program} (h : compile source = .ok p) :
    (Statement.tagsOfBody p.statements).Pairwise (· ≤ ·) := by
  obtain ⟨hbraces, hstatements, -⟩ := compile_eq_ok_iff.mp h
  have hsublist := (nests_ofSegments hbraces).tags_sublist
  have hsorted := (Segment.pairwise_line_cutLines 1 (Text.lines source.toList)).sublist hsublist
  have hbounds (n : Nat) (hn : n ∈ (Outline.ofSegments (Segment.cut source)).tags) :=
    line_bounds_of_mem_cut (hsublist.mem hn)
  have hrises : Rises 0 (Outline.ofSegments (Segment.cut source)).tags
      (Text.lines source.toList).length :=
    .of_pairwise hsorted (fun _ _ => Nat.zero_le _) (fun n hn => (hbounds n hn).2) (Nat.zero_le _)
  have hcompiled := @Program.rises_statementsFrom 0 0 _ .nothing _ (Nat.le_refl 0) hrises
  exact (List.pairwise_cons.mp (hcompiled _ hstatements).pairwise).2

/-- A change of all lines but some. -/
def changeOther (lines : List Nat) (n : Nat) : Nat :=
  if n ∈ lines then n else n + 1

theorem mem_of_changeOther_eq {lines : List Nat} {n : Nat} (h : changeOther lines n = n) :
    n ∈ lines := by
  unfold changeOther at h
  split at h
  · assumption
  · omega

/-- **No line is made up.**  The lines of a program, and the line in which compiling fails, are
lines of segments: a change of all others makes no difference. -/
theorem line_of_compile (source : String) :
    Meets (fun p : Program => ∀ n ∈ Statement.tagsOfBody p.statements,
        n ∈ (Segment.cut source).map Segment.line)
      (fun failure => failure.line ∈ (Segment.cut source).map Segment.line) (compile source) := by
  have hcut : Segment.cut source = (Segment.cut source).map
      (Segment.mapLine (changeOther ((Segment.cut source).map Segment.line))) :=
    (Segment.map_mapLine_eq_self fun s hs => if_pos (List.mem_map_of_mem hs)).symm
  have hcompile := compile_mapLine hcut
  cases hresult : compile source with
  | error failure =>
    rw [hresult] at hcompile
    exact mem_of_changeOther_eq (congrArg Failure.line (Except.error.inj hcompile)).symm
  | ok p =>
    rw [hresult] at hcompile
    have hstatements := congrArg Program.statements (Except.ok.inj hcompile)
    have htags := congrArg Statement.tagsOfBody hstatements
    rw [Program.mapLines, ← Statement.mapLinesOfBody_eq_map, Statement.tagsOfBody_mapLines] at htags
    intro n hn
    refine mem_of_changeOther_eq ?_
    exact List.map_inj_left.mp (htags.symm.trans (List.map_id _).symm) n hn

end MatrixLang
