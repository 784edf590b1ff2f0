import MatrixLang.Program
import MatrixLang.Proofs.Parts

/-! # The names that occur in statements

A name occurs in a statement if the statement assigns to it or counts with it, if it is a variable
in one of its expressions, or if it occurs in a statement inside of it (`Statement.Mentions`).  The
names of a statement, which are listed by going through all of its parts, are those
(`mem_names_iff_mentions`).

A set of names is a list of them in order, and so the only list of its members that is one
(`Names.ofList_congr`).
-/

namespace MatrixLang

/-! ## Sets of names -/

namespace Names

variable {name : String} {names a b : List String}

theorem ordered_insert (h : names.Pairwise (· < ·)) : (insert name names).Pairwise (· < ·) := by
  induction names with
  | nil => exact List.pairwise_singleton _ name
  | cons other names ih =>
    obtain ⟨hother, hnames⟩ := List.pairwise_cons.mp h
    rw [insert]
    by_cases hlt : name < other
    · rw [if_pos hlt]
      refine List.pairwise_cons.mpr ⟨?_, h⟩
      intro x hx
      rcases List.mem_cons.mp hx with rfl | hx
      · exact hlt
      · exact String.lt_trans hlt (hother x hx)
    · rw [if_neg hlt]
      by_cases heq : name = other
      · rw [if_pos heq]
        exact h
      · rw [if_neg heq]
        refine List.pairwise_cons.mpr ⟨?_, ih hnames⟩
        intro x hx
        rcases mem_insert.mp hx with rfl | hx
        · exact Std.lt_of_le_of_ne (String.not_lt.mp hlt) (Ne.symm heq)
        · exact hother x hx

theorem ordered_ofList (names : List String) : (ofList names).Pairwise (· < ·) := by
  induction names with
  | nil => exact List.Pairwise.nil
  | cons name names ih => exact ordered_insert ih

/-- Lists in order that have the same members are the same. -/
theorem eq_of_ordered (ha : a.Pairwise (· < ·)) (hb : b.Pairwise (· < ·))
    (h : ∀ x, x ∈ a ↔ x ∈ b) : a = b := by
  have hdistinct {names : List String} (hn : names.Pairwise (· < ·)) : names.Nodup := by
    refine hn.imp fun {x y} hlt heq => ?_
    subst heq
    exact String.lt_irrefl x hlt
  have hperm : a.Perm b := (List.perm_ext_iff_of_nodup (hdistinct ha) (hdistinct hb)).mpr h
  exact hperm.eq_of_pairwise (fun x y _ _ hxy hyx => absurd hyx (String.lt_asymm hxy)) ha hb

/-- **A set is given by its members.** -/
theorem ofList_congr (h : ∀ x, x ∈ a ↔ x ∈ b) : ofList a = ofList b := by
  refine eq_of_ordered (ordered_ofList a) (ordered_ofList b) fun x => ?_
  rw [mem_ofList, mem_ofList, h]

end Names

/-! ## Expressions -/

namespace Expr

variable {x : String}

mutual

/-- The names of an expression are the variables among its parts. -/
theorem mem_names_iff : ∀ {e : Expr}, x ∈ e.names ↔ .variable x ∈ e.parts
  | .literal value => by simp [names, parts]
  | .variable name => by simp [names, parts]
  | .matrix rows cols elements => by simp [names, parts, @mem_namesOfAll_iff elements]
  | .unary op operand => by simp [names, parts, @mem_names_iff operand]
  | .binary op left right => by simp [names, parts, @mem_names_iff left, @mem_names_iff right]
  | .call f arguments => by simp [names, parts, @mem_namesOfAll_iff arguments]

theorem mem_namesOfAll_iff : ∀ {es : List Expr}, x ∈ namesOfAll es ↔ .variable x ∈ partsOfAll es
  | [] => by simp [namesOfAll, partsOfAll]
  | e :: es => by simp [namesOfAll, partsOfAll, @mem_names_iff e, @mem_namesOfAll_iff es]

end

end Expr

/-! ## Statements -/

namespace Statement

variable {x : String} {s t : Statement}

/-- The name that a statement itself gives values to: a target, or the variable of a loop. -/
def ownName? : Statement → Option String
  | .assign _ target _ | .assignIndex _ target .. | .assignBlock _ target .. => some target
  | .forLoop _ counter .. => some counter
  | .eval .. | .choose .. | .whileLoop .. | .block .. => none

/-- The expressions of a statement itself. -/
def ownExpressions : Statement → List Expr
  | .assign _ _ value => [value]
  | .assignIndex _ _ index value => [index, value]
  | .assignBlock _ _ row col value => [row, col, value]
  | .eval _ value => [value]
  | .choose _ branches _ => branches.map Branch.condition
  | .whileLoop _ condition _ => [condition]
  | .forLoop _ _ start limit .. => [start, limit]
  | .block .. => []

/-- The statements directly inside of a statement. -/
def inner : Statement → List Statement
  | .choose _ branches otherwise => branches.flatMap Branch.body ++ otherwise.getD []
  | .whileLoop _ _ body | .forLoop _ _ _ _ _ body | .block _ body => body
  | .assign .. | .assignIndex .. | .assignBlock .. | .eval .. => []

/-- A name occurs in a statement, at any depth. -/
inductive Mentions (x : String) : Statement → Prop where
  | own {s : Statement} (h : s.ownName? = some x) : Mentions x s
  | leaf {s : Statement} {e : Expr} (he : e ∈ s.ownExpressions) (hx : .variable x ∈ e.parts) :
      Mentions x s
  | inside {s t : Statement} (ht : t ∈ s.inner) (h : Mentions x t) : Mentions x s

theorem mem_namesOfBody {ss : List Statement} :
    x ∈ namesOfBody ss ↔ ∃ s ∈ ss, x ∈ s.names := by
  induction ss with
  | nil => simp [namesOfBody]
  | cons s ss ih => simp [namesOfBody, ih]

theorem mem_namesOfBranches {branches : List Branch} : x ∈ namesOfBranches branches ↔
    ∃ b ∈ branches, x ∈ b.condition.names ∨ x ∈ namesOfBody b.body := by
  induction branches with
  | nil => simp [namesOfBranches]
  | cons b branches ih =>
    obtain ⟨condition, body⟩ := b
    simp [namesOfBranches, ih, Branch.condition, Branch.body, or_assoc]

/-- The names of a statement are its own and those of the statements directly inside of it. -/
theorem mem_names_iff : x ∈ s.names ↔ s.ownName? = some x ∨
    (∃ e ∈ s.ownExpressions, x ∈ e.names) ∨ ∃ t ∈ s.inner, x ∈ t.names := by
  cases s with
  | choose line branches otherwise =>
    have hnames : x ∈ (Statement.choose line branches otherwise).names ↔
        x ∈ namesOfBranches branches ∨ x ∈ namesOfBody (otherwise.getD []) := by
      cases otherwise with
      | none => simp [names, namesOfBody]
      | some body => simp [names]
    rw [hnames, mem_namesOfBranches]
    simp only [mem_namesOfBody, ownName?, ownExpressions, inner, List.mem_map, List.mem_append,
      List.mem_flatMap]
    grind
  | _ => simp [names, ownName?, ownExpressions, inner, mem_namesOfBody, or_assoc, eq_comm]

theorem sizeOf_lt_of_mem_inner (h : t ∈ s.inner) : sizeOf t < sizeOf s := by
  cases s with
  | choose line branches otherwise =>
    rw [inner, List.mem_append, List.mem_flatMap] at h
    rcases h with ⟨⟨condition, body⟩, hb, ht⟩ | ht
    · have hbranch := List.sizeOf_lt_of_mem hb
      have hbody := List.sizeOf_lt_of_mem (show t ∈ body from ht)
      simp only [Statement.choose.sizeOf_spec, Branch.mk.sizeOf_spec] at hbranch ⊢
      omega
    · cases otherwise with
      | none => cases ht
      | some body =>
        have hbody := List.sizeOf_lt_of_mem (show t ∈ body from ht)
        simp only [Statement.choose.sizeOf_spec, Option.some.sizeOf_spec]
        omega
  | whileLoop line condition body =>
    have hbody := List.sizeOf_lt_of_mem (show t ∈ body from h)
    simp only [Statement.whileLoop.sizeOf_spec]
    omega
  | forLoop line counter start limit direction body =>
    have hbody := List.sizeOf_lt_of_mem (show t ∈ body from h)
    simp only [Statement.forLoop.sizeOf_spec]
    omega
  | block line body =>
    have hbody := List.sizeOf_lt_of_mem (show t ∈ body from h)
    simp only [Statement.block.sizeOf_spec]
    omega
  | _ => cases h

theorem mentions_of_mem_names (s : Statement) (h : x ∈ s.names) : s.Mentions x := by
  rcases mem_names_iff.mp h with hown | ⟨e, he, hx⟩ | ⟨t, ht, hx⟩
  · exact .own hown
  · exact .leaf he (Expr.mem_names_iff.mp hx)
  · exact .inside ht (mentions_of_mem_names t hx)
termination_by sizeOf s
decreasing_by exact sizeOf_lt_of_mem_inner ht

/-- **The names of a statement are those that occur in it.** -/
theorem mem_names_iff_mentions : x ∈ s.names ↔ s.Mentions x := by
  refine ⟨mentions_of_mem_names s, fun h => ?_⟩
  induction h with
  | own h => exact mem_names_iff.mpr (.inl h)
  | leaf he hx => exact mem_names_iff.mpr (.inr (.inl ⟨_, he, Expr.mem_names_iff.mpr hx⟩))
  | inside ht _ ih => exact mem_names_iff.mpr (.inr (.inr ⟨_, ht, ih⟩))

end Statement

end MatrixLang
