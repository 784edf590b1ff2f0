import Mathlib.Algebra.Ring.Nat
import MatrixLang.Proofs.Preparation

/-! # Separators

How many separators a group of tokens has decides how many arguments a call has and how many cells
a literal.  The passes find it by looking ahead, each with a counter of its own.  `ahead` counts
for all open groups at once, so that it can be followed from one token to the next: what the
passes find at the start of a group is what `ahead` has there (`Prepares.function`,
`size_of_literalShape`).
-/

namespace MatrixLang.Token

/-! ## Separators of groups -/

/-- Whether a token separates parts of a group. -/
def isSeparator : Token → Bool
  | .comma | .semicolon => true
  | _ => false

/-- Whether a token is a comma. -/
def isComma : Token → Bool
  | .comma => true
  | _ => false

/-- Counts one more in the innermost group. -/
def countOne : List Nat → List Nat
  | [] => []
  | n :: ns => (n + 1) :: ns

/-- How many separators are still to come in the groups that are closed among some tokens but not
opened there, the innermost group first. -/
def ahead (separates : Token → Bool) : List Token → List Nat
  | [] => []
  | .openParen :: ts => (ahead separates ts).tail
  | .closeParen :: ts => 0 :: ahead separates ts
  | t :: ts => if separates t then countOne (ahead separates ts) else ahead separates ts

/-- The separators of the group that a parenthesis before some tokens opens. -/
def ownAhead (separates : Token → Bool) (ts : List Token) : Nat :=
  (ahead separates ts).headD 0

theorem ahead_separator {separates : Token → Bool} {t : Token} (hopen : t.isOpenParen = false)
    (hclose : t.isCloseParen = false) (h : separates t = true) (ts : List Token) :
    ahead separates (t :: ts) = countOne (ahead separates ts) := by
  cases t with
  | openParen => cases hopen
  | closeParen => cases hclose
  | _ => exact if_pos h

theorem ahead_other {separates : Token → Bool} {t : Token} (hopen : t.isOpenParen = false)
    (hclose : t.isCloseParen = false) (h : separates t = false) (ts : List Token) :
    ahead separates (t :: ts) = ahead separates ts := by
  cases t with
  | openParen => cases hopen
  | closeParen => cases hclose
  | _ => exact if_neg (Bool.not_eq_true _ ▸ h)

/-- Induction along the tokens of a group up to the parenthesis that closes it. -/
theorem splitGroup_induction {P : Nat → List Token → List Token → Prop}
    (hend : ∀ ts, P 0 (.closeParen :: ts) [])
    (hclose : ∀ depth ts inside, P depth ts inside →
      P (depth + 1) (.closeParen :: ts) (.closeParen :: inside))
    (hopen : ∀ depth ts inside, P (depth + 1) ts inside →
      P depth (.openParen :: ts) (.openParen :: inside))
    (hother : ∀ depth t ts inside, t.isOpenParen = false → t.isCloseParen = false →
      P depth ts inside → P depth (t :: ts) (t :: inside))
    {depth : Nat} {ts inside rest : List Token}
    (h : splitGroup isOpenParen isCloseParen depth ts = some (inside, rest)) :
    P depth ts inside := by
  induction ts generalizing depth inside with
  | nil => cases h
  | cons t ts ih =>
    by_cases hcloses : t.isCloseParen = true
    · obtain rfl : t = .closeParen := by cases t <;> cases hcloses; rfl
      cases depth with
      | zero =>
        rw [splitGroup_close_zero rfl] at h
        cases h
        exact hend _
      | succ depth =>
        rw [splitGroup_close_succ rfl] at h
        obtain ⟨r, hr, heq⟩ := Option.map_eq_some_iff.mp h
        cases heq
        exact hclose depth ts _ (ih hr)
    · rw [Bool.not_eq_true] at hcloses
      by_cases hopens : t.isOpenParen = true
      · obtain rfl : t = .openParen := by cases t <;> cases hopens; rfl
        rw [splitGroup_open rfl rfl] at h
        obtain ⟨r, hr, heq⟩ := Option.map_eq_some_iff.mp h
        cases heq
        exact hopen depth ts _ (ih hr)
      · rw [Bool.not_eq_true] at hopens
        rw [splitGroup_other hcloses hopens] at h
        obtain ⟨r, hr, heq⟩ := Option.map_eq_some_iff.mp h
        cases heq
        exact hother depth t ts _ hopens hcloses (ih hr)

theorem getElem?_countOne_zero (ns : List Nat) : (countOne ns)[0]? = ns[0]?.map (· + 1) := by
  cases ns with
  | nil => rfl
  | cons n ns => rfl

theorem getElem?_countOne_succ (ns : List Nat) (k : Nat) :
    (countOne ns)[k + 1]? = ns[k + 1]? := by
  cases ns with
  | nil => rfl
  | cons n ns => rfl

/-- The commas that are counted in a group are those ahead of its start. -/
theorem ahead_of_splitGroup {depth : Nat} {ts inside rest : List Token}
    (h : splitGroup isOpenParen isCloseParen depth ts = some (inside, rest)) :
    (ahead isComma ts)[depth]? = some (topLevelCommas depth inside) := by
  refine splitGroup_induction
    (P := fun depth ts inside => (ahead isComma ts)[depth]? = some (topLevelCommas depth inside))
    (fun ts => rfl) (fun depth ts inside ih => ih) (fun depth ts inside ih => ?_)
    (fun depth t ts inside hopen hclose ih => ?_) h
  · rw [ahead, List.getElem?_tail, ih]
    rfl
  · cases t with
    | openParen => cases hopen
    | closeParen => cases hclose
    | comma =>
      rw [ahead_separator rfl rfl rfl]
      cases depth with
      | zero =>
        rw [getElem?_countOne_zero, ih]
        rfl
      | succ depth =>
        rw [getElem?_countOne_succ, ih]
        rfl
    | _ =>
      rw [ahead_other rfl rfl rfl, ih]
      cases depth <;> rfl

/-- The cells of a literal are one more than the separators ahead of its start. -/
theorem sum_rowLengths {depth : Nat} {ts inside rest : List Token}
    (h : splitGroup isOpenParen isCloseParen depth ts = some (inside, rest)) (length : Nat) :
    ∃ n, (ahead isSeparator ts)[depth]? = some n ∧
      (rowLengths depth length inside).sum = length + n := by
  refine splitGroup_induction
    (P := fun depth ts inside => ∀ length, ∃ n, (ahead isSeparator ts)[depth]? = some n ∧
      (rowLengths depth length inside).sum = length + n)
    (fun ts length => ⟨0, rfl, rfl⟩) (fun depth ts inside ih => ih)
    (fun depth ts inside ih length => ?_) (fun depth t ts inside hopen hclose ih length => ?_)
    h length
  · rw [ahead, List.getElem?_tail]
    exact ih length
  · cases t with
    | openParen => cases hopen
    | closeParen => cases hclose
    | comma =>
      rw [ahead_separator rfl rfl rfl]
      cases depth with
      | zero =>
        obtain ⟨n, hn, hsum⟩ := ih (length + 1)
        refine ⟨n + 1, ?_, ?_⟩
        · rw [getElem?_countOne_zero, hn]
          rfl
        · rw [rowLengths, hsum]
          omega
      | succ depth =>
        rw [getElem?_countOne_succ]
        exact ih length
    | semicolon =>
      rw [ahead_separator rfl rfl rfl]
      cases depth with
      | zero =>
        obtain ⟨n, hn, hsum⟩ := ih 1
        refine ⟨n + 1, ?_, ?_⟩
        · rw [getElem?_countOne_zero, hn]
          rfl
        · rw [rowLengths, List.sum_cons, hsum]
          omega
      | succ depth =>
        rw [getElem?_countOne_succ]
        exact ih length
    | _ =>
      rw [ahead_other rfl rfl rfl]
      cases depth <;> exact ih length

theorem forall_of_raggedRow?_eq_none {cols row : Nat} {lengths : List Nat}
    (h : raggedRow? cols row lengths = none) : ∀ n ∈ lengths, n = cols := by
  induction lengths generalizing row with
  | nil => exact List.forall_mem_nil _
  | cons length lengths ih =>
    rw [raggedRow?] at h
    split at h
    · rename_i hlength
      exact List.forall_mem_cons.mpr ⟨hlength, ih h⟩
    · cases h

/-- A literal that has a shape has rows of one length. -/
theorem rows_of_literalShape {ts : List Token} {shape : Shape} (h : literalShape ts = .ok shape) :
    ∃ inside rest, splitParens ts = some (inside, rest) ∧
      shape.rows = (rowLengths 0 1 inside).length ∧
      ∀ n ∈ rowLengths 0 1 inside, n = shape.cols := by
  unfold literalShape at h
  split at h
  · cases h
  · cases h
  · rename_i inside rest hne hsplit
    dsimp only at h
    split at h
    · cases h
    · rename_i hragged
      cases h
      exact ⟨inside, rest, hsplit, rfl, forall_of_raggedRow?_eq_none hragged⟩

/-- **The cells of a literal are one more than its separators.** -/
theorem size_of_literalShape {ts : List Token} {shape : Shape} (h : literalShape ts = .ok shape) :
    shape.rows * shape.cols = ownAhead isSeparator ts + 1 := by
  obtain ⟨inside, rest, hsplit, hrows, hcols⟩ := rows_of_literalShape h
  obtain ⟨n, hn, hsum⟩ := sum_rowLengths hsplit 1
  have hown : ownAhead isSeparator ts = n := by
    rw [ownAhead, List.headD_eq_head?_getD, List.head?_eq_getElem?, hn]
    rfl
  rw [List.eq_replicate_of_mem hcols, List.sum_replicate_nat] at hsum
  rw [hown, hrows, hsum, Nat.add_comm]

/-- Every group that is closed among some tokens takes one of them, and every separator another,
however they are counted. -/
theorem sum_ahead_add_length_le {separates p : Token → Bool}
    (hp : ∀ t, t.isCloseParen = true ∨ separates t = true → p t = true) (ts : List Token) :
    (ahead separates ts).sum + (ahead separates ts).length ≤ ts.countP p := by
  induction ts with
  | nil => exact Nat.le_refl 0
  | cons t ts ih =>
    by_cases hopen : t.isOpenParen = true
    · obtain rfl : t = .openParen := by cases t <;> cases hopen; rfl
      have htail := (List.sublist_cons_self Token.openParen ts).countP_le (p := p)
      rw [ahead]
      cases hahead : ahead separates ts with
      | nil => exact Nat.zero_le _
      | cons n ns =>
        rw [hahead, List.sum_cons, List.length_cons] at ih
        rw [List.tail_cons]
        omega
    · rw [Bool.not_eq_true] at hopen
      by_cases hclose : t.isCloseParen = true
      · rw [List.countP_cons_of_pos (hp t (.inl hclose))]
        obtain rfl : t = .closeParen := by cases t <;> cases hclose; rfl
        rw [ahead, List.sum_cons, List.length_cons]
        omega
      · rw [Bool.not_eq_true] at hclose
        by_cases hseparates : separates t = true
        · rw [ahead_separator hopen hclose hseparates,
            List.countP_cons_of_pos (hp t (.inr hseparates))]
          cases hahead : ahead separates ts with
          | nil => exact Nat.zero_le _
          | cons n ns =>
            rw [hahead, List.sum_cons, List.length_cons] at ih
            rw [countOne, List.sum_cons, List.length_cons]
            omega
        · rw [Bool.not_eq_true] at hseparates
          rw [ahead_other hopen hclose hseparates]
          exact Nat.le_trans ih (List.sublist_cons_self t ts).countP_le

/-- A literal has no more cells than there are separators and closing parentheses after its start,
and other tokens may be counted with them. -/
theorem size_le_of_literalShape {ts : List Token} {shape : Shape} {p : Token → Bool}
    (hp : ∀ t, t.isCloseParen = true ∨ t.isSeparator = true → p t = true)
    (h : literalShape ts = .ok shape) : shape.rows * shape.cols ≤ ts.countP p := by
  have hsize := size_of_literalShape h
  obtain ⟨inside, rest, hsplit, -⟩ := rows_of_literalShape h
  obtain ⟨n, hn, -⟩ := sum_rowLengths hsplit 1
  have hle := sum_ahead_add_length_le hp ts
  cases hahead : ahead isSeparator ts with
  | nil =>
    rw [hahead] at hn
    cases hn
  | cons m ms =>
    rw [hahead, List.sum_cons, List.length_cons] at hle
    rw [ownAhead, hahead, List.headD_cons] at hsize
    omega

/-! ## The passes, token by token -/

/-- The commas before the dimensions of a group, if it is a literal. -/
def dimensionCommas : Option Shape → Nat
  | none => 0
  | some _ => 2

/-- The commas in the groups that are open, with those before the dimensions of literals. -/
def withDimensions (groups : List (Option Shape)) : List Nat → List Nat
  | [] => []
  | n :: ns => (n + dimensionCommas (groups.headD none)) :: withDimensions groups.tail ns

theorem tail_withDimensions (group : Option Shape) (groups : List (Option Shape)) (ns : List Nat) :
    (withDimensions (group :: groups) ns).tail = withDimensions groups ns.tail := by
  cases ns with
  | nil => rfl
  | cons n ns => rfl

theorem withDimensions_countOne (groups : List (Option Shape)) (ns : List Nat) :
    withDimensions groups (countOne ns) = countOne (withDimensions groups ns) := by
  cases ns with
  | nil => rfl
  | cons n ns =>
    rw [countOne, withDimensions, withDimensions, countOne, Nat.add_right_comm]

theorem ahead_dimensions (group : Option Shape) (ts : List Token) :
    ahead isComma (dimensions group ++ .closeParen :: ts) =
      dimensionCommas group :: ahead isComma ts := by
  cases group with
  | none => rfl
  | some shape => rfl

/-- The pass that resolves literals makes commas of all separators, and adds two to each
literal. -/
theorem ahead_resolveLiteralsIn {groups : List (Option Shape)} {ts rs : List Token}
    (h : resolveLiteralsIn groups ts = .ok rs) :
    ahead isComma rs = withDimensions groups (ahead isSeparator ts) := by
  fun_induction resolveLiteralsIn groups ts generalizing rs with
  | case1 groups =>
    cases h
    rfl
  | case2 groups ts ih =>
    obtain ⟨shape, hshape, h⟩ := exists_of_bind_eq_ok h
    obtain ⟨rest, hrest, heq⟩ := exists_of_bind_eq_ok h
    cases heq
    have hcommas := ih shape hrest
    rw [ahead_other rfl rfl rfl, ahead, hcommas, tail_withDimensions, ahead_other rfl rfl rfl,
      ahead]
  | case3 => cases h
  | case4 groups ts ih =>
    obtain ⟨rest, hrest, heq⟩ := exists_of_bind_eq_ok h
    cases heq
    rw [ahead, ahead, ih hrest, tail_withDimensions]
  | case5 groups ts ih =>
    obtain ⟨rest, hrest, heq⟩ := exists_of_bind_eq_ok h
    cases heq
    rw [ahead_dimensions, ih hrest, ahead, withDimensions, Nat.zero_add]
  | case6 groups ts ih =>
    obtain ⟨rest, hrest, heq⟩ := exists_of_bind_eq_ok h
    cases heq
    rw [ahead_separator rfl rfl rfl, ahead_separator rfl rfl rfl, ih hrest,
      withDimensions_countOne]
  | case7 groups t ts hliteral hstart hopen hclose hsemicolon ih =>
    obtain ⟨rest, hrest, heq⟩ := exists_of_bind_eq_ok h
    cases heq
    cases t with
    | openParen => exact absurd rfl hopen
    | closeParen => exact absurd rfl hclose
    | semicolon => exact absurd rfl hsemicolon
    | comma =>
      rw [ahead_separator rfl rfl rfl, ahead_separator rfl rfl rfl, ih hrest,
        withDimensions_countOne]
    | _ => rw [ahead_other rfl rfl rfl, ahead_other rfl rfl rfl, ih hrest]

/-- The passes after the one for brackets turn `ts` into `ps`, where `groups` are open. -/
def Prepares (groups : List (Option Shape)) (ts ps : List Token) : Prop :=
  ∃ rs, resolveLiteralsIn groups ts = .ok rs ∧ resolveArity rs = .ok ps

/-- A function that has not been told how many arguments it is called with, or any other token. -/
theorem eq_function_or (t : Token) :
    (∃ f, t = .function f none) ∨ ∀ f, t ≠ .function f none := by
  by_cases h : ∃ f, t = .function f none
  · exact .inl h
  · exact .inr fun f hf => h ⟨f, hf⟩

theorem resolveArity_cons {t : Token} {ts ps : List Token}
    (hps : resolveArity (t :: ts) = .ok ps) (h : ∀ f, t ≠ .function f none) :
    ∃ rest, resolveArity ts = .ok rest ∧ ps = t :: rest := by
  rw [← List.singleton_append, Counts.single h] at hps
  cases hrest : resolveArity ts with
  | error e =>
    rw [hrest] at hps
    cases hps
  | ok rest =>
    rw [hrest] at hps
    cases hps
    exact ⟨rest, rfl, rfl⟩

theorem resolveArity_dimensions {group : Option Shape} {ts ps : List Token}
    (hps : resolveArity (dimensions group ++ .closeParen :: ts) = .ok ps) :
    ∃ rest, resolveArity ts = .ok rest ∧ ps = dimensions group ++ .closeParen :: rest := by
  cases group with
  | none => exact resolveArity_cons hps (by rintro _ ⟨⟩)
  | some shape =>
    obtain ⟨_, hrows, rfl⟩ := resolveArity_cons hps (by rintro _ ⟨⟩)
    obtain ⟨_, hcomma, rfl⟩ := resolveArity_cons hrows (by rintro _ ⟨⟩)
    obtain ⟨_, hcols, rfl⟩ := resolveArity_cons hcomma (by rintro _ ⟨⟩)
    obtain ⟨_, hclose, rfl⟩ := resolveArity_cons hcols (by rintro _ ⟨⟩)
    obtain ⟨rest, hrest, rfl⟩ := resolveArity_cons hclose (by rintro _ ⟨⟩)
    exact ⟨rest, hrest, rfl⟩

/-- Whether the passes leave a token as it is. -/
def isKept : Token → Bool
  | .literalStart | .openParen | .closeParen | .semicolon | .function _ none => false
  | _ => true

namespace Prepares

variable {groups : List (Option Shape)} {t : Token} {ts ps : List Token}

theorem single (h : Prepares groups (t :: ts) ps) (ht : t.isKept = true) :
    ∃ rest, Prepares groups ts rest ∧ ps = t :: rest := by
  have hliteral : t ≠ .literalStart := by rintro rfl; cases ht
  have hopen : t ≠ .openParen := by rintro rfl; cases ht
  have hclose : t ≠ .closeParen := by rintro rfl; cases ht
  have hsemicolon : t ≠ .semicolon := by rintro rfl; cases ht
  have hfunction : ∀ f, t ≠ .function f none := by rintro f rfl; cases ht
  obtain ⟨rs, hrs, hps⟩ := h
  rw [← List.singleton_append, Resolves.single hliteral hopen hclose hsemicolon] at hrs
  cases hrest : resolveLiteralsIn groups ts with
  | error e =>
    rw [hrest] at hrs
    cases hrs
  | ok rest =>
    rw [hrest] at hrs
    cases hrs
    obtain ⟨rest', hrest', rfl⟩ := resolveArity_cons hps hfunction
    exact ⟨rest', ⟨rest, hrest, hrest'⟩, rfl⟩

theorem openParen (h : Prepares groups (.openParen :: ts) ps) :
    ∃ rest, Prepares (none :: groups) ts rest ∧ ps = .openParen :: rest := by
  obtain ⟨rs, hrs, hps⟩ := h
  obtain ⟨rest, hrest, heq⟩ := exists_of_bind_eq_ok hrs
  cases heq
  obtain ⟨rest', hrest', rfl⟩ := resolveArity_cons hps (by rintro _ ⟨⟩)
  exact ⟨rest', ⟨rest, hrest, hrest'⟩, rfl⟩

theorem closeParen (h : Prepares groups (.closeParen :: ts) ps) :
    ∃ rest, Prepares groups.tail ts rest ∧
      ps = dimensions (groups.headD none) ++ .closeParen :: rest := by
  obtain ⟨rs, hrs, hps⟩ := h
  obtain ⟨rest, hrest, heq⟩ := exists_of_bind_eq_ok hrs
  cases heq
  obtain ⟨rest', hrest', rfl⟩ := resolveArity_dimensions hps
  exact ⟨rest', ⟨rest, hrest, hrest'⟩, rfl⟩

theorem semicolon (h : Prepares groups (.semicolon :: ts) ps) :
    ∃ rest, Prepares groups ts rest ∧ ps = .comma :: rest := by
  obtain ⟨rs, hrs, hps⟩ := h
  obtain ⟨rest, hrest, heq⟩ := exists_of_bind_eq_ok hrs
  cases heq
  obtain ⟨rest', hrest', rfl⟩ := resolveArity_cons hps (by rintro _ ⟨⟩)
  exact ⟨rest', ⟨rest, hrest, hrest'⟩, rfl⟩

theorem literal (h : Prepares groups (.literalStart :: .openParen :: ts) ps) :
    ∃ shape rest, literalShape ts = .ok shape ∧ Prepares (some shape :: groups) ts rest ∧
      ps = .operator (.literal shape.rows shape.cols) :: .openParen :: rest := by
  obtain ⟨rs, hrs, hps⟩ := h
  obtain ⟨shape, hshape, hrs⟩ := exists_of_bind_eq_ok hrs
  obtain ⟨rest, hrest, heq⟩ := exists_of_bind_eq_ok hrs
  cases heq
  obtain ⟨_, hopen, rfl⟩ := resolveArity_cons hps (by rintro _ ⟨⟩)
  obtain ⟨rest', hrest', rfl⟩ := resolveArity_cons hopen (by rintro _ ⟨⟩)
  exact ⟨shape, rest', hshape, ⟨rest, hrest, hrest'⟩, rfl⟩

end Prepares

/-- The pass that resolves literals makes no parenthesis. -/
theorem openParen_of_resolveLiteralsIn {groups : List (Option Shape)} {ts rs : List Token}
    (h : resolveLiteralsIn groups ts = .ok (.openParen :: rs)) :
    ∃ inner, ts = .openParen :: inner ∧ resolveLiteralsIn (none :: groups) inner = .ok rs := by
  unfold resolveLiteralsIn at h
  split at h
  · cases h
  · obtain ⟨shape, hshape, h⟩ := exists_of_bind_eq_ok h
    obtain ⟨rest, hrest, heq⟩ := exists_of_bind_eq_ok h
    cases heq
  · cases h
  · obtain ⟨rest, hrest, heq⟩ := exists_of_bind_eq_ok h
    cases heq
    exact ⟨_, rfl, hrest⟩
  · obtain ⟨rest, hrest, heq⟩ := exists_of_bind_eq_ok h
    rcases hgroup : groups.headD none with _ | shape
    · rw [hgroup] at heq
      cases heq
    · rw [hgroup] at heq
      cases heq
  · obtain ⟨rest, hrest, heq⟩ := exists_of_bind_eq_ok h
    cases heq
  · rename_i hopen _ _
    obtain ⟨rest, hrest, heq⟩ := exists_of_bind_eq_ok h
    cases heq
    exact absurd rfl hopen

/-- A function is called with one argument more than there are separators, if with any. -/
theorem Prepares.function {groups : List (Option Shape)} {f : Builtin} {ts ps : List Token}
    (h : Prepares groups (.function f none :: ts) ps) :
    ∃ inner rest n, ts = .openParen :: inner ∧ Prepares groups ts rest ∧
      ps = .function f (some n) :: rest ∧ (n = 0 ∨ n = ownAhead isSeparator inner + 1) := by
  obtain ⟨rs, hrs, hps⟩ := h
  obtain ⟨rest, hrest, heq⟩ := exists_of_bind_eq_ok hrs
  cases heq
  obtain ⟨n, hn, hps⟩ := exists_of_bind_eq_ok hps
  obtain ⟨rest', hrest', heq⟩ := exists_of_bind_eq_ok hps
  cases heq
  unfold callArity at hn
  split at hn
  · rename_i inside
    obtain ⟨inner, rfl, hinner⟩ := openParen_of_resolveLiteralsIn hrest
    split at hn
    · rename_i hsplit
      cases hn
      refine ⟨inner, rest', _, rfl, ⟨_, hrest, hrest'⟩, rfl, ?_⟩
      -- the literals around the call add no commas to it
      have hcommas := ahead_of_splitGroup hsplit
      rw [ahead_resolveLiteralsIn hinner] at hcommas
      rw [argumentCount, ownAhead]
      split
      · exact .inl rfl
      · refine .inr (congrArg (· + 1) ?_)
        cases hahead : ahead isSeparator inner with
        | nil =>
          rw [hahead] at hcommas
          cases hcommas
        | cons n ns =>
          rw [hahead] at hcommas
          exact (Option.some.inj hcommas).symm
    · cases hn
  · cases hn

end MatrixLang.Token
