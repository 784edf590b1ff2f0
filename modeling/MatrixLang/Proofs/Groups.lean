import MatrixLang.Proofs.Clauses
import MatrixLang.Proofs.Separators

/-! # Groups of tokens

Tokens are `Matched` if each parenthesis among them has the one it belongs to.  What a search with
a counter finds for the inside of a group is the matched tokens up to a closing parenthesis
(`splitParens_eq_some_iff`), and from a closing parenthesis back there is likewise at most one that
opens its group (`Matched.opening_unique`).

`divide` cuts tokens at the separators outside of all groups.  A row of a literal is a part between
semicolons, and a cell a part of a row between commas.
-/

namespace MatrixLang.Token

/-! ## Matched tokens -/

/-- Every parenthesis has the one it belongs to. -/
inductive Matched : List Token → Prop where
  | nil : Matched []
  | single {t : Token} {ts : List Token} (hopen : t.isOpenParen = false)
      (hclose : t.isCloseParen = false) (h : Matched ts) : Matched (t :: ts)
  | group {inside ts : List Token} (hinside : Matched inside) (h : Matched ts) :
      Matched (.openParen :: (inside ++ .closeParen :: ts))

theorem group_append (inside ts : List Token) : .openParen :: (inside ++ .closeParen :: ts) =
    (.openParen :: (inside ++ [.closeParen])) ++ ts := by
  simp

namespace Matched

variable {a b inside : List Token}

theorem append (ha : Matched a) (hb : Matched b) : Matched (a ++ b) := by
  induction ha with
  | nil => exact hb
  | single hopen hclose _ ih => exact .single hopen hclose ih
  | group hinside _ _ ih =>
    rw [List.cons_append, List.append_assoc, List.cons_append]
    exact .group hinside ih

theorem nested (h : Matched a) : Nested 1 a := by
  induction h with
  | nil => exact Nested.nil
  | @single t ts hopen hclose _ ih =>
    rw [← List.singleton_append]
    refine Nested.append ?_ ih
    by_cases hcomma : t = .comma
    · subst hcomma
      exact Nested.comma
    by_cases hsemicolon : t = .semicolon
    · subst hsemicolon
      exact Nested.semicolon
    exact (Nested.single hopen hclose hcomma hsemicolon).inside
  | @group inside ts _ _ hinside hrest =>
    rw [group_append]
    exact hinside.parens.inside.append hrest

theorem splitParens (h : Matched inside) (rest : List Token) :
    Token.splitParens (inside ++ .closeParen :: rest) = some (inside, rest) :=
  h.nested.splitParens rest

end Matched

/-- Tokens in which as many groups end as are open before them, each after matched tokens. -/
def ClosesAll : Nat → List Token → Prop
  | 0, ts => Matched ts
  | depth + 1, ts => ∃ a b, ts = a ++ .closeParen :: b ∧ Matched a ∧ ClosesAll depth b

theorem ClosesAll.append {depth : Nat} {a ts : List Token} (h : ClosesAll depth ts)
    (ha : Matched a) : ClosesAll depth (a ++ ts) := by
  cases depth with
  | zero => exact ha.append h
  | succ depth =>
    obtain ⟨b, c, rfl, hb, hc⟩ := h
    exact ⟨a ++ b, c, (List.append_assoc ..).symm, ha.append hb, hc⟩

theorem closesAll_of_splitGroup {depth : Nat} {ts inside rest : List Token}
    (h : splitGroup isOpenParen isCloseParen depth ts = some (inside, rest)) :
    ClosesAll depth inside := by
  refine splitGroup_induction (P := fun depth _ inside => ClosesAll depth inside) (fun _ => .nil)
    (fun depth ts inside ih => ⟨[], inside, rfl, .nil, ih⟩) (fun depth ts inside ih => ?_)
    (fun depth t ts inside hopen hclose ih => ih.append (.single hopen hclose .nil)) h
  obtain ⟨a, b, rfl, ha, hb⟩ := ih
  rw [group_append]
  exact hb.append (.group ha .nil)

/-- **The inside of a group is matched, and nothing else is its inside.** -/
theorem splitParens_eq_some_iff {ts inside rest : List Token} :
    splitParens ts = some (inside, rest) ↔
      ts = inside ++ .closeParen :: rest ∧ Matched inside := by
  constructor
  · intro h
    obtain ⟨t, ht, rfl⟩ := Program.splitGroup_eq_some h
    obtain rfl : t = .closeParen := by cases t <;> cases ht; rfl
    exact ⟨rfl, closesAll_of_splitGroup h⟩
  · rintro ⟨rfl, hinside⟩
    exact hinside.splitParens rest

/-! ## Back from a closing parenthesis -/

theorem Matched.countP_eq {a : List Token} (h : Matched a) :
    a.countP isOpenParen = a.countP isCloseParen := by
  induction h with
  | nil => rfl
  | single hopen hclose _ ih => simp [hopen, hclose, ih]
  | group _ _ hinside ih =>
    simp [List.countP_cons, isOpenParen, isCloseParen, hinside, ih]
    omega

/-- No group is open at the end: from no token on are more opened than closed. -/
def NoneOpen (ts : List Token) : Prop :=
  ∀ a b, ts = a ++ b → b.countP isOpenParen ≤ b.countP isCloseParen

namespace NoneOpen

theorem nil : NoneOpen [] := by
  intro a b h
  obtain ⟨-, rfl⟩ := List.append_eq_nil_iff.mp h.symm
  exact Nat.le_refl _

theorem cons {t : Token} {ts : List Token} (h : NoneOpen ts)
    (hcount : (t :: ts).countP isOpenParen ≤ (t :: ts).countP isCloseParen) :
    NoneOpen (t :: ts) := by
  intro a b hts
  rcases a with _ | ⟨u, a⟩
  · rw [List.nil_append] at hts
    rw [← hts]
    exact hcount
  · exact h a b (List.cons.inj hts).2

theorem append {x y : List Token} (hx : NoneOpen x) (hy : NoneOpen y) : NoneOpen (x ++ y) := by
  intro a b h
  rcases List.append_eq_append_iff.mp h with ⟨c, rfl, hc⟩ | ⟨c, hc, rfl⟩
  · exact hy c b hc
  · have hle := hx a c hc
    have hle' := hy [] y rfl
    rw [List.countP_append, List.countP_append]
    omega

theorem closeParen : NoneOpen [.closeParen] :=
  nil.cons (by decide)

/-- A parenthesis before matched tokens would be open. -/
theorem not_matched {a b : List Token} (h : NoneOpen (a ++ .openParen :: b)) : ¬ Matched b := by
  intro hb
  have hle := h a _ rfl
  have hcount := hb.countP_eq
  simp [List.countP_cons, isOpenParen, isCloseParen] at hle
  omega

end NoneOpen

theorem Matched.noneOpen {a : List Token} (h : Matched a) : NoneOpen a := by
  induction h with
  | nil => exact .nil
  | single hopen hclose h ih => exact ih.cons (Nat.le_of_eq (single hopen hclose h).countP_eq)
  | group hinside h ihinside ih =>
    have hrest := ihinside.append (NoneOpen.closeParen.append ih)
    exact hrest.cons (Nat.le_of_eq (group hinside h).countP_eq)

/-- **Before matched tokens there is at most one parenthesis that opens their group.** -/
theorem Matched.opening_unique {a b c d : List Token} (hb : Matched b) (hd : Matched d)
    (h : a ++ .openParen :: b = c ++ .openParen :: d) : a = c ∧ b = d := by
  rcases List.append_eq_append_iff.mp h with ⟨e, rfl, he⟩ | ⟨e, rfl, he⟩
  · rcases e with _ | ⟨u, e⟩
    · exact ⟨(List.append_nil _).symm, (List.cons.inj he).2⟩
    · obtain rfl := (List.cons.inj he).2
      exact absurd hd hb.noneOpen.not_matched
  · rcases e with _ | ⟨u, e⟩
    · exact ⟨List.append_nil _, (List.cons.inj he).2.symm⟩
    · obtain rfl := (List.cons.inj he).2
      exact absurd hb hd.noneOpen.not_matched

/-! ## Parts -/

/-- How many groups are open after a token. -/
def level (depth : Nat) : Token → Nat
  | .openParen => depth + 1
  | .closeParen => depth - 1
  | _ => depth

/-- The parts of some tokens between the separators outside of all groups, where `depth` groups are
open before them. -/
def divide (separates : Token → Bool) : (depth : Nat) → List Token → List (List Token)
  | _, [] => [[]]
  | depth, t :: ts =>
    let parts := divide separates (level depth t) ts
    if depth = 0 ∧ separates t then [] :: parts else parts.modifyHead (t :: ·)

/-- Whether a token is a semicolon. -/
def isSemicolon : Token → Bool
  | .semicolon => true
  | _ => false

/-- The rows of a literal, from what its parentheses enclose. -/
def rows (inside : List Token) : List (List Token) :=
  divide isSemicolon 0 inside

/-- The cells of a row. -/
def cells (row : List Token) : List (List Token) :=
  divide isComma 0 row

theorem level_other {t : Token} (hopen : t.isOpenParen = false) (hclose : t.isCloseParen = false)
    (depth : Nat) : level depth t = depth := by
  cases t with
  | openParen => cases hopen
  | closeParen => cases hclose
  | _ => rfl

theorem foldl_level {a : List Token} (h : Matched a) (depth : Nat) :
    a.foldl level depth = depth := by
  induction h generalizing depth with
  | nil => rfl
  | single hopen hclose _ ih => rw [List.foldl_cons, level_other hopen hclose, ih]
  | group _ _ hinside ih =>
    rw [List.foldl_cons, List.foldl_append, List.foldl_cons, hinside, ih]
    rfl

section

variable {separates : Token → Bool} {depth : Nat} {t : Token}

theorem divide_separator (ht : separates t = true) (hlevel : level 0 t = 0) (ts : List Token) :
    divide separates 0 (t :: ts) = [] :: divide separates 0 ts := by
  show (if 0 = 0 ∧ separates t then [] :: divide separates (level 0 t) ts else _) = _
  rw [if_pos ⟨rfl, ht⟩, hlevel]

theorem divide_other (h : ¬ (depth = 0 ∧ separates t)) (ts : List Token) :
    divide separates depth (t :: ts) =
      (divide separates (level depth t) ts).modifyHead (t :: ·) :=
  if_neg h

theorem divide_ne_nil (depth : Nat) (ts : List Token) : divide separates depth ts ≠ [] := by
  induction ts generalizing depth with
  | nil => exact List.cons_ne_nil _ _
  | cons t ts ih =>
    rw [divide]
    split
    · exact List.cons_ne_nil _ _
    · rw [ne_eq, List.modifyHead_eq_nil_iff]
      exact ih _

/-- A separator outside of all groups divides. -/
theorem divide_append (ht : separates t = true) (hlevel : level 0 t = 0) (b : List Token)
    {a : List Token} (h : a.foldl level depth = 0) :
    divide separates depth (a ++ t :: b) = divide separates depth a ++ divide separates 0 b := by
  induction a generalizing depth with
  | nil =>
    obtain rfl : depth = 0 := h
    exact divide_separator ht hlevel b
  | cons u a ih =>
    rw [List.cons_append, divide, divide, ih h]
    split
    · rfl
    · obtain ⟨part, parts, hparts⟩ := List.exists_cons_of_ne_nil (divide_ne_nil (level depth u) a)
      rw [hparts]
      rfl

/-- A separator inside of a group does not. -/
theorem length_divide_inside {a : List Token} (h : Matched a) (depth : Nat) (b : List Token) :
    (divide separates (depth + 1) (a ++ b)).length = (divide separates (depth + 1) b).length := by
  induction h generalizing depth b with
  | nil => rfl
  | single hopen hclose _ ih =>
    rw [List.cons_append, divide_other (by simp), List.length_modifyHead,
      level_other hopen hclose, ih]
  | group _ _ hinside ih =>
    rw [List.cons_append, List.append_assoc, List.cons_append, divide_other (by simp),
      List.length_modifyHead, level, hinside, divide_other (by simp), List.length_modifyHead, level,
      Nat.add_sub_cancel, ih]

theorem length_divide_group (hopen : separates .openParen = false) {a : List Token}
    (h : Matched a) (b : List Token) :
    (divide separates 0 (.openParen :: (a ++ .closeParen :: b))).length =
      (divide separates 0 b).length := by
  rw [divide_other (by simp [hopen]), List.length_modifyHead, level, length_divide_inside h,
    divide_other (by simp), List.length_modifyHead]
  rfl

theorem length_divide_single (hopen : t.isOpenParen = false) (hclose : t.isCloseParen = false)
    (ts : List Token) : (divide separates 0 (t :: ts)).length =
      (divide separates 0 ts).length + if separates t then 1 else 0 := by
  by_cases ht : separates t
  · rw [divide_separator ht (level_other hopen hclose 0), if_pos ht, List.length_cons]
  · rw [divide_other (fun h => ht h.2), List.length_modifyHead, level_other hopen hclose, if_neg ht]
    rfl

end

/-! ## Rows and cells -/

theorem isSeparator_eq (t : Token) : t.isSeparator = (t.isComma || t.isSemicolon) := by
  cases t <;> rfl

theorem rowLengths_other {depth : Nat} {t : Token} (h : ¬ (depth = 0 ∧ t.isSeparator))
    (length : Nat) (ts : List Token) :
    rowLengths depth length (t :: ts) = rowLengths (level depth t) length ts := by
  cases depth with
  | zero =>
    cases t with
    | comma => exact absurd ⟨rfl, rfl⟩ h
    | semicolon => exact absurd ⟨rfl, rfl⟩ h
    | _ => rfl
  | succ depth => cases t <;> rfl

/-- The lengths that are counted are those of the rows, of which the first starts with `n` cells
that have been counted before. -/
theorem rowLengths_eq (depth n : Nat) (ts : List Token) :
    ∃ first others, divide isSemicolon depth ts = first :: others ∧
      rowLengths depth (n + 1) ts =
        (n + (divide isComma depth first).length) :: others.map fun row => (cells row).length := by
  induction ts generalizing depth n with
  | nil => exact ⟨[], [], rfl, by cases depth <;> rfl⟩
  | cons t ts ih =>
    by_cases h : depth = 0 ∧ t.isSeparator
    · obtain ⟨rfl, ht⟩ := h
      cases t with
      | comma =>
        obtain ⟨first, others, hdivide, hlengths⟩ := ih 0 (n + 1)
        refine ⟨.comma :: first, others, ?_, ?_⟩
        · rw [divide_other (by simp [isSemicolon]), level_other rfl rfl, hdivide,
            List.modifyHead_cons]
        · rw [rowLengths, hlengths, divide_separator rfl rfl, List.length_cons]
          congr 1
          omega
      | semicolon =>
        obtain ⟨first, others, hdivide, hlengths⟩ := ih 0 0
        refine ⟨[], first :: others, ?_, ?_⟩
        · rw [divide_separator rfl rfl, hdivide]
        · rw [rowLengths, hlengths, Nat.zero_add]
          rfl
      | _ => cases ht
    · obtain ⟨first, others, hdivide, hlengths⟩ := ih (level depth t) n
      have hcomma : ¬ (depth = 0 ∧ t.isComma) := by
        rintro ⟨h0, ht⟩
        exact h ⟨h0, by simp [isSeparator_eq, ht]⟩
      have hsemicolon : ¬ (depth = 0 ∧ t.isSemicolon) := by
        rintro ⟨h0, ht⟩
        exact h ⟨h0, by simp [isSeparator_eq, ht]⟩
      refine ⟨t :: first, others, ?_, ?_⟩
      · rw [divide_other hsemicolon, hdivide, List.modifyHead_cons]
      · rw [rowLengths_other h, hlengths, divide_other hcomma, List.length_modifyHead]

theorem rowLengths_eq_map (inside : List Token) :
    rowLengths 0 1 inside = (rows inside).map fun row => (cells row).length := by
  obtain ⟨first, others, hdivide, hlengths⟩ := rowLengths_eq 0 0 inside
  rw [hlengths, rows, hdivide, Nat.zero_add]
  rfl

theorem sum_rowLengths_eq (depth n : Nat) (ts : List Token) :
    (rowLengths depth (n + 1) ts).sum = n + (divide isSeparator depth ts).length := by
  induction ts generalizing depth n with
  | nil => cases depth <;> rfl
  | cons t ts ih =>
    by_cases h : depth = 0 ∧ t.isSeparator
    · obtain ⟨rfl, ht⟩ := h
      cases t with
      | comma =>
        rw [rowLengths, ih, divide_separator rfl rfl, List.length_cons]
        omega
      | semicolon =>
        rw [rowLengths, List.sum_cons, ih, divide_separator rfl rfl, List.length_cons]
        omega
      | _ => cases ht
    · rw [rowLengths_other h, ih, divide_other h, List.length_modifyHead]

/-- Where all rows have as many cells, separators of either kind divide a literal into rows times
columns. -/
theorem length_divide_of_rows {inside : List Token} {cols : Nat}
    (h : ∀ row ∈ rows inside, (cells row).length = cols) :
    (divide isSeparator 0 inside).length = (rows inside).length * cols := by
  have hsum := sum_rowLengths_eq 0 0 inside
  have hmap : (rows inside).map (fun row => (cells row).length) =
      List.replicate (rows inside).length cols := by
    rw [List.map_congr_left h, List.map_const']
  rw [rowLengths_eq_map, hmap, List.sum_replicate_nat, Nat.zero_add] at hsum
  exact hsum.symm

end MatrixLang.Token
