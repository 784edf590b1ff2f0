import MatrixLang.Proofs.OperatorStack

/-! # Suffixes of an operand

After a number, a name, a call, a literal or an expression in parentheses there may be any number
of quotes and indices.  They are applied in the order in which they are written, with one exception:
a quote is applied after the indices that directly follow it, since they bind tighter.  So
`a'[1][2]'` is `((a[1][2])')'`, while `a[1]'` and `(a')[1]` are what they seem to be.

On the operator stack there is never more than one quote of the same operand.  It is the only thing
that waits while suffixes are read, so it can be put back before those that are left
(`meaning_withSuffixes`).
-/

namespace MatrixLang

/-- A quote or an index after an operand. -/
inductive Suffix (α : Type) where
  | quote
  | index (position : α)

namespace Suffix

variable {α β : Type}

/-- Whether this is an index. -/
def isIndex : Suffix α → Bool
  | .quote => false
  | .index _ => true

/-- A suffix with another position. -/
def map (f : α → β) : Suffix α → Suffix β
  | .quote => .quote
  | .index i => .index (f i)

/-- The tree that a suffix makes of its operand. -/
def apply (e : Expr) : Suffix Expr → Expr
  | .quote => .unary .transpose e
  | .index i => .binary .index e i

/-- The tokens of a suffix. -/
def tokens : Suffix Infix → List Token
  | .quote => [.operator .transpose]
  | .index i => .openBracket :: (i.tokens ++ [.closeBracket])

/-- The order in which suffixes are applied: a quote comes after the indices that directly follow
it. -/
def order : List (Suffix α) → List (Suffix α)
  | [] => []
  | .index i :: ss => .index i :: order ss
  | .quote :: ss => ss.takeWhile isIndex ++ .quote :: order (ss.dropWhile isIndex)
termination_by ss => ss.length
decreasing_by
  · exact Nat.lt_succ_self _
  · exact Nat.lt_succ_of_le (List.dropWhile_suffix _).length_le

@[simp] theorem order_nil : order ([] : List (Suffix α)) = [] := by rw [order]

@[simp] theorem order_index (i : α) (ss : List (Suffix α)) :
    order (.index i :: ss) = .index i :: order ss := by rw [order]

@[simp] theorem order_quote : order [(.quote : Suffix α)] = [.quote] := by
  rw [order, List.takeWhile_nil, List.dropWhile_nil, order_nil, List.nil_append]

@[simp] theorem order_quote_quote (ss : List (Suffix α)) :
    order (.quote :: .quote :: ss) = .quote :: order (.quote :: ss) := by
  rw [order, List.takeWhile_cons_of_neg (by simp [isIndex]),
    List.dropWhile_cons_of_neg (by simp [isIndex]), List.nil_append]

@[simp] theorem order_quote_index (i : α) (ss : List (Suffix α)) :
    order (.quote :: .index i :: ss) = .index i :: order (.quote :: ss) := by
  rw [order, order, List.takeWhile_cons_of_pos rfl, List.dropWhile_cons_of_pos rfl,
    List.cons_append]

/-- Suffixes in which no index directly follows a quote. -/
def Plain (ss : List (Suffix α)) : Prop :=
  ∀ front i back, ss ≠ front ++ .quote :: .index i :: back

theorem Plain.tail {s : Suffix α} {ss : List (Suffix α)} (h : Plain (s :: ss)) : Plain ss := by
  rintro front i back rfl
  exact h (s :: front) i back rfl

/-- The order does not depend on the positions. -/
theorem order_map (f : α → β) (ss : List (Suffix α)) :
    order (ss.map (map f)) = (order ss).map (map f) := by
  induction ss using order.induct with
  | case1 => rw [List.map_nil, order_nil, order_nil, List.map_nil]
  | case2 i ss ih =>
    show order (.index (f i) :: ss.map (map f)) = _
    rw [order_index, order_index, ih, List.map_cons, map]
  | case3 ss ih =>
    have hindex : isIndex ∘ map f = isIndex := funext fun s => by cases s <;> rfl
    show order (.quote :: ss.map (map f)) = _
    rw [order, order, List.takeWhile_map, List.dropWhile_map, hindex, ih, List.map_append,
      List.map_cons, map]

/-- Where no index directly follows a quote, suffixes are applied as they are written. -/
theorem order_of_plain {ss : List (Suffix α)} (h : Plain ss) : order ss = ss := by
  induction ss with
  | nil => exact order_nil
  | cons s ss ih =>
    cases s with
    | index i => rw [order_index, ih h.tail]
    | quote =>
      cases ss with
      | nil => exact order_quote
      | cons t ss =>
        cases t with
        | quote => rw [order_quote_quote, ih h.tail]
        | index i => exact absurd rfl (h [] i ss)

end Suffix

namespace Infix

/-- Whether suffixes after this are suffixes of all of it. -/
def isPrimary : Infix → Bool
  | .number _ | .name _ | .paren _ | .call _ _ | .literal _ => true
  | .before _ _ | .between _ _ _ | .quote _ | .index _ _ => false

/-- A derivation with a suffix after it. -/
def withSuffix (t : Infix) : Suffix Infix → Infix
  | .quote => .quote t
  | .index i => .index t i

/-- A derivation with suffixes after it. -/
def withSuffixes (t : Infix) (ss : List (Suffix Infix)) : Infix :=
  ss.foldl withSuffix t

theorem tokens_withSuffixes (t : Infix) (ss : List (Suffix Infix)) :
    (t.withSuffixes ss).tokens = t.tokens ++ ss.flatMap Suffix.tokens := by
  induction ss generalizing t with
  | nil => exact (List.append_nil _).symm
  | cons s ss ih =>
    have htokens : (t.withSuffix s).tokens = t.tokens ++ s.tokens := by cases s <;> rfl
    rw [withSuffixes, List.foldl_cons, List.flatMap_cons, ← List.append_assoc, ← htokens]
    exact ih _

theorem WellFormed.withSuffixes {t : Infix} (h : t.WellFormed) {ss : List (Suffix Infix)}
    (hss : ∀ i, .index i ∈ ss → i.WellFormed) : (t.withSuffixes ss).WellFormed := by
  induction ss generalizing t with
  | nil => exact h
  | cons s ss ih =>
    have hrest : ∀ i, .index i ∈ ss → i.WellFormed := fun i hi => hss i (List.mem_cons_of_mem s hi)
    cases s with
    | quote => exact ih h.quote hrest
    | index i => exact ih (h.index (hss i List.mem_cons_self)) hrest

/-- What waits at an operand, as a suffix that is not applied yet. -/
inductive Waits : List Frame → List (Suffix Expr) → Prop
  | nothing : Waits [] []
  | quote : Waits [.quote] [.quote]

/-- **A quote that waits is a suffix among those that are left.** -/
theorem meaning_withSuffixes {t : Infix} {k : List Frame} {e : Expr} {waiting : List (Suffix Expr)}
    (hread : t.read [] = (k, e)) (hk : Waits k waiting) (ss : List (Suffix Infix)) :
    (t.withSuffixes ss).meaning =
      (Suffix.order (waiting ++ ss.map (Suffix.map meaning))).foldl Suffix.apply e := by
  induction ss generalizing t k e waiting with
  | nil =>
    rw [List.map_nil, List.append_nil]
    show finish (t.read []) = _
    rw [hread]
    cases hk with
    | nothing => simp [finish, fillAll]
    | quote => simp [finish, fillAll, Frame.fill, Suffix.apply]
  | cons s ss ih =>
    cases s with
    | quote =>
      cases hk with
      | nothing =>
        have hnext : (quote t).read [] = ([.quote], e) := by rw [read, hread]; rfl
        exact ih hnext .quote
      | quote =>
        -- the quote that waited is applied when the next one comes
        have hnext : (quote t).read [] = ([.quote], .unary .transpose e) := by rw [read, hread]; rfl
        refine (ih hnext .quote).trans ?_
        simp [Suffix.map, Suffix.apply]
    | index i =>
      have hnext : (index t i).read [] = (k, .binary .index e i.meaning) := by
        rw [read, hread]
        cases hk <;> rfl
      refine (ih hnext hk).trans ?_
      cases hk <;> simp [Suffix.map, Suffix.apply]

theorem read_of_isPrimary {t : Infix} (h : t.isPrimary = true) : t.read [] = ([], t.meaning) := by
  cases t <;> first | rfl | cases h

end Infix

/-- **What suffixes make of an operand.**  Whatever stands before them and inside their brackets,
they are applied one after the other, each quote after the indices that directly follow it; where
none do, in the order in which they are written. -/
theorem ofTokens_suffixes {p : Infix} (hp : p.WellFormed) (hprimary : p.isPrimary = true)
    {ss : List (Suffix Infix)} (hss : ∀ i, .index i ∈ ss → i.WellFormed) :
    ∃ e, Expr.ofTokens p.tokens = .ok e ∧ ∃ treeOf : Infix → Expr,
      (∀ i, .index i ∈ ss → Expr.ofTokens i.tokens = .ok (treeOf i)) ∧
      Expr.ofTokens (p.tokens ++ ss.flatMap Suffix.tokens) =
        .ok ((Suffix.order (ss.map (Suffix.map treeOf))).foldl Suffix.apply e) ∧
      (Suffix.Plain ss → Expr.ofTokens (p.tokens ++ ss.flatMap Suffix.tokens) =
        .ok ((ss.map (Suffix.map treeOf)).foldl Suffix.apply e)) := by
  have htree : Expr.ofTokens (p.tokens ++ ss.flatMap Suffix.tokens) =
      .ok ((Suffix.order (ss.map (Suffix.map Infix.meaning))).foldl Suffix.apply p.meaning) := by
    rw [← Infix.tokens_withSuffixes, Infix.ofTokens_eq_meaning (hp.withSuffixes hss),
      Infix.meaning_withSuffixes (Infix.read_of_isPrimary hprimary) .nothing, List.nil_append]
  refine ⟨p.meaning, Infix.ofTokens_eq_meaning hp, Infix.meaning,
    fun i hi => Infix.ofTokens_eq_meaning (hss i hi), htree, fun hplain => ?_⟩
  rw [htree, Suffix.order_map, Suffix.order_of_plain hplain]

/-- `(a + b)''[1][c'[2]]'`: the second quote waits for two indices, and the one inside the brackets
for another. -/
theorem ofTokens_suffixes_of_sum :
    let p : Infix := .paren (.between .add (.name "a") (.name "b"))
    let ss : List (Suffix Infix) :=
      [.quote, .quote, .index (.number 1), .index (.index (.quote (.name "c")) (.number 2)), .quote]
    p.WellFormed ∧ p.isPrimary = true ∧ (∀ i, .index i ∈ ss → i.WellFormed) ∧
      ∃ e, Expr.ofTokens p.tokens = .ok e ∧ ∃ treeOf : Infix → Expr,
        (∀ i, .index i ∈ ss → Expr.ofTokens i.tokens = .ok (treeOf i)) ∧
        Expr.ofTokens (p.tokens ++ ss.flatMap Suffix.tokens) =
          .ok ((Suffix.order (ss.map (Suffix.map treeOf))).foldl Suffix.apply e) ∧
        Suffix.order ss = [.quote, .index (.number 1),
          .index (.index (.quote (.name "c")) (.number 2)), .quote, .quote] := by
  intro p ss
  have hp : p.WellFormed := .paren (.between (by decide) (.name _) (.name _))
  have hss : ∀ i, .index i ∈ ss → i.WellFormed := by
    simp [ss, Infix.WellFormed.number, Infix.WellFormed.index, Infix.WellFormed.quote,
      Infix.WellFormed.name]
  obtain ⟨e, he, treeOf, hpositions, htree, -⟩ := ofTokens_suffixes hp rfl hss
  exact ⟨hp, rfl, hss, e, he, treeOf, hpositions, htree, by simp [ss]⟩

/-- `a'[1]` is not the index of `a'`. -/
theorem ofTokens_index_of_quote :
    let ts : List Token := [.name "a", .operator .transpose, .openBracket, .number 1, .closeBracket]
    Expr.ofTokens ts = .ok (.unary .transpose (.binary .index (.variable "a") (.literal 1))) ∧
      Expr.ofTokens ts ≠ .ok (.binary .index (.unary .transpose (.variable "a")) (.literal 1)) := by
  intro ts
  have htree : Expr.ofTokens ts =
      .ok (.unary .transpose (.binary .index (.variable "a") (.literal 1))) := rfl
  refine ⟨htree, fun h => ?_⟩
  rw [htree] at h
  cases h

end MatrixLang
