import MatrixLang.Proofs.Climbing
import MatrixLang.Proofs.OperatorStack

/-! # Precedence

The tokens of an expression go through the passes that prepare them, become postfix code with
one stack and a tree with another.  What comes out is the tree that a parser calling itself
reads from the same tokens (`Climb.parse`), at any depth and for every mix of operators.

The one exception is an index directly after a quote.  `a'[1]` is read as `(a[1])'`, because
the index binds tighter than the quote that waits on the stack.
-/

namespace MatrixLang

namespace Infix

/-- The tree of the tokens of a derivation. -/
theorem ofTokens_tokens {t : Infix} (h : t.WellFormed) (hq : ¬ IndexesQuote t.tokens) :
    Expr.ofTokens t.tokens = .ok t.tree := by
  rw [ofTokens_eq_meaning h, meaning_eq_tree h hq]

end Infix

/-- **The stacks agree with precedence climbing**: tokens that a derivation of the grammar
stands for, with no index directly after a quote, have a tree, and it is the one that the
parser reads from all of them. -/
theorem ofTokens_eq_climb {ts : List Token} (h : Infix.Renders ts)
    (hq : ¬ Infix.IndexesQuote ts) :
    ∃ e, Expr.ofTokens ts = .ok e ∧ Climb.parse Climb.loosest ts = some (e, []) := by
  obtain ⟨t, ht, rfl⟩ := h
  exact ⟨t.tree, Infix.ofTokens_tokens ht hq, Climb.parse_tokens ht⟩

/-- `-a ^ -b[1]' * [1, -2; max(c, 3), !d]`: the sign before the power is part of its left
operand, the quote closes over the index, and signs stand after a comma and a row break. -/
def signsAndRows : Infix :=
  .between .mul
    (.quote (.between .pow (.before .minus (.name "a"))
      (.before .minus (.index (.name "b") (.number 1)))))
    (.literal [[.number 1, .before .minus (.number 2)],
      [.call .max [.name "c", .number 3], .before .bang (.name "d")]])

theorem ofTokens_signsAndRows :
    Infix.Renders signsAndRows.tokens ∧ ¬ Infix.IndexesQuote signsAndRows.tokens ∧
      ∃ e, Expr.ofTokens signsAndRows.tokens = .ok e ∧
        Climb.parse Climb.loosest signsAndRows.tokens = some (e, []) := by
  have hleft : (Infix.between .pow (.before .minus (.name "a"))
      (.before .minus (.index (.name "b") (.number 1)))).WellFormed :=
    .between (by decide) (.before _ (.name _)) (.before _ (.index (.name _) (.number _)))
  have hcall : (Infix.call .max [.name "c", .number 3]).WellFormed :=
    .call rfl (by simp [Infix.WellFormed.name, Infix.WellFormed.number])
  have hright : (Infix.literal [[.number 1, .before .minus (.number 2)],
      [.call .max [.name "c", .number 3], .before .bang (.name "d")]]).WellFormed :=
    .literal (by simp) (by decide) (by simp [Infix.shapeOf])
      (by simp [hcall, Infix.WellFormed.name, Infix.WellFormed.number, Infix.WellFormed.before])
  have hrenders : Infix.Renders signsAndRows.tokens :=
    ⟨signsAndRows, .between (by decide) (.quote hleft) hright, rfl⟩
  have hquote : ¬ Infix.IndexesQuote signsAndRows.tokens := by
    simp [Infix.IndexesQuote, signsAndRows, Infix.joined, Prefix.written, List.infix_cons_iff,
      List.cons_prefix_cons]
  exact ⟨hrenders, hquote, ofTokens_eq_climb hrenders hquote⟩

/-- An index directly after a quote is applied before it. -/
example : Expr.ofTokens
    [.name "a", .operator .transpose, .openBracket, .number 1, .closeBracket] =
      .ok (.unary .transpose (.binary .index (.variable "a") (.literal 1))) := by
  rfl

end MatrixLang
