import MatrixLang.Expr

/-! # The parts of an expression

All expressions inside an expression, itself included (`Expr.parts`).  They are listed from left to
right, each behind its own parts, so the numbers and names among them stand in the order of the
text.
-/

namespace MatrixLang.Expr

mutual

/-- An expression behind all expressions in it. -/
def parts : Expr → List Expr
  | .literal value => [.literal value]
  | .variable name => [.variable name]
  | .matrix rows cols elements => partsOfAll elements ++ [.matrix rows cols elements]
  | .unary op operand => operand.parts ++ [.unary op operand]
  | .binary op left right => left.parts ++ right.parts ++ [.binary op left right]
  | .call f arguments => partsOfAll arguments ++ [.call f arguments]

/-- The parts of several expressions. -/
def partsOfAll : List Expr → List Expr
  | [] => []
  | e :: es => e.parts ++ partsOfAll es

end

theorem partsOfAll_eq_flatMap (es : List Expr) : partsOfAll es = es.flatMap parts := by
  induction es with
  | nil => rfl
  | cons e es ih => rw [partsOfAll, ih, List.flatMap_cons]

end MatrixLang.Expr
