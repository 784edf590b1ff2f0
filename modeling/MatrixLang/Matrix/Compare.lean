import MatrixLang.Matrix.Basic

/-!
# Comparison and logic

A relation holds of two matrices when it holds in every cell, a number being compared
with every cell of the other; matrices of different shapes are never related.  Equality
asks for the same shape instead.  All results are truth values.
-/

namespace MatrixLang.Matrix

/-- Whether a relation holds in every cell. -/
def everywhere (rel : Float → Float → Bool) (a b : Matrix) : Bool :=
  if a.isScalar then b.data.all (rel (a.cell 0 0))
  else if b.isScalar then a.data.all (rel · (b.cell 0 0))
  else a.shape == b.shape && (Array.zipWith rel a.data b.data).all id

/-- Equality, by shape and cells. -/
def equal (a b : Matrix) : Matrix :=
  ofBool (a.same b)

/-- The opposite of equality. -/
def notEqual (a b : Matrix) : Matrix :=
  ofBool (!a.same b)

/-- Smaller in every cell. -/
def less (a b : Matrix) : Matrix :=
  ofBool (everywhere (fun x y => decide (x < y)) a b)

/-- Larger in every cell. -/
def greater (a b : Matrix) : Matrix :=
  ofBool (everywhere (fun x y => decide (y < x)) a b)

/-- Smaller or equal in every cell. -/
def lessEqual (a b : Matrix) : Matrix :=
  ofBool (everywhere (fun x y => decide (x ≤ y)) a b)

/-- Larger or equal in every cell. -/
def greaterEqual (a b : Matrix) : Matrix :=
  ofBool (everywhere (fun x y => decide (y ≤ x)) a b)

/-- Both count as true. -/
def conjunction (a b : Matrix) : Matrix :=
  ofBool (a.isTrue && b.isTrue)

/-- At least one counts as true. -/
def disjunction (a b : Matrix) : Matrix :=
  ofBool (a.isTrue || b.isTrue)

/-- Does not count as true. -/
def complement (m : Matrix) : Matrix :=
  ofBool (!m.isTrue)

end MatrixLang.Matrix
