/-!
# Machine words

Some numbers are kept in words of a fixed number of bits.  A result that is out of the range of
its word is an overflow, and nothing comes of the computation that it belongs to.
-/

namespace MatrixLang

/-- The words that numbers are kept in. -/
inductive Word where
  | signed32
  | signed64
  | unsigned64
deriving DecidableEq, Repr, Inhabited

/-- A result that its word cannot hold. -/
structure Overflow where
  word : Word
deriving DecidableEq, Repr, Inhabited

namespace Word

/-- The least number that a word holds. -/
def least : Word → Int
  | .signed32 => Int32.minValue.toInt
  | .signed64 => Int64.minValue.toInt
  | .unsigned64 => 0

/-- The greatest number that a word holds. -/
def greatest : Word → Int
  | .signed32 => Int32.maxValue.toInt
  | .signed64 => Int64.maxValue.toInt
  | .unsigned64 => UInt64.size - 1

/-- The numbers that a word holds. -/
def Holds (w : Word) (x : Int) : Prop :=
  w.least ≤ x ∧ x ≤ w.greatest

instance (w : Word) (x : Int) : Decidable (w.Holds x) :=
  inferInstanceAs (Decidable (_ ∧ _))

/-- A result that has to be a word. -/
def fit (w : Word) (x : Int) : Except Overflow Int :=
  if w.Holds x then return x else throw ⟨w⟩

end Word

end MatrixLang
