import MatrixLang.Matrix.Access

/-!
# Convolutions

`convolveFull` is the full convolution: every cell of the source meets every cell of the
kernel, and the result is larger than the source by the size of the kernel less one.
`convolveSame` filters an image: the middle of the kernel is laid on every cell of the
source, and what it needs from outside is read by a policy.
-/

namespace MatrixLang.Matrix

/-- The places `k` of a kernel of length `size` for which `i - k` is a place of a source
of length `length`, in order. -/
def offsets (i length size : Nat) : List Nat :=
  let first := i - (length - 1)
  let last := min i (size - 1)
  List.range' first (last + 1 - first)

/-- The full convolution of a source with a kernel. -/
def convolveFull (m kernel : Matrix) : Matrix :=
  tabulate (m.rows + kernel.rows - 1) (m.cols + kernel.cols - 1) fun i j =>
    (offsets i m.rows kernel.rows).foldl (fun sum k =>
      (offsets j m.cols kernel.cols).foldl (fun sum l =>
        sum + m.cell (i - k) (j - l) * kernel.cell k l) sum) 0

/-- The cell of the source, from one, that place `k` of a kernel of length `size` is laid
on when its middle lies on place `i` of the source. -/
def sourceIndex (i k size : Nat) : Int64 :=
  Int64.ofInt (i + k - (size / 2 : Nat) + 1)

/-- The source filtered with a kernel. -/
def convolveSame (m kernel : Matrix) (policy : MissingPolicy) : Matrix :=
  tabulate m.rows m.cols fun i j =>
    (List.range kernel.rows).foldl (fun sum k =>
      (List.range kernel.cols).foldl (fun sum l =>
        sum + m.cellAt (sourceIndex i k kernel.rows) (sourceIndex j l kernel.cols) policy *
          kernel.cell k l) sum) 0

end MatrixLang.Matrix
