import MatrixLang.Proofs.Cells
import Mathlib.Data.List.Sort

/-! # The full convolution

A cell of a full convolution is a sum of products, each of a cell of the source and a cell of the
kernel.  `Matrix.terms` lists the pairs that are multiplied, in the order in which they are added:
it goes through the whole kernel and leaves out the cells that meet nothing of the source.  The
convolution itself goes only through a window of the kernel that is found by arithmetic, and the
two come to the same (`offsets_eq_filter`).  Each pair of cells is a term of one cell of the result
(`mem_terms`).

`Checked.convolveFull` computes windows and places with differences that must not fall below zero,
and reads no cell that is not there.
-/

namespace MatrixLang

namespace Matrix

variable {m kernel : Matrix} {i j k length size : Nat}

/-! ## Windows -/

/-- Place `i` of the result has a product with place `k` of the kernel: `i - k` is a place of the
source. -/
def Overlaps (length i k : Nat) : Prop :=
  0 ≤ (i : Int) - k ∧ (i : Int) - k < length

instance : Decidable (Overlaps length i k) :=
  inferInstanceAs (Decidable (_ ∧ _))

theorem mem_offsets (hlength : 0 < length) (hsize : 0 < size) :
    k ∈ offsets i length size ↔ k < size ∧ Overlaps length i k := by
  rw [offsets, List.mem_range'_1, Overlaps]
  omega

/-- **A window is the part of the kernel that meets the source.** -/
theorem offsets_eq_filter (hlength : 0 < length) (hsize : 0 < size) (i : Nat) :
    offsets i length size = (List.range size).filter fun k => Overlaps length i k := by
  have hwindow : (offsets i length size).Pairwise (· < ·) := List.pairwise_lt_range' 1
  have hfilter : ((List.range size).filter fun k => Overlaps length i k).Pairwise (· < ·) :=
    List.pairwise_lt_range.filter _
  refine hwindow.eq_of_mem_iff hfilter fun {k} => ?_
  rw [mem_offsets hlength hsize, List.mem_filter, List.mem_range, decide_eq_true_iff]

/-! ## Places of the kernel -/

theorem nodup_places (rows cols : Nat) : (places rows cols).Nodup := by
  rw [places_eq_map]
  refine List.nodup_range.map fun a b h => ?_
  obtain ⟨hdiv, hmod⟩ := Prod.mk.inj h
  rw [← Nat.div_add_mod' a cols, ← Nat.div_add_mod' b cols, hdiv, hmod]

/-- Places that are chosen by their rows and columns. -/
theorem filter_places (rows cols : Nat) (P Q : Nat → Prop) [DecidablePred P] [DecidablePred Q] :
    (places rows cols).filter (fun p => P p.1 ∧ Q p.2) =
      ((List.range rows).filter (P ·)).flatMap fun i =>
        ((List.range cols).filter (Q ·)).map fun j => (i, j) := by
  rw [places]
  induction List.range rows with
  | nil => rfl
  | cons i rest ih =>
    rw [List.flatMap_cons, List.filter_append, ih, List.filter_map]
    by_cases hi : P i
    · rw [List.filter_cons_of_pos (by simpa using hi), List.flatMap_cons]
      simp [hi, Function.comp_def]
    · rw [List.filter_cons_of_neg (by simpa using hi)]
      simp [hi, Function.comp_def]

/-! ## Terms -/

/-- A product of a cell of the source and a cell of the kernel, by their rows and columns. -/
structure Term where
  source : Nat × Nat
  kernel : Nat × Nat
deriving DecidableEq, Repr

namespace Term

/-- Both cells are there. -/
structure Within (m kernel : Matrix) (t : Term) : Prop where
  source_row : t.source.1 < m.rows
  source_col : t.source.2 < m.cols
  kernel_row : t.kernel.1 < kernel.rows
  kernel_col : t.kernel.2 < kernel.cols

/-- The product. -/
def value (m kernel : Matrix) (t : Term) : Float :=
  m.cell t.source.1 t.source.2 * kernel.cell t.kernel.1 t.kernel.2

/-- The row and column of the result that a product is added to. -/
def target (t : Term) : Nat × Nat :=
  (t.source.1 + t.kernel.1, t.source.2 + t.kernel.2)

end Term

/-- The products that are added up in row `i` and column `j` of the full convolution: through the
whole kernel, row by row, without the cells that meet nothing of the source. -/
def terms (m kernel : Matrix) (i j : Nat) : List Term :=
  let inside := (places kernel.rows kernel.cols).filter fun p =>
    Overlaps m.rows i p.1 ∧ Overlaps m.cols j p.2
  inside.map fun p => ⟨(i - p.1, j - p.2), p⟩

/-- A pair of cells is a term of one cell of the result, that in which their rows and their columns
add up. -/
theorem mem_terms {t : Term} :
    t ∈ terms m kernel i j ↔ t.Within m kernel ∧ t.target = (i, j) := by
  constructor
  · intro ht
    obtain ⟨⟨k, l⟩, hp, rfl⟩ := List.mem_map.mp ht
    obtain ⟨hplace, hover⟩ := List.mem_filter.mp hp
    obtain ⟨hrow, hcol⟩ := of_decide_eq_true hover
    obtain ⟨hk, hl⟩ := mem_places.mp hplace
    rw [Overlaps] at hrow hcol
    dsimp only at hrow hcol
    refine ⟨⟨?_, ?_, hk, hl⟩, Prod.ext ?_ ?_⟩
    · show i - k < m.rows
      omega
    · show j - l < m.cols
      omega
    · show i - k + k = i
      omega
    · show j - l + l = j
      omega
  · obtain ⟨⟨a, b⟩, k, l⟩ := t
    rintro ⟨⟨ha, hb, hk, hl⟩, htarget⟩
    obtain ⟨rfl, rfl⟩ := Prod.mk.inj htarget
    dsimp only at ha hb hk hl ⊢
    have hover : Overlaps m.rows (a + k) k ∧ Overlaps m.cols (b + l) l := by
      rw [Overlaps, Overlaps]
      omega
    refine List.mem_map.mpr ⟨(k, l), List.mem_filter.mpr ⟨mem_places.mpr ⟨hk, hl⟩, ?_⟩, ?_⟩
    · exact decide_eq_true hover
    · simp only [Nat.add_sub_cancel]

theorem nodup_terms (m kernel : Matrix) (i j : Nat) : (terms m kernel i j).Nodup := by
  refine ((nodup_places _ _).filter _).map fun p q h => ?_
  exact congrArg Term.kernel h

/-- The terms of all cells of the full convolution. -/
def allTerms (m kernel : Matrix) : List Term :=
  (places (m.rows + kernel.rows - 1) (m.cols + kernel.cols - 1)).flatMap fun p =>
    terms m kernel p.1 p.2

theorem mem_allTerms {t : Term} : t ∈ allTerms m kernel ↔ t.Within m kernel := by
  rw [allTerms, List.mem_flatMap]
  constructor
  · rintro ⟨p, -, ht⟩
    exact (mem_terms.mp ht).1
  · intro h
    have hplace : t.target ∈ places (m.rows + kernel.rows - 1) (m.cols + kernel.cols - 1) := by
      obtain ⟨ha, hb, hk, hl⟩ := h
      rw [mem_places, Term.target]
      omega
    exact ⟨t.target, hplace, mem_terms.mpr ⟨h, rfl⟩⟩

/-- No product is added twice, to the same cell or to another one. -/
theorem nodup_allTerms (m kernel : Matrix) : (allTerms m kernel).Nodup := by
  refine List.nodup_flatMap.mpr ⟨fun p _ => nodup_terms m kernel p.1 p.2, ?_⟩
  refine (nodup_places _ _).imp fun {p q} hne t hp hq => hne ?_
  exact (mem_terms.mp hp).2.symm.trans (mem_terms.mp hq).2

/-- Every cell of the full convolution has a term. -/
theorem terms_ne_nil (hm : m.Valid) (hk : kernel.Valid) (hi : i < m.rows + kernel.rows - 1)
    (hj : j < m.cols + kernel.cols - 1) : terms m kernel i j ≠ [] := by
  have hmrows := hm.rows_pos
  have hmcols := hm.cols_pos
  have hkrows := hk.rows_pos
  have hkcols := hk.cols_pos
  let t : Term := ⟨(i - min i (kernel.rows - 1), j - min j (kernel.cols - 1)),
    (min i (kernel.rows - 1), min j (kernel.cols - 1))⟩
  have ht : t ∈ terms m kernel i j := by
    refine mem_terms.mpr ⟨⟨?_, ?_, ?_, ?_⟩, Prod.ext ?_ ?_⟩ <;>
      dsimp only [t, Term.target] <;> omega
  exact List.ne_nil_of_mem ht

/-- **A cell of the full convolution is the sum of its terms**, from zero on and in their order. -/
theorem cell_convolveFull (hm : m.Valid) (hk : kernel.Valid) (hi : i < m.rows + kernel.rows - 1)
    (hj : j < m.cols + kernel.cols - 1) : (m.convolveFull kernel).cell i j =
      (terms m kernel i j).foldl (fun sum t => sum + t.value m kernel) 0 := by
  rw [convolveFull, cell_tabulate hi hj, terms, filter_places,
    ← offsets_eq_filter hm.rows_pos hk.rows_pos, ← offsets_eq_filter hm.cols_pos hk.cols_pos,
    List.foldl_map, List.foldl_flatMap]
  simp only [List.foldl_map]
  rfl

end Matrix

/-! ## With guards -/

namespace Checked

open Guarded (minus minus_eq)

variable {m kernel : Matrix} {i j : Nat}

/-- The window of a kernel of length `size` for place `i` of the result.  Where the source reaches
beyond the kernel, it starts at zero. -/
def offsets (i length size : Nat) : Guarded (List Nat) := do
  let first := i - (← minus length 1)
  let last := min i (← minus size 1)
  return List.range' first (last + 1 - first)

/-- The full convolution of a source with a kernel. -/
def convolveFull (m kernel : Matrix) : Guarded Matrix := do
  let rows ← minus (m.rows + kernel.rows) 1
  let cols ← minus (m.cols + kernel.cols) 1
  tabulate rows cols fun i j => do
    let ks ← offsets i m.rows kernel.rows
    let ls ← offsets j m.cols kernel.cols
    ks.foldlM (fun sum k => ls.foldlM (fun sum l => do
      let x ← cell m (← minus i k) (← minus j l)
      let y ← cell kernel k l
      return sum + x * y) sum) 0

theorem offsets_eq {length size : Nat} (hlength : 0 < length) (hsize : 0 < size) :
    offsets i length size = .ok (Matrix.offsets i length size) := by
  rw [offsets, minus_eq (by omega), ok_bind, minus_eq (by omega), ok_bind]
  rfl

/-- **No difference falls below zero, and no cell is read outside.** -/
theorem convolveFull_eq (hm : m.Valid) (hk : kernel.Valid) :
    convolveFull m kernel = .ok (m.convolveFull kernel) := by
  have hmrows := hm.rows_pos
  have hmcols := hm.cols_pos
  have hkrows := hk.rows_pos
  have hkcols := hk.cols_pos
  rw [convolveFull, minus_eq (by omega), ok_bind, minus_eq (by omega), ok_bind]
  refine tabulate_eq fun i _ j _ => ?_
  rw [offsets_eq hmrows hkrows, ok_bind, offsets_eq hmcols hkcols, ok_bind]
  refine foldlM_ok (fun k hkmem sum => foldlM_ok (fun l hlmem sum => ?_) sum) 0
  obtain ⟨hksize, hover⟩ := (Matrix.mem_offsets hmrows hkrows).mp hkmem
  obtain ⟨hlsize, hover'⟩ := (Matrix.mem_offsets hmcols hkcols).mp hlmem
  rw [Matrix.Overlaps] at hover hover'
  rw [minus_eq (by omega), ok_bind, minus_eq (by omega), ok_bind, cell_eq hm (by omega) (by omega),
    ok_bind, cell_eq hk hksize hlsize]
  rfl

end Checked

namespace Matrix

/-- **The full convolution is the sum over the whole kernel.**  It is as large as source and kernel
together, less one.  Each of its cells is the sum, from zero on and row by row through the kernel,
of the products of the cells of the kernel with the cells of the source that they meet, and there
is one.  The windows and places of these cells are computed without falling below zero, and lie
inside.  Every product of a cell of the source and a cell of the kernel is added to one cell of the
result, once. -/
theorem convolveFull_exact {m kernel : Matrix} (hm : m.Valid) (hk : kernel.Valid) :
    (m.convolveFull kernel).Valid ∧
    (m.convolveFull kernel).shape = ⟨m.rows + kernel.rows - 1, m.cols + kernel.cols - 1⟩ ∧
    Checked.convolveFull m kernel = .ok (m.convolveFull kernel) ∧
    (∀ i < m.rows + kernel.rows - 1, ∀ j < m.cols + kernel.cols - 1,
      terms m kernel i j ≠ [] ∧ (m.convolveFull kernel).cell i j =
        (terms m kernel i j).foldl (fun sum t => sum + t.value m kernel) 0) ∧
    (allTerms m kernel).Nodup ∧ ∀ t, t ∈ allTerms m kernel ↔ t.Within m kernel := by
  have hmrows := hm.rows_pos
  have hmcols := hm.cols_pos
  have hkrows := hk.rows_pos
  have hkcols := hk.cols_pos
  refine ⟨valid_tabulate (by omega) (by omega) _, rfl, Checked.convolveFull_eq hm hk, ?_,
    nodup_allTerms m kernel, fun _ => mem_allTerms⟩
  intro i hi j hj
  exact ⟨terms_ne_nil hm hk hi hj, cell_convolveFull hm hk hi hj⟩

/-- Two cells, and a kernel that is larger: a cell of the result has two terms. -/
theorem convolveFull_exact_largeKernel :
    ∃ m kernel : Matrix, m.Valid ∧ kernel.Valid ∧ (m.convolveFull kernel).shape = ⟨2, 4⟩ ∧
      terms m kernel 1 2 = [⟨(0, 1), (1, 1)⟩, ⟨(0, 0), (1, 2)⟩] ∧
      (m.convolveFull kernel).cell 1 2 = 0 + 4 * 50 + 3 * 60 := by
  let m : Matrix := ⟨1, 2, #[3, 4]⟩
  let kernel : Matrix := ⟨2, 3, #[10, 20, 30, 40, 50, 60]⟩
  have hm : m.Valid := ⟨by decide, by decide, rfl⟩
  have hk : kernel.Valid := ⟨by decide, by decide, rfl⟩
  obtain ⟨-, hshape, -, hcells, -⟩ := convolveFull_exact hm hk
  have hterms : terms m kernel 1 2 = [⟨(0, 1), (1, 1)⟩, ⟨(0, 0), (1, 2)⟩] := by decide
  obtain ⟨-, hcell⟩ := hcells 1 (by decide) 2 (by decide)
  rw [hterms] at hcell
  exact ⟨m, kernel, hm, hk, hshape, hterms, hcell⟩

end Matrix

end MatrixLang
