import MatrixLang.Matrix.Json
import MatrixLang.Proofs.Joining
import MatrixLang.Proofs.JsonNumbers
import MatrixLang.Proofs.ValueText

/-! # Matrices read back from JSON

A matrix is `Portable` if its cells fill its shape, there are no more of them than a matrix may
have, and all of them are finite.  Such a matrix is read back from its text in JSON
(`ofJsonText?_jsonText`), and whatever text a matrix is read from, it is portable
(`portable_of_ofJson?`).  That holds of every text of the format, with the fields in any order, with
other fields between them, or as an array without names.

All this is said of any codec that reads its own texts (`Json.Codec.Reliable`).  What becomes of
numbers is up to the codec, and two things are asked of it: the literal of a number is read as that
number again (`Json.Codec.Keeps`), for the cells in question, and a literal that is too large for a
number is refused (`Json.Codec.RefusesOverflow`).  The codec that runs is reliable and refuses such
literals.  It rounds more than once when it reads, so that it keeps many numbers but not all.
-/

namespace MatrixLang

open Number (isFinite)

/-! ## Codecs -/

namespace Json.Codec

/-- A codec whose texts are read back.  Numbers are written as literals, and sizes are read as they
were written. -/
structure Reliable (codec : Codec) : Prop where
  read?_text : ∀ j : Json, j.Writable → codec.read? (codec.text j) = some j
  isLiteral_ofFloat? : ∀ x n, codec.ofFloat? x = some n → n.IsLiteral
  isLiteral_ofSize : ∀ n, (codec.ofSize n).IsLiteral
  toSize?_ofSize : ∀ n < 2 ^ 64, codec.toSize? (codec.ofSize n) = some n

/-- A number has a literal, which is read as that number again. -/
def Keeps (codec : Codec) (x : Float) : Prop :=
  (codec.ofFloat? x).bind codec.toFloat? = some x

/-- A literal that is too large for a number is refused: what is read is finite. -/
def RefusesOverflow (codec : Codec) : Prop :=
  ∀ n x, codec.toFloat? n = some x → isFinite x = true

theorem reliable_standard : standard.Reliable where
  read?_text _ := Json.read?_text
  isLiteral_ofFloat? _ _ := JsonNumber.isLiteral_ofFloat?
  isLiteral_ofSize := JsonNumber.isLiteral_ofNat
  toSize?_ofSize _ := JsonNumber.toSize?_ofNat

theorem refusesOverflow_standard : standard.RefusesOverflow :=
  fun _ _ => JsonNumber.isFinite_toFloat?

-- The significand has a digit more than fits into a double, and the quotient is rounded again.
example : ¬ standard.Keeps 9007199254740991 := by
  unfold Keeps
  decide +kernel

end Json.Codec

namespace Matrix

variable {codec : Json.Codec} {v w : Matrix} {x : Float}

/-! ## Writing -/

theorem writable_cellJson (h : codec.Reliable) (x : Float) : (cellJson codec x).Writable := by
  rw [cellJson]
  split
  · rename_i n hn
    exact .number (h.isLiteral_ofFloat? x n hn)
  · exact .null

theorem writable_toJson (h : codec.Reliable) (m : Matrix) : (m.toJson codec).Writable := by
  refine .object rfl fun field hfield => ?_
  simp only [List.map_cons, List.map_nil, List.mem_cons, List.not_mem_nil, or_false] at hfield
  rcases hfield with rfl | rfl | rfl
  · exact .number (h.isLiteral_ofSize m.rows)
  · exact .number (h.isLiteral_ofSize m.cols)
  · refine .array fun item hitem => ?_
    obtain ⟨x, -, rfl⟩ := List.mem_map.mp hitem
    exact writable_cellJson h x

/-! ## Reading -/

theorem ofJson?_ofFields (rows cols data : Json) :
    ofJson? codec (.ofFields [("rows", rows), ("cols", cols), ("data", data)]) =
      ofJsonParts? codec rows cols data := by
  simp [ofJson?, Json.ofFields, Json.keysAreTexts, Json.field?]

theorem cellOfJson?_cellJson (h : codec.Keeps x) :
    cellOfJson? codec (cellJson codec x) = some x := by
  rw [Json.Codec.Keeps] at h
  rw [cellJson]
  cases hn : codec.ofFloat? x with
  | none =>
    rw [hn] at h
    cases h
  | some n =>
    rw [hn] at h
    exact h

theorem mapM_cellOfJson? {xs : List Float} (h : ∀ x ∈ xs, codec.Keeps x) :
    (xs.map (cellJson codec)).mapM (cellOfJson? codec) = some xs := by
  induction xs with
  | nil => rfl
  | cons x xs ih =>
    rw [List.map_cons, List.mapM_cons, cellOfJson?_cellJson (h x List.mem_cons_self),
      ih fun y hy => h y (List.mem_cons_of_mem x hy)]
    rfl

/-- A matrix that JSON can hold. -/
structure Portable (m : Matrix) : Prop where
  valid : m.Valid
  size_le : m.size ≤ maxCells
  finite : ∀ x ∈ m.data, isFinite x = true

/-- Neither dimension is too large for a size in JSON. -/
theorem Portable.dimensions_lt (h : v.Portable) : v.rows < 2 ^ 64 ∧ v.cols < 2 ^ 64 := by
  have hrows : v.rows ≤ v.rows * v.cols := Nat.le_mul_of_pos_right _ h.valid.cols_pos
  have hcols : v.cols ≤ v.rows * v.cols := Nat.le_mul_of_pos_left _ h.valid.rows_pos
  have hsize : v.rows * v.cols ≤ 268435456 := h.valid.size_data ▸ h.size_le
  omega

theorem ofJson?_toJson (hcodec : codec.Reliable) (h : v.Portable)
    (hkept : ∀ x ∈ v.data, codec.Keeps x) : ofJson? codec (v.toJson codec) = some v := by
  have hcells : (v.data.toList.map (cellJson codec)).mapM (cellOfJson? codec) =
      some v.data.toList :=
    mapM_cellOfJson? fun x hx => hkept x (Array.mem_toList_iff.mp hx)
  obtain ⟨hrows, hcols⟩ := h.dimensions_lt
  have hdata : ofData ⟨v.rows, v.cols⟩ v.data = .ok v := ofData_self h.valid h.size_le
  rw [toJson, ofJson?_ofFields, ofJsonParts?]
  simp only [dimensionOfJson?, dataOfJson?, hcodec.toSize?_ofSize _ hrows,
    hcodec.toSize?_ofSize _ hcols, hcells, Option.bind_eq_bind, Option.bind_some,
    Array.toArray_toList, hdata]
  rfl

/-- **A matrix is read back from its text in JSON.** -/
theorem ofJsonText?_jsonText (hcodec : codec.Reliable) (h : v.Portable)
    (hkept : ∀ x ∈ v.data, codec.Keeps x) :
    ofJsonText? codec (v.jsonText codec) = some v := by
  rw [ofJsonText?, jsonText, hcodec.read?_text _ (writable_toJson hcodec v), Option.bind_some,
    ofJson?_toJson hcodec h hkept]

/-! ## What is read -/

section

variable (hoverflow : codec.RefusesOverflow)
include hoverflow

theorem isFinite_of_cellOfJson? {j : Json} (h : cellOfJson? codec j = some x) :
    isFinite x = true := by
  cases j with
  | number n => exact hoverflow n x h
  | _ => cases h

theorem isFinite_of_mapM {items : List Json} {xs : List Float}
    (h : items.mapM (cellOfJson? codec) = some xs) : ∀ x ∈ xs, isFinite x = true := by
  induction items generalizing xs with
  | nil =>
    cases h
    exact List.forall_mem_nil _
  | cons item items ih =>
    rw [List.mapM_cons] at h
    simp only [Option.bind_eq_bind, Option.bind_eq_some_iff] at h
    obtain ⟨y, hy, ys, hys, hxs⟩ := h
    cases hxs
    intro x hx
    rcases List.mem_cons.mp hx with rfl | hmem
    · exact isFinite_of_cellOfJson? hoverflow hy
    · exact ih hys x hmem

theorem isFinite_of_dataOfJson? {j : Json} {xs : List Float}
    (h : dataOfJson? codec j = some xs) : ∀ x ∈ xs, isFinite x = true := by
  cases j with
  | array items => exact isFinite_of_mapM hoverflow h
  | _ => cases h

omit hoverflow in
/-- What is made of a shape and cells. -/
theorem parts_of_ofData {shape : Shape} {data : Array Float} (h : ofData shape data = .ok w) :
    w.data = data ∧ w.size ≤ maxCells := by
  rw [ofData] at h
  split at h
  · cases h
  rw [checkSize] at h
  split at h
  · rename_i hcap
    simp only [pure_bind] at h
    split at h
    · rename_i hsize
      cases h
      exact ⟨rfl, Nat.le_trans (Nat.le_of_eq hsize) hcap⟩
    · cases h
  · cases h

theorem portable_of_ofJsonParts? {rows cols data : Json}
    (h : ofJsonParts? codec rows cols data = some w) : w.Portable := by
  rw [ofJsonParts?] at h
  simp only [Option.bind_eq_bind, Option.bind_eq_some_iff] at h
  obtain ⟨r, -, c, -, xs, hxs, hmade⟩ := h
  rw [toOption_eq_some_iff] at hmade
  obtain ⟨hcells, hsize⟩ := parts_of_ofData hmade
  refine ⟨valid_of_ofData hmade, hsize, fun x hx => ?_⟩
  rw [hcells, List.mem_toArray] at hx
  exact isFinite_of_dataOfJson? hoverflow hxs x hx

/-- **What is read from JSON could have been written.** -/
theorem portable_of_ofJson? {j : Json} (h : ofJson? codec j = some w) : w.Portable := by
  unfold ofJson? at h
  split at h
  · exact portable_of_ofJsonParts? hoverflow h
  · simp only [Option.bind_eq_bind, Option.bind_eq_some_iff] at h
    obtain ⟨-, -, field, -, rows, -, field', -, cols, -, field'', -, data, -, h⟩ := h
    exact portable_of_ofJsonParts? hoverflow h
  · cases h

end

/-! ## There and back -/

/-- **Matrices go through JSON unchanged.**  One that is valid, not too large and of finite cells is
read back from its text; and every text that a matrix is read from gives such a matrix, which is
read back from its own text in turn.  The codec is any that is reliable and refuses literals that
are too large, and it is taken to keep the cells. -/
theorem json_roundTrip {codec : Json.Codec} (hcodec : codec.Reliable)
    (hoverflow : codec.RefusesOverflow) :
    (∀ v : Matrix, v.Portable → (∀ x ∈ v.data, codec.Keeps x) →
      ofJsonText? codec (v.jsonText codec) = some v) ∧
    ∀ (text : String) (w : Matrix), ofJsonText? codec text = some w →
      w.Portable ∧ ((∀ x ∈ w.data, codec.Keeps x) →
        ofJsonText? codec (w.jsonText codec) = some w) := by
  refine ⟨fun v hv hkept => ofJsonText?_jsonText hcodec hv hkept, fun text w hw => ?_⟩
  obtain ⟨j, -, hj⟩ := Option.bind_eq_some_iff.mp hw
  have hportable : w.Portable := portable_of_ofJson? hoverflow hj
  exact ⟨hportable, ofJsonText?_jsonText hcodec hportable⟩

/-- A row with a negative zero and a cell that is written with an exponent. -/
def signedRow : Matrix :=
  ⟨1, 3, #[0.1, -0.0, 1e300]⟩

theorem keeps_signedRow : ∀ x ∈ signedRow.data, Json.Codec.standard.Keeps x := by
  intro x hx
  simp only [signedRow, List.mem_toArray, List.mem_cons, List.not_mem_nil, or_false] at hx
  unfold Json.Codec.Keeps
  rcases hx with rfl | rfl | rfl <;> decide +kernel

/-- The row with its fields in another order, a field more, and blanks. -/
def signedRowText : String :=
  "\x7b\"cols\": 3, \"note\": null, \"data\": [0.1, -0, 10E299], \"rows\": 1\x7d"

theorem read?_signedRowText : ofJsonText? .standard signedRowText = some signedRow := by
  have hparts : (ofJsonText? .standard signedRowText).map
      (fun m => (m.rows, m.cols, m.data)) = some (1, 3, #[0.1, -0.0, 1e300]) := by
    decide +kernel
  obtain ⟨⟨rows, cols, data⟩, hm, hparts⟩ := Option.map_eq_some_iff.mp hparts
  cases hparts
  exact hm

/-- The codec that runs reads the row from that text, and from the text that it writes. -/
theorem json_roundTrip_signedRow :
    (Json.Codec.standard.Reliable ∧ Json.Codec.standard.RefusesOverflow) ∧
      ofJsonText? .standard signedRowText = some signedRow ∧ signedRow.Portable ∧
      (∀ x ∈ signedRow.data, Json.Codec.standard.Keeps x) ∧
      ofJsonText? .standard (signedRow.jsonText .standard) = some signedRow := by
  have hcodec := Json.Codec.reliable_standard
  have hoverflow := Json.Codec.refusesOverflow_standard
  have hportable : signedRow.Portable :=
    ((json_roundTrip hcodec hoverflow).2 signedRowText signedRow read?_signedRowText).1
  exact ⟨⟨hcodec, hoverflow⟩, read?_signedRowText, hportable, keeps_signedRow,
    (json_roundTrip hcodec hoverflow).1 signedRow hportable keeps_signedRow⟩

end Matrix

end MatrixLang
