/-!
# Sets of names

Names in order and without repetition.
-/

namespace MatrixLang.Names

/-- Puts a name into its place, unless it is there. -/
def insert (name : String) : List String → List String
  | [] => [name]
  | other :: names =>
    if name < other then name :: other :: names
    else if name = other then other :: names
    else other :: insert name names

/-- The names that occur in a list, in order. -/
def ofList (names : List String) : List String :=
  names.foldr insert []

theorem mem_insert {x name : String} {names : List String} :
    x ∈ insert name names ↔ x = name ∨ x ∈ names := by
  induction names with
  | nil => simp [insert]
  | cons other names ih =>
    unfold insert
    split
    · simp
    · split
      · rename_i h
        simp [h]
      · simp only [List.mem_cons, ih]
        exact or_left_comm

theorem mem_ofList {x : String} {names : List String} : x ∈ ofList names ↔ x ∈ names := by
  unfold ofList
  induction names with
  | nil => simp
  | cons name names ih => simp [mem_insert, ih]

end MatrixLang.Names
