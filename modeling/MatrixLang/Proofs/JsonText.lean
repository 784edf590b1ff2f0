import MatrixLang.Json.Read
import MatrixLang.Proofs.NumberText

/-! # JSON read back from its text

A value that is written on one line is read back as it was (`read?_text`), if its literals are of
the form that JSON has for numbers (`JsonNumber.IsLiteral`) and none of its strings holds half of a
surrogate pair (`Json.Writable`).  What is read stops where the text of the value does: after a
number that needs a character that cannot go on with it (`Token.Ends`), and everywhere else the last
bracket or quote decides.

The reader counts down from twice the length of the text.  Each bracket takes one step more than the
values inside of it, and so does each item, so that there are always steps left.
-/

namespace MatrixLang

open Number (AllDigits pointed)
open Token (Ends ends_nil ends_cons spanDigits_append)

/-! ## Literals -/

namespace JsonNumber

/-- A literal has digits before the point, and no zero before other digits. -/
structure IsLiteral (n : JsonNumber) : Prop where
  whole : AllDigits n.whole
  fraction : AllDigits n.fraction
  ne_nil : n.whole ≠ []
  leading : n.whole.head? = some '0' → n.whole = ['0']

/-- The characters of an exponent, if there is one. -/
def exponentChars : Option Int → List Char
  | none => []
  | some e => 'e' :: (if e < 0 then '-' else '+') :: Number.digitsOf e.natAbs

theorem chars_eq (n : JsonNumber) : n.chars =
    Number.signed n.negative (n.whole ++ pointed n.fraction ++ exponentChars n.exponent) := by
  cases n with
  | mk negative whole fraction exponent =>
    cases exponent with
    | none => rfl
    | some e => rfl

end JsonNumber

namespace Json

variable {rest : List Char}

/-- What may come after the digits of a literal. -/
def Stops (rest : List Char) : Prop :=
  ∀ c ∈ rest.head?, c.isDigit = false ∧ c ≠ '.'

theorem stops_of_ends (h : Ends rest) : Stops rest := by
  intro c hc
  obtain ⟨halphanum, hpoint⟩ := h c hc
  rw [Char.isAlphanum, Bool.or_eq_false_iff] at halphanum
  exact ⟨halphanum.2, hpoint⟩

theorem stops_exponentChars (e : Option Int) (h : Ends rest) :
    Stops (JsonNumber.exponentChars e ++ rest) := by
  cases e with
  | none => exact stops_of_ends h
  | some e =>
    intro c hc
    cases hc
    exact ⟨rfl, by decide⟩

theorem readExponent_chars (e : Option Int) (h : Ends rest) :
    readExponent (JsonNumber.exponentChars e ++ rest) = some (e, rest) := by
  cases e with
  | none =>
    cases rest with
    | nil => rfl
    | cons c rest =>
      have hc : ¬ (c = 'e' ∨ c = 'E') := by
        rintro (rfl | rfl) <;> exact absurd (h _ rfl).1 (by decide)
      show readExponent (c :: rest) = _
      rw [readExponent, if_neg hc]
  | some e =>
    have hspan := spanDigits_append (Number.allDigits_digitsOf e.natAbs)
      fun c hc => (stops_of_ends h c hc).1
    have hne : Number.digitsOf e.natAbs ≠ [] := Nat.toDigits_ne_nil
    have hvalue := Number.digitsValue_digitsOf e.natAbs
    show readExponent ('e' :: (if e < 0 then '-' else '+') ::
      (Number.digitsOf e.natAbs ++ rest)) = _
    generalize Number.digitsOf e.natAbs = digits at *
    have hsign : Number.takeSign ((if e < 0 then '-' else '+') :: (digits ++ rest)) =
        (decide (e < 0), digits ++ rest) := by
      by_cases hneg : e < 0
      · rw [if_pos hneg, decide_eq_true hneg]
        rfl
      · rw [if_neg hneg, decide_eq_false hneg]
        rfl
    have hexponent : (if decide (e < 0) = true then -(e.natAbs : Int) else e.natAbs) = e := by
      simp only [decide_eq_true_eq]
      split <;> omega
    cases digits with
    | nil => exact absurd rfl hne
    | cons d ds =>
      rw [readExponent, if_pos (.inl rfl), hsign]
      simp only [hspan, hvalue, hexponent]

theorem readFraction_pointed {fraction : List Char} (hdigits : AllDigits fraction)
    (h : Stops rest) : readFraction (pointed fraction ++ rest) = some (fraction, rest) := by
  rw [pointed]
  by_cases hempty : fraction = []
  · rw [if_pos hempty, hempty, List.nil_append, readFraction]
    rintro tail rfl
    exact (h '.' rfl).2 rfl
  · rw [if_neg hempty, List.cons_append, readFraction]
    have hspan := spanDigits_append hdigits fun c hc => (h c hc).1
    cases fraction with
    | nil => exact absurd rfl hempty
    | cons d ds => simp only [hspan]

theorem head_pointed_append (fraction : List Char) (h : Stops rest) :
    ∀ c ∈ (pointed fraction ++ rest).head?, c.isDigit = false := by
  intro c hc
  rw [pointed] at hc
  split at hc
  · exact (h c hc).1
  · cases hc
    rfl

theorem readWhole_append {whole : List Char} (hdigits : AllDigits whole) (hne : whole ≠ [])
    (hleading : whole.head? = some '0' → whole = ['0']) (h : ∀ c ∈ rest.head?, c.isDigit = false) :
    readWhole (whole ++ rest) = some (whole, rest) := by
  have hspan := spanDigits_append hdigits h
  rw [readWhole]
  simp only [hspan]
  split
  · rename_i heq
    cases heq
    exact absurd rfl hne
  · rename_i heq
    cases heq
    cases hleading rfl
  · rename_i heq
    cases heq
    rfl

/-- The sign that a literal starts with. -/
theorem readNumber_signed {negative : Bool} {body : List Char} (h : body.head? ≠ some '-') :
    readNumber (Number.signed negative body) = (do
      let (whole, cs) ← readWhole body
      let (fraction, cs) ← readFraction cs
      let (exponent, cs) ← readExponent cs
      return (⟨negative, whole, fraction, exponent⟩, cs)) := by
  cases negative with
  | true => rfl
  | false =>
    rw [Number.signed, if_neg Bool.false_ne_true, readNumber]
    rintro tail rfl
    exact h rfl

/-- **A literal is read back.** -/
theorem readNumber_chars {n : JsonNumber} (hn : n.IsLiteral) (h : Ends rest) :
    readNumber (n.chars ++ rest) = some (n, rest) := by
  obtain ⟨negative, whole, fraction, exponent⟩ := n
  obtain ⟨hwhole, hfraction, hne, hleading⟩ := hn
  have hstops := stops_exponentChars exponent h
  have hpoint := head_pointed_append fraction hstops
  have hsigned : JsonNumber.chars ⟨negative, whole, fraction, exponent⟩ ++ rest =
      Number.signed negative
        (whole ++ (pointed fraction ++ (JsonNumber.exponentChars exponent ++ rest))) := by
    rw [JsonNumber.chars_eq]
    cases negative <;> simp [Number.signed]
  have hminus : (whole ++ (pointed fraction ++ (JsonNumber.exponentChars exponent ++ rest))).head? ≠
      some '-' := by
    cases whole with
    | nil => exact absurd rfl hne
    | cons d ds =>
      intro hd
      cases hd
      exact absurd (hwhole '-' List.mem_cons_self) (by decide)
  rw [hsigned, readNumber_signed hminus, readWhole_append hwhole hne hleading hpoint]
  simp only [Option.bind_eq_bind, Option.bind_some, readFraction_pointed hfraction hstops,
    readExponent_chars exponent h]
  rfl

/-! ## Strings -/

theorem hexValue?_digitChar {n : Nat} (h : n < 32) :
    hexValue? '0' '0' (n / 16).digitChar (n % 16).digitChar = some n := by
  revert n
  decide

/-- A character is written after a backslash, by its number in two more digits, or as it is. -/
theorem escape_cases (c : Char) :
    (∃ d, escape c = ['\\', d] ∧ d ≠ 'u' ∧ simpleEscape? d = some c) ∨
    (escape c = ['\\', 'u', '0', '0', (c.toNat / 16).digitChar, (c.toNat % 16).digitChar] ∧
      c.toNat < 32) ∨
    (escape c = [c] ∧ c ≠ '"' ∧ c ≠ '\\' ∧ ¬ c.toNat < 32) := by
  rw [escape]
  iterate 7
    split
    · rename_i hc
      subst hc
      exact .inl ⟨_, rfl, by decide, rfl⟩
  split
  · rename_i hc
    rw [Nat.toDigits_of_lt_base (by omega), Nat.toDigits_of_lt_base (by omega)]
    exact .inr (.inl ⟨rfl, hc⟩)
  · rename_i hquote hslash _ _ _ _ _ hc
    exact .inr (.inr ⟨rfl, hquote, hslash, hc⟩)

section

variable {units : List Nat} {cs tail : List Char}

theorem readUnits_backslash {c d : Char} (h : readUnits cs = some (units, tail)) (hd : d ≠ 'u')
    (hc : simpleEscape? d = some c) :
    readUnits ('\\' :: d :: cs) = some (c.toNat :: units, tail) := by
  rw [readUnits]
  · simp [hc, h]
  · rintro _ _ _ _ _ rfl
    exact absurd rfl hd

theorem readUnits_cons {c : Char} (h : readUnits cs = some (units, tail)) (hquote : c ≠ '"')
    (hslash : c ≠ '\\') (hc : ¬ c.toNat < 32) :
    readUnits (c :: cs) = some (c.toNat :: units, tail) := by
  rw [readUnits]
  · simp [hc, hslash, h]
  · exact hquote
  · rintro _ _ _ _ _ rfl
    exact absurd rfl hslash
  · rintro _ _ rfl
    exact absurd rfl hslash

/-- One more character is read, however it is written. -/
theorem readUnits_escape (h : readUnits cs = some (units, tail)) (c : Char) :
    readUnits (escape c ++ cs) = some (c.toNat :: units, tail) := by
  obtain ⟨d, hescape, hd, hc⟩ | ⟨hescape, hc⟩ | ⟨hescape, hquote, hslash, hc⟩ := escape_cases c
  · rw [hescape]
    exact readUnits_backslash h hd hc
  · rw [hescape]
    simp [readUnits, hexValue?_digitChar hc, h]
  · rw [hescape]
    exact readUnits_cons h hquote hslash hc

end

theorem readUnits_flatMap_escape (cs tail : List Char) :
    readUnits (cs.flatMap escape ++ '"' :: tail) = some (cs.map Char.toNat, tail) := by
  induction cs with
  | nil => simp [readUnits]
  | cons c cs ih =>
    rw [List.flatMap_cons, List.append_assoc, readUnits_escape ih]
    rfl

theorem not_isSurrogate (c : Char) :
    isHighSurrogate c.toNat = false ∧ isLowSurrogate c.toNat = false := by
  have hvalid := c.valid
  simp only [isHighSurrogate, isLowSurrogate, Bool.and_eq_false_iff, decide_eq_false_iff_not]
  simp only [UInt32.isValidChar, Nat.isValidChar] at hvalid
  have htoNat : c.toNat = c.val.toNat := rfl
  omega

/-- The characters of whole code points. -/
theorem joinUnits_map_toNat (cs : List Char) : joinUnits (cs.map Char.toNat) = some cs := by
  induction cs with
  | nil => rfl
  | cons c cs ih =>
    obtain ⟨hhigh, hlow⟩ := not_isSurrogate c
    cases cs with
    | nil => simp [joinUnits, hhigh, hlow]
    | cons d cs =>
      rw [List.map_cons] at ih
      rw [List.map_cons, List.map_cons, joinUnits, ih]
      simp [hhigh, hlow]

/-- **A string is read back.** -/
theorem readString_flatMap_escape (s : String) (tail : List Char) :
    readString (s.toList.flatMap escape ++ '"' :: tail) = some (some s, tail) := by
  rw [readString, readUnits_flatMap_escape]
  simp [joinUnits_map_toNat]

/-! ## Values -/

/-- Everything in a value can be written: literals are such, and no string holds half of a surrogate
pair. -/
inductive Writable : Json → Prop where
  | null : Writable .null
  | bool (b : Bool) : Writable (.bool b)
  | number {n : JsonNumber} (h : n.IsLiteral) : Writable (.number n)
  | string (s : String) : Writable (.string (some s))
  | array {items : List Json} (h : ∀ item ∈ items, Writable item) : Writable (.array items)
  | object {fields : List (Option String × Json)} (hkeys : keysAreTexts fields = true)
      (hvalues : ∀ field ∈ fields, Writable field.2) : Writable (.object fields)

/-- No white space. -/
def Visible (c : Char) : Prop :=
  c ∉ [' ', '\n', '\t', '\r']

instance (c : Char) : Decidable (Visible c) :=
  inferInstanceAs (Decidable (_ ∉ _))

theorem skipBlank_cons {c : Char} {cs : List Char} (h : Visible c) :
    skipBlank (c :: cs) = c :: cs := by
  simp only [Visible, List.mem_cons, List.not_mem_nil, or_false, not_or] at h
  simp [skipBlank, h]

/-- A literal starts with its sign or with a digit. -/
theorem head_number {n : JsonNumber} (hn : n.IsLiteral) :
    ∃ c cs, n.chars = c :: cs ∧ (c = '-' ∨ c.isDigit = true) := by
  rw [JsonNumber.chars_eq]
  cases n.negative with
  | true => exact ⟨_, _, rfl, .inl rfl⟩
  | false =>
    obtain ⟨d, ds, hwhole⟩ := List.exists_cons_of_ne_nil hn.ne_nil
    have hd := hn.whole d (hwhole ▸ List.mem_cons_self)
    rw [hwhole]
    exact ⟨d, _, rfl, .inr hd⟩

theorem visible_of_number {c : Char} (h : c = '-' ∨ c.isDigit = true) : Visible c := by
  intro hc
  simp only [List.mem_cons, List.not_mem_nil, or_false] at hc
  rcases hc with rfl | rfl | rfl | rfl <;> exact absurd h (by decide)

/-- No value starts with white space, or with the end of an array. -/
theorem head_chars {j : Json} (h : j.Writable) :
    ∃ c cs, j.chars = c :: cs ∧ Visible c ∧ c ≠ ']' := by
  cases h with
  | null =>
    rw [chars]
    exact ⟨'n', _, rfl, by decide⟩
  | bool b =>
    rw [chars]
    cases b
    · exact ⟨'f', _, rfl, by decide⟩
    · exact ⟨'t', _, rfl, by decide⟩
  | number hn =>
    obtain ⟨c, cs, hchars, hc⟩ := head_number hn
    rw [chars]
    refine ⟨c, cs, hchars, visible_of_number hc, ?_⟩
    rintro rfl
    exact absurd hc (by decide)
  | string s =>
    rw [chars]
    exact ⟨'"', _, rfl, by decide⟩
  | array =>
    rw [chars]
    exact ⟨'[', _, rfl, by decide⟩
  | object =>
    rw [chars]
    exact ⟨'\x7b', _, rfl, by decide⟩

theorem readValue_number {n : JsonNumber} (hn : n.IsLiteral) (h : Ends rest) (fuel : Nat) :
    readValue (fuel + 1) (n.chars ++ rest) = some (.number n, rest) := by
  have hread := readNumber_chars hn h
  obtain ⟨c, cs, hchars, hc⟩ := head_number hn
  rw [hchars, List.cons_append] at hread ⊢
  rw [readValue, skipBlank_cons (visible_of_number hc)]
  split
  case h_7 =>
    rw [hread]
    rfl
  all_goals
    rename_i heq
    obtain ⟨rfl, -⟩ := List.cons.inj heq
    exact absurd hc (by decide)

/-- A string with what comes after it. -/
theorem quoted_append (s : String) (tail : List Char) :
    quoted (some s) ++ tail = '"' :: (s.toList.flatMap escape ++ '"' :: tail) := by
  simp [quoted]

theorem readValue_quoted (s : String) (fuel : Nat) :
    readValue (fuel + 1) (quoted (some s) ++ rest) = some (.string (some s), rest) := by
  rw [quoted_append, readValue, skipBlank_cons (by decide)]
  simp only [readString_flatMap_escape, Option.map_some]

/-- The text of a value is read back, whatever comes after it. -/
def Returns (j : Json) : Prop :=
  ∀ {fuel : Nat} {rest : List Char}, Ends rest → 2 * j.chars.length ≤ fuel →
    readValue fuel (j.chars ++ rest) = some (j, rest)

section

variable {fuel : Nat}

theorem charsOfItems_cons (item next : Json) (items : List Json) :
    charsOfItems (item :: next :: items) = item.chars ++ ',' :: charsOfItems (next :: items) := by
  rw [charsOfItems]
  exact List.cons_ne_nil next items

theorem readItems_chars {item : Json} {items : List Json} (h : ∀ j ∈ item :: items, j.Returns)
    (hfuel : 2 * (charsOfItems (item :: items)).length + 1 ≤ fuel) :
    readItems fuel (charsOfItems (item :: items) ++ ']' :: rest) = some (item :: items, rest) := by
  induction items generalizing item fuel with
  | nil =>
    obtain ⟨fuel, rfl⟩ : ∃ n, fuel = n + 1 := ⟨fuel - 1, by omega⟩
    rw [charsOfItems] at hfuel ⊢
    rw [readItems, h item List.mem_cons_self (ends_cons (by decide) rest) (by omega)]
    simp [skipBlank_cons (show Visible ']' by decide)]
  | cons next items ih =>
    obtain ⟨fuel, rfl⟩ : ∃ n, fuel = n + 1 := ⟨fuel - 1, by omega⟩
    rw [charsOfItems_cons, List.length_append, List.length_cons] at hfuel
    have hitems : readItems fuel (charsOfItems (next :: items) ++ ']' :: rest) =
        some (next :: items, rest) :=
      ih (fun j hj => h j (List.mem_cons_of_mem _ hj)) (by omega)
    rw [charsOfItems_cons, List.append_assoc, List.cons_append, readItems,
      h item List.mem_cons_self (ends_cons (by decide) _) (by omega)]
    simp [skipBlank_cons (show Visible ',' by decide), hitems]

theorem charsOfFields_cons (key : Option String) (value : Json) (next : Option String × Json)
    (fields : List (Option String × Json)) : charsOfFields ((key, value) :: next :: fields) =
      quoted key ++ ':' :: (value.chars ++ ',' :: charsOfFields (next :: fields)) := by
  rw [charsOfFields]
  · simp
  · exact List.cons_ne_nil next fields

section

variable {value : Json}

theorem readFields_last (hvalue : value.Returns) (key : String)
    (hfuel : 2 * value.chars.length ≤ fuel) :
    readFields (fuel + 1) (quoted (some key) ++ ':' :: (value.chars ++ '\x7d' :: rest)) =
      some ([(some key, value)], rest) := by
  have hends : Ends ('\x7d' :: rest) := ends_cons (by decide) rest
  rw [quoted_append, readFields, skipBlank_cons (by decide)]
  simp [readString_flatMap_escape, skipBlank_cons (show Visible ':' by decide),
    skipBlank_cons (show Visible '\x7d' by decide), hvalue hends hfuel]

theorem readFields_more {fields : List (Option String × Json)} {cs : List Char}
    (hfields : readFields fuel cs = some (fields, rest)) (hvalue : value.Returns) (key : String)
    (hfuel : 2 * value.chars.length ≤ fuel) :
    readFields (fuel + 1) (quoted (some key) ++ ':' :: (value.chars ++ ',' :: cs)) =
      some ((some key, value) :: fields, rest) := by
  have hends : Ends (',' :: cs) := ends_cons (by decide) cs
  rw [quoted_append, readFields, skipBlank_cons (by decide)]
  simp [readString_flatMap_escape, skipBlank_cons (show Visible ':' by decide),
    skipBlank_cons (show Visible ',' by decide), hvalue hends hfuel, hfields]

end

theorem keysAreTexts_cons {field : Option String × Json} {fields : List (Option String × Json)} :
    keysAreTexts (field :: fields) = true ↔
      (∃ key, field.1 = some key) ∧ keysAreTexts fields = true := by
  rw [keysAreTexts, List.all_cons, Bool.and_eq_true, Option.isSome_iff_exists]
  rfl

theorem readFields_chars {field : Option String × Json} {fields : List (Option String × Json)}
    (hkeys : keysAreTexts (field :: fields) = true) (h : ∀ f ∈ field :: fields, f.2.Returns)
    (hfuel : 2 * (charsOfFields (field :: fields)).length + 1 ≤ fuel) :
    readFields fuel (charsOfFields (field :: fields) ++ '\x7d' :: rest) =
      some (field :: fields, rest) := by
  induction fields generalizing field fuel with
  | nil =>
    obtain ⟨key, value⟩ := field
    obtain ⟨⟨key, rfl⟩, -⟩ := keysAreTexts_cons.mp hkeys
    obtain ⟨fuel, rfl⟩ : ∃ n, fuel = n + 1 := ⟨fuel - 1, by omega⟩
    rw [charsOfFields, List.length_append, List.length_cons] at hfuel
    rw [charsOfFields, List.append_assoc, List.cons_append]
    have hvalue : value.Returns := h (some key, value) List.mem_cons_self
    exact readFields_last hvalue key (by omega)
  | cons next fields ih =>
    obtain ⟨key, value⟩ := field
    obtain ⟨⟨key, rfl⟩, hkeys⟩ := keysAreTexts_cons.mp hkeys
    obtain ⟨fuel, rfl⟩ : ∃ n, fuel = n + 1 := ⟨fuel - 1, by omega⟩
    rw [charsOfFields_cons] at hfuel ⊢
    simp only [List.length_append, List.length_cons] at hfuel
    have hfields : readFields fuel (charsOfFields (next :: fields) ++ '\x7d' :: rest) =
        some (next :: fields, rest) :=
      ih hkeys (fun f hf => h f (List.mem_cons_of_mem _ hf)) (by omega)
    have hvalue : value.Returns := h (some key, value) List.mem_cons_self
    simpa using readFields_more hfields hvalue key (by omega)

end

theorem head_items {item : Json} (h : item.Writable) (items : List Json) :
    ∃ c cs, charsOfItems (item :: items) = c :: cs ∧ Visible c ∧ c ≠ ']' := by
  obtain ⟨c, cs, hchars, hc⟩ := head_chars h
  cases items with
  | nil =>
    rw [charsOfItems]
    exact ⟨c, cs, hchars, hc⟩
  | cons next items =>
    rw [charsOfItems_cons, hchars]
    exact ⟨c, _, rfl, hc⟩

theorem head_fields (field : Option String × Json) (fields : List (Option String × Json)) :
    ∃ cs, charsOfFields (field :: fields) = '"' :: cs := by
  obtain ⟨key, value⟩ := field
  cases fields with
  | nil =>
    rw [charsOfFields]
    exact ⟨_, rfl⟩
  | cons next fields =>
    rw [charsOfFields_cons]
    exact ⟨_, rfl⟩

/-- A value has a character, so there is a step to read it. -/
theorem returns_of_step {j : Json} (h : j.Writable)
    (hread : ∀ fuel rest, Ends rest → 2 * j.chars.length ≤ fuel + 1 →
      readValue (fuel + 1) (j.chars ++ rest) = some (j, rest)) : j.Returns := by
  intro fuel rest hends hfuel
  obtain ⟨c, cs, hchars, -⟩ := head_chars h
  have hlength : j.chars.length = cs.length + 1 := by rw [hchars, List.length_cons]
  obtain ⟨fuel, rfl⟩ : ∃ n, fuel = n + 1 := ⟨fuel - 1, by omega⟩
  exact hread fuel rest hends hfuel

theorem returns_array {items : List Json} (hitems : ∀ item ∈ items, item.Writable)
    (h : ∀ item ∈ items, item.Returns) : (Json.array items).Returns := by
  refine returns_of_step (.array hitems) fun fuel rest _ hfuel => ?_
  rw [chars, List.length_append, List.length_cons, List.length_singleton] at hfuel
  rw [chars, List.append_assoc, List.singleton_append, List.cons_append, readValue,
    skipBlank_cons (by decide)]
  cases items with
  | nil => simp [charsOfItems, skipBlank_cons (show Visible ']' by decide)]
  | cons item items =>
    obtain ⟨c, cs, hchars, hc, hbracket⟩ := head_items (hitems item List.mem_cons_self) items
    have hread : readItems fuel (charsOfItems (item :: items) ++ ']' :: rest) =
      some (item :: items, rest) := readItems_chars h (by omega)
    rw [hchars, List.cons_append] at hread
    simp [hchars, skipBlank_cons hc, hbracket, hread]

theorem returns_object {fields : List (Option String × Json)} (hkeys : keysAreTexts fields = true)
    (hvalues : ∀ field ∈ fields, field.2.Writable) (h : ∀ field ∈ fields, field.2.Returns) :
    (Json.object fields).Returns := by
  refine returns_of_step (.object hkeys hvalues) fun fuel rest _ hfuel => ?_
  rw [chars, List.length_append, List.length_cons, List.length_singleton] at hfuel
  rw [chars, List.append_assoc, List.singleton_append, List.cons_append, readValue,
    skipBlank_cons (by decide)]
  cases fields with
  | nil => simp [charsOfFields, skipBlank_cons (show Visible '\x7d' by decide)]
  | cons field fields =>
    obtain ⟨cs, hchars⟩ := head_fields field fields
    have hread : readFields fuel (charsOfFields (field :: fields) ++ '\x7d' :: rest) =
      some (field :: fields, rest) := readFields_chars hkeys h (by omega)
    rw [hchars, List.cons_append] at hread
    simp [hchars, skipBlank_cons (show Visible '"' by decide), hread]

/-- **What is written is read back**, whatever comes after it that does not go on with a number. -/
theorem returns_of_writable {j : Json} (h : j.Writable) : j.Returns := by
  induction h with
  | null =>
    refine returns_of_step .null fun fuel rest _ _ => ?_
    rw [chars]
    rfl
  | bool b =>
    refine returns_of_step (.bool b) fun fuel rest _ _ => ?_
    rw [chars]
    cases b <;> rfl
  | number hn =>
    refine returns_of_step (.number hn) fun fuel rest hends _ => ?_
    rw [chars]
    exact readValue_number hn hends fuel
  | string s =>
    refine returns_of_step (.string s) fun fuel rest _ _ => ?_
    rw [chars]
    exact readValue_quoted s fuel
  | array hitems ih => exact returns_array hitems ih
  | object hkeys hvalues ih => exact returns_object hkeys hvalues ih

/-- **A value is read back from its text.** -/
theorem read?_text {j : Json} (h : j.Writable) : read? j.text = some j := by
  have hfuel : 2 * j.chars.length ≤ 2 * j.chars.length + 2 := Nat.le_add_right _ 2
  have hread := returns_of_writable h ends_nil hfuel
  rw [List.append_nil] at hread
  rw [read?, text, String.toList_ofList, hread]
  rfl

end Json

end MatrixLang
