import MatrixLang.Number.Text
import MatrixLang.Proofs.Rounding
import MatrixLang.Token.Scan

/-! # Numbers read back from their texts

The text of a number is a run of digits, perhaps a point and more digits, and it stands for
the decimal of `Number.shortest`, which reads back as that number (`exists_numeral`).  All of
the text is read, whatever comes after it that is not part of a numeral
(`takeNumeral_positional`).
-/

namespace MatrixLang.Number

/-! ## Digits -/

theorem digitsValue_append (a b : List Char) :
    digitsValue (a ++ b) = digitsValue a * 10 ^ b.length + digitsValue b := by
  induction b using List.reverseRecOn with
  | nil => simp [digitsValue]
  | append_singleton b c ih =>
    rw [← List.append_assoc]
    simp only [digitsValue, List.foldl_append, List.foldl_cons, List.foldl_nil] at ih ⊢
    rw [← List.foldl_append, List.foldl_append, ih]
    simp only [List.length_append, List.length_singleton, Nat.pow_succ]
    ring

theorem digitsValue_zeros (n : Nat) : digitsValue (zeros n) = 0 := by
  induction n with
  | zero => rfl
  | succ n ih =>
    have h : zeros (n + 1) = zeros n ++ ['0'] := List.replicate_succ'
    rw [h, digitsValue_append, ih]
    rfl

theorem digitsValue_digitChar {d : Nat} (h : d < 10) : digitsValue [d.digitChar] = d := by
  revert d
  decide

theorem digitsValue_digitsOf (n : Nat) : digitsValue (digitsOf n) = n := by
  induction n using Nat.strongRecOn with
  | ind n ih =>
    rw [digitsOf, Nat.toDigits_eq_if (by decide)]
    split
    · rename_i hlt
      exact digitsValue_digitChar hlt
    · rename_i hge
      have htens : digitsValue (Nat.toDigits 10 (n / 10)) = n / 10 := ih _ (by omega)
      rw [digitsValue_append, htens, digitsValue_digitChar (Nat.mod_lt n (by decide)),
        List.length_singleton]
      omega

/-- All characters of a text are digits. -/
def AllDigits (cs : List Char) : Prop :=
  ∀ c ∈ cs, c.isDigit = true

theorem allDigits_digitsOf (n : Nat) : AllDigits (digitsOf n) := fun _ hc =>
  Nat.isDigit_of_mem_toDigits (by decide) (by decide) hc

theorem allDigits_zeros (n : Nat) : AllDigits (zeros n) := fun c hc => by
  rw [List.eq_of_mem_replicate hc]
  rfl

theorem AllDigits.append {a b : List Char} (ha : AllDigits a) (hb : AllDigits b) :
    AllDigits (a ++ b) := fun c hc =>
  (List.mem_append.mp hc).elim (ha c) (hb c)

/-! ## Positional notation -/

/-- A fraction with its point, if there is one. -/
def pointed (fraction : List Char) : List Char :=
  if fraction = [] then [] else '.' :: fraction

/-- A text in positional notation: digits, and perhaps a point with digits after it. -/
structure Positional (cs whole fraction : List Char) : Prop where
  eq : cs = whole ++ pointed fraction
  ne_nil : whole ≠ []
  whole : AllDigits whole
  fraction : AllDigits fraction

/-- The text of a decimal stands for it. -/
theorem positional_spec (d : Decimal) :
    ∃ whole fraction, Positional d.positional whole fraction ∧
      (digitsValue (whole ++ fraction) : ℚ) * 10 ^ (-(fraction.length : ℤ)) = d.value := by
  have hne : digitsOf d.digits ≠ [] := Nat.toDigits_ne_nil
  have hdigits := allDigits_digitsOf d.digits
  have hvalue := digitsValue_digitsOf d.digits
  simp only [Decimal.positional, Decimal.value]
  generalize digitsOf d.digits = digits at *
  split
  · -- a whole number
    rename_i hexponent
    obtain ⟨n, hn⟩ := Int.eq_ofNat_of_zero_le hexponent
    refine ⟨digits ++ zeros n, [], ⟨by simp [pointed, hn], by simp [hne],
      hdigits.append (allDigits_zeros n), List.forall_mem_nil _⟩, ?_⟩
    rw [List.append_nil, digitsValue_append, hvalue, digitsValue_zeros, hn]
    simp [zeros]
  · rename_i hexponent
    obtain ⟨n, hn⟩ : ∃ n : Nat, d.exponent = -(n : ℤ) :=
      ⟨(-d.exponent).toNat, by omega⟩
    have hn0 : n ≠ 0 := by omega
    have hplaces : (-d.exponent).toNat = n := by omega
    rw [hplaces]
    split
    · -- the point stands among the digits
      rename_i hlt
      refine ⟨digits.take (digits.length - n), digits.drop (digits.length - n),
        ⟨?_, ?_, fun c hc => hdigits c (List.mem_of_mem_take hc),
          fun c hc => hdigits c (List.mem_of_mem_drop hc)⟩, ?_⟩
      · rw [pointed, if_neg]
        simp only [List.drop_eq_nil_iff]
        omega
      · simp only [ne_eq, List.take_eq_nil_iff, hne, or_false]
        omega
      · have hlength : (digits.drop (digits.length - n)).length = n := by
          rw [List.length_drop]
          omega
        rw [List.take_append_drop, hvalue, hlength, hn]
    · -- it stands before all of them
      rename_i hge
      refine ⟨['0'], zeros (n - digits.length) ++ digits, ⟨?_, by simp, ?_,
        (allDigits_zeros _).append hdigits⟩, ?_⟩
      · rw [pointed, if_neg (by simp [hne])]
        simp
      · simp [AllDigits]
      · have hlength : (zeros (n - digits.length) ++ digits).length = n := by
          simp only [List.length_append, zeros, List.length_replicate]
          omega
        rw [hlength, ← List.append_assoc, digitsValue_append, hvalue,
          show ['0'] ++ zeros (n - digits.length) = zeros (n - digits.length + 1) from rfl,
          digitsValue_zeros, hn]
        simp

/-- **The text of a magnitude reads back.** -/
theorem exists_numeral {m : Nat} {q : ℤ} (hmag : IsMagnitude m q) :
    ∃ whole fraction,
      Positional (if m = 0 then ['0'] else (shortest .up m q).positional) whole fraction ∧
        (⟨whole, fraction, 0⟩ : Numeral).toFloat = ofMagnitude m q := by
  by_cases hm : m = 0
  · have hq : q = leastExponent := hmag.normal.resolve_left (by omega)
    refine ⟨['0'], [], ⟨by simp [hm, pointed], by simp, by simp [AllDigits], nofun⟩, ?_⟩
    rw [hm, hq]
    rfl
  · obtain ⟨whole, fraction, hpositional, hvalue⟩ := positional_spec (shortest .up m q)
    have hpos : 0 < m := Nat.pos_of_ne_zero hm
    refine ⟨whole, fraction, by rwa [if_neg hm], ofDecimal_of_readsBack hpos hmag ?_⟩
    rw [zero_sub, hvalue]
    exact readsBack_shortest .up q hpos

/-- Whether a number is finite and has no minus sign.  A negative zero has one. -/
def isUnsigned (x : Float) : Bool :=
  match Binary.ofFloat x with
  | .finite false .. => true
  | _ => false

theorem isUnsigned_iff {x : Float} :
    isUnsigned x = true ↔ ∃ m q, Binary.ofFloat x = .finite false m q := by
  unfold isUnsigned
  split
  · rename_i m q h
    exact iff_of_true rfl ⟨m, q, h⟩
  · rename_i h
    exact iff_of_false Bool.false_ne_true fun ⟨m, q, hx⟩ => h m q hx

theorem chars_finite {x : Float} {negative : Bool} {m : Nat} {q : ℤ}
    (h : Binary.ofFloat x = .finite negative m q) :
    chars x = signed negative (if m = 0 then ['0'] else (shortest .up m q).positional) := by
  rw [chars, h]

/-- **The text of a number without a sign reads back as it.** -/
theorem chars_unsigned {x : Float} (h : isUnsigned x = true) :
    ∃ whole fraction, Positional (chars x) whole fraction ∧
      (⟨whole, fraction, 0⟩ : Numeral).toFloat = x := by
  obtain ⟨m, q, hx⟩ := isUnsigned_iff.mp h
  obtain ⟨whole, fraction, hpositional, hvalue⟩ := exists_numeral (finite_spec hx).1
  refine ⟨whole, fraction, by simpa [chars_finite hx, signed] using hpositional, ?_⟩
  rw [hvalue, ← withSign_false (ofMagnitude m q), withSign_ofMagnitude hx]

/-- **The text of a negative number is a minus and the text of its magnitude.** -/
theorem chars_negative {x : Float} (hx : isFinite x = true) (h : isUnsigned x = false) :
    ∃ y, isUnsigned y = true ∧ chars x = '-' :: chars y ∧ -y = x := by
  obtain ⟨m, q, hfinite⟩ : ∃ m q, Binary.ofFloat x = .finite true m q := by
    simp only [isFinite] at hx
    split at hx
    · rename_i negative m q hbinary
      cases negative with
      | false => simp [isUnsigned, hbinary] at h
      | true => exact ⟨m, q, hbinary⟩
    · cases hx
  have hmagnitude := (finite_spec hfinite).1
  have hy := hmagnitude.ofFloat_ofMagnitude
  have hunsigned : isUnsigned (ofMagnitude m q) = true := isUnsigned_iff.mpr ⟨m, q, hy⟩
  have hneg : -ofMagnitude m q = x := by rw [← withSign_true, withSign_ofMagnitude hfinite]
  have hchars : chars x = '-' :: chars (ofMagnitude m q) := by
    rw [chars_finite hfinite, chars_finite hy]
    simp [signed]
  exact ⟨ofMagnitude m q, hunsigned, hchars, hneg⟩

end MatrixLang.Number

namespace MatrixLang.Token

open Number (AllDigits Positional Numeral pointed)

/-- What may follow a word or a numeral without becoming part of it. -/
def Ends (rest : List Char) : Prop :=
  ∀ c ∈ rest.head?, c.isAlphanum = false ∧ c ≠ '.'

theorem ends_nil : Ends [] := nofun

theorem ends_cons {c : Char} (h : c.isAlphanum = false ∧ c ≠ '.') (rest : List Char) :
    Ends (c :: rest) := by
  intro d hd
  obtain rfl : c = d := Option.some.inj hd
  exact h

theorem not_isDigit_of_ends {c : Char} {rest : List Char} (h : Ends (c :: rest)) :
    c.isDigit = false := by
  have hc := (h c rfl).1
  rw [Char.isAlphanum, Bool.or_eq_false_iff] at hc
  exact hc.2

theorem spanDigits_append {digits rest : List Char} (hdigits : AllDigits digits)
    (hrest : ∀ c ∈ rest.head?, c.isDigit = false) :
    Number.spanDigits (digits ++ rest) = (digits, rest) := by
  rw [Number.spanDigits, List.takeWhile_append_of_pos hdigits, List.dropWhile_append_of_pos hdigits]
  cases rest with
  | nil => simp
  | cons c rest => simp [hrest c rfl]

theorem takeExponent_ends {rest : List Char} (h : Ends rest) : takeExponent rest = (0, rest) := by
  cases rest with
  | nil => rfl
  | cons c rest =>
    have hc : ¬ (c = 'e' ∨ c = 'E') := by
      rintro (rfl | rfl) <;> exact absurd (h _ rfl).1 (by decide)
    rw [takeExponent, if_neg hc]

/-- A numeral in positional notation is read to its end. -/
theorem takeNumeral_positional {cs whole fraction rest : List Char}
    (h : Positional cs whole fraction) (hrest : Ends rest) :
    takeNumeral (cs ++ rest) = (⟨whole, fraction, 0⟩, rest) := by
  have hstop : ∀ c ∈ rest.head?, c.isDigit = false := by
    intro c hc
    cases rest with
    | nil => cases hc
    | cons d rest => exact Option.some.inj hc ▸ not_isDigit_of_ends hrest
  rw [h.eq, List.append_assoc]
  by_cases hfraction : fraction = []
  · have hpoint : takeFraction rest = ([], rest) := by
      unfold takeFraction
      split
      · exact absurd rfl (hrest '.' rfl).2
      · rfl
    rw [takeNumeral, pointed, if_pos hfraction, List.nil_append, spanDigits_append h.whole hstop]
    simp only [hpoint, takeExponent_ends hrest, hfraction]
  · have hdot : ∀ c ∈ ('.' :: (fraction ++ rest)).head?, c.isDigit = false := by
      intro c hc
      obtain rfl : '.' = c := Option.some.inj hc
      rfl
    rw [takeNumeral, pointed, if_neg hfraction, List.cons_append, spanDigits_append h.whole hdot]
    simp only [takeFraction, spanDigits_append h.fraction hstop, hfraction, ite_false,
      takeExponent_ends hrest]

end MatrixLang.Token
