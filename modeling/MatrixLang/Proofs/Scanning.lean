import MatrixLang.Proofs.Except
import MatrixLang.Proofs.NumberText

/-! # Scanning texts put together

A piece of text gives its tokens whatever comes after it (`Lexes`), or as long as nothing
comes after it that could be part of its last word or numeral (`Scans`).  Pieces are put
together by `Lexes.append`, `Lexes.scans` and `Scans.lexes`, so the tokens of a text can be
read off the way it is built.
-/

namespace MatrixLang.Token

/-! ## One lexeme after the other -/

theorem scanFrom_nil (total : Nat) : scanFrom total [] = .ok [] := by
  rw [scanFrom]
  rfl

theorem scanFrom_gap {cs rest : List Char} (h : lexeme? cs = some (none, rest)) (total : Nat) :
    scanFrom total cs = scanFrom total rest := by
  rw [scanFrom]
  split
  · simp_all
  · simp_all
  · simp_all

theorem scanFrom_token {cs rest : List Char} {t : Token} (h : lexeme? cs = some (some t, rest))
    (total : Nat) : scanFrom total cs = (t :: ·) <$> scanFrom total rest := by
  rw [scanFrom]
  split
  · simp_all
  · simp_all
  · simp_all

/-- A text that gives some tokens, whatever comes after it. -/
def Lexes (cs : List Char) (ts : List Token) : Prop :=
  ∀ total rest, scanFrom total (cs ++ rest) = (ts ++ ·) <$> scanFrom total rest

/-- A text that gives some tokens if the word or numeral at its end ends there. -/
def Scans (cs : List Char) (ts : List Token) : Prop :=
  ∀ total rest, Ends rest → scanFrom total (cs ++ rest) = (ts ++ ·) <$> scanFrom total rest

section

variable {a b : List Char} {ts us : List Token}

theorem Lexes.append (ha : Lexes a ts) (hb : Lexes b us) : Lexes (a ++ b) (ts ++ us) := by
  intro total rest
  rw [List.append_assoc, ha, hb, Functor.map_map]
  simp

theorem Lexes.scans (ha : Lexes a ts) (hb : Scans b us) : Scans (a ++ b) (ts ++ us) := by
  intro total rest hrest
  rw [List.append_assoc, ha, hb total rest hrest, Functor.map_map]
  simp

theorem Scans.lexes {c : Char} (ha : Scans a ts) (hb : Lexes (c :: b) us)
    (hc : c.isAlphanum = false ∧ c ≠ '.') : Lexes (a ++ c :: b) (ts ++ us) := by
  intro total rest
  have hends : Ends (c :: b ++ rest) := ends_cons hc _
  rw [List.append_assoc, ha total _ hends, hb, Functor.map_map]
  simp

theorem Lexes.toScans (ha : Lexes a ts) : Scans a ts :=
  fun total rest _ => ha total rest

/-- The tokens of a whole text. -/
theorem Scans.scan {s : String} (h : Scans s.toList ts) : scan s = .ok ts := by
  have hall := h (byteLength s.toList) [] ends_nil
  rw [List.append_nil, scanFrom_nil] at hall
  rw [Token.scan, hall]
  simp

end

theorem lexes_gap {c : Char} (h : isGap c = true) : Lexes [c] [] := by
  intro total rest
  have hlexeme : lexeme? (c :: rest) = some (none, rest) := by simp [lexeme?, h]
  rw [List.singleton_append, scanFrom_gap hlexeme]
  simp

/-- A sign that is no part of a longer one. -/
theorem lexes_sign {c : Char} {t : Token} (h : ∀ rest, lexeme? (c :: rest) = some (some t, rest)) :
    Lexes [c] [t] := fun total rest => scanFrom_token (h rest) total

theorem lexes_openParen : Lexes ['('] [.openParen] := lexes_sign fun _ => rfl

theorem lexes_closeParen : Lexes [')'] [.closeParen] := lexes_sign fun _ => rfl

theorem lexes_openBracket : Lexes ['['] [.openBracket] := lexes_sign fun _ => rfl

theorem lexes_closeBracket : Lexes [']'] [.closeBracket] := lexes_sign fun _ => rfl

theorem lexes_comma : Lexes [','] [.comma] := lexes_sign fun _ => rfl

theorem lexes_semicolon : Lexes [';'] [.semicolon] := lexes_sign fun _ => rfl

theorem lexes_minus : Lexes ['-'] [.operator (.binary .sub)] := lexes_sign fun _ => rfl

theorem lexes_quote : Lexes ['\''] [.operator .transpose] := lexes_sign fun _ => rfl

/-! ## Words -/

/-- A letter with letters and digits after it. -/
def IsWord (cs : List Char) : Prop :=
  ∃ c rest, cs = c :: rest ∧ c.isAlpha = true ∧ ∀ d ∈ rest, d.isAlphanum = true

instance (cs : List Char) : Decidable (IsWord cs) :=
  match cs with
  | [] => isFalse nofun
  | c :: rest => decidable_of_iff (c.isAlpha = true ∧ rest.all Char.isAlphanum = true)
      (by simp [IsWord])

theorem isAlphanum_bounds {c : Char} (h : c.isAlphanum = true) : isGap c = false ∧ c ≠ '/' := by
  refine ⟨?_, by rintro rfl; cases h⟩
  simp only [isGap, Bool.or_eq_false_iff, decide_eq_false_iff_not]
  refine ⟨⟨⟨⟨?_, ?_⟩, ?_⟩, ?_⟩, ?_⟩ <;> (rintro rfl; cases h)

theorem isAlphanum_of_isAlpha {c : Char} (h : c.isAlpha = true) : c.isAlphanum = true := by
  rw [Char.isAlphanum, h, Bool.true_or]

theorem isAlphanum_of_isDigit {c : Char} (h : c.isDigit = true) : c.isAlphanum = true := by
  rw [Char.isAlphanum, h, Bool.or_true]

theorem isDigit_range {c : Char} (h : c.isDigit = true) : 48 ≤ c.toNat ∧ c.toNat ≤ 57 := by
  rw [Char.isDigit, Bool.and_eq_true, decide_eq_true_eq, decide_eq_true_eq] at h
  exact h

theorem isAlpha_range {c : Char} (h : c.isAlpha = true) :
    65 ≤ c.toNat ∧ c.toNat ≤ 90 ∨ 97 ≤ c.toNat ∧ c.toNat ≤ 122 := by
  delta Char.isAlpha Char.isUpper Char.isLower at h
  simp only [Bool.or_eq_true, Bool.and_eq_true, decide_eq_true_eq] at h
  exact h

theorem isDigit_of_isAlpha {c : Char} (h : c.isAlpha = true) : c.isDigit = false := by
  rw [← Bool.not_eq_true]
  intro hdigit
  have halpha := isAlpha_range h
  have hrange := isDigit_range hdigit
  omega

theorem scans_word {cs : List Char} (h : IsWord cs) : Scans cs [ofWord (String.ofList cs)] := by
  obtain ⟨c, word, rfl, hc, hword⟩ := h
  intro total rest hrest
  obtain ⟨hgap, hslash⟩ := isAlphanum_bounds (isAlphanum_of_isAlpha hc)
  have hdigit := isDigit_of_isAlpha hc
  have hstop : rest.takeWhile Char.isAlphanum = [] ∧ rest.dropWhile Char.isAlphanum = rest := by
    cases rest with
    | nil => exact ⟨rfl, rfl⟩
    | cons d rest => simp [(hrest d rfl).1]
  refine scanFrom_token ?_ total
  rw [List.cons_append, lexeme?, if_neg (by simp [hgap]), if_neg (by simp [hslash]),
    if_neg (by simp [hdigit]), if_pos hc, List.takeWhile_append_of_pos hword,
    List.dropWhile_append_of_pos hword, hstop.1, hstop.2, List.append_nil]

/-- A word with a blank after it. -/
theorem lexes_word {cs : List Char} (h : IsWord cs) :
    Lexes (cs ++ [' ']) [ofWord (String.ofList cs)] := by
  have hlexes := (scans_word h).lexes (lexes_gap (c := ' ') rfl) (by decide)
  rwa [List.append_nil] at hlexes

/-- A binary operator between blanks. -/
theorem lexes_binary {op : BinaryOperator} (h : op ≠ .index) :
    Lexes (' ' :: op.symbol.toList ++ [' ']) [.operator (.binary op)] := by
  have hlexeme : ∀ rest, lexeme? (op.symbol.toList ++ ' ' :: rest) =
      some (some (.operator (.binary op)), ' ' :: rest) := by
    intro rest
    cases op <;> first | rfl | exact absurd rfl h
  intro total rest
  rw [List.cons_append, List.cons_append, List.append_assoc, List.singleton_append,
    @scanFrom_gap _ (op.symbol.toList ++ ' ' :: rest) rfl, scanFrom_token (hlexeme rest),
    @scanFrom_gap _ rest rfl]
  rfl

/-- An assignment sign between blanks. -/
theorem lexes_assign : Lexes [' ', '=', ' '] [.assign] := by
  intro total rest
  rw [List.cons_append, List.cons_append, List.cons_append, List.nil_append,
    @scanFrom_gap _ ('=' :: ' ' :: rest) rfl, @scanFrom_token _ (' ' :: rest) .assign rfl,
    @scanFrom_gap _ rest rfl]
  rfl

/-! ## Numerals -/

theorem lexeme?_digit {c : Char} {cs rest : List Char} {n : Number.Numeral} (hc : c.isDigit = true)
    (h : takeNumeral (c :: cs) = (n, rest)) :
    lexeme? (c :: cs) = some (some (.number n.toFloat), rest) := by
  obtain ⟨hgap, hslash⟩ := isAlphanum_bounds (isAlphanum_of_isDigit hc)
  rw [lexeme?, if_neg (by simp [hgap]), if_neg (by simp [hslash]), if_pos hc]
  simp only [h]

/-- A numeral in positional notation. -/
theorem scans_positional {cs whole fraction : List Char} (h : Number.Positional cs whole fraction) :
    Scans cs [.number (⟨whole, fraction, 0⟩ : Number.Numeral).toFloat] := by
  obtain ⟨c, digits, rfl⟩ := List.exists_cons_of_ne_nil h.ne_nil
  have hc : c.isDigit = true := h.whole c (by simp)
  intro total rest hrest
  refine scanFrom_token ?_ total
  have htake := takeNumeral_positional h hrest
  rw [h.eq, List.cons_append, List.cons_append] at htake ⊢
  exact lexeme?_digit hc htake

end MatrixLang.Token
