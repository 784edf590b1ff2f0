import MatrixLang.Error
import MatrixLang.Number.Read

/-!
# Scanning

The tokens of a statement's text.  At each place the longest token is taken; a word
that is a keyword, an operator or the name of a built-in function is one, and any
other word names a variable.  Blanks and comments, which run from two slashes to the
end of the line, divide tokens and are dropped.

`lexeme?` reads one token or one gap, and what is left after it is shorter
(`length_lexeme?`), which is why `scan` ends.
-/

namespace MatrixLang.Token

/-! ## Gaps, words and symbols -/

/-- Whether a character is blank between tokens. -/
def isGap (c : Char) : Bool :=
  c = ' ' || c = '\t' || c = '\r' || c = '\n' || c = '\x0c'

/-- Operators that are written as words. -/
def operatorWords : List Operator :=
  [.binary .and, .binary .or, .not]

/-- The token that a word stands for. -/
def ofWord (word : String) : Token :=
  match Keyword.ofText? word with
  | some k => .keyword k
  | none =>
    match operatorWords.find? (·.symbol == word) with
    | some op => .operator op
    | none =>
      match Builtin.ofName? word with
      | some f => .function f none
      | none => .name word

/-- Operators of two characters. -/
def longOperators : List Operator :=
  [.binary .cellMul, .binary .cellDiv, .binary .cellPow, .binary .cellMod, .binary .repeatBeside,
    .binary .repeatBelow, .binary .eq, .binary .ne, .binary .le, .binary .ge]

/-- Operators of one character. -/
def shortOperators : List Operator :=
  [.binary .add, .binary .sub, .neg, .binary .mul, .binary .div, .binary .pow, .binary .mod,
    .transpose, .binary .beside, .binary .below, .binary .range, .binary .lt, .binary .gt, .bang]

/-- Signs that are not operators. -/
def signs : List Token :=
  [.assign, .openParen, .closeParen, .openBracket, .closeBracket, .openBrace, .closeBrace,
    .comma, .semicolon]

/-- The tokens that are written with signs, the longer ones first. -/
def symbols : List Token :=
  longOperators.map .operator ++ shortOperators.map .operator ++ signs

/-- The longest sign that a text starts with. -/
def symbol? (cs : List Char) : Option Token :=
  symbols.find? fun t => t.text.toList.isPrefixOf cs

/-! ## Numerals -/

/-- The fraction that a text starts with, if a digit follows its point, and what is
left. -/
def takeFraction (cs : List Char) : List Char × List Char :=
  match cs with
  | '.' :: rest =>
    let (digits, rest) := Number.spanDigits rest
    if digits = [] then ([], cs) else (digits, rest)
  | _ => ([], cs)

/-- The exponent that a text starts with, if a digit follows its sign, and what is
left. -/
def takeExponent (cs : List Char) : Int × List Char :=
  match cs with
  | [] => (0, [])
  | c :: rest =>
    if c = 'e' ∨ c = 'E' then
      let (negative, rest) := Number.takeSign rest
      let (digits, rest) := Number.spanDigits rest
      if digits = [] then (0, cs)
      else
        let value : Int := Number.digitsValue digits
        (if negative then -value else value, rest)
    else (0, cs)

/-- The longest numeral that a text starts with, and what is left. -/
def takeNumeral (cs : List Char) : Number.Numeral × List Char :=
  let (whole, rest) := Number.spanDigits cs
  let (fraction, rest) := takeFraction rest
  let (exponent, rest) := takeExponent rest
  (⟨whole, fraction, exponent⟩, rest)

/-! ## One lexeme -/

/-- The token or gap that a text starts with, `none` standing for a gap, and what is
left; nothing if the first character starts neither. -/
def lexeme? (cs : List Char) : Option (Option Token × List Char) :=
  match cs with
  | [] => none
  | c :: rest =>
    if isGap c then some (none, rest)
    else if c = '/' ∧ rest.head? = some '/' then some (none, rest.dropWhile (· ≠ '\n'))
    else if c.isDigit then
      let (numeral, rest) := takeNumeral (c :: rest)
      some (some (.number numeral.toFloat), rest)
    else if c.isAlpha then
      some (some (ofWord (String.ofList (c :: rest.takeWhile Char.isAlphanum))),
        rest.dropWhile Char.isAlphanum)
    else
      (symbol? cs).map fun t => (some t, cs.drop t.text.length)

theorem length_dropWhile_le (p : Char → Bool) (cs : List Char) :
    (cs.dropWhile p).length ≤ cs.length :=
  (List.dropWhile_suffix p).length_le

theorem length_spanDigits (cs : List Char) : (Number.spanDigits cs).2.length ≤ cs.length :=
  length_dropWhile_le Char.isDigit cs

theorem length_takeSign (cs : List Char) : (Number.takeSign cs).2.length ≤ cs.length := by
  unfold Number.takeSign
  split <;> simp

theorem length_takeFraction (cs : List Char) : (takeFraction cs).2.length ≤ cs.length := by
  unfold takeFraction
  split
  · rename_i rest
    have := length_spanDigits rest
    dsimp only
    split <;> simp_all
    omega
  · simp

theorem length_takeExponent (cs : List Char) : (takeExponent cs).2.length ≤ cs.length := by
  unfold takeExponent
  split
  · simp
  · rename_i c rest
    have h₁ := length_takeSign rest
    have h₂ := length_spanDigits (Number.takeSign rest).2
    split
    · dsimp only
      split
      · simp
      · simp only [List.length_cons]
        omega
    · simp

/-- A numeral that starts with a digit takes at least that digit. -/
theorem length_takeNumeral (c : Char) (cs : List Char) (h : c.isDigit = true) :
    (takeNumeral (c :: cs)).2.length ≤ cs.length := by
  have hspan : (Number.spanDigits (c :: cs)).2 = (Number.spanDigits cs).2 := by
    simp [Number.spanDigits, h]
  have h₁ := length_spanDigits cs
  have h₂ := length_takeFraction (Number.spanDigits (c :: cs)).2
  have h₃ := length_takeExponent (takeFraction (Number.spanDigits (c :: cs)).2).2
  simp only [takeNumeral]
  rw [hspan] at h₂ h₃ ⊢
  omega

/-- Every sign has at least one character. -/
theorem length_text_of_mem_symbols : ∀ t ∈ symbols, 0 < t.text.length := by
  decide

/-- What is left after a token or a gap is shorter than the text. -/
theorem length_lexeme? {cs rest : List Char} {t : Option Token}
    (h : lexeme? cs = some (t, rest)) : rest.length < cs.length := by
  unfold lexeme? at h
  split at h
  · simp at h
  · rename_i c tail
    -- a blank
    split at h
    · simp only [Option.some.injEq, Prod.mk.injEq] at h
      simp [← h.2]
    -- a comment
    split at h
    · simp only [Option.some.injEq, Prod.mk.injEq] at h
      have := length_dropWhile_le (· ≠ '\n') tail
      simp only [← h.2, List.length_cons]
      omega
    -- a numeral
    split at h
    · rename_i hdigit
      have := length_takeNumeral c tail hdigit
      simp only [Option.some.injEq, Prod.mk.injEq] at h
      simp only [← h.2, List.length_cons]
      omega
    -- a word, or else a sign
    split at h
    · simp only [Option.some.injEq, Prod.mk.injEq] at h
      have := length_dropWhile_le Char.isAlphanum tail
      simp only [← h.2, List.length_cons]
      omega
    · obtain ⟨s, hs, hrest⟩ := Option.map_eq_some_iff.1 h
      have := length_text_of_mem_symbols s (List.mem_of_find?_eq_some hs)
      simp only [Prod.mk.injEq] at hrest
      simp only [← hrest.2, List.length_drop, List.length_cons]
      omega

/-! ## Whole texts -/

/-- The number of bytes of a text. -/
def byteLength (cs : List Char) : Nat :=
  (cs.map Char.utf8Size).foldr (· + ·) 0

/-- The tokens of the rest `cs` of a text of `total` bytes. -/
def scanFrom (total : Nat) (cs : List Char) : Except Error (List Token) :=
  match _h : lexeme? cs with
  | some (none, rest) => scanFrom total rest
  | some (some t, rest) => do
    let ts ← scanFrom total rest
    return t :: ts
  | none =>
    match cs with
    | [] => return []
    | c :: _ => throw (.illFormed (.unknownChar c (total - byteLength cs + 1)))
termination_by cs.length
decreasing_by all_goals exact length_lexeme? _h

/-- The tokens of a text. -/
def scan (source : String) : Except Error (List Token) :=
  scanFrom (byteLength source.toList) source.toList

end MatrixLang.Token
