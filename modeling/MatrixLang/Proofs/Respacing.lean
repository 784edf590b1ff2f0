import MatrixLang.Proofs.NumberOperations
import MatrixLang.Proofs.Scanning
import MatrixLang.Proofs.WellShaped

/-! # Scanning a listing

The tokens of a text, listed with a blank between any two, are scanned as the same tokens
(`scan_listing`).  However tightly a text was written, the listing of its tokens is another
text for them, and the two mean the same to every later pass.

A blank keeps the texts of any two tokens apart (`StandsAlone`).  Without it `*` and `|`, say,
would be one operator.  So it is a question of the single token, and a scanned token is of one of
three kinds (`Scanned`).  The text of a word's token is the word, whatever it stands for
(`text_ofWord`); the text of a sign is the sign; and the value of a numeral is never negative, so
its text is a numeral for it.  Only a numeral too large for a finite number is left out, since the
text of an infinity is a word.
-/

namespace MatrixLang.Number

/-- What a fraction rounds to has no sign, and is finite unless it is the infinity. -/
theorem nearest_cases (num den : Nat) :
    nearest num den = infinity ∨ isUnsigned (nearest num den) = true := by
  have hle : nearestBits num den ≤ 2047 * 2 ^ 52 := by
    rw [nearestBits]
    split
    · exact Nat.zero_le _
    · exact Nat.min_le_right _ _
  rw [nearest]
  generalize nearestBits num den = bits at hle ⊢
  obtain rfl | hlt := Nat.eq_or_lt_of_le hle
  · exact .inl rfl
  · obtain ⟨m, q, hfinite, -⟩ := ofBits_finite hlt
    refine .inr (isUnsigned_iff.mpr ⟨m, q, ?_⟩)
    rw [Binary.ofFloat, toBits_toNat_ofBits hlt, hfinite]

theorem Numeral.toFloat_cases (n : Numeral) :
    n.toFloat = infinity ∨ isUnsigned n.toFloat = true := by
  simp only [Numeral.toFloat, ofDecimal]
  split
  · exact nearest_cases _ _
  split
  · exact .inl rfl
  · exact nearest_cases _ _

end MatrixLang.Number

namespace MatrixLang.Token

/-! ## One token -/

/-- The text of a token gives that token if it ends the text or a blank comes after it. -/
def StandsAlone (t : Token) : Prop :=
  ∀ total rest, rest = [] ∨ rest.head? = some ' ' →
    scanFrom total (t.text.toList ++ rest) = (t :: ·) <$> scanFrom total rest

theorem StandsAlone.of_scans {t : Token} (h : Scans t.text.toList [t]) : StandsAlone t := by
  intro total rest hrest
  refine h total rest fun c hc => ?_
  obtain rfl | hblank := hrest
  · cases hc
  · obtain rfl : ' ' = c := Option.some.inj (hblank.symm.trans hc)
    decide

/-- A word is the text of what it stands for. -/
theorem text_ofWord (word : String) : (ofWord word).text = word := by
  have hwords : ∀ op ∈ operatorWords, op.text = op.symbol := by decide
  unfold ofWord
  split
  · rename_i k hk
    have hword := List.find?_some hk
    exact eq_of_beq hword
  split
  · rename_i op hop
    have hword := List.find?_some hop
    exact (hwords op (List.mem_of_find?_eq_some hop)).trans (eq_of_beq hword)
  split
  · rename_i f hf
    have hword := List.find?_some hf
    exact eq_of_beq hword
  · rfl

theorem standsAlone_word {c : Char} {cs : List Char} (hc : c.isAlpha = true)
    (hcs : ∀ d ∈ cs, d.isAlphanum = true) : StandsAlone (ofWord (String.ofList (c :: cs))) := by
  refine .of_scans ?_
  rw [text_ofWord, String.toList_ofList]
  exact scans_word ⟨c, cs, rfl, hc, hcs⟩

theorem standsAlone_number {x : Float} (h : Number.isUnsigned x = true) :
    StandsAlone (.number x) := by
  obtain ⟨whole, fraction, hpositional, hvalue⟩ := Number.chars_unsigned h
  have hscans := scans_positional hpositional
  rw [hvalue] at hscans
  refine .of_scans ?_
  rwa [text, Number.text, String.toList_ofList]

/-- A sign at the end of a text. -/
theorem lexeme?_symbol : ∀ t ∈ symbols, lexeme? t.text.toList = some (some t, []) :=
  List.map_inj_left.mp rfl

/-- No sign holds a blank, so a sign before one is read to its end and no further. -/
theorem lexeme?_symbol_blank (rest : List Char) :
    ∀ t ∈ symbols, lexeme? (t.text.toList ++ ' ' :: rest) = some (some t, ' ' :: rest) :=
  List.map_inj_left.mp rfl

theorem standsAlone_symbol {t : Token} (h : t ∈ symbols) : StandsAlone t := by
  intro total rest hrest
  refine scanFrom_token ?_ total
  cases rest with
  | nil => rw [List.append_nil, lexeme?_symbol t h]
  | cons c rest =>
    obtain rfl : c = ' ' := by simpa using hrest
    exact lexeme?_symbol_blank rest t h

/-- Whether a token is an infinite number. -/
def isInfinite : Token → Bool
  | .number x => x.isInf
  | _ => false

theorem Scanned.standsAlone {t : Token} (h : Scanned t) (hfinite : t.isInfinite = false) :
    StandsAlone t := by
  cases h with
  | numeral n =>
    obtain hinfinite | hunsigned := n.toFloat_cases
    · rw [hinfinite] at hfinite
      exact absurd hfinite (by decide)
    · exact standsAlone_number hunsigned
  | word hc hcs => exact standsAlone_word hc hcs
  | symbol h => exact standsAlone_symbol h

/-! ## All tokens of a text -/

/-- Tokens that stand alone, with a blank between any two. -/
theorem scanFrom_spaced {ts : List Token} (h : ∀ t ∈ ts, StandsAlone t) (total : Nat) :
    scanFrom total ([' '].intercalate (ts.map fun t => t.text.toList)) = .ok ts := by
  induction ts with
  | nil => exact scanFrom_nil total
  | cons t ts ih =>
    obtain ⟨ht, hts⟩ := List.forall_mem_cons.mp h
    cases ts with
    | nil =>
      have hlast := ht total [] (.inl rfl)
      rw [List.append_nil, scanFrom_nil] at hlast
      rw [List.map_cons, List.map_nil, List.intercalate_singleton, hlast]
      rfl
    | cons u ts =>
      specialize ih hts
      rw [List.map_cons] at ih
      rw [List.map_cons, List.map_cons, List.intercalate_cons_cons, List.append_assoc,
        List.singleton_append, ht total _ (.inr rfl), scanFrom_gap rfl, ih]
      rfl

/-- **The tokens of a text are scanned again from their listing**, if none of them is
infinite. -/
theorem scan_listing {source : String} {ts : List Token} (h : scan source = .ok ts)
    (hfinite : ∀ t ∈ ts, t.isInfinite = false) : scan (listing ts) = .ok ts := by
  have hscanned : ∀ t ∈ ts, Scanned t := (meets_scanned _ _).of_ok h
  have halone : ∀ t ∈ ts, StandsAlone t := fun t ht =>
    (hscanned t ht).standsAlone (hfinite t ht)
  have hlisting : (listing ts).toList = [' '].intercalate (ts.map fun t => t.text.toList) := by
    rw [listing, String.toList_intercalate, List.map_map]
    rfl
  rw [scan, hlisting]
  exact scanFrom_spaced halone _

/-- Tokens without any blank between them, and a comment. -/
theorem scan_listing_crowded : ∃ ts,
    scan "2.50*|sum(a)'and-1e2!=b2//rest" = .ok ts ∧ (∀ t ∈ ts, t.isInfinite = false) ∧
      listing ts = "2.5 *| sum ( a ) ' and - 100 != b2" ∧
      scan "2.5 *| sum ( a ) ' and - 100 != b2" = .ok ts := by
  have hevaluated : (scan "2.50*|sum(a)'and-1e2!=b2//rest").toOption.any (fun ts =>
      ts.all (!·.isInfinite) && listing ts == "2.5 *| sum ( a ) ' and - 100 != b2") = true := by
    decide +kernel
  cases hscan : scan "2.50*|sum(a)'and-1e2!=b2//rest" with
  | error e => rw [hscan] at hevaluated; cases hevaluated
  | ok ts =>
    rw [hscan] at hevaluated
    obtain ⟨hall, htext⟩ := Bool.and_eq_true_iff.mp hevaluated
    have hfinite : ∀ t ∈ ts, t.isInfinite = false := by simpa using hall
    have hlisting := eq_of_beq htext
    exact ⟨ts, rfl, hfinite, hlisting, hlisting ▸ scan_listing hscan hfinite⟩

/-- A number too large to be finite is listed as a word. -/
example : (scan "1e999").toOption.map listing = some "inf" := by decide +kernel

end MatrixLang.Token
