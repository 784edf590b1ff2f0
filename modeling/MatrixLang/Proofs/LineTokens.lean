import MatrixLang.Proofs.GuardedSegment
import MatrixLang.Proofs.LongestNumerals
import MatrixLang.Proofs.WellShaped

/-! # How many tokens a line holds

Every token takes at least one character of its text, and every bracket among them one that is a
bracket (`countP_scanFrom_le`).  As a text is taken out of a line of its source, its tokens are no
more than the source has characters, and for too many brackets there is a line that has them
(`textHeld_of_mem_cut`).  Whatever is cut out of such tokens is `Held` like them.
-/

namespace MatrixLang

namespace Token

variable {t : Token} {c : Char} {cs rest : List Char}

/-- Whether a token changes the depth. -/
def isBracket : Token → Bool
  | .openParen | .closeParen | .openBracket | .closeBracket => true
  | _ => false

/-! ## Brackets and characters -/

theorem isBracket_ofWord (word : String) : (ofWord word).isBracket = false := by
  unfold ofWord
  split
  · rfl
  split
  · rfl
  split
  · rfl
  · rfl

/-- The sign that a bracket is written with. -/
theorem isBracket_of_isPrefixOf (ht : t.isBracket = true)
    (h : t.text.toList.isPrefixOf (c :: cs) = true) : Segment.isBracket c = true := by
  have hsign {d : Char} (hd : Segment.isBracket d = true)
      (h : [d].isPrefixOf (c :: cs) = true) : Segment.isBracket c = true := by
    rw [List.isPrefixOf_cons_cons, Bool.and_eq_true, beq_iff_eq] at h
    exact h.1 ▸ hd
  cases t with
  | openParen | closeParen | openBracket | closeBracket => exact hsign rfl h
  | _ => cases ht

theorem isBracket_of_lexeme? (h : lexeme? (c :: cs) = some (some t, rest))
    (ht : t.isBracket = true) : Segment.isBracket c = true := by
  rw [lexeme?] at h
  split at h
  · cases h
  split at h
  · cases h
  split at h
  · obtain ⟨heq, -⟩ := Prod.mk.inj (Option.some.inj h)
    cases heq
    cases ht
  split at h
  · obtain ⟨heq, -⟩ := Prod.mk.inj (Option.some.inj h)
    cases heq
    rw [isBracket_ofWord] at ht
    cases ht
  · obtain ⟨s, hs, heq⟩ := Option.map_eq_some_iff.mp h
    obtain ⟨heq, -⟩ := Prod.mk.inj heq
    cases heq
    have hprefix : t.text.toList.isPrefixOf (c :: cs) = true :=
      List.find?_some (p := fun t : Token => t.text.toList.isPrefixOf (c :: cs)) hs
    exact isBracket_of_isPrefixOf ht hprefix

/-- What is left after a token or a gap is left after the first character. -/
theorem lexeme?_suffix_tail {t : Option Token} (h : lexeme? (c :: cs) = some (t, rest)) :
    rest <:+ cs := by
  have hlength := length_lexeme? h
  rcases List.suffix_cons_iff.mp (lexeme?_suffix h) with rfl | hsuffix
  · exact absurd hlength (Nat.lt_irrefl _)
  · exact hsuffix

/-- **Tokens and brackets are no more than the characters that they are made of.** -/
theorem countP_scanFrom_le {total : Nat} {ts : List Token} (h : scanFrom total cs = .ok ts) :
    ts.length ≤ cs.length ∧ ts.countP isBracket ≤ Segment.brackets cs := by
  fun_induction scanFrom total cs generalizing ts with
  | case1 cs rest hgap ih =>
    obtain ⟨hlength, hbrackets⟩ := ih h
    have hsub := (lexeme?_suffix hgap).sublist
    exact ⟨Nat.le_trans hlength hsub.length_le, Nat.le_trans hbrackets hsub.countP_le⟩
  | case2 cs t rest htoken ih =>
    obtain ⟨us, hus, h⟩ := exists_of_bind_eq_ok h
    cases h
    obtain ⟨hlength, hbrackets⟩ := ih hus
    cases cs with
    | nil => cases htoken
    | cons c cs =>
      have hsub := (lexeme?_suffix_tail htoken).sublist
      have hrest : Segment.brackets rest ≤ Segment.brackets cs := hsub.countP_le
      refine ⟨Nat.succ_le_succ (Nat.le_trans hlength hsub.length_le), ?_⟩
      by_cases ht : t.isBracket = true
      · have hc := isBracket_of_lexeme? htoken ht
        rw [List.countP_cons_of_pos ht, Segment.brackets, List.countP_cons_of_pos hc]
        exact Nat.succ_le_succ (Nat.le_trans hbrackets hrest)
      · rw [List.countP_cons_of_neg ht]
        exact Nat.le_trans hbrackets
          (Nat.le_trans hrest (List.sublist_cons_self c cs).countP_le)
  | case3 =>
    cases h
    exact ⟨Nat.le_refl 0, Nat.le_refl 0⟩
  | case4 => cases h

end Token

/-! ## Tokens that are held -/

open Token (Unmarked isBracket)

/-- Tokens that a line can hold: no literal has its shape, the tokens can be addressed, and there
is a reason if the brackets among them are too many for their depth. -/
structure Held (reason : Prop) (ts : List Token) : Prop where
  unmarked : Unmarked ts
  length : ts.length ≤ 9223372036854775807
  brackets : 2147483648 ≤ ts.countP isBracket → reason

namespace Held

variable {reason : Prop} {ts us : List Token} {t : Token}

theorem sublist (h : Held reason ts) (hsub : us.Sublist ts) : Held reason us where
  unmarked t ht := h.unmarked t (hsub.mem ht)
  length := Nat.le_trans hsub.length_le h.length
  brackets hdeep := h.brackets (Nat.le_trans hdeep hsub.countP_le)

theorem tail (h : Held reason (t :: ts)) : Held reason ts :=
  h.sublist (List.sublist_cons_self t ts)

end Held

/-- A text whose tokens a line can hold. -/
def TextHeld (reason : Prop) (text : String) : Prop :=
  ∀ ts, Token.scan text = .ok ts → Held reason ts

/-- A source text that can be addressed: no list of its characters is longer than the addresses
reach. -/
def Addressable (source : String) : Prop :=
  source.length ≤ 9223372036854775807

instance (source : String) : Decidable (Addressable source) :=
  inferInstanceAs (Decidable (_ ≤ _))

/-- The texts of a source text are held by its lines. -/
theorem textHeld_of_mem_cut {source text : String} {line : Nat} (h : Addressable source)
    (hmem : .text line text ∈ Segment.cut source) : TextHeld (Segment.Deep source) text := by
  intro ts hts
  obtain ⟨l, hl, hline, hsource⟩ := Segment.text_sublist_of_mem_cut hmem
  obtain ⟨hlength, hbrackets⟩ := Token.countP_scanFrom_le hts
  refine ⟨(Token.meets_scan text).of_ok hts, ?_, fun hdeep => ⟨l, hl, ?_⟩⟩
  · have hsize : text.toList.length ≤ source.length := hsource.length_le
    exact Nat.le_trans (Nat.le_trans hlength hsize) h
  · exact Nat.le_trans (Nat.le_trans hdeep hbrackets) hline.countP_le

end MatrixLang
