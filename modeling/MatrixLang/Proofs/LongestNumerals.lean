import Mathlib.Computability.RegularExpressions
import Mathlib.Data.List.TakeWhile
import Mathlib.Tactic.IntervalCases
import MatrixLang.Proofs.Scanning

/-! # The longest numeral

A regular expression says what a numeral looks like (`Pattern.numeral`).  The scanner does not use
it: it takes digits, then a fraction and an exponent if they are complete, and leaves the rest.
What it takes is the longest word of the expression that the text starts with
(`takeNumeral_longest`), and has the value that this word has by itself.

The longest word of a product is put together from the longest words of its factors
(`Longest.mul`).  For that it must not be possible to give up a part of the first word for the
sake of the second, which is so if no character of the first word can start the second (`Apart`).
-/

namespace MatrixLang

open Number (AllDigits pointed spanDigits takeSign)

/-! ## The longest word -/

/-- The text `p ++ rest` starts with the word `p` of a language, and with no longer one. -/
structure Longest (L : Language Char) (p rest : List Char) : Prop where
  mem : p ∈ L
  length_le : ∀ w ∈ L, w <+: p ++ rest → w.length ≤ p.length

/-- A text starts with no word of a language. -/
def Misses (L : Language Char) (cs : List Char) : Prop :=
  ∀ w ∈ L, ¬ w <+: cs

/-- No word of a language starts with a character of `p`. -/
def Apart (p : List Char) (L : Language Char) : Prop :=
  ∀ c ∈ p, ∀ w ∈ L, w.head? ≠ some c

section

variable {L M : Language Char} {p q rest : List Char}

/-- How a word of a product can stand at the start of a text: its first part is the longest there
is, or its second part is empty. -/
theorem Longest.split {a b : List Char} (hp : Longest L p rest) (hapart : Apart p M)
    (ha : a ∈ L) (hb : b ∈ M) (hab : a ++ b <+: p ++ rest) :
    a = p ∧ b <+: rest ∨ b = [] ∧ a.length ≤ p.length := by
  have hstart : a <+: p ++ rest := (List.prefix_append a b).trans hab
  have hle : a.length ≤ p.length := hp.length_le a ha hstart
  obtain ⟨t, rfl⟩ := List.prefix_of_prefix_length_le hstart (List.prefix_append p rest) hle
  rw [List.append_assoc, List.prefix_append_right_inj] at hab
  cases t with
  | nil => exact .inl ⟨(List.append_nil a).symm, hab⟩
  | cons c t =>
    cases b with
    | nil => exact .inr ⟨rfl, hle⟩
    | cons d b =>
      -- the second word would start with a character of the first
      obtain ⟨rfl, -⟩ := List.cons_prefix_cons.mp hab
      exact absurd rfl (hapart d (by simp) (d :: b) hb)

/-- **The longest word of a product.** -/
theorem Longest.mul (hp : Longest L p (q ++ rest)) (hq : Longest M q rest) (hapart : Apart p M) :
    Longest (L * M) (p ++ q) rest := by
  refine ⟨Language.append_mem_mul hp.mem hq.mem, fun w hw hstart => ?_⟩
  obtain ⟨a, ha, b, hb, rfl⟩ := Language.mem_mul.mp hw
  rw [List.append_assoc] at hstart
  simp only [List.length_append]
  rcases hp.split hapart ha hb hstart with ⟨rfl, hrest⟩ | ⟨rfl, hle⟩
  · exact Nat.add_le_add_left (hq.length_le b hb hrest) _
  · exact Nat.add_le_add hle (Nat.zero_le _)

/-- A product is missed if its second factor is, after the longest word of the first. -/
theorem Longest.misses_mul (hp : Longest L p rest) (hmiss : Misses M rest) (hapart : Apart p M) :
    Misses (L * M) (p ++ rest) := by
  intro w hw hstart
  obtain ⟨a, ha, b, hb, rfl⟩ := Language.mem_mul.mp hw
  rcases hp.split hapart ha hb hstart with ⟨-, hrest⟩ | ⟨rfl, -⟩
  · exact hmiss b hb hrest
  · exact hmiss [] hb List.nil_prefix

theorem Misses.mul (hmiss : Misses L rest) : Misses (L * M) rest := by
  intro w hw hstart
  obtain ⟨a, ha, b, -, rfl⟩ := Language.mem_mul.mp hw
  exact hmiss a ha ((List.prefix_append a b).trans hstart)

theorem Apart.mul (hnil : [] ∉ L) (h : Apart p L) : Apart p (L * M) := by
  intro c hc w hw
  obtain ⟨a, ha, b, -, rfl⟩ := Language.mem_mul.mp hw
  cases a with
  | nil => exact absurd ha hnil
  | cons d a => exact h c hc (d :: a) ha

/-- There is only one longest word. -/
theorem Longest.eq {q rest' : List Char} (hp : Longest L p rest) (hq : Longest L q rest')
    (h : p ++ rest = q ++ rest') : p = q := by
  have hpq : p.length ≤ q.length := hq.length_le p hp.mem (h ▸ List.prefix_append p rest)
  have hqp : q.length ≤ p.length := hp.length_le q hq.mem (h ▸ List.prefix_append q rest')
  exact (List.append_inj h (Nat.le_antisymm hpq hqp)).1

end

/-! ## The pattern -/

namespace Pattern

/-- One of some characters. -/
def oneOf (cs : List Char) : RegularExpression Char :=
  (cs.map .char).foldr (· + ·) 0

/-- Something or nothing. -/
def optional (r : RegularExpression Char) : RegularExpression Char :=
  1 + r

/-- The ten digits. -/
def tenDigits : List Char :=
  ['0', '1', '2', '3', '4', '5', '6', '7', '8', '9']

/-- One digit or more. -/
def digits : RegularExpression Char :=
  oneOf tenDigits * (oneOf tenDigits).star

/-- A point and digits. -/
def fraction : RegularExpression Char :=
  oneOf ['.'] * digits

/-- A mark, perhaps a sign, and digits. -/
def exponent : RegularExpression Char :=
  oneOf ['e', 'E'] * optional (oneOf ['+', '-']) * digits

/-- Numerals: `[0-9]+(\.[0-9]+)?([eE][+-]?[0-9]+)?`. -/
def numeral : RegularExpression Char :=
  digits * optional fraction * optional exponent

variable {r : RegularExpression Char} {w p rest cs : List Char}

instance : Decidable (Longest r.matches' p rest) :=
  decidable_of_iff (r.rmatch p = true ∧
      ∀ w ∈ (p ++ rest).inits, r.rmatch w = true → w.length ≤ p.length) (by
    simp only [RegularExpression.rmatch_iff_matches', List.mem_inits]
    exact ⟨fun h => ⟨h.1, fun w hw hstart => h.2 w hstart hw⟩,
      fun h => ⟨h.mem, fun w hstart hw => h.length_le w hw hstart⟩⟩)

theorem mem_oneOf : w ∈ (oneOf cs).matches' ↔ ∃ c ∈ cs, w = [c] := by
  induction cs with
  | nil => exact iff_of_false (Language.notMem_zero w) (by simp)
  | cons c cs ih =>
    have hcons : (oneOf (c :: cs)).matches' = {[c]} + (oneOf cs).matches' := rfl
    have hchar : w ∈ ({[c]} : Language Char) ↔ w = [c] := Iff.rfl
    rw [hcons, Language.mem_add, hchar, ih]
    simp

theorem mem_star_oneOf : w ∈ (oneOf cs).star.matches' ↔ ∀ c ∈ w, c ∈ cs := by
  rw [RegularExpression.matches'_star, Language.mem_kstar]
  constructor
  · rintro ⟨words, rfl, hwords⟩ c hc
    obtain ⟨word, hword, hmem⟩ := List.mem_flatten.mp hc
    obtain ⟨d, hd, rfl⟩ := mem_oneOf.mp (hwords word hword)
    exact List.mem_singleton.mp hmem ▸ hd
  · intro h
    refine ⟨w.map ([·]), (List.flatMap_singleton' w).symm, fun word hword => ?_⟩
    obtain ⟨c, hc, rfl⟩ := List.mem_map.mp hword
    exact mem_oneOf.mpr ⟨c, h c hc, rfl⟩

theorem mem_optional : w ∈ (optional r).matches' ↔ w = [] ∨ w ∈ r.matches' :=
  Iff.rfl

theorem isDigit_iff {c : Char} : c.isDigit = true ↔ c ∈ tenDigits := by
  have hdigits : ∀ d ∈ tenDigits, d.isDigit = true := List.all_eq_true.mp rfl
  refine ⟨fun h => ?_, hdigits c⟩
  obtain ⟨hlow, hhigh⟩ := Token.isDigit_range h
  rw [← Char.ofNat_toNat c]
  generalize c.toNat = n at hlow hhigh
  interval_cases n <;> decide

theorem mem_digits : w ∈ digits.matches' ↔ w ≠ [] ∧ AllDigits w := by
  have hall : AllDigits w ↔ ∀ c ∈ w, c ∈ tenDigits := by
    simp only [AllDigits, isDigit_iff]
  rw [digits, RegularExpression.matches'_mul, Language.mem_mul, hall]
  constructor
  · rintro ⟨a, ha, b, hb, rfl⟩
    obtain ⟨c, hc, rfl⟩ := mem_oneOf.mp ha
    exact ⟨by simp, List.forall_mem_cons.mpr ⟨hc, mem_star_oneOf.mp hb⟩⟩
  · rintro ⟨hne, hw⟩
    obtain ⟨c, b, rfl⟩ := List.exists_cons_of_ne_nil hne
    obtain ⟨hc, hb⟩ := List.forall_mem_cons.mp hw
    exact ⟨[c], mem_oneOf.mpr ⟨c, hc, rfl⟩, b, mem_star_oneOf.mpr hb, rfl⟩

/-- The characters that an expression mentions. -/
def letters : RegularExpression Char → List Char
  | .zero => []
  | .epsilon => []
  | .char c => [c]
  | .plus r s => letters r ++ letters s
  | .comp r s => letters r ++ letters s
  | .star r => letters r

/-- A word holds no other characters than its expression. -/
theorem mem_letters (h : w ∈ r.matches') : ∀ c ∈ w, c ∈ letters r := by
  induction r generalizing w with
  | zero => exact absurd h (Language.notMem_zero w)
  | epsilon =>
    obtain rfl : w = [] := h
    exact List.forall_mem_nil _
  | char c =>
    obtain rfl : w = [c] := h
    exact List.forall_mem_singleton.mpr (List.mem_singleton_self c)
  | plus r s ihr ihs =>
    intro c hc
    rcases h with h | h
    · exact List.mem_append_left _ (ihr h c hc)
    · exact List.mem_append_right _ (ihs h c hc)
  | comp r s ihr ihs =>
    obtain ⟨a, ha, b, hb, rfl⟩ := Language.mem_mul.mp h
    intro c hc
    rcases List.mem_append.mp hc with hc | hc
    · exact List.mem_append_left _ (ihr ha c hc)
    · exact List.mem_append_right _ (ihs hb c hc)
  | star r ih =>
    obtain ⟨words, rfl, hwords⟩ := Language.mem_kstar.mp h
    intro c hc
    obtain ⟨word, hword, hmem⟩ := List.mem_flatten.mp hc
    exact ih (hwords word hword) c hmem

/-! ### What starts a word -/

theorem apart_oneOf (h : ∀ c ∈ p, c ∉ cs) : Apart p (oneOf cs).matches' := by
  intro c hc w hw
  obtain ⟨d, hd, rfl⟩ := mem_oneOf.mp hw
  rintro ⟨⟩
  exact h c hc hd

theorem nil_notMem_oneOf : [] ∉ (oneOf cs).matches' := by
  simp [mem_oneOf]

theorem apart_optional (h : Apart p r.matches') : Apart p (optional r).matches' := by
  intro c hc w hw
  obtain rfl | hw := mem_optional.mp hw
  · simp
  · exact h c hc w hw

theorem apart_digits (h : ∀ c ∈ p, c.isDigit = false) : Apart p digits.matches' := by
  refine Apart.mul nil_notMem_oneOf (apart_oneOf fun c hc hmem => ?_)
  rw [← isDigit_iff, h c hc] at hmem
  cases hmem

theorem apart_fraction (h : ∀ c ∈ p, c ≠ '.') : Apart p fraction.matches' :=
  Apart.mul nil_notMem_oneOf (apart_oneOf fun c hc hmem => h c hc (List.mem_singleton.mp hmem))

theorem apart_exponent (h : ∀ c ∈ p, ¬ (c = 'e' ∨ c = 'E')) : Apart p exponent.matches' := by
  have hmark : Apart p (oneOf ['e', 'E']).matches' :=
    apart_oneOf fun c hc hmem => h c hc (by simpa using hmem)
  refine Apart.mul (fun hnil => ?_) (Apart.mul nil_notMem_oneOf hmark)
  obtain ⟨a, ha, b, -, hab⟩ := Language.mem_mul.mp hnil
  rw [(List.append_eq_nil_iff.mp hab).1] at ha
  exact nil_notMem_oneOf ha

/-! ### Longest words of the parts -/

theorem longest_oneOf {c : Char} (h : c ∈ cs) : Longest (oneOf cs).matches' [c] rest := by
  refine ⟨mem_oneOf.mpr ⟨c, h, rfl⟩, fun w hw _ => ?_⟩
  obtain ⟨d, -, rfl⟩ := mem_oneOf.mp hw
  exact Nat.le_refl _

theorem misses_oneOf (h : ∀ c ∈ rest.head?, c ∉ cs) : Misses (oneOf cs).matches' rest := by
  intro w hw hstart
  obtain ⟨c, hc, rfl⟩ := mem_oneOf.mp hw
  obtain ⟨t, rfl⟩ := hstart
  exact h c rfl hc

theorem longest_optional (h : Longest r.matches' p rest) :
    Longest (optional r).matches' p rest := by
  refine ⟨mem_optional.mpr (.inr h.mem), fun w hw hstart => ?_⟩
  obtain rfl | hw := mem_optional.mp hw
  · exact Nat.zero_le _
  · exact h.length_le w hw hstart

theorem longest_nil (h : Misses r.matches' rest) : Longest (optional r).matches' [] rest := by
  refine ⟨mem_optional.mpr (.inl rfl), fun w hw hstart => ?_⟩
  obtain rfl | hw := mem_optional.mp hw
  · exact Nat.zero_le _
  · exact absurd hstart (h w hw)

end Pattern

namespace Token

open Number (Numeral digitsValue readExponent? readNumeral?)

/-! ## Digits and signs -/

/-- `digits` are the digits that the text `digits ++ rest` starts with. -/
structure Leading (digits rest : List Char) : Prop where
  all : AllDigits digits
  stop : ∀ c ∈ rest.head?, c.isDigit = false

/-- `sign` is the sign that the text `sign ++ rest` starts with, empty if there is none. -/
inductive Signed : (sign rest : List Char) → Prop
  | sign {c : Char} {rest : List Char} (hc : c = '+' ∨ c = '-') : Signed [c] rest
  | unsigned {rest : List Char} (hrest : ∀ c ∈ rest.head?, ¬ (c = '+' ∨ c = '-')) : Signed [] rest

section

variable {digits sign rest : List Char}

theorem exists_leading (cs : List Char) :
    ∃ digits rest, cs = digits ++ rest ∧ Leading digits rest := by
  refine ⟨cs.takeWhile Char.isDigit, cs.dropWhile Char.isDigit,
    List.takeWhile_append_dropWhile.symm, fun _ => List.mem_takeWhile_imp, fun c hc => ?_⟩
  have hstop := List.head?_dropWhile_not Char.isDigit cs
  rw [Option.mem_def.mp hc] at hstop
  exact hstop

theorem Leading.spanDigits (h : Leading digits rest) :
    spanDigits (digits ++ rest) = (digits, rest) :=
  spanDigits_append h.all h.stop

theorem Leading.longest (h : Leading digits rest) (hne : digits ≠ []) :
    Longest Pattern.digits.matches' digits rest := by
  refine ⟨Pattern.mem_digits.mpr ⟨hne, h.all⟩, fun w hw hstart => ?_⟩
  obtain ⟨-, hall⟩ := Pattern.mem_digits.mp hw
  rcases List.prefix_or_prefix_of_prefix hstart (List.prefix_append digits rest) with hle | ⟨t, rfl⟩
  · exact hle.length_le
  · -- more digits would have to come from the rest
    rw [List.prefix_append_right_inj] at hstart
    cases t with
    | nil => simp
    | cons c t =>
      obtain ⟨u, rfl⟩ := hstart
      have hdigit := hall c (by simp)
      rw [h.stop c rfl] at hdigit
      cases hdigit

theorem Leading.misses (h : Leading [] rest) : Misses Pattern.digits.matches' rest := by
  refine Misses.mul (Pattern.misses_oneOf fun c hc hmem => ?_)
  rw [← Pattern.isDigit_iff, h.stop c hc] at hmem
  cases hmem

theorem exists_signed (cs : List Char) : ∃ sign rest, cs = sign ++ rest ∧ Signed sign rest := by
  by_cases h : ∃ c ∈ cs.head?, c = '+' ∨ c = '-'
  · obtain ⟨c, hc, hsign⟩ := h
    obtain ⟨rest, rfl⟩ := List.head?_eq_some_iff.mp hc
    exact ⟨[c], rest, rfl, .sign hsign⟩
  · exact ⟨[], cs, rfl, .unsigned fun c hc hsign => h ⟨c, hc, hsign⟩⟩

theorem Signed.takeSign (h : Signed sign rest) :
    takeSign (sign ++ rest) = (decide (sign = ['-']), rest) := by
  cases h with
  | sign hc => obtain rfl | rfl := hc <;> rfl
  | unsigned hrest =>
    rw [List.nil_append]
    unfold Number.takeSign
    split
    · exact absurd (.inr rfl) (hrest '-' rfl)
    · exact absurd (.inl rfl) (hrest '+' rfl)
    · rfl

theorem Signed.longest (h : Signed sign rest) :
    Longest (Pattern.optional (Pattern.oneOf ['+', '-'])).matches' sign rest := by
  cases h with
  | sign hc => exact Pattern.longest_optional (Pattern.longest_oneOf (by simpa using hc))
  | unsigned hrest =>
    refine Pattern.longest_nil (Pattern.misses_oneOf fun c hc hmem => hrest c hc ?_)
    simpa using hmem

end

/-! ## Fractions -/

/-- How a text goes on where a fraction may stand. -/
inductive FractionStart : List Char → Prop
  | none {cs : List Char} (h : cs.head? ≠ some '.') : FractionStart cs
  | point {digits rest : List Char} (h : Leading digits rest) :
    FractionStart ('.' :: (digits ++ rest))

theorem fractionStart (cs : List Char) : FractionStart cs := by
  by_cases h : cs.head? = some '.'
  · obtain ⟨tail, rfl⟩ := List.head?_eq_some_iff.mp h
    obtain ⟨digits, rest, rfl, hleading⟩ := exists_leading tail
    exact .point hleading
  · exact .none h

section

variable {cs digits rest : List Char}

theorem takeFraction_none (h : cs.head? ≠ some '.') : takeFraction cs = ([], cs) := by
  unfold takeFraction
  split
  · exact absurd rfl h
  · rfl

theorem takeFraction_point (h : Leading digits rest) :
    takeFraction ('.' :: (digits ++ rest)) =
      if digits = [] then ([], '.' :: rest) else (digits, rest) := by
  simp only [takeFraction, h.spanDigits]
  split
  · rename_i hnil
    rw [hnil, List.nil_append]
  · rfl

end

/-- A fraction without digits is left as a whole, with its point. -/
theorem takeFraction_longest (cs : List Char) : ∃ digits rest,
    takeFraction cs = (digits, rest) ∧ cs = pointed digits ++ rest ∧ AllDigits digits ∧
      Longest (Pattern.optional Pattern.fraction).matches' (pointed digits) rest := by
  cases fractionStart cs with
  | none h =>
    refine ⟨[], cs, takeFraction_none h, rfl, List.forall_mem_nil _, Pattern.longest_nil ?_⟩
    refine Misses.mul (Pattern.misses_oneOf fun c hc hmem => h ?_)
    rwa [← List.mem_singleton.mp hmem]
  | @point digits rest h =>
    have hpoint : Longest (Pattern.oneOf ['.']).matches' ['.'] (digits ++ rest) :=
      Pattern.longest_oneOf (by simp)
    have hapart : Apart ['.'] Pattern.digits.matches' := Pattern.apart_digits (by simp)
    by_cases hnil : digits = []
    · subst hnil
      exact ⟨[], '.' :: rest, takeFraction_point h, rfl, List.forall_mem_nil _,
        Pattern.longest_nil (hpoint.misses_mul h.misses hapart)⟩
    · have hpointed : pointed digits = '.' :: digits := if_neg hnil
      rw [takeFraction_point h, if_neg hnil]
      refine ⟨digits, rest, rfl, by rw [hpointed]; rfl, h.all, ?_⟩
      rw [hpointed]
      exact Pattern.longest_optional (hpoint.mul (h.longest hnil) hapart)

/-! ## Exponents -/

/-- How a text goes on where an exponent may stand. -/
inductive ExponentStart : List Char → Prop
  | none {cs : List Char} (h : ∀ c ∈ cs.head?, ¬ (c = 'e' ∨ c = 'E')) : ExponentStart cs
  | mark {c : Char} {sign digits rest : List Char} (hc : c = 'e' ∨ c = 'E')
    (hsign : Signed sign (digits ++ rest)) (hdigits : Leading digits rest) :
    ExponentStart (c :: (sign ++ (digits ++ rest)))

theorem exponentStart (cs : List Char) : ExponentStart cs := by
  by_cases h : ∃ c ∈ cs.head?, c = 'e' ∨ c = 'E'
  · obtain ⟨c, hhead, hc⟩ := h
    obtain ⟨tail, rfl⟩ := List.head?_eq_some_iff.mp hhead
    obtain ⟨sign, tail, rfl, hsign⟩ := exists_signed tail
    obtain ⟨digits, rest, rfl, hdigits⟩ := exists_leading tail
    exact .mark hc hsign hdigits
  · exact .none fun c hhead hc => h ⟨c, hhead, hc⟩

/-- The power of ten that a sign and digits stand for. -/
def power (sign digits : List Char) : Int :=
  if sign = ['-'] then -(digitsValue digits : Int) else digitsValue digits

section

variable {cs sign digits rest : List Char} {c : Char}

theorem takeExponent_none (h : ∀ c ∈ cs.head?, ¬ (c = 'e' ∨ c = 'E')) :
    takeExponent cs = (0, cs) := by
  cases cs with
  | nil => rfl
  | cons c cs => rw [takeExponent, if_neg (h c rfl)]

theorem takeExponent_mark (hc : c = 'e' ∨ c = 'E') (hsign : Signed sign (digits ++ rest))
    (hdigits : Leading digits rest) :
    takeExponent (c :: (sign ++ (digits ++ rest))) =
      if digits = [] then (0, c :: (sign ++ rest)) else (power sign digits, rest) := by
  simp only [takeExponent, if_pos hc, hsign.takeSign, hdigits.spanDigits, decide_eq_true_eq, power]
  split
  · rename_i hnil
    rw [hnil, List.nil_append]
  · rfl

theorem readExponent?_mark (hc : c = 'e' ∨ c = 'E') (hsign : Signed sign (digits ++ rest))
    (hdigits : Leading digits rest) (hne : digits ≠ []) :
    readExponent? (c :: (sign ++ digits)) = some (power sign digits) := by
  have hend : Leading digits [] := ⟨hdigits.all, by simp⟩
  have hsigned : Signed sign digits := by
    cases hsign with
    | sign hs => exact .sign hs
    | unsigned hrest =>
      refine .unsigned fun d hd => hrest d ?_
      rw [List.head?_append_of_ne_nil _ hne]
      exact hd
  have hspan := hend.spanDigits
  rw [List.append_nil] at hspan
  simp [readExponent?, hc, hsigned.takeSign, hspan, hne, power]

end

/-- An exponent without digits is left as a whole, with its mark and its sign. -/
theorem takeExponent_longest (cs : List Char) : ∃ x p rest,
    takeExponent cs = (x, rest) ∧ cs = p ++ rest ∧ readExponent? p = some x ∧
      Longest (Pattern.optional Pattern.exponent).matches' p rest := by
  cases exponentStart cs with
  | none h =>
    refine ⟨0, [], cs, takeExponent_none h, rfl, rfl, Pattern.longest_nil ?_⟩
    exact .mul (.mul (Pattern.misses_oneOf fun c hc hmem => h c hc (by simpa using hmem)))
  | @mark c sign digits rest hc hsign hdigits =>
    have hmark : Longest (Pattern.oneOf ['e', 'E']).matches' [c] (sign ++ (digits ++ rest)) :=
      Pattern.longest_oneOf (by simpa using hc)
    have hstart := hmark.mul hsign.longest
      (Pattern.apart_optional (Pattern.apart_oneOf (by obtain rfl | rfl := hc <;> simp)))
    have hapart : Apart ([c] ++ sign) Pattern.digits.matches' := by
      refine Pattern.apart_digits ?_
      obtain rfl | rfl := hc <;> cases hsign with
      | sign hs => obtain rfl | rfl := hs <;> simp
      | unsigned _ => simp
    by_cases hnil : digits = []
    · subst hnil
      exact ⟨0, [], _, takeExponent_mark hc hsign hdigits, rfl, rfl,
        Pattern.longest_nil (hstart.misses_mul hdigits.misses hapart)⟩
    · rw [takeExponent_mark hc hsign hdigits, if_neg hnil]
      refine ⟨power sign digits, c :: (sign ++ digits), rest, rfl, by simp,
        readExponent?_mark hc hsign hdigits hnil, Pattern.longest_optional ?_⟩
      exact hstart.mul (hdigits.longest hnil) hapart

/-! ## Numerals -/

/-- An exponent starts with its mark. -/
theorem head?_exponent {p : List Char} (h : p ∈ (Pattern.optional Pattern.exponent).matches') :
    ∀ c ∈ p.head?, c = 'e' ∨ c = 'E' := by
  intro c hc
  by_contra hmark
  have hapart : Apart [c] (Pattern.optional Pattern.exponent).matches' :=
    Pattern.apart_optional (Pattern.apart_exponent (by simpa using hmark))
  exact hapart c (by simp) p h hc

/-- The parts of a numeral are told apart by their first characters. -/
theorem readNumeral?_parts {whole fraction p : List Char} {x : Int} (hne : whole ≠ [])
    (hwhole : AllDigits whole) (hfraction : AllDigits fraction)
    (hp : ∀ c ∈ p.head?, c = 'e' ∨ c = 'E') (hx : readExponent? p = some x) :
    readNumeral? (whole ++ (pointed fraction ++ p)) = some ⟨whole, fraction, x⟩ := by
  have hstop : ∀ c ∈ p.head?, c.isDigit = false := by
    intro c hc
    obtain rfl | rfl := hp c hc <;> rfl
  by_cases hnil : fraction = []
  · have hspan : spanDigits (whole ++ p) = (whole, p) := spanDigits_append hwhole hstop
    subst hnil
    cases p with
    | nil =>
      rw [List.append_nil] at hspan
      simp [readNumeral?, pointed, hspan, hne, hx]
    | cons c p =>
      have hpoint : c ≠ '.' := by
        rintro rfl
        simpa using hp '.' rfl
      simp [readNumeral?, pointed, hspan, hne, hx, hpoint]
  · have hspan : spanDigits (whole ++ '.' :: (fraction ++ p)) = (whole, '.' :: (fraction ++ p)) :=
      spanDigits_append hwhole (by simp)
    simp [readNumeral?, pointed, hnil, hspan, spanDigits_append hfraction hstop, hne, hx]

/-- A text that starts with a digit has no sign and is not one of the words for a number. -/
theorem ofString?_numeral {p : List Char} {n : Numeral} (hp : ∃ c ∈ p.head?, c.isDigit = true)
    (h : readNumeral? p = some n) : Number.ofString? (String.ofList p) = some n.toFloat := by
  obtain ⟨c, hhead, hc⟩ := hp
  obtain ⟨p, rfl⟩ := List.head?_eq_some_iff.mp hhead
  have hsigned : Signed [] (c :: p) := by
    refine .unsigned fun d hd hsign => ?_
    obtain rfl : c = d := Option.some.inj hd
    obtain rfl | rfl := hsign <;> cases hc
  have hlower : ∀ d ∈ Pattern.tenDigits, d.toLower.isDigit = true := List.all_eq_true.mp rfl
  have hword : ∀ word : String, word.toList.head?.any Char.isDigit = false →
      String.ofList ((c :: p).map Char.toLower) ≠ word := by
    rintro word hfirst rfl
    rw [String.toList_ofList, List.map_cons, List.head?_cons, Option.any_some,
      hlower c (Pattern.isDigit_iff.mp hc)] at hfirst
    cases hfirst
  have hmagnitude : Number.readMagnitude? (c :: p) = some n.toFloat := by
    unfold Number.readMagnitude?
    split
    · exact absurd (by assumption) (hword "inf" rfl)
    · exact absurd (by assumption) (hword "infinity" rfl)
    · exact absurd (by assumption) (hword "nan" rfl)
    · rw [h, Option.map_some]
  have htake := hsigned.takeSign
  rw [List.nil_append] at htake
  simp [Number.ofString?, htake, hmagnitude]

/-- **What the scanner takes for a numeral is the longest numeral that the text starts with**, and
it is read as that text is by itself. -/
theorem takeNumeral_longest {c : Char} (hc : c.isDigit = true) (cs : List Char) : ∃ n p rest,
    takeNumeral (c :: cs) = (n, rest) ∧ c :: cs = p ++ rest ∧
      Number.ofString? (String.ofList p) = some n.toFloat ∧
      Longest Pattern.numeral.matches' p rest := by
  obtain ⟨whole, tail, heq, hwhole⟩ := exists_leading (c :: cs)
  obtain ⟨fraction, tail', htakeFraction, rfl, hfraction, hlongest⟩ := takeFraction_longest tail
  obtain ⟨x, p, rest, htakeExponent, rfl, hread, hlongest'⟩ := takeExponent_longest tail'
  have hne : whole ≠ [] := by
    rintro rfl
    have hstop := hwhole.stop c (by rw [← List.nil_append (_ ++ _), ← heq]; rfl)
    rw [hc] at hstop
    cases hstop
  refine ⟨⟨whole, fraction, x⟩, whole ++ pointed fraction ++ p, rest, ?_, by simp [heq], ?_, ?_⟩
  · simp only [takeNumeral, heq, hwhole.spanDigits, htakeFraction, htakeExponent]
  · have hparts := readNumeral?_parts hne hwhole.all hfraction (head?_exponent hlongest'.mem) hread
    obtain ⟨d, digits, rfl⟩ := List.exists_cons_of_ne_nil hne
    rw [List.append_assoc]
    exact ofString?_numeral ⟨d, rfl, hwhole.all d (by simp)⟩ hparts
  · have hpoint : ∀ d ∈ whole, d ≠ '.' := by
      rintro d hd rfl
      cases hwhole.all '.' hd
    have hstart : Longest (Pattern.digits * Pattern.optional Pattern.fraction).matches'
        (whole ++ pointed fraction) (p ++ rest) :=
      (hwhole.longest hne).mul hlongest (Pattern.apart_optional (Pattern.apart_fraction hpoint))
    -- no digit and no point can be given up for a mark
    have hmark : ∀ d ∈ whole ++ pointed fraction, ¬ (d = 'e' ∨ d = 'E') := by
      intro d hd he
      have hletter := Pattern.mem_letters hstart.mem d hd
      obtain rfl | rfl := he <;> exact absurd hletter (by decide)
    exact hstart.mul hlongest' (Pattern.apart_optional (Pattern.apart_exponent hmark))

/-- A point, a mark or a sign that no digit follows is left. -/
example : ["1.*2", "2.e5", "3e", "3e+", "1.5e-x"].map (fun s => (takeNumeral s.toList).2) =
    [".*2", ".e5", "e", "e+", "e-x"].map String.toList := by
  decide +kernel

/-- What a token or a gap leaves is the end of the text. -/
theorem lexeme?_suffix {cs rest : List Char} {t : Option Token} (h : lexeme? cs = some (t, rest)) :
    rest <:+ cs := by
  cases cs with
  | nil => cases h
  | cons c tail =>
    have htail : tail <:+ c :: tail := List.suffix_cons c tail
    rw [lexeme?] at h
    split at h
    · obtain ⟨-, rfl⟩ := Prod.mk.inj (Option.some.inj h)
      exact htail
    split at h
    · obtain ⟨-, rfl⟩ := Prod.mk.inj (Option.some.inj h)
      exact (List.dropWhile_suffix _).trans htail
    split at h
    · rename_i hc
      obtain ⟨n, p, rest', htake, hp, -⟩ := takeNumeral_longest hc tail
      rw [htake] at h
      obtain ⟨-, rfl⟩ := Prod.mk.inj (Option.some.inj h)
      exact ⟨p, hp.symm⟩
    split at h
    · obtain ⟨-, rfl⟩ := Prod.mk.inj (Option.some.inj h)
      exact (List.dropWhile_suffix _).trans htail
    · obtain ⟨sign, -, heq⟩ := Option.map_eq_some_iff.mp h
      obtain ⟨-, rfl⟩ := Prod.mk.inj heq
      exact List.drop_suffix _ _

end Token

end MatrixLang
