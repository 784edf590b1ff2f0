import MatrixLang.Proofs.Guarded
import MatrixLang.Proofs.LongestNumerals

/-! # Numerals in the bytes of a text

The scanner takes a text apart character by character.  Here a numeral is read once more the way a
machine does it: by places in the bytes of the text, looking at one byte after the other, and then
moving the end of the token on by a number of bytes (`Bytewise.numeral`).  The machine would give up
where it looks past the end of the text, or where the token would end past it or within a
character.  It never does, and the token ends where the scanner's does (`numeral_bytes`).

With that a numeral can be followed through the scan of a whole text (`scan_numeral`).
-/

namespace MatrixLang

open Number (AllDigits pointed)

/-! ## Bytes -/

/-- The bytes of a text. -/
def bytes (cs : List Char) : List UInt8 :=
  cs.flatMap String.utf8EncodeChar

/-- All characters of a text take one byte each. -/
def Plain (cs : List Char) : Prop :=
  ∀ c ∈ cs, c.toNat < 128

section

variable {c d : Char} {cs : List Char}

theorem bytes_append (a b : List Char) : bytes (a ++ b) = bytes a ++ bytes b :=
  List.flatMap_append

theorem length_bytes (cs : List Char) : (bytes cs).length = Token.byteLength cs := by
  induction cs with
  | nil => rfl
  | cons c cs ih =>
    have hcons : Token.byteLength (c :: cs) = c.utf8Size + Token.byteLength cs := rfl
    have hbytes : bytes (c :: cs) = String.utf8EncodeChar c ++ bytes cs := List.flatMap_cons
    rw [hbytes, List.length_append, String.length_utf8EncodeChar, hcons, ih]

theorem utf8Size_eq_one (h : c.toNat < 128) : c.utf8Size = 1 := by
  rw [Char.utf8Size_eq_one_iff, UInt32.le_iff_toNat_le]
  exact Nat.le_of_lt_succ h

theorem bytes_plain (h : c.toNat < 128) (cs : List Char) :
    bytes (c :: cs) = c.toUInt8 :: bytes cs := by
  rw [bytes, List.flatMap_cons, String.utf8EncodeChar_eq_singleton (utf8Size_eq_one h)]
  rfl

/-- The first byte of a character that takes more than one. -/
theorem bytes_wide (h : 128 ≤ c.toNat) (cs : List Char) :
    ∃ b bs, bytes (c :: cs) = b :: bs ∧ 192 ≤ b.toNat := by
  have hbytes : bytes (c :: cs) = String.utf8EncodeChar c ++ bytes cs := List.flatMap_cons
  have hlead : ∀ x y : UInt8, 192 ≤ y.toNat → 192 ≤ (x ||| y).toNat := by
    intro x y hy
    rw [UInt8.toNat_or]
    exact Nat.le_trans hy Nat.right_le_or
  rw [hbytes]
  obtain hsize | hsize | hsize | hsize := Char.utf8Size_eq c
  · have hle : c.toNat ≤ 127 := UInt32.le_iff_toNat_le.mp (Char.utf8Size_eq_one_iff.mp hsize)
    omega
  · rw [String.utf8EncodeChar_eq_cons_cons hsize]
    exact ⟨_, _, rfl, hlead _ _ (by decide)⟩
  · rw [String.utf8EncodeChar_eq_cons_cons_cons hsize]
    exact ⟨_, _, rfl, hlead _ _ (by decide)⟩
  · rw [String.utf8EncodeChar_eq_cons_cons_cons_cons hsize]
    exact ⟨_, _, rfl, hlead _ _ (by decide)⟩

theorem Plain.length_bytes (h : Plain cs) : (bytes cs).length = cs.length := by
  induction cs with
  | nil => rfl
  | cons c cs ih =>
    obtain ⟨hc, hcs⟩ := List.forall_mem_cons.mp h
    rw [bytes_plain hc, List.length_cons, List.length_cons, ih hcs]

theorem toNat_toUInt8 (h : c.toNat < 128) : c.toUInt8.toNat = c.toNat := by
  have hmod : c.toUInt8.toNat = c.toNat % 256 := rfl
  omega

/-- A character of one byte is told by that byte. -/
theorem head?_bytes (hc : c.toNat < 128) :
    (bytes cs).head? = some c.toUInt8 ↔ cs.head? = some c := by
  have hbyte := toNat_toUInt8 hc
  cases cs with
  | nil => simp [bytes]
  | cons d cs =>
    rcases Nat.lt_or_ge d.toNat 128 with hd | hd
    · rw [bytes_plain hd, List.head?_cons, List.head?_cons, Option.some_inj, Option.some_inj]
      refine ⟨fun h => ?_, fun h => h ▸ rfl⟩
      rw [← Char.toNat_inj, ← toNat_toUInt8 hd, h, hbyte]
    · obtain ⟨b, bs, hbytes, hb⟩ := bytes_wide hd cs
      rw [hbytes, List.head?_cons, List.head?_cons, Option.some_inj, Option.some_inj]
      refine iff_of_false ?_ ?_
      · rintro rfl
        omega
      · rintro rfl
        omega

end

/-! ## The machine -/

namespace Bytewise

/-- Whether a byte is a digit. -/
def isDigit (b : UInt8) : Bool :=
  48 ≤ b && b ≤ 57

/-- The byte at a place, or nothing at the very end.  A look past the end is a fault. -/
def peek (bs : List UInt8) (i : Nat) : Guarded (Option UInt8) :=
  if i ≤ bs.length then return bs[i]? else throw .outside

/-- The number of digits from a place on. -/
def digitsFrom (bs : List UInt8) (i : Nat) : Guarded Nat := do
  let tail ← Guarded.slice bs i bs.length
  return (tail.takeWhile isDigit).length

/-- The number of bytes of a fraction, which may stand where the bytes start. -/
def fraction (bs : List UInt8) : Guarded Nat := do
  let point ← peek bs 0
  if point = some '.'.toUInt8 then
    let count ← digitsFrom bs 1
    return if 0 < count then 1 + count else 0
  else return 0

/-- The place after a sign, which may stand at place `i`. -/
def skipSign (bs : List UInt8) (i : Nat) : Guarded Nat := do
  let sign ← peek bs i
  return if sign = some '+'.toUInt8 ∨ sign = some '-'.toUInt8 then i + 1 else i

/-- Where an exponent ends, which may stand at place `i`; that place if there is none. -/
def exponent (bs : List UInt8) (i : Nat) : Guarded Nat := do
  let mark ← peek bs i
  if mark = some 'e'.toUInt8 ∨ mark = some 'E'.toUInt8 then
    let start ← skipSign bs (i + 1)
    let count ← digitsFrom bs start
    return if 0 < count then start + count else i
  else return i

/-- Whether a character starts at a place, or the text ends there. -/
def isBoundary (bs : List UInt8) (i : Nat) : Bool :=
  match bs[i]? with
  -- the bytes from 128 to 191 continue a character
  | some b => b < 128 || 192 ≤ b
  | none => i == bs.length

/-- Moves the end of a token on by `n` bytes, to where a token can end. -/
def bump (bs : List UInt8) (i n : Nat) : Guarded Nat :=
  if isBoundary bs (i + n) then return i + n else throw .outside

/-- The numeral that starts at a place: where it ends, and its bytes. -/
def numeral (bs : List UInt8) (start : Nat) : Guarded (Nat × List UInt8) := do
  let count ← digitsFrom bs start
  let rest ← Guarded.slice bs (start + count) bs.length
  let point ← fraction rest
  let length ← exponent rest point
  let stop ← bump bs (start + count) length
  let text ← Guarded.slice bs start stop
  return (stop, text)

/-! ### Its steps -/

theorem peek_append (a b : List UInt8) : peek (a ++ b) a.length = .ok b.head? := by
  have hle : a.length ≤ (a ++ b).length := by simp
  rw [peek, if_pos hle, List.getElem?_append_right (Nat.le_refl _), Nat.sub_self,
    List.head?_eq_getElem?]
  rfl

theorem isDigit_toUInt8 {c : Char} (h : c.toNat < 128) : isDigit c.toUInt8 = c.isDigit := by
  have hbyte := toNat_toUInt8 h
  rw [Bool.eq_iff_iff]
  simp only [isDigit, Char.isDigit, Bool.and_eq_true, decide_eq_true_eq, UInt8.le_iff_toNat_le,
    hbyte, ge_iff_le, UInt32.le_iff_toNat_le]
  exact Iff.rfl

theorem toNat_lt_of_isDigit {c : Char} (h : c.isDigit = true) : c.toNat < 128 := by
  obtain ⟨-, hle⟩ := Token.isDigit_range h
  omega

theorem takeWhile_bytes {digits rest : List Char} (h : Token.Leading digits rest) :
    ((bytes (digits ++ rest)).takeWhile isDigit).length = digits.length := by
  obtain ⟨hall, hstop⟩ := h
  induction digits with
  | nil =>
    rw [List.nil_append, List.length_nil, List.length_eq_zero_iff]
    cases rest with
    | nil => rfl
    | cons c rest =>
      rcases Nat.lt_or_ge c.toNat 128 with hc | hc
      · rw [bytes_plain hc, List.takeWhile_cons_of_neg]
        simp [isDigit_toUInt8 hc, hstop c rfl]
      · obtain ⟨b, bs, hbytes, hb⟩ := bytes_wide hc rest
        rw [hbytes, List.takeWhile_cons_of_neg]
        simp only [isDigit, Bool.and_eq_true, decide_eq_true_eq, UInt8.le_iff_toNat_le,
          UInt8.reduceToNat]
        omega
  | cons c digits ih =>
    obtain ⟨hc, hdigits⟩ := List.forall_mem_cons.mp hall
    have hplain := toNat_lt_of_isDigit hc
    rw [List.cons_append, bytes_plain hplain, List.takeWhile_cons_of_pos, List.length_cons,
      List.length_cons, ih hdigits]
    rw [isDigit_toUInt8 hplain, hc]

theorem digitsFrom_append (a : List UInt8) {digits rest : List Char}
    (h : Token.Leading digits rest) :
    digitsFrom (a ++ bytes (digits ++ rest)) a.length = .ok digits.length := by
  rw [digitsFrom, Guarded.slice_from, ok_bind, takeWhile_bytes h]
  rfl

/-- One of two characters, told by its byte. -/
theorem head?_bytes_or {cs : List Char} {c d : Char} (hc : c.toNat < 128) (hd : d.toNat < 128) :
    (bytes cs).head? = some c.toUInt8 ∨ (bytes cs).head? = some d.toUInt8 ↔
      ∃ x ∈ cs.head?, x = c ∨ x = d := by
  rw [head?_bytes hc, head?_bytes hd]
  constructor
  · rintro (h | h)
    · exact ⟨c, h, .inl rfl⟩
    · exact ⟨d, h, .inr rfl⟩
  · rintro ⟨x, h, rfl | rfl⟩
    · exact .inl h
    · exact .inr h

/-- The machine takes as much for a fraction as the scanner does. -/
theorem fraction_bytes (cs : List Char) :
    fraction (bytes cs) = .ok (cs.length - (Token.takeFraction cs).2.length) := by
  have hpeek : peek (bytes cs) 0 = .ok (bytes cs).head? := peek_append [] (bytes cs)
  rw [fraction, hpeek, ok_bind]
  cases Token.fractionStart cs with
  | none h =>
    rw [if_neg fun hbyte => h ((head?_bytes (by decide)).mp hbyte), Token.takeFraction_none h,
      Nat.sub_self]
    rfl
  | @point digits rest h =>
    have hcount := digitsFrom_append ['.'.toUInt8] h
    rw [List.singleton_append, ← bytes_plain (c := '.') (by decide), List.length_singleton]
      at hcount
    rw [if_pos ((head?_bytes (by decide)).mpr rfl), hcount, ok_bind, Token.takeFraction_point h]
    by_cases hnil : digits = []
    · subst hnil
      rw [if_pos rfl, List.nil_append, Nat.sub_self]
      rfl
    · have hlength : 1 + digits.length = ('.' :: (digits ++ rest)).length - rest.length := by
        simp only [List.length_cons, List.length_append]
        omega
      rw [if_neg hnil, if_pos (List.length_pos_iff.mpr hnil), hlength]
      rfl

theorem skipSign_append (a : List UInt8) {sign rest : List Char} (h : Token.Signed sign rest) :
    skipSign (a ++ bytes (sign ++ rest)) a.length = .ok (a.length + sign.length) := by
  rw [skipSign, peek_append, ok_bind]
  cases h with
  | @sign c rest hc =>
    rw [if_pos ((head?_bytes_or (by decide) (by decide)).mpr ⟨c, rfl, hc⟩)]
    rfl
  | unsigned hrest =>
    have hnone : ¬ ∃ x ∈ rest.head?, x = '+' ∨ x = '-' := fun ⟨x, hx, hsign⟩ => hrest x hx hsign
    rw [List.nil_append, if_neg (mt (head?_bytes_or (by decide) (by decide)).mp hnone)]
    rfl

/-- The machine takes as much for an exponent as the scanner does. -/
theorem exponent_bytes (a : List UInt8) (cs : List Char) :
    exponent (a ++ bytes cs) a.length =
      .ok (a.length + (cs.length - (Token.takeExponent cs).2.length)) := by
  rw [exponent, peek_append, ok_bind]
  cases Token.exponentStart cs with
  | none h =>
    have hnone : ¬ ∃ x ∈ cs.head?, x = 'e' ∨ x = 'E' := fun ⟨x, hx, hmark⟩ => h x hx hmark
    rw [if_neg (mt (head?_bytes_or (by decide) (by decide)).mp hnone), Token.takeExponent_none h,
      Nat.sub_self]
    rfl
  | @mark c sign digits rest hc hsign hdigits =>
    have hmark : Plain [c] := by obtain rfl | rfl := hc <;> simp [Plain]
    have hplain : Plain sign := by
      cases hsign with
      | sign hs => obtain rfl | rfl := hs <;> simp [Plain]
      | unsigned _ => exact List.forall_mem_nil _
    -- the bytes, cut before the sign and after it
    have hbytes : a ++ bytes (c :: (sign ++ (digits ++ rest))) =
        (a ++ bytes [c]) ++ bytes (sign ++ (digits ++ rest)) := by
      rw [List.append_assoc, ← bytes_append, List.singleton_append]
    have hskip := skipSign_append (a ++ bytes [c]) hsign
    have hcount := digitsFrom_append (a ++ bytes [c] ++ bytes sign) hdigits
    rw [List.append_assoc _ (bytes sign), ← bytes_append, ← hbytes] at hcount
    rw [← hbytes] at hskip
    simp only [List.length_append, hmark.length_bytes, hplain.length_bytes, List.length_singleton]
      at hskip hcount
    rw [if_pos ((head?_bytes_or (by decide) (by decide)).mpr ⟨c, rfl, hc⟩), hskip, ok_bind, hcount,
      ok_bind, Token.takeExponent_mark hc hsign hdigits]
    by_cases hnil : digits = []
    · subst hnil
      rw [if_pos rfl, List.nil_append, Nat.sub_self]
      rfl
    · have hlength : a.length + 1 + sign.length + digits.length =
          a.length + ((c :: (sign ++ (digits ++ rest))).length - rest.length) := by
        simp only [List.length_cons, List.length_append]
        omega
      rw [if_neg hnil, if_pos (List.length_pos_iff.mpr hnil), hlength]
      rfl

theorem isBoundary_append (a b : List Char) :
    isBoundary (bytes a ++ bytes b) (bytes a).length = true := by
  rw [isBoundary, List.getElem?_append_right (Nat.le_refl _), Nat.sub_self]
  cases b with
  | nil => simp [bytes]
  | cons c b =>
    rcases Nat.lt_or_ge c.toNat 128 with hc | hc
    · have hbyte := toNat_toUInt8 hc
      rw [bytes_plain hc]
      simp [UInt8.lt_iff_toNat_lt, hbyte, hc]
    · obtain ⟨b, bs, hbytes, hb⟩ := bytes_wide hc b
      rw [hbytes]
      simp [UInt8.le_iff_toNat_le, hb]

theorem plain_of_mem {r : RegularExpression Char} {w : List Char}
    (hr : (Pattern.letters r).all (·.toNat < 128) = true) (h : w ∈ r.matches') : Plain w :=
  fun c hc => of_decide_eq_true (List.all_eq_true.mp hr c (Pattern.mem_letters h c hc))

theorem slice_rest (before after : List Char) :
    Guarded.slice (bytes (before ++ after)) (bytes before).length (bytes (before ++ after)).length =
      .ok (bytes after) := by
  rw [bytes_append, Guarded.slice_from]

theorem bump_append (before after : List Char) {i n : Nat} (h : i + n = (bytes before).length) :
    bump (bytes (before ++ after)) i n = .ok (bytes before).length := by
  rw [bump, h, bytes_append, if_pos (isBoundary_append before after)]
  rfl

/-- **The machine takes what the scanner takes**, wherever in a text a numeral stands. -/
theorem numeral_bytes (before : List Char) {cs p rest : List Char} {n : Number.Numeral}
    (htake : Token.takeNumeral cs = (n, rest)) (hcs : cs = p ++ rest) (hp : Plain p) :
    numeral (bytes (before ++ cs)) (bytes before).length =
      .ok ((bytes (before ++ p)).length, bytes p) := by
  obtain ⟨whole, tail, htext, hwhole⟩ := Token.exists_leading cs
  obtain ⟨digits, tail', htakeFraction, htail, -, hlongest⟩ := Token.takeFraction_longest tail
  have hrest : (Token.takeExponent tail').2 = rest := by
    rw [htext] at htake
    simp only [Token.takeNumeral, hwhole.spanDigits, htakeFraction] at htake
    exact congrArg Prod.snd htake
  have hplain : Plain whole := fun c hc => toNat_lt_of_isDigit (hwhole.all c hc)
  have hpointed : Plain (pointed digits) := plain_of_mem rfl hlongest.mem
  -- what each step gives
  have hcount : digitsFrom (bytes (before ++ cs)) (bytes before).length = .ok whole.length := by
    rw [htext, bytes_append, digitsFrom_append _ hwhole]
  have hstart : (bytes (before ++ whole)).length = (bytes before).length + whole.length := by
    rw [bytes_append, List.length_append, hplain.length_bytes]
  have hslice := slice_rest (before ++ whole) tail
  rw [List.append_assoc, ← htext, hstart] at hslice
  have hfraction : fraction (bytes tail) = .ok (pointed digits).length := by
    rw [fraction_bytes, htakeFraction, htail, List.length_append, Nat.add_sub_cancel_right]
  have hexponent : exponent (bytes tail) (pointed digits).length =
      .ok ((pointed digits).length + (tail'.length - rest.length)) := by
    have hend := exponent_bytes (bytes (pointed digits)) tail'
    rwa [hrest, hpointed.length_bytes, ← bytes_append, ← htail] at hend
  have hstop : (bytes before).length + whole.length +
      ((pointed digits).length + (tail'.length - rest.length)) = (bytes (before ++ p)).length := by
    have hlength : (whole ++ (pointed digits ++ tail')).length = (p ++ rest).length := by
      rw [← htail, ← htext, hcs]
    have hle := Token.length_takeExponent tail'
    rw [hrest] at hle
    rw [bytes_append, List.length_append, hp.length_bytes]
    simp only [List.length_append] at hlength
    omega
  have hbump := bump_append (before ++ p) rest hstop
  rw [List.append_assoc, ← hcs] at hbump
  have hlast : Guarded.slice (bytes (before ++ cs)) (bytes before).length
      (bytes (before ++ p)).length = .ok (bytes p) := by
    rw [hcs, bytes_append, bytes_append, bytes_append]
    exact Guarded.slice_append _ _ _ List.length_append
  rw [numeral, hcount, ok_bind, hslice, ok_bind, hfraction, ok_bind, hexponent, ok_bind, hbump,
    ok_bind, hlast]
  rfl

end Bytewise

namespace Token

/-! ## Through the scan of a text -/

/-- Scanning a text comes, after the tokens `ts`, to a place where a token or a gap may start, with
`rest` still to be scanned. -/
inductive Reaches (cs : List Char) : List Token → List Char → Prop
  | start : Reaches cs [] cs
  | gap {ts : List Token} {rest rest' : List Char} (h : Reaches cs ts rest)
    (hgap : lexeme? rest = some (none, rest')) : Reaches cs ts rest'
  | token {ts : List Token} {t : Token} {rest rest' : List Char} (h : Reaches cs ts rest)
    (ht : lexeme? rest = some (some t, rest')) : Reaches cs (ts ++ [t]) rest'

/-- The scan of a text goes on from every place that it comes to. -/
theorem Reaches.scanFrom {cs rest : List Char} {ts : List Token} (h : Reaches cs ts rest)
    (total : Nat) : scanFrom total cs = (ts ++ ·) <$> scanFrom total rest := by
  induction h with
  | start => simp
  | gap _ hgap ih => rw [ih, scanFrom_gap hgap]
  | token _ ht ih =>
    rw [ih, scanFrom_token ht, Functor.map_map]
    simp

theorem Reaches.suffix {cs rest : List Char} {ts : List Token} (h : Reaches cs ts rest) :
    rest <:+ cs := by
  induction h with
  | start => exact List.suffix_rfl
  | gap _ hgap ih => exact (lexeme?_suffix hgap).trans ih
  | token _ ht ih => exact (lexeme?_suffix ht).trans ih

/-- **A digit at the start of a token starts a number, which takes the longest numeral that stands
there.**  Its value is that of the numeral, scanning goes on right behind it, and the machine, which
never looks or goes past the end of the text, ends the token at the same place. -/
theorem scan_numeral {source : String} {ts : List Token} {c : Char} {cs : List Char}
    (hreach : Reaches source.toList ts (c :: cs)) (hc : c.isDigit = true) :
    ∃ before p rest x, source.toList = before ++ (p ++ rest) ∧ c :: cs = p ++ rest ∧
      Longest Pattern.numeral.matches' p rest ∧
      Number.ofString? (String.ofList p) = some x ∧
      Reaches source.toList (ts ++ [.number x]) rest ∧
      scan source = (ts ++ .number x :: ·) <$> scanFrom (byteLength source.toList) rest ∧
      Bytewise.numeral (bytes source.toList) (byteLength before) =
        .ok (byteLength (before ++ p), bytes p) := by
  obtain ⟨n, p, rest, htake, hcs, hread, hlongest⟩ := takeNumeral_longest hc cs
  obtain ⟨before, hsource⟩ := hreach.suffix
  have hlexeme := lexeme?_digit hc htake
  have hnext := hreach.token hlexeme
  have hbytes := Bytewise.numeral_bytes before htake hcs
    (Bytewise.plain_of_mem rfl hlongest.mem)
  rw [hsource, length_bytes, length_bytes] at hbytes
  refine ⟨before, p, rest, n.toFloat, by rw [← hsource, hcs], hcs, hlongest, hread, hnext, ?_,
    hbytes⟩
  rw [scan, hnext.scanFrom]
  simp

/-- After an operator that starts with a point, a numeral and an exponent without digits. -/
theorem scan_numeral_dangling :
    Reaches "a.*1.5e-x".toList [.name "a", .operator (.binary .cellMul)] "1.5e-x".toList ∧
      '1'.isDigit = true ∧ ∃ x, Number.ofString? "1.5" = some x ∧
      Reaches "a.*1.5e-x".toList [.name "a", .operator (.binary .cellMul), .number x]
        "e-x".toList ∧
      Bytewise.numeral (bytes "a.*1.5e-x".toList) 3 = .ok (6, bytes "1.5".toList) := by
  have hname : Reaches "a.*1.5e-x".toList [.name "a"] ".*1.5e-x".toList := .token .start rfl
  have hreach : Reaches "a.*1.5e-x".toList [.name "a", .operator (.binary .cellMul)]
      ('1' :: ".5e-x".toList) := .token hname rfl
  obtain ⟨before, p, rest, x, hsource, hcs, hlongest, hread, hnext, -, hbytes⟩ :=
    scan_numeral hreach rfl
  have hexpected : Longest Pattern.numeral.matches' "1.5".toList "e-x".toList := by decide +kernel
  have htext : "1.5".toList ++ "e-x".toList = p ++ rest := hcs
  obtain rfl : "1.5".toList = p := hexpected.eq hlongest htext
  obtain rfl : "e-x".toList = rest := List.append_cancel_left htext
  have hbefore : "a.*".toList ++ ("1.5".toList ++ "e-x".toList) =
      before ++ ("1.5".toList ++ "e-x".toList) := hsource
  obtain rfl : "a.*".toList = before := List.append_cancel_right hbefore
  exact ⟨hreach, rfl, x, hread, hnext, hbytes⟩

end Token

end MatrixLang
