import Mathlib.Algebra.Ring.Nat
import MatrixLang.Number.Arithmetic

/-! # Doubles and their bit patterns

A double is its bit pattern (`toBits_injective`), and every pattern of a finite number is kept
(`toBits_ofBits`).  The minus sign turns the top bit over and nothing else (`toBits_neg`), so
that the number with a given magnitude and sign can be named by its pattern.  A number that is
not below one is cut to a size of at least one (`one_le_toSize`).
-/

namespace MatrixLang.Number

open Float.Model (Format UnpackedFloat)
open Float.Model.UnpackedFloat

/-- Two doubles with one pattern are one double. -/
theorem toBits_injective {x y : Float} (h : x.toBits = y.toBits) : x = y := by
  obtain ⟨⟨a, ha⟩⟩ := x
  obtain ⟨⟨b, hb⟩⟩ := y
  obtain rfl : a = b := h
  rfl

/-! ## Fields -/

section Fields

variable (b : BitVec Format.binary64.numBits)

theorem toNat_unpackMantissa : (unpackMantissa b).toNat = b.toNat % 2 ^ 52 := by
  simp [unpackMantissa]

theorem toNat_append_unpackMantissa :
    (1#1 ++ unpackMantissa b).toNat = 2 ^ 52 + (unpackMantissa b).toNat := by
  have hm : (unpackMantissa b).toNat < 2 ^ 52 := (unpackMantissa b).isLt
  rw [BitVec.toNat_append, ← Nat.shiftLeft_add_eq_or_of_lt hm]
  rfl

theorem toNat_unpackExponent : (unpackExponent b).toNat = b.toNat / 2 ^ 52 % 2 ^ 11 := by
  simp [unpackExponent, Nat.shiftRight_eq_div_pow]

theorem toNat_unpackSign : (unpackSign b).toNat = b.toNat / 2 ^ 63 := by
  have hb : b.toNat < 2 ^ 64 := b.isLt
  have h : (unpackSign b).toNat = b.toNat / 2 ^ 63 % 2 := by
    delta unpackSign
    simp [Nat.shiftRight_eq_div_pow]
  omega

theorem toNat_packComponents (s : Sign) (e : BitVec Format.binary64.exponentBits)
    (m : BitVec Format.binary64.mantissaBitsWithoutImplicit) :
    (packComponents Format.binary64 s e m).toNat =
      s.toBitVec.toNat * 2 ^ 63 + e.toNat * 2 ^ 52 + m.toNat := by
  have he : e.toNat < 2 ^ 11 := e.isLt
  have hm : m.toNat < 2 ^ 52 := m.isLt
  rw [packComponents, BitVec.toNat_append, ← Nat.shiftLeft_add_eq_or_of_lt hm, BitVec.toNat_append,
    ← Nat.shiftLeft_add_eq_or_of_lt he]
  simp only [Nat.shiftLeft_eq]
  omega

end Fields

theorem pack_subnormal (s : Sign) {m : Nat} (h : 0 < m) (hm : m < 2 ^ 52) :
    pack Format.binary64 (.finite s m (-1074) h) =
      packComponents Format.binary64 s 0#_ (BitVec.ofNat _ m) := by
  have hlog : m.log2 < 52 := (Nat.log2_lt (Nat.ne_of_gt h)).mpr hm
  have hne : m.log2 + 1 ≠ Format.mantissaBits .binary64 := by
    show m.log2 + 1 ≠ 53
    omega
  delta pack
  simp only [hne, ite_false]
  rfl

theorem pack_normal (s : Sign) {m : Nat} (h : 0 < m) (hlow : 2 ^ 52 ≤ m) (hhigh : m < 2 ^ 53)
    {e : Nat} (he : e < 2047) :
    pack Format.binary64 (.finite s m ((e : Int) - 1075) h) =
      packComponents Format.binary64 s (BitVec.ofNat _ e) (BitVec.ofNat _ m) := by
  have hlog : m.log2 + 1 = Format.mantissaBits .binary64 := by
    have hle : 52 ≤ m.log2 := (Nat.le_log2 (Nat.ne_of_gt h)).mpr hlow
    have hlt : m.log2 < 53 := (Nat.log2_lt (Nat.ne_of_gt h)).mpr hhigh
    show m.log2 + 1 = 53
    omega
  have hbiased :
      ((e : Int) - 1075 + (Format.exponentBias .binary64 : Nat) + (52 : Nat)).toNat = e := by
    show ((e : Int) - 1075 + (1023 : Nat) + (52 : Nat)).toNat = e
    omega
  have hsmall : ¬ 2 ^ 11 ≤ e + 1 := by omega
  delta pack
  simp only [hlog, hbiased, hsmall, ite_true, ite_false]

/-- A pattern whose exponent is all ones is an infinity, or not a number. -/
theorem unpack_full {b : BitVec Format.binary64.numBits} (hb : (unpackExponent b).toNat = 2047) :
    unpack Format.binary64 b =
      if unpackMantissa b = 0#_ then .infinity (.ofBitVec (unpackSign b)) else .notANumber := by
  delta unpack
  dsimp only
  rw [if_pos (BitVec.eq_of_toNat_eq hb)]

/-- **What a finite pattern means**: zero, a number of the lowest binade, or a mantissa with its
leading bit put back. -/
theorem unpack_finite {b : BitVec Format.binary64.numBits} (hb : (unpackExponent b).toNat ≠ 2047) :
    (unpackExponent b = 0#_ ∧ unpackMantissa b = 0#_ ∧
      unpack Format.binary64 b = .zero (.ofBitVec (unpackSign b))) ∨
    (unpackExponent b = 0#_ ∧ ∃ h, unpack Format.binary64 b =
      .finite (.ofBitVec (unpackSign b)) (unpackMantissa b).toNat (-1074) h) ∨
    (unpackExponent b ≠ 0#_ ∧ ∃ h, unpack Format.binary64 b =
      .finite (.ofBitVec (unpackSign b)) (1#1 ++ unpackMantissa b).toNat
        ((unpackExponent b).toNat - 1075) h) := by
  have hfull : unpackExponent b ≠ -1#_ := fun h => hb (by rw [h]; rfl)
  delta unpack
  dsimp only
  rw [if_neg hfull]
  by_cases hlow : unpackExponent b = 0#_
  · rw [if_pos hlow]
    by_cases hzero : unpackMantissa b = 0#_
    · rw [dif_pos hzero]
      exact .inl ⟨hlow, hzero, rfl⟩
    · have hpos : 0 < (unpackMantissa b).toNat := by
        simpa [BitVec.toNat_pos, BitVec.pos_iff_ne_zero] using hzero
      refine .inr (.inl ⟨hlow, hpos, ?_⟩)
      rw [dif_neg hzero, hlow]
      rfl
  · rw [if_neg hlow]
    exact .inr (.inr ⟨hlow, by rw [toNat_append_unpackMantissa]; omega, rfl⟩)

/-- A finite number with another sign. -/
def resign (s : Sign) : UnpackedFloat → UnpackedFloat
  | .zero _ => .zero s
  | .finite _ m e h => .finite s m e h
  | u => u

/-- What a finite pattern means is packed into its own fields. -/
theorem pack_resign (s : Sign) {b : BitVec Format.binary64.numBits}
    (hb : (unpackExponent b).toNat ≠ 2047) :
    pack Format.binary64 (resign s (unpack Format.binary64 b)) =
      packComponents Format.binary64 s (unpackExponent b) (unpackMantissa b) := by
  have hm : (unpackMantissa b).toNat < 2 ^ 52 := (unpackMantissa b).isLt
  have he : (unpackExponent b).toNat < 2 ^ 11 := (unpackExponent b).isLt
  obtain ⟨hlow, hzero, hunpack⟩ | ⟨hlow, hpos, hunpack⟩ | ⟨-, hpos, hunpack⟩ := unpack_finite hb
  · rw [hunpack, hlow, hzero]
    rfl
  · rw [hunpack, hlow]
    exact (pack_subnormal s hpos hm).trans (by simp)
  · have happend := toNat_append_unpackMantissa b
    have hfraction : BitVec.ofNat _ (1#1 ++ unpackMantissa b).toNat = unpackMantissa b :=
      BitVec.eq_of_toNat_eq (by
        rw [BitVec.toNat_ofNat, happend]
        exact (Nat.add_mod_left _ _).trans (Nat.mod_eq_of_lt hm))
    rw [hunpack]
    refine (pack_normal s hpos (by omega) (by omega) (by omega)).trans ?_
    rw [hfraction]
    simp

theorem resign_self {b : BitVec Format.binary64.numBits} (hb : (unpackExponent b).toNat ≠ 2047) :
    resign (Sign.ofBitVec (unpackSign b)) (unpack Format.binary64 b) =
      unpack Format.binary64 b := by
  obtain ⟨-, -, hunpack⟩ | ⟨-, _, hunpack⟩ | ⟨-, _, hunpack⟩ := unpack_finite hb <;>
  · rw [hunpack]
    rfl

theorem resign_neg {b : BitVec Format.binary64.numBits} (hb : (unpackExponent b).toNat ≠ 2047) :
    resign (-Sign.ofBitVec (unpackSign b)) (unpack Format.binary64 b) =
      (unpack Format.binary64 b).neg := by
  obtain ⟨-, -, hunpack⟩ | ⟨-, _, hunpack⟩ | ⟨-, _, hunpack⟩ := unpack_finite hb <;>
  · rw [hunpack]
    rfl

theorem toNat_sign (b : BitVec Format.binary64.numBits) :
    (Sign.ofBitVec (unpackSign b)).toBitVec.toNat = b.toNat / 2 ^ 63 := by
  rw [← toNat_unpackSign]
  generalize unpackSign b = v
  revert v
  decide

theorem toNat_neg_sign (b : BitVec Format.binary64.numBits) :
    (-Sign.ofBitVec (unpackSign b)).toBitVec.toNat = 1 - b.toNat / 2 ^ 63 := by
  rw [← toNat_unpackSign]
  generalize unpackSign b = v
  revert v
  decide

/-- A finite pattern is kept. -/
theorem pack_unpack {b : BitVec Format.binary64.numBits} (hb : b.toNat / 2 ^ 52 % 2 ^ 11 ≠ 2047) :
    pack Format.binary64 (unpack Format.binary64 b) = b := by
  rw [← toNat_unpackExponent] at hb
  have hlt : b.toNat < 2 ^ 64 := b.isLt
  have hpack := pack_resign (Sign.ofBitVec (unpackSign b)) hb
  rw [resign_self hb] at hpack
  rw [hpack]
  refine BitVec.eq_of_toNat_eq ?_
  rw [toNat_packComponents, toNat_sign, toNat_unpackExponent, toNat_unpackMantissa]
  omega

/-- The minus sign turns the top bit over. -/
theorem toNat_pack_neg {b : BitVec Format.binary64.numBits}
    (hb : b.toNat / 2 ^ 52 % 2 ^ 11 ≠ 2047) (hsign : b.toNat < 2 ^ 63) :
    (pack Format.binary64 (unpack Format.binary64 b).neg).toNat = b.toNat + 2 ^ 63 := by
  rw [← toNat_unpackExponent] at hb
  rw [← resign_neg hb, pack_resign _ hb, toNat_packComponents, toNat_neg_sign,
    toNat_unpackExponent, toNat_unpackMantissa]
  omega

theorem toBits_ofBits {n : UInt64} (h : n.toNat / 2 ^ 52 % 2 ^ 11 ≠ 2047) :
    (Float.ofBits n).toBits = n :=
  UInt64.toBitVec_inj.mp (pack_unpack h)

theorem toBits_neg {x : Float} (h : x.toBits.toNat / 2 ^ 52 % 2 ^ 11 ≠ 2047)
    (hx : x.toBits.toNat < 2 ^ 63) : (-x).toBits.toNat = x.toBits.toNat + 2 ^ 63 :=
  toNat_pack_neg h hx

/-! ## Magnitudes -/

/-- A mantissa and an exponent that a finite double can have. -/
structure IsMagnitude (m : Nat) (q : Int) : Prop where
  lt : m < 2 ^ 53
  normal : 2 ^ 52 ≤ m ∨ q = leastExponent
  least_le : leastExponent ≤ q
  le : q ≤ 971

/-- The pattern of the positive number `m * 2 ^ q`. -/
def pattern (m : Nat) (q : Int) : Nat :=
  (q - leastExponent).toNat * 2 ^ fractionBits + m

theorem IsMagnitude.pattern_lt {m : Nat} {q : Int} (h : IsMagnitude m q) :
    pattern m q < 2047 * 2 ^ 52 := by
  have hlt := h.lt
  have hle := h.le
  simp only [pattern, leastExponent, fractionBits]
  omega

/-- A finite double is its magnitude and its sign. -/
theorem finite_spec {x : Float} {negative : Bool} {m : Nat} {q : Int}
    (h : Binary.ofFloat x = .finite negative m q) :
    IsMagnitude m q ∧ x.toBits.toNat = pattern m q + if negative then 2 ^ 63 else 0 := by
  have hx : x.toBits.toNat < 2 ^ 64 := x.toBits.toNat_lt
  have hsign : (if decide (2 ^ 63 ≤ x.toBits.toNat) then 2 ^ 63 else 0) =
      x.toBits.toNat / 2 ^ 63 * 2 ^ 63 := by
    split <;> rename_i h <;> simp only [decide_eq_true_eq] at h <;> omega
  simp only [Binary.ofFloat, Binary.ofBits, Nat.pow_eq] at h
  split at h
  · split at h <;> cases h
  · split at h
    · -- the lowest binade
      simp only [Binary.finite.injEq] at h
      obtain ⟨rfl, rfl, rfl⟩ := h
      simp only [hsign, pattern, fractionBits] at *
      refine ⟨⟨by omega, .inr rfl, Int.le_refl _, by decide⟩, ?_⟩
      omega
    · simp only [Binary.finite.injEq] at h
      obtain ⟨rfl, rfl, rfl⟩ := h
      simp only [hsign, pattern, fractionBits] at *
      refine ⟨⟨by omega, .inl (by omega), by omega, ?_⟩, ?_⟩
      · simp only [leastExponent]
        omega
      · omega

/-- The pattern of a magnitude stands for it. -/
theorem ofBits_pattern {m : Nat} {q : Int} (h : IsMagnitude m q) :
    Binary.ofBits (pattern m q) = .finite false m q := by
  have hlt := h.lt
  have hle := h.le
  have hleast := h.least_le
  have hpositive : decide (2 ^ 63 ≤ pattern m q) = false := by
    have := h.pattern_lt
    exact decide_eq_false (by omega)
  by_cases hm : m < 2 ^ 52
  · -- the lowest binade
    obtain rfl : q = leastExponent := h.normal.resolve_left (by omega)
    have hpattern : pattern m leastExponent = m := by simp [pattern]
    have hbiased : m / 2 ^ fractionBits % 2048 = 0 := by
      simp only [fractionBits]
      omega
    have hfraction : m % 2 ^ fractionBits = m := Nat.mod_eq_of_lt hm
    rw [hpattern] at hpositive ⊢
    simp only [Binary.ofBits, Nat.pow_eq, hpositive, hbiased, hfraction]
    rfl
  · obtain ⟨biased, hq, hbounds⟩ : ∃ biased : Nat, (biased : Int) + leastExponent - 1 = q ∧
        0 < biased ∧ biased < 2047 := by
      simp only [leastExponent] at hleast ⊢
      exact ⟨(q + 1075).toNat, by omega, by omega, by omega⟩
    have hpattern : pattern m q = biased * 2 ^ fractionBits + (m - 2 ^ fractionBits) := by
      simp only [pattern, fractionBits] at *
      omega
    have hbiased : pattern m q / 2 ^ fractionBits % 2048 = biased := by
      rw [hpattern]
      simp only [fractionBits]
      omega
    have hfraction : 2 ^ fractionBits + pattern m q % 2 ^ fractionBits = m := by
      rw [hpattern]
      simp only [fractionBits]
      omega
    have hfull : biased ≠ 2047 := by omega
    have hzero : biased ≠ 0 := by omega
    simp only [Binary.ofBits, Nat.pow_eq, hpositive, hbiased, hfraction, hfull, hzero, hq,
      ite_false]

/-- The double of a magnitude. -/
def ofMagnitude (m : Nat) (q : Int) : Float :=
  Float.ofBits (pattern m q).toUInt64

theorem IsMagnitude.toBits_ofMagnitude {m : Nat} {q : Int} (h : IsMagnitude m q) :
    (ofMagnitude m q).toBits.toNat = pattern m q := by
  have hlt := h.pattern_lt
  have htoNat : (pattern m q).toUInt64.toNat = pattern m q :=
    UInt64.toNat_ofNat_of_lt' (Nat.lt_trans hlt (by decide))
  rw [ofMagnitude, toBits_ofBits (by omega), htoNat]

theorem IsMagnitude.ofFloat_ofMagnitude {m : Nat} {q : Int} (h : IsMagnitude m q) :
    Binary.ofFloat (ofMagnitude m q) = .finite false m q := by
  rw [Binary.ofFloat, h.toBits_ofMagnitude, ofBits_pattern h]

@[simp] theorem withSign_true (x : Float) : withSign true x = -x := if_pos rfl

@[simp] theorem withSign_false (x : Float) : withSign false x = x := if_neg Bool.false_ne_true

/-- **A finite double is told by its sign, its mantissa and its exponent.** -/
theorem withSign_ofMagnitude {x : Float} {negative : Bool} {m : Nat} {q : Int}
    (h : Binary.ofFloat x = .finite negative m q) : withSign negative (ofMagnitude m q) = x := by
  obtain ⟨hmagnitude, hbits⟩ := finite_spec h
  have hlt := hmagnitude.pattern_lt
  have hkept := hmagnitude.toBits_ofMagnitude
  refine toBits_injective (UInt64.toNat_inj.mp ?_)
  cases negative with
  | false => rw [withSign_false, hkept, hbits, if_neg Bool.false_ne_true, Nat.add_zero]
  | true => rw [withSign_true, toBits_neg (by omega) (by omega), hkept, hbits, if_pos rfl]

/-! ## Order

The order of the doubles is that of the unpacked numbers, by exponent and then by mantissa.
-/

/-- The sign of a pattern. -/
def signOf (negative : Bool) : Sign :=
  if negative then .negative else .positive

theorem ofBitVec_unpackSign (b : BitVec Format.binary64.numBits) :
    Sign.ofBitVec (unpackSign b) = signOf (decide (2 ^ 63 ≤ b.toNat)) := by
  have hsign := toNat_unpackSign b
  have hb : b.toNat < 2 ^ 64 := b.isLt
  by_cases hlow : b.toNat < 2 ^ 63
  · have hzero : unpackSign b = 0#1 :=
      BitVec.eq_of_toNat_eq (by rw [hsign]; exact Nat.div_eq_of_lt hlow)
    have hnot : ¬ 2 ^ 63 ≤ b.toNat := by omega
    rw [hzero, decide_eq_false hnot]
    rfl
  · have hone : unpackSign b = 1#1 := BitVec.eq_of_toNat_eq (by
      rw [hsign]
      show _ = 1
      omega)
    rw [hone, decide_eq_true (by omega)]
    rfl

/-- **A pattern stands for the number it is unpacked to.** -/
theorem unpack_ofBits (b : BitVec Format.binary64.numBits) :
    match Binary.ofBits b.toNat with
    | .nan => unpack Format.binary64 b = .notANumber
    | .infinite negative => unpack Format.binary64 b = .infinity (signOf negative)
    | .finite negative m q => (m = 0 ∧ ∃ s, unpack Format.binary64 b = .zero s) ∨
      ∃ h, unpack Format.binary64 b = .finite (signOf negative) m q h := by
  have hexponent : (unpackExponent b).toNat = b.toNat / 2 ^ 52 % 2048 := toNat_unpackExponent b
  rw [Binary.ofBits, fractionBits, Nat.pow_eq, Nat.pow_eq, ← hexponent, ← toNat_unpackMantissa]
  by_cases hfull : (unpackExponent b).toNat = 2047
  · rw [if_pos hfull, unpack_full hfull, ofBitVec_unpackSign]
    by_cases hzero : unpackMantissa b = 0#_
    · rw [if_pos hzero, if_pos (by rw [hzero]; rfl)]
    · have hne : (unpackMantissa b).toNat ≠ 0 := fun h => hzero (BitVec.eq_of_toNat_eq h)
      rw [if_neg hzero, if_neg hne]
  · rw [if_neg hfull]
    have hunpack := unpack_finite hfull
    rw [ofBitVec_unpackSign] at hunpack
    obtain ⟨hlow, hzero, hunpack⟩ | ⟨hlow, hunpack⟩ | ⟨hlow, hunpack⟩ := hunpack
    · rw [if_pos (by rw [hlow]; rfl)]
      exact .inl ⟨by rw [hzero]; rfl, _, hunpack⟩
    · rw [if_pos (by rw [hlow]; rfl)]
      exact .inr hunpack
    · have hne : (unpackExponent b).toNat ≠ 0 := fun h => hlow (BitVec.eq_of_toNat_eq h)
      have hq : ((unpackExponent b).toNat : Int) + leastExponent - 1 =
          (unpackExponent b).toNat - 1075 := by
        rw [leastExponent]
        omega
      rw [if_neg hne]
      show _ ∨ ∃ h, _ = UnpackedFloat.finite _ _ _ h
      rw [hq, ← toNat_append_unpackMantissa]
      exact .inr hunpack

theorem one_unpack :
    (1 : Float).toModel.unpack = .finite .positive (2 ^ 52) (-52) (by decide) := rfl

/-- What a double is unpacked to. -/
theorem unpack_ofFloat (x : Float) :
    match Binary.ofFloat x with
    | .nan => x.toModel.unpack = .notANumber
    | .infinite negative => x.toModel.unpack = .infinity (signOf negative)
    | .finite negative m q => (m = 0 ∧ ∃ s, x.toModel.unpack = .zero s) ∨
      ∃ h, x.toModel.unpack = .finite (signOf negative) m q h :=
  unpack_ofBits x.toModel.toBits.toBitVec

theorem lt_one_of_compare {x : Float}
    (h : x.toModel.unpack.compare (1 : Float).toModel.unpack = some .lt) : x < 1 := by
  show decide ((x.toModel.unpack.compare (1 : Float).toModel.unpack == some .lt) = true) = true
  rw [h]
  rfl

/-- A finite number that is not below one is positive, and at least `2 ^ 52 * 2 ^ -52`. -/
theorem finite_of_not_lt_one {x : Float} {negative : Bool} {m : Nat} {q : Int}
    (hx : Binary.ofFloat x = .finite negative m q) (h : ¬ x < 1) :
    negative = false ∧ -52 ≤ q ∧ 2 ^ 52 ≤ m := by
  have hspec := unpack_ofFloat x
  have hcompare := mt lt_one_of_compare h
  rw [hx] at hspec
  rw [one_unpack] at hcompare
  obtain ⟨-, s, hzero⟩ | ⟨hm, hfinite⟩ := hspec
  · rw [hzero] at hcompare
    exact absurd rfl hcompare
  · rw [hfinite] at hcompare
    cases negative with
    | true => exact absurd rfl hcompare
    | false =>
      have hthen : (compare q (-52)).then (compare m (2 ^ 52)) ≠ .lt := fun hlt =>
        hcompare (congrArg some hlt)
      -- above the exponent of one the lowest binade is left, so the mantissa has all its digits
      have hnormal := (finite_spec hx).1.normal
      simp only [leastExponent] at hnormal
      have hq : ¬ q < -52 := fun hlt => hthen (by rw [Int.compare_eq_lt.mpr hlt]; rfl)
      have hm : q = -52 → ¬ m < 2 ^ 52 := fun heq hlt => hthen (by
        rw [Int.compare_eq_eq.mpr heq, Nat.compare_eq_lt.mpr hlt]
        rfl)
      exact ⟨rfl, by omega, by omega⟩

/-- **A number that is not below one is cut to a size of at least one.** -/
theorem one_le_toSize {x : Float} (hnan : x.isNaN = false) (h : ¬ x < 1) : 1 ≤ toSize x := by
  have hspec := unpack_ofFloat x
  have hcompare := mt lt_one_of_compare h
  rw [toSize, truncate]
  cases hx : Binary.ofFloat x with
  | nan =>
    simp only [hx] at hspec
    have hmodel : x.toModel.unpack.isNaN = false := hnan
    rw [hspec] at hmodel
    cases hmodel
  | infinite negative =>
    simp only [hx] at hspec
    rw [hspec] at hcompare
    cases negative with
    | true => exact absurd rfl hcompare
    | false => decide
  | finite negative m q =>
    obtain ⟨rfl, hq, hm⟩ := finite_of_not_lt_one hx h
    -- the magnitude is at least `2 ^ 52 * 2 ^ (-52)`, so its whole part is not zero
    have hpow : 2 ^ (-q).toNat ≤ 2 ^ 52 := Nat.pow_le_pow_right (by decide) (by omega)
    have hscaled : m ≤ m * 2 ^ q.toNat := Nat.le_mul_of_pos_right m (Nat.two_pow_pos _)
    have hone : 0 < m * 2 ^ q.toNat / 2 ^ (-q).toNat :=
      Nat.div_pos (by omega) (Nat.two_pow_pos _)
    simp only [Bool.false_eq_true, ite_false, Nat.pow_eq, UInt64.size]
    omega

end MatrixLang.Number
