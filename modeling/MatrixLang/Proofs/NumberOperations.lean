import MatrixLang.Proofs.Rounding

/-! # Products and quotients of doubles

The product and the quotient of two doubles are computed from their mantissas and exponents, then
rounded, and packed into a pattern again.  The product does not depend on the order of the two
(`mul_swap`).  That of two finite numbers is a number, if perhaps an infinite one
(`isFinite_mul`), and a quotient by a number that is not below two is finite (`isFinite_div`).

The double nearest to a quotient of natural numbers is finite unless the quotient is beyond the
largest one (`isFinite_nearest`).
-/

namespace MatrixLang.Number

open Float.Model (Format UnpackedFloat totalExponent)
open Float.Model.UnpackedFloat

/-! ## Swapping the factors -/

theorem sign_mul_comm (s t : Sign) : s * t = t * s := by
  cases s <;> cases t <;> rfl

theorem unpacked_mul_comm (f : Format) (u v : UnpackedFloat) : u.mul f v = v.mul f u := by
  cases u <;> cases v <;> delta UnpackedFloat.mul <;> dsimp only <;>
    simp only [sign_mul_comm, Nat.mul_comm, Int.add_comm]

/-- **The product of two doubles does not depend on their order.** -/
theorem mul_swap (x y : Float) : x * y = y * x :=
  congrArg (fun u => Float.ofModel (Float.Model.pack u))
    (unpacked_mul_comm Format.binary64 x.toModel.unpack y.toModel.unpack)

/-! ## Finite numbers -/

theorem isFinite_eq_unpack (x : Float) : isFinite x = x.toModel.unpack.isFinite := by
  have h := unpack_ofFloat x
  rw [isFinite]
  cases hx : Binary.ofFloat x with
  | nan =>
    rw [hx] at h
    rw [h]
    rfl
  | infinite negative =>
    rw [hx] at h
    rw [h]
    rfl
  | finite negative m q =>
    rw [hx] at h
    obtain ⟨-, s, h⟩ | ⟨hm, h⟩ := h
    · rw [h]
      rfl
    · rw [h]
      rfl

/-- The number that a pattern is unpacked to, after a result was packed into it. -/
abbrev repacked (u : UnpackedFloat) : UnpackedFloat :=
  unpack Format.binary64 (u.pack Format.binary64)

/-- A pattern is finite unless its exponent is all ones. -/
theorem isFinite_unpack {b : BitVec Format.binary64.numBits} :
    (unpack Format.binary64 b).isFinite = true ↔ (unpackExponent b).toNat ≠ 2047 := by
  constructor
  · intro h hfull
    rw [unpack_full hfull] at h
    split at h <;> cases h
  · intro hb
    obtain ⟨-, -, hunpack⟩ | ⟨-, _, hunpack⟩ | ⟨-, _, hunpack⟩ := unpack_finite hb <;>
    · rw [hunpack]
      rfl

theorem isFinite_packComponents (s : Sign) {e : BitVec 11} (m : BitVec 52) (he : e.toNat ≠ 2047) :
    (unpack Format.binary64 (packComponents Format.binary64 s e m)).isFinite = true := by
  rw [isFinite_unpack, unpackExponent_packComponents]
  exact he

/-- A number is packed into a finite pattern if its exponent is not too large. -/
theorem isFinite_repacked {s : Sign} {m : Nat} {e : Int} {h : 0 < m} (he : e ≤ 971) :
    (repacked (.finite s m e h)).isFinite = true := by
  have hbiased : (e + (Format.binary64.exponentBias : Nat) + (52 : Nat)).toNat < 2047 := by
    show (e + (1023 : Nat) + (52 : Nat)).toNat < 2047
    omega
  generalize hn : (e + (Format.binary64.exponentBias : Nat) + (52 : Nat)).toNat = n at hbiased
  have hsmall : ¬ 2 ^ Format.binary64.exponentBits ≤ n + 1 := by
    show ¬ 2048 ≤ n + 1
    omega
  have hexponent : (BitVec.ofNat 11 n).toNat ≠ 2047 := by
    rw [BitVec.toNat_ofNat]
    omega
  delta repacked pack
  dsimp only
  rw [hn, if_neg hsmall]
  split
  · exact isFinite_packComponents s _ hexponent
  · exact isFinite_packComponents s _ (by decide)

/-- What is finite before it is packed is a number afterwards. -/
theorem isFinite_of_not_isInf {u : UnpackedFloat} (hu : u.isFinite = true)
    (h : (repacked u).isInf = false) : (repacked u).isFinite = true := by
  cases u with
  | notANumber => cases hu
  | infinity s => cases hu
  | zero s => exact isFinite_packComponents s _ (by decide)
  | finite s m e hm =>
    by_cases he : e ≤ 971
    · exact isFinite_repacked he
    · have hlarge : 2 ^ Format.binary64.exponentBits ≤
          (e + (Format.binary64.exponentBias : Nat) + (52 : Nat)).toNat + 1 := by
        show 2048 ≤ (e + (1023 : Nat) + (52 : Nat)).toNat + 1
        omega
      delta repacked pack at h
      dsimp only at h
      rw [if_pos hlarge] at h
      cases s <;> cases h

theorem isFinite_roundWithAccuracy (s : Sign) (m : Nat) (e : Int) (accuracy : Accuracy) :
    (roundWithAccuracy Format.binary64 s m e accuracy).isFinite = true := by
  rw [roundWithAccuracy]
  dsimp only
  generalize shiftToTargetExponent _ _ _ .exact = second
  by_cases hzero : second.1.mantissa = 0
  · rw [dif_pos hzero]
    rfl
  · rw [dif_neg hzero]
    rfl

/-- **The product of two finite numbers is finite or infinite.** -/
theorem isFinite_mul {x y : Float} (hx : isFinite x = true) (hy : isFinite y = true)
    (h : (x * y).isInf = false) : isFinite (x * y) = true := by
  rw [isFinite_eq_unpack] at hx hy ⊢
  refine isFinite_of_not_isInf ?_ h
  generalize x.toModel.unpack = u at *
  generalize y.toModel.unpack = v at *
  cases u with
  | notANumber => cases hx
  | infinity s => cases hx
  | zero s =>
    cases v with
    | notANumber => cases hy
    | infinity t => cases hy
    | _ => rfl
  | finite s m e hm =>
    cases v with
    | notANumber => cases hy
    | infinity t => cases hy
    | zero t => rfl
    | finite t n f hn => exact isFinite_roundWithAccuracy _ _ _ _

/-! ## Rounding keeps the exponent -/

theorem mantissa_shiftRight (em : ExtendedMantissa) (n : Nat) :
    (em >>> n).mantissa = em.mantissa / 2 ^ n := by
  induction n with
  | zero => exact (Nat.div_one _).symm
  | succ n ih =>
    have hstep : (em >>> (n + 1)).mantissa = (em >>> n).mantissa / 2 := rfl
    rw [hstep, ih, Nat.div_div_eq_div_mul, ← Nat.pow_succ]

theorem roundedMantissa_le (em : ExtendedMantissa) : em.roundedMantissa ≤ em.mantissa + 1 := by
  rw [ExtendedMantissa.roundedMantissa]
  cases em.accuracy with
  | exact => exact Nat.le_succ _
  | inexact half =>
    cases half with
    | lt => exact Nat.le_succ _
    | eq =>
      have hbit := Nat.mod_lt em.mantissa (Nat.zero_lt_two)
      exact Nat.add_le_add_left (Nat.le_of_lt_succ hbit) _
    | gt => exact Nat.le_refl _

theorem mantissa_ofMantissaAndAccuracy (m : Nat) (accuracy : Accuracy) :
    (ExtendedMantissa.ofMantissaAndAccuracy m accuracy).mantissa = m := by
  cases accuracy with
  | exact => rfl
  | inexact half => cases half <;> rfl

theorem targetExponent_eq (total : Int) :
    Format.binary64.targetExponent total = max (total - 53) (-1074) := rfl

/-- A shift raises the exponent to that of the last place, if it is below. -/
theorem exponent_shiftToTargetExponent (m : Nat) (e : Int) (accuracy : Accuracy) :
    (shiftToTargetExponent Format.binary64 m e accuracy).2 =
      max e (max (totalExponent m e - 53) (-1074)) := by
  show e + ((Format.binary64.targetExponent (totalExponent m e) - e).toNat : Int) = _
  rw [targetExponent_eq]
  omega

/-- A shift leaves no more digits than a mantissa has. -/
theorem mantissa_shiftToTargetExponent_lt (m : Nat) (e : Int) (accuracy : Accuracy) :
    (shiftToTargetExponent Format.binary64 m e accuracy).1.mantissa < 2 ^ 53 := by
  show (ExtendedMantissa.ofMantissaAndAccuracy m accuracy >>>
    (Format.binary64.targetExponent (totalExponent m e) - e).toNat).mantissa < _
  rw [mantissa_shiftRight, mantissa_ofMantissaAndAccuracy, targetExponent_eq, totalExponent,
    Nat.div_lt_iff_lt_mul (Nat.two_pow_pos _), ← Nat.pow_add]
  exact Nat.lt_of_lt_of_le Nat.lt_log2_self (Nat.pow_le_pow_right Nat.zero_lt_two (by omega))

/-- A number that is not too large stays so when it is rounded, though a mantissa that is rounded up
to the next power of two raises the exponent once more. -/
theorem isFinite_repacked_round (s : Sign) {m : Nat} {e : Int} (accuracy : Accuracy) (he : e ≤ 970)
    (htotal : totalExponent m e ≤ 1023) :
    (repacked (roundWithAccuracy Format.binary64 s m e accuracy)).isFinite = true := by
  have hexponent := exponent_shiftToTargetExponent m e accuracy
  have hmantissa := mantissa_shiftToTargetExponent_lt m e accuracy
  rw [roundWithAccuracy]
  dsimp only
  generalize shiftToTargetExponent Format.binary64 m e accuracy = first at *
  have hrounded := roundedMantissa_le first.1
  have hlog : first.1.roundedMantissa.log2 ≤ 53 := by
    by_cases hzero : first.1.roundedMantissa = 0
    · rw [hzero]
      decide
    · have hlt : first.1.roundedMantissa < 2 ^ 54 := by omega
      exact Nat.le_of_lt_succ ((Nat.log2_lt hzero).mpr hlt)
  generalize hsecond : shiftToTargetExponent _ _ _ .exact = second
  by_cases hzero : second.1.mantissa = 0
  · rw [dif_pos hzero]
    exact isFinite_packComponents s _ (by decide)
  · rw [dif_neg hzero]
    refine isFinite_repacked ?_
    rw [← hsecond, exponent_shiftToTargetExponent, totalExponent]
    omega

/-! ## Quotients -/

/-- The binary digits of a quotient. -/
theorem log2_div_le {m n : Nat} (h : m / n ≠ 0) : (m / n).log2 + n.log2 ≤ m.log2 := by
  have hn : n ≠ 0 := by
    rintro rfl
    exact h (Nat.div_zero m)
  have hm : m ≠ 0 := by
    rintro rfl
    exact h (Nat.zero_div n)
  rw [Nat.le_log2 hm, Nat.pow_add]
  exact Nat.le_trans (Nat.mul_le_mul (Nat.log2_self_le h) (Nat.log2_self_le hn))
    (Nat.div_mul_le_self m n)

theorem log2_shiftLeft {m : Nat} (hm : 0 < m) (n : Nat) : (m <<< n).log2 = m.log2 + n := by
  rw [Nat.shiftLeft_eq]
  refine (Nat.log2_eq_iff (by positivity)).mpr ⟨?_, ?_⟩
  · rw [Nat.pow_add]
    exact Nat.mul_le_mul_right _ (Nat.log2_self_le hm.ne')
  · rw [Nat.add_right_comm, Nat.pow_add]
    exact Nat.mul_lt_mul_of_pos_right Nat.lt_log2_self (Nat.two_pow_pos n)

/-- Before it is rounded, a quotient by a number that is not below two is smaller by a digit. -/
theorem totalExponent_divCore {m n : Nat} {p q : Int} (hm : 0 < m)
    (hx : totalExponent m p ≤ 1024) (hy : 2 ≤ totalExponent n q) :
    (divCore Format.binary64 m p n q).2.1 ≤ 970 ∧
      totalExponent (divCore Format.binary64 m p n q).1 (divCore Format.binary64 m p n q).2.1 ≤
        1023 := by
  simp only [divCore, targetExponent_eq]
  generalize hshift : (p - q - min (p - q)
    (max (totalExponent m p - totalExponent n q - 53) (-1074))).toNat = shift
  simp only [totalExponent] at *
  refine ⟨by omega, ?_⟩
  by_cases hzero : m <<< shift / n = 0
  · rw [hzero, show Nat.log2 0 = 0 from rfl]
    omega
  · have hlog := log2_div_le hzero
    rw [log2_shiftLeft hm] at hlog
    omega

/-- What a finite number is unpacked to. -/
theorem unpack_of_isFinite {x : Float} (h : isFinite x = true) :
    (∃ s, x.toModel.unpack = .zero s) ∨
      ∃ s m q, IsMagnitude m q ∧ ∃ hm, x.toModel.unpack = .finite s m q hm := by
  have hunpack := unpack_ofFloat x
  rw [isFinite] at h
  cases hx : Binary.ofFloat x with
  | nan => simp [hx] at h
  | infinite negative => simp [hx] at h
  | finite negative m q =>
    rw [hx] at hunpack
    obtain ⟨-, s, hzero⟩ | ⟨hm, hfinite⟩ := hunpack
    · exact .inl ⟨s, hzero⟩
    · exact .inr ⟨_, m, q, (finite_spec hx).1, hm, hfinite⟩

theorem IsMagnitude.totalExponent_le {m : Nat} {q : Int} (h : IsMagnitude m q) (hm : 0 < m) :
    totalExponent m q ≤ 1024 := by
  have hlog : m.log2 < 53 := (Nat.log2_lt hm.ne').mpr h.lt
  have hq := h.le
  rw [totalExponent]
  omega

/-- **A finite number divided by one that is not below two is finite.** -/
theorem isFinite_div {x y : Float} {s : Sign} {n : Nat} {q : Int} {hn : 0 < n}
    (hx : isFinite x = true) (hy : y.toModel.unpack = .finite s n q hn)
    (htwo : 2 ≤ totalExponent n q) : isFinite (x / y) = true := by
  rw [isFinite_eq_unpack]
  show (repacked (x.toModel.unpack.div Format.binary64 y.toModel.unpack)).isFinite = true
  rw [hy]
  obtain ⟨t, hzero⟩ | ⟨t, m, p, hmag, hm, hfinite⟩ := unpack_of_isFinite hx
  · rw [hzero]
    exact isFinite_packComponents _ _ (by decide)
  · rw [hfinite]
    obtain ⟨hexponent, htotal⟩ := totalExponent_divCore hm (hmag.totalExponent_le hm) htwo
    exact isFinite_repacked_round (t / s) _ hexponent htotal

/-! ## Signs -/

/-- The opposite of a finite number is finite. -/
theorem isFinite_neg {x : Float} (hx : isFinite x = true) : isFinite (-x) = true := by
  rw [isFinite_eq_unpack] at hx ⊢
  have hbiased : (@unpackExponent Format.binary64 x.toModel.toBits.toBitVec).toNat ≠ 2047 :=
    isFinite_unpack.mp hx
  show (repacked (unpack Format.binary64 x.toModel.toBits.toBitVec).neg).isFinite = true
  rw [repacked, ← resign_neg hbiased, pack_resign _ hbiased]
  exact isFinite_packComponents _ _ hbiased

/-! ## Nearest doubles -/

theorem roundDiv_bounds (num den : Nat) :
    num / den ≤ roundDiv num den ∧ roundDiv num den ≤ num / den + 1 := by
  rw [roundDiv]
  split
  · omega
  · split
    · omega
    · split <;> omega

section

variable {num den bound : Nat} {p : ℤ}

/-- A quotient in units of the last place is cut below a bound that it is below. -/
theorem scaled_div_lt (hden : 0 < den) (h : (num : ℚ) / den < bound * 2 ^ p) :
    num * 2 ^ (-p).toNat / (den * 2 ^ p.toNat) < bound := by
  have hunits : (num : ℚ) / den / 2 ^ p < bound := (div_lt_iff₀ (by positivity)).mpr h
  rw [← scaled_div, div_lt_iff₀ (by positivity)] at hunits
  exact (Nat.div_lt_iff_lt_mul (by positivity)).mpr (by exact_mod_cast hunits)

theorem le_scaled_div (hden : 0 < den) (h : (bound : ℚ) * 2 ^ p ≤ num / den) :
    bound ≤ num * 2 ^ (-p).toNat / (den * 2 ^ p.toNat) := by
  have hunits : (bound : ℚ) ≤ num / den / 2 ^ p := (le_div_iff₀ (by positivity)).mpr h
  rw [← scaled_div, le_div_iff₀ (by positivity)] at hunits
  exact (Nat.le_div_iff_mul_le (by positivity)).mpr (by exact_mod_cast hunits)

/-- A quotient below the largest double is below the power of two that no double reaches. -/
theorem binade_lt (h : (num : ℚ) / den < (2 ^ 53 - 1 : Nat) * 2 ^ (971 : ℤ)) {place : ℤ}
    (hlow : (2 : ℚ) ^ place ≤ num / den) : place < 1024 := by
  refine (zpow_lt_zpow_iff_right₀ (one_lt_two : (1 : ℚ) < 2)).mp (hlow.trans_lt (h.trans ?_))
  rw [show (1024 : ℤ) = 53 + 971 by norm_num, zpow_add₀ two_ne_zero]
  exact mul_lt_mul_of_pos_right (by norm_num) (by positivity)

/-- The pattern of the double nearest to a quotient is not that of the infinity, unless the quotient
is beyond the largest double. -/
theorem nearestBits_lt (hden : 0 < den)
    (h : (num : ℚ) / den < (2 ^ 53 - 1 : Nat) * 2 ^ (971 : ℤ)) :
    nearestBits num den < 2047 * 2 ^ 52 := by
  rw [nearestBits]
  split
  · decide
  rename_i hnum
  obtain ⟨place, hplace, hlow, hhigh⟩ := exists_binade (Nat.pos_of_ne_zero hnum) hden
  have htop := binade_lt h hlow
  obtain ⟨-, hround⟩ := roundDiv_bounds (num * 2 ^ (-lastPlace num den).toNat)
    (den * 2 ^ (lastPlace num den).toNat)
  simp only [leastExponent, fractionBits, Nat.pow_eq] at *
  generalize lastPlace num den = last at *
  refine lt_of_le_of_lt (min_le_left _ _) ?_
  by_cases hlast : last = 971
  · -- in the highest binade the bound is that of the largest double
    subst hlast
    have hcut := scaled_div_lt hden h
    omega
  · have hbound : (num : ℚ) / den < (2 ^ 53 : Nat) * 2 ^ last := by
      refine hhigh.trans_le ?_
      rw [Nat.cast_pow, Nat.cast_ofNat, ← zpow_natCast, ← zpow_add₀ two_ne_zero]
      refine zpow_le_zpow_right₀ one_le_two ?_
      push_cast
      omega
    have hcut := scaled_div_lt hden hbound
    omega

/-- The pattern of the double nearest to a quotient of at least two is not below that of two. -/
theorem le_nearestBits (hden : 0 < den) (h : (2 : ℚ) ≤ num / den) :
    1024 * 2 ^ 52 ≤ nearestBits num den := by
  have hnum : 0 < num := by
    refine Nat.pos_of_ne_zero fun hzero => ?_
    rw [hzero, Nat.cast_zero, zero_div] at h
    linarith
  obtain ⟨place, hplace, hlow, hhigh⟩ := exists_binade hnum hden
  have hone : 1 < place + 1 := by
    refine (zpow_lt_zpow_iff_right₀ (one_lt_two : (1 : ℚ) < 2)).mp ?_
    rw [zpow_one]
    exact h.trans_lt hhigh
  obtain ⟨hround, -⟩ := roundDiv_bounds (num * 2 ^ (-lastPlace num den).toNat)
    (den * 2 ^ (lastPlace num den).toNat)
  have hbound : ((2 ^ 52 : Nat) : ℚ) * 2 ^ lastPlace num den ≤ num / den := by
    refine le_trans (le_of_eq ?_) hlow
    rw [Nat.cast_pow, Nat.cast_ofNat, ← zpow_natCast, ← zpow_add₀ two_ne_zero, hplace,
      leastExponent]
    congr 1
    push_cast
    omega
  have hcut := le_scaled_div hden hbound
  rw [nearestBits, if_neg hnum.ne']
  simp only [leastExponent, fractionBits, Nat.pow_eq] at *
  refine le_min ?_ (by decide)
  omega

end

theorem toBits_toNat_ofBits {bits : Nat} (h : bits < 2047 * 2 ^ 52) :
    (Float.ofBits bits.toUInt64).toBits.toNat = bits := by
  have htoNat : bits.toUInt64.toNat = bits := UInt64.toNat_ofNat_of_lt' (Nat.lt_trans h (by decide))
  rw [toBits_ofBits (by omega), htoNat]

/-- A pattern below that of the infinity stands for a finite number, and one that is not below that
of two for a number that is not below two. -/
theorem ofBits_finite {bits : Nat} (h : bits < 2047 * 2 ^ 52) :
    ∃ m q, Binary.ofBits bits = .finite false m q ∧
      (1024 * 2 ^ 52 ≤ bits → 2 ^ 52 ≤ m ∧ -51 ≤ q) := by
  have hbiased : bits / 2 ^ fractionBits % 2048 ≠ 2047 := by
    rw [fractionBits]
    omega
  have hsign : decide (2 ^ 63 ≤ bits) = false := decide_eq_false (by omega)
  simp only [Binary.ofBits, Nat.pow_eq, hbiased, hsign, ite_false]
  by_cases hleast : bits / 2 ^ fractionBits % 2048 = 0
  · rw [if_pos hleast]
    refine ⟨_, _, rfl, fun hlarge => ?_⟩
    rw [fractionBits] at hleast
    omega
  · rw [if_neg hleast]
    refine ⟨_, _, rfl, fun hlarge => ⟨Nat.le_add_right _ _, ?_⟩⟩
    rw [fractionBits, leastExponent]
    omega

/-- **The double nearest to a quotient is finite**, unless the quotient is beyond the largest. -/
theorem isFinite_nearest {num den : Nat} (hden : 0 < den)
    (h : (num : ℚ) / den < (2 ^ 53 - 1 : Nat) * 2 ^ (971 : ℤ)) :
    isFinite (nearest num den) = true := by
  have hlt := nearestBits_lt hden h
  obtain ⟨m, q, hfinite, -⟩ := ofBits_finite hlt
  rw [isFinite, Binary.ofFloat, nearest, toBits_toNat_ofBits hlt, hfinite]

/-- The double nearest to a quotient of at least two is not below two. -/
theorem unpack_nearest {num den : Nat} (hden : 0 < den) (hlow : (2 : ℚ) ≤ num / den)
    (hhigh : (num : ℚ) / den < (2 ^ 53 - 1 : Nat) * 2 ^ (971 : ℤ)) :
    ∃ s m q hm, (nearest num den).toModel.unpack = .finite s m q hm ∧ 2 ≤ totalExponent m q := by
  have hlt := nearestBits_lt hden hhigh
  obtain ⟨m, q, hfinite, hlarge⟩ := ofBits_finite hlt
  obtain ⟨hm, hq⟩ := hlarge (le_nearestBits hden hlow)
  have hunpack := unpack_ofFloat (nearest num den)
  rw [Binary.ofFloat, nearest, toBits_toNat_ofBits hlt, hfinite] at hunpack
  obtain ⟨hzero, -⟩ | ⟨hpos, hunpack⟩ := hunpack
  · omega
  · refine ⟨_, m, q, hpos, hunpack, ?_⟩
    have hlog : 52 ≤ m.log2 := (Nat.le_log2 hpos.ne').mpr hm
    rw [totalExponent]
    omega

end MatrixLang.Number
