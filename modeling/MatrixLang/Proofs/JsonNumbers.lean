import MatrixLang.Json.Number
import MatrixLang.Proofs.JsonText
import MatrixLang.Proofs.NumberOperations

/-! # Numbers in JSON

What is written for a number is a literal (`isLiteral_ofFloat?`), and what a literal is read as is
finite (`isFinite_toFloat?`): one that is too large is refused, and no step on the way to a smaller
one leaves the finite numbers.
-/

namespace MatrixLang

open Number (AllDigits isFinite digitsOf)

/-! ## Writing -/

/-- The digits of a number other than zero start with none. -/
theorem Number.head_digitsOf {n : Nat} (h : 0 < n) : (digitsOf n).head? ≠ some '0' := by
  induction n using Nat.strongRecOn with
  | ind n ih =>
    rw [digitsOf, Nat.toDigits_eq_if (by decide)]
    split
    · rename_i hlt
      have hdigit : ∀ d < 10, 0 < d → [d.digitChar].head? ≠ some '0' := by decide
      exact hdigit n hlt h
    · rename_i hge
      have htens : (digitsOf (n / 10)).head? ≠ some '0' := ih (n / 10) (by omega) (by omega)
      have hne : digitsOf (n / 10) ≠ [] := Nat.toDigits_ne_nil
      rw [digitsOf] at htens hne
      rwa [List.head?_append_of_ne_nil _ hne]

namespace JsonNumber

variable {n : JsonNumber} {x : Float}

theorem isLiteral_ofNat (n : Nat) : (ofNat n).IsLiteral where
  whole := Number.allDigits_digitsOf n
  fraction := List.forall_mem_nil _
  ne_nil := Nat.toDigits_ne_nil
  leading h := by
    rcases Nat.eq_zero_or_pos n with rfl | hpos
    · rfl
    · exact absurd h (Number.head_digitsOf hpos)

/-- A size is read back. -/
theorem toSize?_ofNat {n : Nat} (h : n < 2 ^ 64) : (ofNat n).toSize? = some n := by
  have hvalue : Number.digitsValue (ofNat n).whole = n := Number.digitsValue_digitsOf n
  delta toSize?
  rw [hvalue]
  exact if_pos (by simpa [ofNat] using h)

/-- Digits that start with no zero make a literal. -/
theorem isLiteral_mk {negative : Bool} {whole fraction : List Char} {exponent : Option Int}
    (hwhole : AllDigits whole) (hfraction : AllDigits fraction) (hne : whole ≠ [])
    (hhead : whole.head? ≠ some '0') : IsLiteral ⟨negative, whole, fraction, exponent⟩ :=
  ⟨hwhole, hfraction, hne, fun h => absurd h hhead⟩

theorem isLiteral_zero {negative : Bool} {fraction : List Char} (hfraction : AllDigits fraction) :
    IsLiteral ⟨negative, ['0'], fraction, none⟩ :=
  ⟨Number.allDigits_zeros 1, hfraction, List.cons_ne_nil _ _, fun _ => rfl⟩

theorem isLiteral_ofDecimal (negative : Bool) {d : Number.Decimal} (h : 0 < d.digits) :
    (ofDecimal negative d).IsLiteral := by
  have hne : digitsOf d.digits ≠ [] := Nat.toDigits_ne_nil
  have hdigits := Number.allDigits_digitsOf d.digits
  have hhead := Number.head_digitsOf h
  rw [ofDecimal]
  generalize digitsOf d.digits = digits at *
  have hcut : ∀ k ≠ 0, ∀ exponent,
      IsLiteral ⟨negative, digits.take k, digits.drop k, exponent⟩ := by
    intro k hk exponent
    refine isLiteral_mk (fun c hc => hdigits c (List.mem_of_mem_take hc))
      (fun c hc => hdigits c (List.mem_of_mem_drop hc)) ?_ ?_
    · simp [hk, hne]
    · rwa [List.head?_take, if_neg hk]
  dsimp only
  split
  · split
    · -- zeros fill up to the point
      refine isLiteral_mk (hdigits.append (Number.allDigits_zeros _))
        (Number.allDigits_zeros 1) ?_ ?_
      · simp [hne]
      · rwa [List.head?_append_of_ne_nil _ hne]
    · split
      · exact hcut _ (by omega) none
      · exact isLiteral_zero ((Number.allDigits_zeros _).append hdigits)
  · exact hcut 1 one_ne_zero _

/-- The decimal that is written has a digit other than zero. -/
theorem digits_shortest_pos {m : Nat} {q : Int} (hm : 0 < m) (hq : Number.leastExponent ≤ q) :
    0 < (Number.shortest .even m q).digits := by
  have hvalue : 0 < (Number.shortest .even m q).value :=
    lt_of_lt_of_le (by positivity)
      (Number.le_of_readsBack hm hq (Number.readsBack_shortest .even q hm))
  refine Nat.pos_of_ne_zero fun hzero => ?_
  rw [Number.Decimal.value, hzero] at hvalue
  simp at hvalue

theorem isLiteral_ofFloat? (h : ofFloat? x = some n) : n.IsLiteral := by
  rw [ofFloat?] at h
  split at h
  · rename_i negative m q hx
    cases h
    split
    · exact isLiteral_zero (Number.allDigits_zeros 1)
    · rename_i hm
      have hleast := (Number.finite_spec hx).1.least_le
      exact isLiteral_ofDecimal negative (digits_shortest_pos (Nat.pos_of_ne_zero hm) hleast)
  · cases h

/-! ## Reading -/

theorem takeWhole_value_lt {s : Significand} (h : s.value < 2 ^ 64) (ds : List Char) :
    (takeWhole s ds).value < 2 ^ 64 := by
  induction ds generalizing s with
  | nil => exact h
  | cons d ds ih =>
    rw [takeWhole]
    split
    · rename_i hfits
      exact ih (of_decide_eq_true hfits)
    · exact h

theorem takeFraction_value_lt {s : Significand} (h : s.value < 2 ^ 64) (ds : List Char) :
    (takeFraction s ds).value < 2 ^ 64 := by
  induction ds generalizing s with
  | nil => exact h
  | cons d ds ih =>
    rw [takeFraction]
    split
    · rename_i hfits
      exact ih (of_decide_eq_true hfits)
    · exact h

/-- No power of ten up to this one is beyond the largest double. -/
theorem ten_pow_lt {n : Nat} (h : n ≤ 308) :
    ((10 ^ n : Nat) : ℚ) / (1 : Nat) < (2 ^ 53 - 1 : Nat) * 2 ^ (971 : ℤ) :=
  calc ((10 ^ n : Nat) : ℚ) / (1 : Nat) = 10 ^ n := by norm_num
    _ ≤ 10 ^ (154 * 2) := pow_le_pow_right₀ (by norm_num) h
    _ = (10 ^ 154) ^ 2 := pow_mul 10 154 2
    _ < (2 ^ 53 - 1 : Nat) * ((2 ^ 243) ^ 3 * 2 ^ 242) := by norm_num
    _ = (2 ^ 53 - 1 : Nat) * 2 ^ (243 * 3 + 242) := by rw [pow_add, pow_mul]
    _ = (2 ^ 53 - 1 : Nat) * 2 ^ (971 : ℤ) := by rw [zpow_ofNat]

theorem powerOfTen_eq {n : Nat} (h : n ≤ 308) : powerOfTen n = Number.nearest (10 ^ n) 1 := by
  have hlength : (Nat.toDigits 10 1).length = 1 := by decide
  rw [powerOfTen, Number.ofDecimal, hlength, if_neg (by omega), if_neg (by omega)]
  simp

theorem isFinite_powerOfTen {n : Nat} (h : n ≤ 308) : isFinite (powerOfTen n) = true := by
  rw [powerOfTen_eq h]
  exact Number.isFinite_nearest one_pos (ten_pow_lt h)

theorem isFinite_ofNat {n : Nat} (h : n < 2 ^ 64) : isFinite (Number.ofNat n) = true := by
  refine Number.isFinite_nearest one_pos ?_
  have hlt : n < 10 ^ 20 := by omega
  refine lt_trans ?_ (ten_pow_lt (show 20 ≤ 308 by decide))
  rw [Nat.cast_one, div_one, div_one]
  exact_mod_cast hlt

/-- Dividing by a power of ten keeps a number finite. -/
theorem isFinite_div_powerOfTen {k : Nat} (hx : isFinite x = true) (hpos : 0 < k) (hk : k ≤ 308) :
    isFinite (x / powerOfTen k) = true := by
  have htwo : (2 : ℚ) ≤ (10 ^ k : Nat) / (1 : Nat) := by
    have hten : 10 ^ 1 ≤ 10 ^ k := Nat.pow_le_pow_right (by decide) hpos
    have htwo : 2 ≤ 10 ^ k := by omega
    rw [Nat.cast_one, div_one]
    exact_mod_cast htwo
  obtain ⟨s, m, q, hm, hunpack, htotal⟩ := Number.unpack_nearest one_pos htwo (ten_pow_lt hk)
  rw [← powerOfTen_eq hk] at hunpack
  exact Number.isFinite_div hx hunpack htotal

/-- **Scaling keeps a number finite**, or refuses it. -/
theorem isFinite_scale? {e : Int} {y : Float} (hx : isFinite x = true) (h : scale? x e = some y) :
    isFinite y = true := by
  fun_induction scale? x e with
  | case1 x e hlow hzero =>
    cases h
    exact hx
  | case2 x e hlow hzero ih => exact ih (isFinite_div_powerOfTen hx (by decide) (by decide)) h
  | case3 x e hlow hneg =>
    cases h
    exact isFinite_div_powerOfTen hx (by omega) (by omega)
  | case4 x e hlow hneg hhigh z hinf => cases h
  | case5 x e hlow hneg hhigh z hinf =>
    obtain rfl : z = y := Option.some.inj h
    exact Number.isFinite_mul hx (isFinite_powerOfTen (by omega))
      (Bool.eq_false_of_not_eq_true hinf)
  | case6 x e hlow hneg hhigh hzero =>
    cases h
    exact hx
  | case7 => cases h

/-- **What a literal is read as is finite.** -/
theorem isFinite_toFloat? (h : n.toFloat? = some x) : isFinite x = true := by
  rw [toFloat?] at h
  obtain ⟨y, hscale, rfl⟩ := Option.map_eq_some_iff.mp h
  have hwhole : (takeWhole ⟨0, 0⟩ n.whole).value < 2 ^ 64 := takeWhole_value_lt (by decide) _
  have hvalue := takeFraction_value_lt hwhole n.fraction
  have hy := isFinite_scale? (isFinite_ofNat hvalue) hscale
  split
  · exact Number.isFinite_neg hy
  · exact hy

end JsonNumber

end MatrixLang
