import MatrixLang.Number.Read
import MatrixLang.Number.Shortest
import MatrixLang.Proofs.NumberBits
import Mathlib.Algebra.Order.Field.Power
import Mathlib.Algebra.Order.Field.Rat
import Mathlib.Tactic.FieldSimp
import Mathlib.Tactic.Linarith
import Mathlib.Tactic.NormNum.Pow
import Mathlib.Tactic.Positivity
import Mathlib.Tactic.Ring

/-! # Decimals that read back

A decimal is read as the double nearest to it, so it reads back as `m * 2 ^ q` when it lies
within half a last place of that number, or a quarter of one on the side where the doubles are
twice as dense (`ReadsBack`).  `nearestBits_of_readsBack` proves this of the reader, and
`readsBack_shortest` that the decimals which are written lie there.
-/

namespace MatrixLang.Number

/-! ## Powers with an integer exponent -/

/-- A power with an integer exponent, as the quotient of two with natural ones. -/
theorem pow_toNat_div (b : ℚ) (p : ℤ) : b ^ p.toNat / b ^ (-p).toNat = b ^ p := by
  obtain ⟨n, rfl | rfl⟩ := p.eq_nat_or_neg
  · simp
  · simp

/-- The value of `num / den` in units of `2 ^ p`. -/
theorem scaled_div (num den : Nat) (p : ℤ) :
    ((num * 2 ^ (-p).toNat : Nat) : ℚ) / (den * 2 ^ p.toNat : Nat) = num / den / 2 ^ p := by
  rw [← pow_toNat_div 2 p]
  push_cast
  field_simp

/-! ## Rounding to a whole number -/

/-- A quotient within a half of `m` is rounded to `m`, at a distance of a half if `m` is even. -/
theorem roundDiv_eq {num den m : Nat} (hden : 0 < den)
    (hlow : 2 * m * den ≤ 2 * num + den) (hhigh : 2 * num ≤ 2 * m * den + den)
    (hodd : m % 2 = 1 → 2 * m * den < 2 * num + den ∧ 2 * num < 2 * m * den + den) :
    roundDiv num den = m := by
  have hdiv := Nat.div_add_mod num den
  have hmod := Nat.mod_lt num hden
  rw [roundDiv]
  generalize num / den = k at *
  generalize num % den = r at *
  have hk : k ≤ m := by
    by_contra hlt
    nlinarith
  have hm : m ≤ k + 1 := by
    by_contra hlt
    nlinarith
  -- `m` is the quotient rounded up or down, and the remainder tells which
  rcases Nat.lt_or_ge k m with hlt | hge
  · obtain rfl : m = k + 1 := by omega
    have hr : den ≤ 2 * r := by nlinarith
    have htie : (k + 1) % 2 = 1 → den < 2 * r := fun h => by
      have := (hodd h).1
      nlinarith
    split
    · omega
    · split
      · rfl
      · split <;> omega
  · obtain rfl : m = k := by omega
    have hr : 2 * r ≤ den := by nlinarith
    have htie : m % 2 = 1 → 2 * r < den := fun h => by
      have := (hodd h).2
      nlinarith
    split
    · rfl
    · split
      · omega
      · split <;> omega

/-- The same with the quotient as a number. -/
theorem roundDiv_of_near {num den m : Nat} (hden : 0 < den) {u : ℚ} (hu : (num : ℚ) / den = u)
    (hlow : 2 * m ≤ 2 * u + 1) (hhigh : 2 * u ≤ 2 * m + 1)
    (hodd : m % 2 = 1 → 2 * m < 2 * u + 1 ∧ 2 * u < 2 * m + 1) : roundDiv num den = m := by
  have hden' : (0 : ℚ) < den := by exact_mod_cast hden
  have hnum : (num : ℚ) = u * den := by rw [← hu, div_mul_cancel₀ _ hden'.ne']
  have scale {a b : ℚ} : a ≤ b ↔ a * den ≤ b * den := (mul_le_mul_iff_left₀ hden').symm
  have scale' {a b : ℚ} : a < b ↔ a * den < b * den := (mul_lt_mul_iff_left₀ hden').symm
  refine roundDiv_eq hden ?_ ?_ fun h => ⟨?_, ?_⟩
  · have := scale.mp hlow
    exact_mod_cast (by rw [hnum]; linarith : (2 * m * den : ℚ) ≤ 2 * num + den)
  · have := scale.mp hhigh
    exact_mod_cast (by rw [hnum]; linarith : (2 * num : ℚ) ≤ 2 * m * den + den)
  · have := scale'.mp (hodd h).1
    exact_mod_cast (by rw [hnum]; linarith : (2 * m * den : ℚ) < 2 * num + den)
  · have := scale'.mp (hodd h).2
    exact_mod_cast (by rw [hnum]; linarith : (2 * num : ℚ) < 2 * m * den + den)

/-! ## The last place -/

/-- The binary logarithm of a quotient, rounded down. -/
theorem exists_binade {num den : Nat} (hnum : 0 < num) (hden : 0 < den) :
    ∃ place : ℤ, lastPlace num den = max leastExponent (place - 52) ∧
      (2 : ℚ) ^ place ≤ num / den ∧ (num : ℚ) / den < 2 ^ (place + 1) := by
  have hnumlow : ((2 ^ num.log2 : Nat) : ℚ) ≤ num := by exact_mod_cast Nat.log2_self_le hnum.ne'
  have hnumhigh : (num : ℚ) < (2 ^ (num.log2 + 1) : Nat) := by exact_mod_cast Nat.lt_log2_self
  have hdenlow : ((2 ^ den.log2 : Nat) : ℚ) ≤ den := by exact_mod_cast Nat.log2_self_le hden.ne'
  have hdenhigh : (den : ℚ) < (2 ^ (den.log2 + 1) : Nat) := by exact_mod_cast Nat.lt_log2_self
  -- the difference of the two logarithms is right or one too large
  let guess : ℤ := (num.log2 : ℤ) - den.log2
  have hlow : (2 : ℚ) ^ (guess - 1) ≤ num / den := by
    have hsplit : (2 : ℚ) ^ (guess - 1) = (2 ^ num.log2 : Nat) / (2 ^ (den.log2 + 1) : Nat) := by
      rw [show guess - 1 = (num.log2 : ℤ) - (den.log2 + 1 : Nat) by simp [guess]; ring,
        zpow_sub₀ two_ne_zero, zpow_natCast, zpow_natCast]
      push_cast
      rfl
    rw [hsplit]
    exact div_le_div₀ (by positivity) hnumlow (by positivity) hdenhigh.le
  have hhigh : (num : ℚ) / den < 2 ^ (guess + 1) := by
    have hsplit : (2 : ℚ) ^ (guess + 1) = (2 ^ (num.log2 + 1) : Nat) / (2 ^ den.log2 : Nat) := by
      rw [show guess + 1 = ((num.log2 + 1 : Nat) : ℤ) - den.log2 by simp [guess]; ring,
        zpow_sub₀ two_ne_zero, zpow_natCast, zpow_natCast]
      push_cast
      rfl
    rw [hsplit]
    exact div_lt_div₀ hnumhigh hdenlow (by positivity) (by positivity)
  have hreached : den * 2 ^ guess.toNat ≤ num * 2 ^ (-guess).toNat ↔
      (2 : ℚ) ^ guess ≤ num / den := by
    rw [← one_le_div (by positivity : (0 : ℚ) < 2 ^ guess), ← scaled_div,
      one_le_div (by positivity), Nat.cast_le]
  by_cases h : den * 2 ^ guess.toNat ≤ num * 2 ^ (-guess).toNat
  · refine ⟨guess, ?_, hreached.mp h, hhigh⟩
    simp only [lastPlace, Nat.pow_eq]
    rw [if_pos (decide_eq_true h)]
  · refine ⟨guess - 1, ?_, hlow, ?_⟩
    · simp only [lastPlace, Nat.pow_eq]
      rw [if_neg (mt of_decide_eq_true h)]
      congr 1
      ring
    · rw [sub_add_cancel]
      exact not_le.mp fun hle => h (hreached.mpr hle)

/-- The last place of a quotient below `2 ^ 53` last places, that has 53 bits before the point
or no smaller last place to go to. -/
theorem lastPlace_eq {num den : Nat} (hnum : 0 < num) (hden : 0 < den) {q : ℤ}
    (hq : leastExponent ≤ q) (hlow : (2 : ℚ) ^ (q + 52) ≤ num / den ∨ q = leastExponent)
    (hhigh : (num : ℚ) / den < 2 ^ (q + 53)) : lastPlace num den = q := by
  obtain ⟨place, hlast, hle, hlt⟩ := exists_binade hnum hden
  have hone : (1 : ℚ) < 2 := by norm_num
  have hplace : place < q + 53 := (zpow_lt_zpow_iff_right₀ hone).mp (hle.trans_lt hhigh)
  rw [hlast]
  rcases hlow with hlow | rfl
  · have hplace' : q + 52 < place + 1 := (zpow_lt_zpow_iff_right₀ hone).mp (hlow.trans_lt hlt)
    omega
  · omega

/-! ## Reading back -/

/-- How far below `m * 2 ^ q` a decimal may lie that still reads back as it, in quarters of a
last place. -/
def slack (m : Nat) (q : ℤ) : Nat :=
  if isNarrow m q then 1 else 2

/-- `w` quarters of a last place read back as `m` last places: the ends belong to the interval
when `m` is even. -/
structure InInterval (m : Nat) (q : ℤ) (w : ℚ) : Prop where
  low : 4 * m ≤ w + slack m q
  high : w ≤ 4 * m + 2
  odd : m % 2 = 1 → 4 * m < w + slack m q ∧ w < 4 * m + 2

/-- The number `v` reads back as `m * 2 ^ q`. -/
def ReadsBack (m : Nat) (q : ℤ) (v : ℚ) : Prop :=
  InInterval m q (v / 2 ^ (q - 2))

theorem slack_pos (m : Nat) (q : ℤ) : 0 < slack m q := by
  unfold slack
  split <;> decide

theorem slack_le_two (m : Nat) (q : ℤ) : slack m q ≤ 2 := by
  unfold slack
  split <;> decide

/-- Quarters of a last place in last places. -/
theorem div_quarter (v : ℚ) (q : ℤ) : v / 2 ^ (q - 2) = 4 * (v / 2 ^ q) := by
  rw [zpow_sub₀ two_ne_zero]
  field_simp
  norm_num

/-- A number reads back as itself. -/
theorem readsBack_self (m : Nat) (q : ℤ) : ReadsBack m q (m * 2 ^ q) := by
  have hself : (m : ℚ) * 2 ^ q / 2 ^ (q - 2) = 4 * m := by
    rw [div_quarter, mul_div_cancel_right₀ _ (by positivity)]
  have hpos : (0 : ℚ) < slack m q := by exact_mod_cast slack_pos m q
  rw [ReadsBack, hself]
  exact ⟨by linarith, by linarith, fun _ => ⟨by linarith, by linarith⟩⟩

/-- The pattern that comes of a last place and a mantissa. -/
theorem nearestBits_eq {num den m : Nat} {q : ℤ} (hnum : 0 < num) (hden : 0 < den)
    (hplace : lastPlace num den = q) {u : ℚ} (hu : (num : ℚ) / den / 2 ^ q = u)
    (hlow : 2 * m ≤ 2 * u + 1) (hhigh : 2 * u ≤ 2 * m + 1)
    (hodd : m % 2 = 1 → 2 * m < 2 * u + 1 ∧ 2 * u < 2 * m + 1)
    (hlt : pattern m q < 2047 * 2 ^ 52) : nearestBits num den = pattern m q := by
  have hround := roundDiv_of_near (by positivity) ((scaled_div num den q).trans hu) hlow hhigh hodd
  rw [nearestBits, if_neg hnum.ne']
  simp only [Nat.pow_eq, hplace, hround]
  exact min_eq_left hlt.le

/-- A number with `u` last places of `2 ^ q`, in its binade or in the lowest one. -/
theorem nearestBits_of_binade {num den m : Nat} {q : ℤ} {u : ℚ} (hnum : 0 < num) (hden : 0 < den)
    (hmag : IsMagnitude m q) (hu : (num : ℚ) / den = u * 2 ^ q)
    (hbinade : (2 : ℚ) ^ 52 ≤ u ∨ q = leastExponent)
    (hlow : 2 * m ≤ 2 * u + 1) (hhigh : 2 * u ≤ 2 * m + 1)
    (hodd : m % 2 = 1 → 2 * m < 2 * u + 1 ∧ 2 * u < 2 * m + 1) :
    nearestBits num den = pattern m q := by
  have hmlt : (m : ℚ) + 1 ≤ 2 ^ 53 := by exact_mod_cast hmag.lt
  have htwo : (0 : ℚ) < 2 ^ q := by positivity
  have hplace : lastPlace num den = q := by
    refine lastPlace_eq hnum hden hmag.least_le ?_ ?_
    · refine hbinade.imp_left fun h => ?_
      rw [hu, zpow_add₀ two_ne_zero, mul_comm]
      exact mul_le_mul_of_nonneg_right (by exact_mod_cast h) htwo.le
    · rw [hu, zpow_add₀ two_ne_zero, mul_comm]
      refine mul_lt_mul_of_pos_left ?_ htwo
      norm_num at hmlt ⊢
      linarith
  refine nearestBits_eq hnum hden hplace ?_ hlow hhigh hodd hmag.pattern_lt
  rw [hu, mul_div_cancel_right₀ _ htwo.ne']

/-- A number just below the power of two `2 ^ 52 * 2 ^ q`, where the last place is half as
large. -/
theorem nearestBits_below_binade {num den : Nat} {q : ℤ} {u : ℚ} (hnum : 0 < num) (hden : 0 < den)
    (hmag : IsMagnitude (2 ^ 52) q) (hq : leastExponent < q) (hu : (num : ℚ) / den = u * 2 ^ q)
    (hlow : 4 * 2 ^ 52 ≤ 4 * u + 1) (hhigh : u < 2 ^ 52) :
    nearestBits num den = pattern (2 ^ 52) q := by
  have htwo : (0 : ℚ) < 2 ^ q := by positivity
  have hplace : lastPlace num den = q - 1 := by
    refine lastPlace_eq hnum hden (by omega) (.inl ?_) ?_
    · rw [hu, show q - 1 + 52 = q + 51 by ring, zpow_add₀ two_ne_zero, mul_comm]
      refine mul_le_mul_of_nonneg_right ?_ htwo.le
      norm_num at hlow ⊢
      linarith
    · rw [hu, show q - 1 + 53 = q + 52 by ring, zpow_add₀ two_ne_zero, mul_comm]
      exact mul_lt_mul_of_pos_left (by exact_mod_cast hhigh) htwo
  have hhalf : (num : ℚ) / den / 2 ^ (q - 1) = 2 * u := by
    rw [hu, zpow_sub₀ two_ne_zero]
    field_simp
  have hpattern : pattern (2 ^ 53) (q - 1) = pattern (2 ^ 52) q := by
    simp only [pattern, fractionBits]
    omega
  rw [← hpattern]
  refine nearestBits_eq hnum hden hplace hhalf ?_ ?_ (fun h => absurd h (by decide))
    (hpattern.trans_lt hmag.pattern_lt)
  · push_cast
    linarith
  · push_cast
    linarith

/-- **What reads back is read back**: the double nearest to a number that lies in the interval
of `m * 2 ^ q` is `m * 2 ^ q`. -/
theorem nearestBits_of_readsBack {num den m : Nat} {q : ℤ} (hden : 0 < den)
    (hm : 0 < m) (hmag : IsMagnitude m q) (h : ReadsBack m q (num / den)) :
    nearestBits num den = pattern m q := by
  obtain ⟨u, hu⟩ : ∃ u : ℚ, (num : ℚ) / den / 2 ^ q = u := ⟨_, rfl⟩
  have hv : (num : ℚ) / den = u * 2 ^ q := by rw [← hu, div_mul_cancel₀ _ (by positivity)]
  obtain ⟨hlow, hhigh, hodd⟩ := h
  rw [div_quarter, hu] at hlow hhigh hodd
  have hslack : (slack m q : ℚ) ≤ 2 := by exact_mod_cast slack_le_two m q
  have hm' : (1 : ℚ) ≤ m := by exact_mod_cast hm
  have hnum : 0 < num := by
    by_contra hzero
    obtain rfl : num = 0 := by omega
    simp only [Nat.cast_zero, zero_div] at hu
    linarith
  by_cases hbinade : (2 : ℚ) ^ 52 ≤ u ∨ q = leastExponent
  · exact nearestBits_of_binade hnum hden hmag hv hbinade (by linarith) (by linarith)
      fun h => ⟨by linarith [(hodd h).1], by linarith [(hodd h).2]⟩
  · push Not at hbinade
    obtain ⟨hbelow, hq⟩ := hbinade
    have hleast := hmag.least_le
    obtain rfl : m = 2 ^ 52 := by
      have hnormal := hmag.normal.resolve_right hq
      have hle : (m : ℚ) < 2 ^ 52 + 1 := by linarith
      have : m < 2 ^ 52 + 1 := by exact_mod_cast hle
      omega
    have habove : leastExponent < q := by omega
    have hnarrow : slack (2 ^ 52) q = 1 := by simp [slack, isNarrow, fractionBits, habove]
    rw [hnarrow] at hlow
    exact nearestBits_below_binade hnum hden hmag habove hv (by push_cast at hlow; linarith) hbelow

/-! ## The shortest decimal -/

/-- The number that a decimal stands for. -/
def Decimal.value (d : Decimal) : ℚ :=
  d.digits * 10 ^ d.exponent

theorem nearer_eq (tie : Tie) (below rest step : Nat) :
    nearer tie below rest step = below ∨ nearer tie below rest step = below + 1 := by
  unfold nearer
  repeat' split
  all_goals simp

/-- The test for the interval of `m * 2 ^ q`, in whole numbers: a quarter of a last place is
`unit`, and `x` is what is tested. -/
def inInterval (m : Nat) (q : ℤ) (unit x : Nat) : Bool :=
  let low := 4 * m - if isNarrow m q then 1 else 2
  if m % 2 = 0 then low * unit ≤ x && x ≤ (4 * m + 2) * unit
  else low * unit < x && x < (4 * m + 2) * unit

theorem inInterval_spec {m : Nat} {q : ℤ} {unit x : Nat} (hm : 0 < m) (hunit : 0 < unit)
    (h : inInterval m q unit x = true) : InInterval m q (x / unit) := by
  have hunit' : (0 : ℚ) < unit := by exact_mod_cast hunit
  have hslack : ((4 * m - slack m q : Nat) : ℚ) = 4 * m - slack m q := by
    have := slack_le_two m q
    rw [Nat.cast_sub (by omega)]
    push_cast
    rfl
  have hlow : (4 * m - slack m q) * unit ≤ x → 4 * m ≤ (x : ℚ) / unit + slack m q := by
    intro hle
    have hle' : ((4 * m - slack m q : Nat) : ℚ) * unit ≤ x := by exact_mod_cast hle
    linarith [(le_div_iff₀ hunit').mpr hle']
  have hhigh : x ≤ (4 * m + 2) * unit → (x : ℚ) / unit ≤ 4 * m + 2 := by
    intro hle
    exact (div_le_iff₀ hunit').mpr (by exact_mod_cast hle)
  by_cases heven : m % 2 = 0
  · simp only [inInterval, heven, ite_true, Bool.and_eq_true, decide_eq_true_eq] at h
    exact ⟨hlow h.1, hhigh h.2, fun hodd => by omega⟩
  · simp only [inInterval, heven, ite_false, Bool.and_eq_true, decide_eq_true_eq] at h
    refine ⟨hlow h.1.le, hhigh h.2.le, fun _ => ⟨?_, ?_⟩⟩
    · have hlt : ((4 * m - slack m q : Nat) : ℚ) * unit < x := by exact_mod_cast h.1
      linarith [(lt_div_iff₀ hunit').mpr hlt]
    · exact (div_lt_iff₀ hunit').mpr (by exact_mod_cast h.2)

/-- The grid point that is taken, by which of the two neighbours read back. -/
def chosen (tie : Tie) (below rest step : Nat) : Bool → Bool → Option Nat
  | false, false => none
  | true, false => some below
  | false, true => some (below + 1)
  | true, true => some (nearer tie below rest step)

theorem readsBack_of_chosen {tie : Tie} {below rest step c : Nat} (readsBack : Nat → Bool)
    (h : chosen tie below rest step (readsBack below) (readsBack (below + 1)) = some c) :
    readsBack c = true := by
  cases hbelow : readsBack below with
  | false =>
    cases habove : readsBack (below + 1) with
    | false => rw [hbelow, habove] at h; cases h
    | true => rw [hbelow, habove] at h; exact Option.some.inj h ▸ habove
  | true =>
    cases habove : readsBack (below + 1) with
    | false => rw [hbelow, habove] at h; exact Option.some.inj h ▸ hbelow
    | true =>
      rw [hbelow, habove] at h
      rcases nearer_eq tie below rest step with hn | hn
      · rw [← Option.some.inj h, hn, hbelow]
      · rw [← Option.some.inj h, hn, habove]

/-- Grid points that are found have passed the test. -/
theorem inInterval_gridPoint? {tie : Tie} {m : Nat} {q e : ℤ} {c : Nat}
    (h : gridPoint? tie m q e = some c) :
    inInterval m q (2 ^ (q - 2).toNat * 10 ^ (-e).toNat)
      (c * (2 ^ (2 - q).toNat * 10 ^ e.toNat)) = true := by
  let unit := 2 ^ (q - 2).toNat * 10 ^ (-e).toNat
  let step := 2 ^ (2 - q).toNat * 10 ^ e.toNat
  have hchosen : chosen tie (4 * m * unit / step) (4 * m * unit % step) step
      (inInterval m q unit (4 * m * unit / step * step))
      (inInterval m q unit ((4 * m * unit / step + 1) * step)) = some c := h
  exact readsBack_of_chosen (fun c => inInterval m q unit (c * step)) hchosen

theorem readsBack_gridPoint? {tie : Tie} {m : Nat} {q e : ℤ} {c : Nat} (hm : 0 < m)
    (h : gridPoint? tie m q e = some c) : ReadsBack m q (c * 10 ^ e) := by
  have hquarters : (c : ℚ) * 10 ^ e / 2 ^ (q - 2) =
      (c * (2 ^ (2 - q).toNat * 10 ^ e.toNat) : Nat) /
        (2 ^ (q - 2).toNat * 10 ^ (-e).toNat : Nat) := by
    rw [← pow_toNat_div 10 e, ← pow_toNat_div 2 (q - 2), neg_sub]
    push_cast
    field_simp
  rw [ReadsBack, hquarters]
  exact inInterval_spec hm (by positivity) (inInterval_gridPoint? h)

/-- The search ends with a decimal that reads back. -/
theorem readsBack_search (tie : Tie) {m : Nat} (q : ℤ) (hm : 0 < m) (count : Nat) (e : ℤ) :
    ReadsBack m q (search tie m q count e).value := by
  induction count generalizing e with
  | zero =>
    have hexact : (search tie m q 0 e).value = m * 2 ^ q := by
      obtain ⟨n, rfl | rfl⟩ := q.eq_nat_or_neg
      · simp [search, Decimal.value]
      · have hten : (10 : ℚ) = 2 * 5 := by norm_num
        simp only [search, Nat.pow_eq, Decimal.value, neg_neg, Int.toNat_natCast,
          Int.toNat_neg_natCast, min_eq_left (by simp : -(n : ℤ) ≤ 0), hten, zpow_neg,
          zpow_natCast, mul_pow]
        push_cast
        field_simp
    rw [hexact]
    exact readsBack_self m q
  | succ count ih =>
    rw [search]
    split
    · rename_i c hc
      exact readsBack_gridPoint? hm hc
    · exact ih (e - 1)

/-- **The decimal that is written reads back.** -/
theorem readsBack_shortest (tie : Tie) {m : Nat} (q : ℤ) (hm : 0 < m) :
    ReadsBack m q (shortest tie m q).value :=
  readsBack_search tie q hm _ _

/-! ## Reading a decimal -/

/-- What reads back is no smaller than half of the smallest double. -/
theorem le_of_readsBack {m : Nat} {q : ℤ} {v : ℚ} (hm : 0 < m) (hq : leastExponent ≤ q)
    (h : ReadsBack m q v) : (2 : ℚ) ^ (-1075 : ℤ) ≤ v := by
  have hslack : (slack m q : ℚ) ≤ 2 := by exact_mod_cast slack_le_two m q
  have hm' : (1 : ℚ) ≤ m := by exact_mod_cast hm
  have hquarters : 2 ≤ v / 2 ^ (q - 2) := by linarith [h.low]
  have hpos : (0 : ℚ) < 2 ^ (q - 2) := by positivity
  calc (2 : ℚ) ^ (-1075 : ℤ) ≤ 2 ^ (q - 1) := by
        refine zpow_le_zpow_right₀ one_le_two ?_
        simp only [leastExponent] at hq
        omega
    _ = 2 * 2 ^ (q - 2) := by
        rw [← zpow_one_add₀ two_ne_zero]
        congr 1
        ring
    _ ≤ v := (le_div_iff₀ hpos).mp hquarters

/-- What reads back is no larger than the power of two above all doubles. -/
theorem readsBack_le {m : Nat} {q : ℤ} {v : ℚ} (hmag : IsMagnitude m q) (h : ReadsBack m q v) :
    v ≤ 2 ^ (1024 : ℤ) := by
  have hmlt : (m : ℚ) + 1 ≤ 2 ^ 53 := by exact_mod_cast hmag.lt
  have hquarters : v / 2 ^ (q - 2) ≤ 2 ^ 55 := by
    norm_num at hmlt ⊢
    linarith [h.high]
  have hpos : (0 : ℚ) < 2 ^ (q - 2) := by positivity
  calc v ≤ 2 ^ 55 * 2 ^ (q - 2) := (div_le_iff₀ hpos).mp hquarters
    _ = 2 ^ (q + 53) := by
        rw [show (2 : ℚ) ^ 55 = 2 ^ (55 : ℤ) by norm_cast, ← zpow_add₀ two_ne_zero]
        congr 1
        ring
    _ ≤ 2 ^ (1024 : ℤ) := by
        have := hmag.le
        exact zpow_le_zpow_right₀ one_le_two (by omega)

/-- A power of ten beyond all doubles, and beyond their reciprocals. -/
theorem two_pow_lt_ten_pow : (2 : ℚ) ^ 1075 < 10 ^ 400 :=
  calc (2 : ℚ) ^ 1075 ≤ 2 ^ (13 * 100) := pow_le_pow_right₀ one_le_two (by norm_num)
    _ = (2 ^ 13) ^ 100 := pow_mul 2 13 100
    _ < (10 ^ 4) ^ 100 := pow_lt_pow_left₀ (by norm_num) (by norm_num) (by norm_num)
    _ = 10 ^ (4 * 100) := (pow_mul 10 4 100).symm

/-- A number lies between two powers of ten that its digits tell. -/
theorem ten_pow_bounds {n : Nat} (hn : 0 < n) :
    10 ^ ((Nat.toDigits 10 n).length - 1) ≤ n ∧ n < 10 ^ (Nat.toDigits 10 n).length := by
  have hcount : 0 < (Nat.toDigits 10 n).length := Nat.length_toDigits_pos
  refine ⟨?_, (Nat.length_toDigits_le_iff (by decide) hcount).mp (Nat.le_refl _)⟩
  rcases Nat.eq_or_lt_of_le hcount with hone | hlong
  · rwa [← hone]
  · refine Nat.le_of_not_lt fun hlt => ?_
    have hle := (Nat.length_toDigits_le_iff (by decide) (by omega)).mpr hlt
    omega

/-- A decimal that reads back is not cut off as too small or too large. -/
theorem exponent_bounds {significand : Nat} {exponent : ℤ} (hsignificand : 0 < significand)
    (hlow : (2 : ℚ) ^ (-1075 : ℤ) ≤ significand * 10 ^ exponent)
    (hhigh : (significand : ℚ) * 10 ^ exponent ≤ 2 ^ (1024 : ℤ)) :
    ¬ ((Nat.toDigits 10 significand).length : ℤ) + exponent < -400 ∧
      ¬ 400 < ((Nat.toDigits 10 significand).length : ℤ) + exponent := by
  obtain ⟨habove, hbelow⟩ := ten_pow_bounds hsignificand
  have hcount : 0 < (Nat.toDigits 10 significand).length := Nat.length_toDigits_pos
  generalize (Nat.toDigits 10 significand).length = count at *
  have hten : (0 : ℚ) < 10 ^ exponent := by positivity
  constructor
  · intro hlt
    have hv : (significand : ℚ) * 10 ^ exponent < 10 ^ (-400 : ℤ) :=
      calc (significand : ℚ) * 10 ^ exponent < 10 ^ count * 10 ^ exponent :=
            mul_lt_mul_of_pos_right (by exact_mod_cast hbelow) hten
        _ = 10 ^ ((count : ℤ) + exponent) := by
            rw [zpow_add₀ (by norm_num), zpow_natCast]
        _ ≤ 10 ^ (-400 : ℤ) := zpow_le_zpow_right₀ (by norm_num) hlt.le
    have hends : (10 : ℚ) ^ (-400 : ℤ) ≤ 2 ^ (-1075 : ℤ) := by
      rw [zpow_neg, zpow_neg]
      exact inv_anti₀ (by positivity) (by exact_mod_cast two_pow_lt_ten_pow.le)
    exact absurd (hlow.trans_lt hv) (not_lt.mpr hends)
  · intro hlt
    have hv : (10 : ℚ) ^ (400 : ℤ) ≤ significand * 10 ^ exponent :=
      calc (10 : ℚ) ^ (400 : ℤ) ≤ 10 ^ (((count - 1 : Nat) : ℤ) + exponent) :=
            zpow_le_zpow_right₀ (by norm_num) (by omega)
        _ = 10 ^ (count - 1) * 10 ^ exponent := by
            rw [zpow_add₀ (by norm_num), zpow_natCast]
        _ ≤ significand * 10 ^ exponent :=
            mul_le_mul_of_nonneg_right (by exact_mod_cast habove) hten.le
    have hends : (2 : ℚ) ^ (1024 : ℤ) < 10 ^ (400 : ℤ) :=
      calc (2 : ℚ) ^ (1024 : ℤ) ≤ 2 ^ (1075 : ℤ) := zpow_le_zpow_right₀ one_le_two (by norm_num)
        _ < 10 ^ (400 : ℤ) := by exact_mod_cast two_pow_lt_ten_pow
    exact absurd (hv.trans hhigh) (not_le.mpr hends)

/-- **A decimal that reads back is read as the double.** -/
theorem ofDecimal_of_readsBack {m : Nat} {q : ℤ} (hm : 0 < m) (hmag : IsMagnitude m q)
    {significand : Nat} {exponent : ℤ} (h : ReadsBack m q (significand * 10 ^ exponent)) :
    ofDecimal significand exponent = ofMagnitude m q := by
  have hlow := le_of_readsBack hm hmag.least_le h
  have hsignificand : 0 < significand := by
    refine Nat.pos_of_ne_zero fun hzero => ?_
    have hpos : (0 : ℚ) < 2 ^ (-1075 : ℤ) := by positivity
    simp only [hzero, Nat.cast_zero, zero_mul] at hlow
    linarith
  obtain ⟨hsmall, hlarge⟩ := exponent_bounds hsignificand hlow (readsBack_le hmag h)
  have hvalue : ((significand * 10 ^ exponent.toNat : Nat) : ℚ) / (10 ^ (-exponent).toNat : Nat) =
      significand * 10 ^ exponent := by
    rw [← pow_toNat_div 10 exponent]
    push_cast
    field_simp
  have hbits := nearestBits_of_readsBack (by positivity) hm hmag (hvalue ▸ h)
  rw [ofDecimal]
  simp only [hsignificand.ne', hsmall, hlarge, or_self, ite_false, Nat.pow_eq, nearest, hbits,
    ofMagnitude]

end MatrixLang.Number
