import Scriptlet.Decimal.Shortest
import Scriptlet.Proofs.Rounding

/-!
# Shortest digits lie in their interval

The digits that are written for a double are found by a search through decimal grids of growing density, and the
search gives up at some grid.  It never has to.  A grid finer than half the unit of the double has a point
between the double and the upper end of its interval, and since the first grid is not coarser than the leading
digit of the double, the seventeenth after it is that fine.  So what the search returns always rounds to the
double, and dropping zeros at its end changes nothing of that.
-/

namespace Scriptlet.Decimal

/-! ## Decimals -/

/-- The number that a decimal denotes. -/
def Digits.value (d : Digits) : ℚ :=
  d.digits * 10 ^ d.exponent

/-- Every number has a digit. -/
lemma digitCount_pos (n : ℕ) : 0 < digitCount n :=
  List.length_pos_iff.mpr Nat.toDigits_ne_nil

/-- A number is below the power of ten with one zero for each of its digits. -/
lemma lt_pow_digitCount (n : ℕ) : n < 10 ^ digitCount n :=
  (Nat.length_toDigits_le_iff (by norm_num) (digitCount_pos n)).mp le_rfl

/-- A number other than zero is not below the power of ten with one zero less than it has digits. -/
lemma pow_digitCount_le {n : ℕ} (hn : n ≠ 0) : 10 ^ (digitCount n - 1) ≤ n := by
  rcases Nat.eq_zero_or_pos (digitCount n - 1) with h | h
  · rw [h, pow_zero]
    exact Nat.pos_of_ne_zero hn
  · refine not_lt.mp fun hlt => ?_
    have hle : digitCount n ≤ digitCount n - 1 := (Nat.length_toDigits_le_iff (by norm_num) h).mpr hlt
    omega

/-- Dropping zeros at the end of a decimal keeps its value. -/
lemma Digits.strip_value (tries : ℕ) (d : Digits) : (d.strip tries).value = d.value := by
  induction tries generalizing d with
  | zero => rfl
  | succ tries ih =>
    unfold Digits.strip
    split
    next h =>
      have hdigits : (d.digits : ℚ) = (d.digits / 10 : ℕ) * 10 := by
        exact_mod_cast (Nat.div_mul_cancel (Nat.dvd_of_mod_eq_zero h.2)).symm
      rw [ih, value, value, zpow_add_one₀ (by norm_num), hdigits]
      ring
    next => rfl

/-- Dropping zeros at the end does not turn a decimal into zero. -/
lemma Digits.strip_ne_zero (tries : ℕ) {d : Digits} (h : d.digits ≠ 0) : (d.strip tries).digits ≠ 0 := by
  induction tries generalizing d with
  | zero => exact h
  | succ tries ih =>
    unfold Digits.strip
    split
    next hzero => exact ih (by dsimp only; omega)
    next => exact h

/-! ## The interval of a double -/

section Interval

variable {m : ℕ} {q e : ℤ}

/-- The common denominator of an interval is positive. -/
lemma Interval.den_pos (m : ℕ) (q : ℤ) : 0 < (Interval.of m q).den :=
  Nat.pow_pos two_pos

/-- A multiple of a quarter of the unit, over the denominator of the interval. -/
lemma Interval.quarter (m : ℕ) (q : ℤ) (n : ℕ) :
    ((n * Nat.pow 2 (q - 2).toNat : ℕ) : ℚ) = n / 4 * 2 ^ q * (Interval.of m q).den := by
  have hscaled := scaled 2 two_pos n 1 (q - 2)
  rw [neg_sub, one_mul, Nat.cast_one, div_one, Nat.cast_ofNat, zpow_sub₀ two_ne_zero] at hscaled
  have hden : (Nat.pow 2 (2 - q).toNat : ℚ) ≠ 0 := by exact_mod_cast (den_pos m q).ne'
  rw [(div_eq_iff hden).mp hscaled]
  change _ * ((Interval.of m q).den : ℚ) = _
  ring

/-- The middle of the interval of a double is the double itself. -/
lemma Interval.middle_eq (m : ℕ) (q : ℤ) :
    ((Interval.of m q).middle : ℚ) = m * 2 ^ q * (Interval.of m q).den := by
  refine (quarter m q (4 * m)).trans ?_
  push_cast
  ring

/-- The upper end of the interval of a double is halfway to the next double. -/
lemma Interval.high_eq (m : ℕ) (q : ℤ) :
    ((Interval.of m q).high : ℚ) = upperEnd m q * (Interval.of m q).den := by
  refine (quarter m q (4 * m + 2)).trans ?_
  unfold upperEnd
  push_cast
  ring

/-- The lower end of the interval of a double is halfway to the one before. -/
lemma Interval.low_eq (hm : 0 < m) (q : ℤ) :
    ((Interval.of m q).low : ℚ) = lowerEnd m q * (Interval.of m q).den := by
  refine (quarter m q _).trans ?_
  unfold lowerEnd
  simp only [Nat.pow_eq]
  split_ifs
  · rw [Nat.cast_sub (by omega)]
    push_cast
    ring
  · rw [Nat.cast_sub (by omega)]
    push_cast
    ring

/-- The interval of a double holds the numbers that round to it. -/
lemma Interval.holds_iff (hm : 0 < m) {num k : ℕ} (hk : 0 < k) :
    (Interval.of m q).holds num k = true ↔ RoundsTo (num / ((Interval.of m q).den * k : ℕ)) m q := by
  have hk' : (0 : ℚ) < k := by exact_mod_cast hk
  have hden : (0 : ℚ) < ((Interval.of m q).den * k : ℕ) := by exact_mod_cast Nat.mul_pos (den_pos m q) hk
  have hlow : ((Interval.of m q).low * k : ℚ) = lowerEnd m q * ((Interval.of m q).den * k : ℕ) := by
    rw [low_eq hm, Nat.cast_mul, mul_assoc]
  have hhigh : ((Interval.of m q).high * k : ℚ) = upperEnd m q * ((Interval.of m q).den * k : ℕ) := by
    rw [high_eq, Nat.cast_mul, mul_assoc]
  have hle : (Interval.of m q).low * k ≤ num ↔ lowerEnd m q ≤ num / ((Interval.of m q).den * k : ℕ) := by
    rw [le_div_iff₀ hden, ← hlow]
    exact_mod_cast Iff.rfl
  have hge : num ≤ (Interval.of m q).high * k ↔ num / ((Interval.of m q).den * k : ℕ) ≤ upperEnd m q := by
    rw [div_le_iff₀ hden, ← hhigh]
    exact_mod_cast Iff.rfl
  have hlt : (Interval.of m q).low * k < num ↔ lowerEnd m q < num / ((Interval.of m q).den * k : ℕ) := by
    rw [lt_div_iff₀ hden, ← hlow]
    exact_mod_cast Iff.rfl
  have hgt : num < (Interval.of m q).high * k ↔ num / ((Interval.of m q).den * k : ℕ) < upperEnd m q := by
    rw [div_lt_iff₀ hden, ← hhigh]
    exact_mod_cast Iff.rfl
  have hclosed : (Interval.of m q).closed = decide (m % 2 = 0) := rfl
  unfold holds
  rw [hclosed]
  split_ifs with heven
  · rw [Bool.and_eq_true, decide_eq_true_iff, decide_eq_true_iff, hle, hge]
    have heven' := of_decide_eq_true heven
    exact ⟨fun h => ⟨h.1, h.2, fun hodd => by omega⟩, fun h => ⟨h.low, h.high⟩⟩
  · rw [Bool.and_eq_true, decide_eq_true_iff, decide_eq_true_iff, hlt, hgt]
    have hodd := of_decide_eq_false (Bool.not_eq_true _ ▸ heven)
    exact ⟨fun h => ⟨h.1.le, h.2.le, fun _ => h⟩, fun h => h.within (by omega)⟩

/-! ## Searching the grids -/

/-- A point of a grid. -/
lemma Interval.grid_eq (m : ℕ) (q e : ℤ) (n : ℕ) :
    ((n * ((Interval.of m q).den * Nat.pow 10 e.toNat) : ℕ) : ℚ) /
      ((Interval.of m q).den * Nat.pow 10 (-e).toNat : ℕ) = n * 10 ^ e := by
  have hden : ((Interval.of m q).den : ℚ) ≠ 0 := by exact_mod_cast (den_pos m q).ne'
  have hscaled := scaled 10 (by norm_num) n 1 e
  rw [one_mul, Nat.cast_one, div_one, Nat.cast_ofNat] at hscaled
  rw [← hscaled, Nat.mul_left_comm, Nat.cast_mul, Nat.cast_mul (Interval.of m q).den, mul_div_mul_left _ _ hden]

/-- Whether a point of a grid is a hit. -/
lemma Interval.holds_grid_iff (hm : 0 < m) (n : ℕ) :
    (Interval.of m q).holds (n * ((Interval.of m q).den * Nat.pow 10 e.toNat)) (Nat.pow 10 (-e).toNat) = true ↔
      RoundsTo (n * 10 ^ e) m q := by
  have hup : 0 < Nat.pow 10 (-e).toNat := Nat.pow_pos (by norm_num)
  rw [holds_iff hm hup, grid_eq]

/-- What is found on a grid rounds to the double. -/
lemma Interval.roundsTo_of_onGrid? (hm : 0 < m) {n : ℕ} (h : (Interval.of m q).onGrid? e = some n) :
    n ≠ 0 ∧ RoundsTo (n * 10 ^ e) m q := by
  rw [← holds_grid_iff hm]
  unfold onGrid? at h
  dsimp only at h
  generalize (Interval.of m q).middle * Nat.pow 10 (-e).toNat / ((Interval.of m q).den * Nat.pow 10 e.toNat)
    = below at h
  simp only [Bool.and_eq_true, decide_eq_true_iff, ne_eq] at h
  have hpick : below + below % 2 = below ∨ below + below % 2 = below + 1 := by omega
  split_ifs at h with hboth hnear hfar hbelow habove
  · obtain rfl := Option.some.inj h
    exact hboth.1
  · obtain rfl := Option.some.inj h
    exact ⟨by omega, hboth.2⟩
  · obtain rfl := Option.some.inj h
    rcases hpick with hpick | hpick <;> rw [hpick]
    · exact hboth.1
    · exact ⟨by omega, hboth.2⟩
  · obtain rfl := Option.some.inj h
    exact hbelow
  · obtain rfl := Option.some.inj h
    exact ⟨by omega, habove⟩

/-- The double lies between two neighbours on a grid. -/
lemma Interval.between_neighbours (m : ℕ) (q e : ℤ) :
    ∃ below : ℕ, (Interval.of m q).middle * Nat.pow 10 (-e).toNat / ((Interval.of m q).den * Nat.pow 10 e.toNat)
      = below ∧ (below * 10 ^ e : ℚ) ≤ m * 2 ^ q ∧ (m * 2 ^ q : ℚ) < (below + 1 : ℕ) * 10 ^ e := by
  have hpow : ∀ k, 0 < Nat.pow 10 k := fun k => Nat.pow_pos (by norm_num)
  have hunit : 0 < (Interval.of m q).den * Nat.pow 10 e.toNat := Nat.mul_pos (den_pos m q) (hpow _)
  have hup : (0 : ℚ) < ((Interval.of m q).den * Nat.pow 10 (-e).toNat : ℕ) := by
    exact_mod_cast Nat.mul_pos (den_pos m q) (hpow _)
  have hmiddle : (m * 2 ^ q : ℚ) = ((Interval.of m q).middle * Nat.pow 10 (-e).toNat : ℕ) /
      ((Interval.of m q).den * Nat.pow 10 (-e).toNat : ℕ) := by
    rw [eq_div_iff hup.ne', Nat.cast_mul, Nat.cast_mul, middle_eq]
    ring
  refine ⟨_, rfl, ?_, ?_⟩
  · rw [hmiddle, ← grid_eq m q, div_le_div_iff_of_pos_right hup]
    exact_mod_cast Nat.div_mul_le_self _ _
  · rw [hmiddle, ← grid_eq m q, div_lt_div_iff_of_pos_right hup, Nat.mul_comm (_ + 1)]
    exact_mod_cast Nat.lt_mul_div_succ _ hunit

/-- A grid finer than half the unit has a point that rounds to the double. -/
lemma Interval.isSome_onGrid? (hm : 0 < m) (hfine : (10 : ℚ) ^ e < 2 ^ q / 2) :
    ((Interval.of m q).onGrid? e).isSome := by
  obtain ⟨below, hbelow, hle, hlt⟩ := between_neighbours m q e
  -- The point above the double is less than half a unit away from it.
  have habove : RoundsTo ((below + 1 : ℕ) * 10 ^ e) m q := by
    have hupper : upperEnd m q = m * 2 ^ q + 2 ^ q / 2 := by
      unfold upperEnd
      ring
    have hlow := (lowerEnd_lt m q).trans hlt
    have hhigh : ((below + 1 : ℕ) * 10 ^ e : ℚ) < upperEnd m q := by
      rw [Nat.cast_succ, add_one_mul, hupper]
      exact add_lt_add_of_le_of_lt hle hfine
    exact ⟨hlow.le, hhigh.le, fun _ => ⟨hlow, hhigh⟩⟩
  rw [← holds_grid_iff hm] at habove
  unfold onGrid?
  dsimp only
  rw [hbelow, habove]
  split_ifs <;> first | rfl | contradiction

/-- The search finds a decimal that rounds to the double if there is one on a grid that it comes to. -/
lemma Interval.search_spec (hm : 0 < m) {j tries : ℕ} (hj : j < tries)
    (h : ((Interval.of m q).onGrid? (e - j)).isSome) :
    ((Interval.of m q).search tries e).digits ≠ 0 ∧ RoundsTo ((Interval.of m q).search tries e).value m q := by
  induction tries generalizing e j with
  | zero => omega
  | succ tries ih =>
    unfold search
    cases hgrid : (Interval.of m q).onGrid? e with
    | some n => exact roundsTo_of_onGrid? hm hgrid
    | none =>
      cases j with
      | zero =>
        rw [Nat.cast_zero, sub_zero, hgrid] at h
        cases h
      | succ j =>
        refine ih (j := j) (by omega) ?_
        rwa [show e - 1 - (j : ℤ) = e - (j + 1 : ℕ) by push_cast; ring]

end Interval

/-! ## Decimal exponents -/

/-- Enough zeros are found if as many as may be looked for are enough. -/
lemma le_mul_pow_leadingZeros {num den : ℕ} (fuel k : ℕ) (h : den ≤ num * 10 ^ fuel) :
    ∃ j, leadingZeros num den fuel k = k + j ∧ den ≤ num * 10 ^ j := by
  induction fuel generalizing num k with
  | zero => exact ⟨0, rfl, h⟩
  | succ fuel ih =>
    unfold leadingZeros
    split_ifs with hle
    · exact ⟨0, rfl, by simpa using hle⟩
    · obtain ⟨j, hj, hle'⟩ := ih (k + 1) (show den ≤ num * 10 * 10 ^ fuel by rwa [mul_assoc, ← pow_succ'])
      exact ⟨j + 1, by omega, by rwa [pow_succ', ← mul_assoc]⟩

/-- The power of ten with the decimal exponent of a fraction is not above it. -/
lemma pow_decimalExponent_le {num den : ℕ} (hden : 0 < den) (h : den ≤ num * 10 ^ 400) :
    (10 : ℚ) ^ decimalExponent num den ≤ num / den := by
  have hden' : (0 : ℚ) < den := by exact_mod_cast hden
  rw [le_div_iff₀ hden']
  unfold decimalExponent
  split_ifs with hle
  · have hquotient : num / den ≠ 0 := (Nat.div_pos hle hden).ne'
    have hpos := digitCount_pos (num / den)
    have hpow : 10 ^ (digitCount (num / den) - 1) * den ≤ num :=
      (Nat.mul_le_mul_right den (pow_digitCount_le hquotient)).trans (Nat.div_mul_le_self num den)
    rw [show (digitCount (num / den) : ℤ) - 1 = (digitCount (num / den) - 1 : ℕ) by omega, zpow_natCast]
    exact_mod_cast hpow
  · obtain ⟨j, hj, hle⟩ := le_mul_pow_leadingZeros 400 0 h
    rw [hj, zero_add, zpow_neg, zpow_natCast, inv_mul_le_iff₀ (by positivity), mul_comm]
    exact_mod_cast hle

/-! ## The decimal of a double -/

section Shortest

variable {m : ℕ} {q : ℤ}

/-- The search starts on a grid that is not coarser than the leading digit of the double. -/
lemma Interval.pow_decimalExponent_le (hm : 0 < m) (h : IsMagnitude m q) :
    (10 : ℚ) ^ decimalExponent (Interval.of m q).middle (Interval.of m q).den ≤ m * 2 ^ q := by
  have hq : (0 : ℚ) < 2 ^ q := by positivity
  have hden : (0 : ℚ) < (Interval.of m q).den := by exact_mod_cast den_pos m q
  -- The least positive double is above the least power of ten that is looked for.
  have hleast : (2 : ℚ) ^ leastExponent ≤ m * 2 ^ q := by
    have hone : (1 : ℚ) ≤ m := by exact_mod_cast hm
    have hpow : (2 : ℚ) ^ leastExponent ≤ 2 ^ q := zpow_le_zpow_right₀ one_le_two h.le
    exact hpow.trans (le_mul_of_one_le_left hq.le hone)
  have hten : (1 : ℚ) ≤ 2 ^ leastExponent * 10 ^ 400 := by
    rw [leastExponent, zpow_neg, zpow_ofNat, ← div_eq_inv_mul, one_le_div (by positivity)]
    exact_mod_cast (by decide +kernel : 2 ^ 1074 ≤ 10 ^ 400)
  have hle : ((Interval.of m q).den : ℚ) ≤ (Interval.of m q).middle * 10 ^ 400 := by
    rw [middle_eq, mul_right_comm]
    exact le_mul_of_one_le_left hden.le (hten.trans (by gcongr))
  refine (Decimal.pow_decimalExponent_le (den_pos m q) (by exact_mod_cast hle)).trans_eq ?_
  rw [div_eq_iff hden.ne', middle_eq]

/-- The decimal that is written for a double rounds to it. -/
theorem roundsTo_shortest (hm : 0 < m) (h : IsMagnitude m q) :
    (shortest m q).digits ≠ 0 ∧ RoundsTo (shortest m q).value m q := by
  set e := decimalExponent (Interval.of m q).middle (Interval.of m q).den
  have hfine : (10 : ℚ) ^ (e - (17 : ℕ)) < 2 ^ q / 2 := by
    have hlt : (m : ℚ) < 2 ^ 53 := by exact_mod_cast h.lt
    have hq : (0 : ℚ) < 2 ^ q := by positivity
    rw [zpow_sub₀ (by norm_num), zpow_natCast, div_lt_iff₀ (by positivity)]
    calc (10 : ℚ) ^ e ≤ m * 2 ^ q := Interval.pow_decimalExponent_le hm h
      _ < 2 ^ 53 * 2 ^ q := by gcongr
      _ < 2 ^ q / 2 * 10 ^ 17 := by linarith
  obtain ⟨hdigits, hrounds⟩ :=
    Interval.search_spec hm (show 17 < 18 by norm_num) (Interval.isSome_onGrid? hm hfine)
  refine ⟨Digits.strip_ne_zero 20 hdigits, ?_⟩
  have hstrip : (shortest m q).value = ((Interval.of m q).search 18 e).value := Digits.strip_value 20 _
  rw [hstrip]
  exact hrounds

end Shortest

end Scriptlet.Decimal
