import Mathlib
import Scriptlet.Decimal.Binary

/-!
# Correct rounding

The reals that round to a double are those up to halfway to its neighbours, and halfway itself if the double has
an even fraction.  Above and below, the neighbours are as far away as the last bit counts, but below a power of
two they are nearer by half.  Rounding an exact fraction looks at the power of two below the fraction and not at
any double, so it has to be shown that it arrives at the double on whose interval the fraction lies.  At the
lower end of a power of two it arrives there from the exponent below, through a carry.

Intervals are intervals of rational numbers here.  Whatever the program computes with numerators and
denominators is turned into a statement on their quotient first.
-/

namespace Scriptlet.Decimal

/-! ## Magnitudes -/

/-- The numbers `m` and `q` that finite doubles have: the fraction has a leading one unless the exponent is the
least. -/
structure IsMagnitude (m : ℕ) (q : ℤ) : Prop where
  lt : m < 2 ^ 53
  le : leastExponent ≤ q
  normal : 2 ^ 52 ≤ m ∨ q = leastExponent
  finite : q ≤ 971

/-- The bits of a magnitude: the leading one of a normal fraction counts as one of the exponent. -/
def magnitudeBits (m : ℕ) (q : ℤ) : ℕ :=
  (q - leastExponent).toNat * 2 ^ 52 + m

/-- The bits of a finite double are at most those of infinity. -/
lemma IsMagnitude.bits_le {m : ℕ} {q : ℤ} (h : IsMagnitude m q) : magnitudeBits m q ≤ infinityBits := by
  have hlt := h.lt
  have hfinite := h.finite
  have hinfinity : infinityBits = 2047 * 2 ^ 52 := rfl
  unfold magnitudeBits leastExponent
  omega

/-- A finite double has a magnitude, and its bits are those of the magnitude below its sign. -/
lemma bits_of_finite {x : Float} {negative : Bool} {m : ℕ} {q : ℤ} (h : Double.of x = .finite negative m q) :
    IsMagnitude m q ∧
      x.toBits.toNat = if negative then 2 ^ 63 + magnitudeBits m q else magnitudeBits m q := by
  have hbits : x.toBits.toNat < 2 ^ 64 := x.toBits.toNat_lt
  have hleast : leastExponent = -1074 := rfl
  unfold Double.of Double.ofBits at h
  dsimp only [Nat.pow_eq] at h
  generalize x.toBits.toNat = bits at h hbits
  unfold magnitudeBits
  split_ifs at h with hspecial hnan hsubnormal
  all_goals
    injection h with hnegative hm hq
    subst hm hq
    refine ⟨⟨by omega, by omega, by omega, by omega⟩, ?_⟩
    cases negative with
    | false =>
      have hsign := of_decide_eq_false hnegative
      rw [if_neg Bool.false_ne_true]
      omega
    | true =>
      have hsign := of_decide_eq_true hnegative
      rw [if_pos rfl]
      omega

/-! ## The reals that round to a magnitude -/

/-- The lower end of what rounds to `m * 2 ^ q`.  Below a power of two the doubles lie twice as dense. -/
def lowerEnd (m : ℕ) (q : ℤ) : ℚ :=
  (if m = 2 ^ 52 ∧ leastExponent < q then (m : ℚ) - 1 / 4 else m - 1 / 2) * 2 ^ q

/-- The upper end of what rounds to `m * 2 ^ q`. -/
def upperEnd (m : ℕ) (q : ℤ) : ℚ :=
  (m + 1 / 2) * 2 ^ q

/-- A number that rounds to `m * 2 ^ q`.  The ends themselves do if `m` is even. -/
structure RoundsTo (v : ℚ) (m : ℕ) (q : ℤ) : Prop where
  low : lowerEnd m q ≤ v
  high : v ≤ upperEnd m q
  within : m % 2 = 1 → lowerEnd m q < v ∧ v < upperEnd m q

/-- The interval of a double goes down by at most half a unit. -/
lemma half_le_lowerEnd (m : ℕ) (q : ℤ) : (m - 1 / 2 : ℚ) * 2 ^ q ≤ lowerEnd m q := by
  have hq : (0 : ℚ) < 2 ^ q := by positivity
  unfold lowerEnd
  gcongr
  split_ifs <;> linarith

/-- The lower end of the interval of a double is below the double. -/
lemma lowerEnd_lt (m : ℕ) (q : ℤ) : lowerEnd m q < m * 2 ^ q := by
  have hq : (0 : ℚ) < 2 ^ q := by positivity
  unfold lowerEnd
  gcongr
  split_ifs <;> linarith

/-- The upper end of the interval of a double is above the double. -/
lemma lt_upperEnd (m : ℕ) (q : ℤ) : (m * 2 ^ q : ℚ) < upperEnd m q := by
  have hq : (0 : ℚ) < 2 ^ q := by positivity
  unfold upperEnd
  gcongr
  linarith

/-- A magnitude rounds to itself. -/
lemma RoundsTo.self (m : ℕ) (q : ℤ) : RoundsTo (m * 2 ^ q) m q :=
  ⟨(lowerEnd_lt m q).le, (lt_upperEnd m q).le, fun _ => ⟨lowerEnd_lt m q, lt_upperEnd m q⟩⟩

/-! ## Exact fractions -/

/-- A power with an exponent of either sign, as one above or below the bar. -/
lemma scaled (b : ℕ) (hb : 0 < b) (num den : ℕ) (e : ℤ) :
    ((num * Nat.pow b e.toNat : ℕ) : ℚ) / (den * Nat.pow b (-e).toNat : ℕ) = num / den * (b : ℚ) ^ e := by
  have hb' : (b : ℚ) ≠ 0 := by positivity
  have hpow : (b : ℚ) ^ e = b ^ e.toNat / b ^ (-e).toNat := by
    rw [← zpow_natCast, ← zpow_natCast, ← zpow_sub₀ hb']
    congr 1
    omega
  rw [hpow, Nat.pow_eq, Nat.pow_eq]
  push_cast
  ring

/-- A quotient rounds to the number that it is nearest to, halves to the even one. -/
lemma roundDiv_eq_of_le {num den k : ℕ} (hden : 0 < den) (hlow : 2 * (k * den) ≤ 2 * num + den)
    (hhigh : 2 * num ≤ 2 * (k * den) + den)
    (hwithin : k % 2 = 1 → 2 * (k * den) < 2 * num + den ∧ 2 * num < 2 * (k * den) + den) :
    roundDiv num den = k := by
  obtain ⟨quotient, rest, hnum, hrest, hround⟩ := exists_roundDiv_eq num hden
  rw [hround]
  have hcomm : quotient * den = den * quotient := Nat.mul_comm quotient den
  have hquotient : quotient = k ∨ quotient + 1 = k := by
    by_contra hne
    rcases lt_or_ge k quotient with h | h
    · have hfar : (k + 1) * den ≤ quotient * den := Nat.mul_le_mul_right den h
      have hexpand : (k + 1) * den = k * den + den := by ring
      omega
    · have hfar : (quotient + 2) * den ≤ k * den := Nat.mul_le_mul_right den (by omega)
      have hexpand : (quotient + 2) * den = den * quotient + 2 * den := by ring
      omega
  rcases hquotient with rfl | rfl
  · split_ifs <;> omega
  · have hexpand : (quotient + 1) * den = den * quotient + den := by ring
    split_ifs <;> omega

/-- The quotient of natural numbers rounds as the rational number that they denote. -/
lemma roundDiv_eq {num den k : ℕ} (hden : 0 < den) (hlow : (k : ℚ) - 1 / 2 ≤ num / den)
    (hhigh : (num : ℚ) / den ≤ k + 1 / 2)
    (hwithin : k % 2 = 1 → (k : ℚ) - 1 / 2 < num / den ∧ (num : ℚ) / den < k + 1 / 2) :
    roundDiv num den = k := by
  have hden' : (0 : ℚ) < den := by exact_mod_cast hden
  rw [le_div_iff₀ hden'] at hlow
  rw [div_le_iff₀ hden'] at hhigh
  rw [lt_div_iff₀ hden', div_lt_iff₀ hden'] at hwithin
  refine roundDiv_eq_of_le hden ?_ ?_ fun hodd => ⟨?_, ?_⟩
  · have h : (2 * (k * den) : ℚ) ≤ 2 * num + den := by linarith
    exact_mod_cast h
  · have h : (2 * num : ℚ) ≤ 2 * (k * den) + den := by linarith
    exact_mod_cast h
  · have h : (2 * (k * den) : ℚ) < 2 * num + den := by linarith [(hwithin hodd).1]
    exact_mod_cast h
  · have h : (2 * num : ℚ) < 2 * (k * den) + den := by linarith [(hwithin hodd).2]
    exact_mod_cast h

/-- The binary exponent of a fraction is the exponent of the greatest power of two that is not above it. -/
lemma binaryExponent_bounds {num den : ℕ} (hnum : num ≠ 0) (hden : den ≠ 0) :
    (2 : ℚ) ^ binaryExponent num den ≤ num / den ∧ (num / den : ℚ) < 2 ^ (binaryExponent num den + 1) := by
  have hnumLow : (2 : ℚ) ^ (num.log2 : ℤ) ≤ num := by exact_mod_cast Nat.log2_self_le hnum
  have hnumHigh : (num : ℚ) < 2 ^ (num.log2 + 1 : ℤ) := by exact_mod_cast Nat.lt_log2_self (n := num)
  have hdenLow : (2 : ℚ) ^ (den.log2 : ℤ) ≤ den := by exact_mod_cast Nat.log2_self_le hden
  have hdenHigh : (den : ℚ) < 2 ^ (den.log2 + 1 : ℤ) := by exact_mod_cast Nat.lt_log2_self (n := den)
  have hden' : (0 : ℚ) < den := by exact_mod_cast Nat.pos_of_ne_zero hden
  have htwo : (2 : ℚ) ≠ 0 := two_ne_zero
  -- The difference of the logarithms is right, or too large by one.
  set e : ℤ := num.log2 - den.log2 with he
  have hlow : (2 : ℚ) ^ (e - 1) ≤ num / den := by
    rw [le_div_iff₀ hden']
    calc (2 : ℚ) ^ (e - 1) * den ≤ 2 ^ (e - 1) * 2 ^ (den.log2 + 1 : ℤ) := by gcongr
      _ = 2 ^ (num.log2 : ℤ) := by
        rw [← zpow_add₀ htwo]
        congr 1
        omega
      _ ≤ num := hnumLow
  have hhigh : (num / den : ℚ) < 2 ^ (e + 1) := by
    rw [div_lt_iff₀ hden']
    calc (num : ℚ) < 2 ^ (num.log2 + 1 : ℤ) := hnumHigh
      _ = 2 ^ (e + 1) * 2 ^ (den.log2 : ℤ) := by
        rw [← zpow_add₀ htwo]
        congr 1
        omega
      _ ≤ 2 ^ (e + 1) * den := by gcongr
  have hcompare : num * Nat.pow 2 (-e).toNat < den * Nat.pow 2 e.toNat ↔ (num / den : ℚ) < 2 ^ e := by
    have hscaled := scaled 2 two_pos num den (-e)
    rw [neg_neg] at hscaled
    have hpos : (0 : ℚ) < (den * Nat.pow 2 e.toNat : ℕ) := by
      exact_mod_cast Nat.mul_pos (Nat.pos_of_ne_zero hden) (Nat.pow_pos two_pos)
    rw [← Nat.cast_lt (α := ℚ), ← div_lt_one hpos, hscaled, zpow_neg, ← div_eq_mul_inv,
      div_lt_one (by positivity)]
    rfl
  have hexponent : binaryExponent num den
      = if num * Nat.pow 2 (-e).toNat < den * Nat.pow 2 e.toNat then e - 1 else e := rfl
  rw [hexponent]
  split_ifs with h
  · rw [sub_add_cancel]
    exact ⟨hlow, hcompare.mp h⟩
  · exact ⟨not_lt.mp (hcompare.not.mp h), hhigh⟩

/-- The binary exponent of a fraction is at least that of each power of two below it. -/
lemma le_binaryExponent {num den : ℕ} {k : ℤ} (hnum : num ≠ 0) (hden : den ≠ 0)
    (h : (2 : ℚ) ^ k ≤ num / den) : k ≤ binaryExponent num den := by
  have hlt := h.trans_lt (binaryExponent_bounds hnum hden).2
  exact Int.lt_add_one_iff.mp ((zpow_lt_zpow_iff_right₀ one_lt_two).mp hlt)

/-- The binary exponent of a fraction is less than that of each power of two above it. -/
lemma binaryExponent_lt {num den : ℕ} {k : ℤ} (hnum : num ≠ 0) (hden : den ≠ 0)
    (h : (num / den : ℚ) < 2 ^ k) : binaryExponent num den < k :=
  (zpow_lt_zpow_iff_right₀ one_lt_two).mp ((binaryExponent_bounds hnum hden).1.trans_lt h)

/-! ## Rounding to the nearest double -/

/-- The exponent of the power of two that a fraction is rounded to a multiple of. -/
def unitExponent (num den : ℕ) : ℤ :=
  max (binaryExponent num den - 52) leastExponent

/-- The bits nearest to a fraction are those of its rounded multiple, or infinity. -/
lemma nearestBits_eq_min (num den : ℕ) : nearestBits num den =
    min (magnitudeBits (roundDiv (num * Nat.pow 2 (-unitExponent num den).toNat)
      (den * Nat.pow 2 (unitExponent num den).toNat)) (unitExponent num den)) infinityBits :=
  rfl

/-- The multiple of a power of two that a fraction is rounded to. -/
lemma roundDiv_pow_eq {num den k : ℕ} {q : ℤ} (hden : den ≠ 0) (hlow : (k - 1 / 2 : ℚ) * 2 ^ q ≤ num / den)
    (hhigh : (num / den : ℚ) ≤ (k + 1 / 2) * 2 ^ q)
    (hwithin : k % 2 = 1 → (k - 1 / 2 : ℚ) * 2 ^ q < num / den ∧ (num / den : ℚ) < (k + 1 / 2) * 2 ^ q) :
    roundDiv (num * Nat.pow 2 (-q).toNat) (den * Nat.pow 2 q.toNat) = k := by
  have hscaled := scaled 2 two_pos num den (-q)
  rw [neg_neg, Nat.cast_ofNat, zpow_neg, ← div_eq_mul_inv] at hscaled
  have hq : (0 : ℚ) < 2 ^ q := by positivity
  refine roundDiv_eq (Nat.mul_pos (Nat.pos_of_ne_zero hden) (Nat.pow_pos two_pos)) ?_ ?_ fun hodd => ?_ <;>
    rw [hscaled]
  · exact (le_div_iff₀ hq).mpr hlow
  · exact (div_le_iff₀ hq).mpr hhigh
  · exact ⟨(lt_div_iff₀ hq).mpr (hwithin hodd).1, (div_lt_iff₀ hq).mpr (hwithin hodd).2⟩

section NearestBits

variable {num den m : ℕ} {q : ℤ}

/-- A fraction just below a power of two is rounded to a multiple of half the unit of that power. -/
lemma unitExponent_of_lt (hleast : leastExponent < q) (hnum : num ≠ 0) (hden : den ≠ 0)
    (hlow : (2 ^ 52 - 1 / 4 : ℚ) * 2 ^ q ≤ num / den) (hlt : (num / den : ℚ) < 2 ^ 52 * 2 ^ q) :
    unitExponent num den = q - 1 := by
  have htwo : (2 : ℚ) ≠ 0 := two_ne_zero
  have hle : q + 51 ≤ binaryExponent num den := by
    refine le_binaryExponent hnum hden (le_trans ?_ hlow)
    rw [zpow_add₀ htwo, mul_comm]
    gcongr
    norm_num
  have hge : binaryExponent num den < q + 52 := by
    refine binaryExponent_lt hnum hden (hlt.trans_eq ?_)
    rw [zpow_add₀ htwo, mul_comm]
    norm_num
  unfold unitExponent
  omega

/-- Any other fraction is rounded to a multiple of the unit of the magnitude that it is nearest to. -/
lemma unitExponent_of_le (hm : IsMagnitude m q) (hnum : num ≠ 0) (hden : den ≠ 0) (h : RoundsTo (num / den) m q)
    (hle : leastExponent < q → (2 ^ 52 : ℚ) * 2 ^ q ≤ num / den) : unitExponent num den = q := by
  have htwo : (2 : ℚ) ≠ 0 := two_ne_zero
  have hlt : (m : ℚ) + 1 ≤ 2 ^ 53 := by exact_mod_cast hm.lt
  have hhigh : binaryExponent num den < q + 53 := by
    refine binaryExponent_lt hnum hden (h.high.trans_lt ?_)
    rw [upperEnd, zpow_add₀ htwo, mul_comm, zpow_ofNat]
    gcongr
    linarith
  have hlow : leastExponent < q → q + 52 ≤ binaryExponent num den := by
    intro hleast
    refine le_binaryExponent hnum hden ((hle hleast).trans_eq' ?_)
    rw [zpow_add₀ htwo, mul_comm, zpow_ofNat]
  have hleast := hm.le
  unfold unitExponent
  omega

/-- A fraction is rounded to the magnitude that it is nearest to. -/
lemma nearestBits_eq (hm : IsMagnitude m q) (hnum : num ≠ 0) (hden : den ≠ 0) (h : RoundsTo (num / den) m q) :
    nearestBits num den = magnitudeBits m q := by
  rw [nearestBits_eq_min]
  refine (congrArg (min · infinityBits) ?_).trans (min_eq_left hm.bits_le)
  by_cases hbelow : m = 2 ^ 52 ∧ leastExponent < q ∧ (num / den : ℚ) < 2 ^ 52 * 2 ^ q
  · -- The fraction rounds up to twice the least normal one, which moves to the next exponent.
    obtain ⟨rfl, hleast, hlt⟩ := hbelow
    have hlow := h.low
    rw [lowerEnd, if_pos ⟨rfl, hleast⟩, Nat.cast_pow, Nat.cast_ofNat] at hlow
    rw [unitExponent_of_lt hleast hnum hden hlow hlt]
    have hhalf : (2 : ℚ) ^ q = 2 ^ (q - 1) * 2 := by rw [← zpow_add_one₀ two_ne_zero, sub_add_cancel]
    rw [hhalf] at hlow hlt
    have hpos : (0 : ℚ) < 2 ^ (q - 1) := by positivity
    rw [roundDiv_pow_eq (k := 2 ^ 53) hden]
    · unfold magnitudeBits
      omega
    · push_cast
      linarith
    · push_cast
      linarith
    · intro hodd
      omega
  · have hunit : unitExponent num den = q := by
      refine unitExponent_of_le hm hnum hden h fun hleast => ?_
      rcases (hm.normal.resolve_right hleast.ne').eq_or_lt with rfl | hlt
      · exact not_lt.mp fun hlt => hbelow ⟨rfl, hleast, hlt⟩
      · -- Above the least normal fraction half a unit below still leaves a normal one.
        have hlt' : (2 ^ 52 : ℚ) + 1 ≤ m := by exact_mod_cast hlt
        refine le_trans ?_ ((half_le_lowerEnd m q).trans h.low)
        gcongr
        linarith
    rw [hunit, roundDiv_pow_eq hden ((half_le_lowerEnd m q).trans h.low) h.high]
    intro hodd
    exact ⟨(half_le_lowerEnd m q).trans_lt (h.within hodd).1, (h.within hodd).2⟩

end NearestBits

/-- Rounding is correct: a fraction is rounded to the finite double that it is nearest to. -/
theorem nearest_eq {x : Float} {negative : Bool} {num den m : ℕ} {q : ℤ}
    (hx : Double.of x = .finite negative m q) (hden : den ≠ 0) (h : RoundsTo (num / den) m q) :
    nearest negative num den = x := by
  obtain ⟨hm, hbits⟩ := bits_of_finite hx
  have hmagnitude : (if num = 0 then 0 else nearestBits num den) = magnitudeBits m q := by
    split_ifs with hnum
    · -- Zero is nearest to zero only.
      have hzero : m = 0 := by
        have hlow := (half_le_lowerEnd m q).trans h.low
        rw [hnum, Nat.cast_zero, zero_div] at hlow
        have hhalf : (m : ℚ) - 1 / 2 ≤ 0 := nonpos_of_mul_nonpos_left hlow (by positivity)
        have hone : (m : ℚ) < 1 := by linarith
        exact Nat.lt_one_iff.mp (by exact_mod_cast hone)
      have hleast := hm.normal.resolve_left (by omega)
      unfold magnitudeBits
      omega
    · exact nearestBits_eq hm hnum hden h
  unfold nearest
  dsimp only
  rw [hmagnitude, Nat.pow_eq, ← hbits, UInt64.ofNat_toNat, Float.ofBits_toBits]

end Scriptlet.Decimal
