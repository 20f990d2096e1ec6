import Mathlib
import Scriptlet.Decimal.Binary

/-!
# Integers within the range of doubles

The greatest double is `2 ^ 1024 - 2 ^ 971`.  An integer above it still has a nearest double as long as it is
nearer to the greatest double than to `2 ^ 1024`, which would come next.  Halfway between them the even neighbour
is taken, and that is `2 ^ 1024`.  So the integers that can be converted are those below `2 ^ 1024 - 2 ^ 970`.
-/

namespace Scriptlet.Decimal

/-- An integer for which there is a nearest double. -/
def InRange (i : ℤ) : Prop :=
  i.natAbs < 2 ^ 1024 - 2 ^ 970

instance : DecidablePred InRange :=
  fun i => inferInstanceAs (Decidable (i.natAbs < 2 ^ 1024 - 2 ^ 970))

/-! ## Rounding -/

section RoundDiv

variable {num den k : ℕ}

/-- A rounded quotient is not below the quotient rounded down. -/
lemma div_le_roundDiv (num den : ℕ) : num / den ≤ roundDiv num den := by
  unfold roundDiv
  dsimp only
  split_ifs <;> omega

/-- A rounded quotient is above the quotient rounded down by at most one. -/
lemma roundDiv_le (num den : ℕ) : roundDiv num den ≤ num / den + 1 := by
  unfold roundDiv
  dsimp only
  split_ifs <;> omega

/-- An even number is reached by rounding from halfway below it. -/
lemma le_roundDiv_iff (hden : 0 < den) (hk : 0 < k) (heven : k % 2 = 0) :
    k ≤ roundDiv num den ↔ 2 * (k * den) ≤ 2 * num + den := by
  obtain ⟨quotient, rest, hnum, hrest, hround⟩ := exists_roundDiv_eq num hden
  rw [hround]
  rcases lt_trichotomy (quotient + 1) k with h | rfl | h
  · -- Far below, nothing is rounded up to it.
    have hfar : (quotient + 2) * den ≤ k * den := Nat.mul_le_mul_right den h
    have hexpand : (quotient + 2) * den = den * quotient + 2 * den := by ring
    constructor
    · intro hle
      split_ifs at hle <;> omega
    · intro hle
      omega
  · -- From just below, which is odd, a half is rounded up.
    have hexpand : (quotient + 1) * den = den * quotient + den := by ring
    have hodd : quotient % 2 = 1 := by omega
    split_ifs <;> omega
  · have hnear : k * den ≤ quotient * den := Nat.mul_le_mul_right den (by omega)
    have hcomm : quotient * den = den * quotient := Nat.mul_comm quotient den
    constructor
    · intro _
      omega
    · intro _
      split_ifs <;> omega

end RoundDiv

/-! ## Integers -/

section Integers

variable {n : ℕ}

/-- The binary exponent of an integer is its logarithm. -/
lemma binaryExponent_one (hn : n ≠ 0) : binaryExponent n 1 = n.log2 := by
  have hle : 2 ^ n.log2 ≤ n := Nat.log2_self_le hn
  have hone : Nat.log2 1 = 0 := rfl
  simpa [binaryExponent, hone] using hle

/-- The fraction of an integer, which is rounded to the bits below the exponent. -/
lemma nearestBits_one (hn : n ≠ 0) :
    nearestBits n 1 = min ((n.log2 + 1022) * 2 ^ 52 + roundDiv (n * 2 ^ (52 - n.log2)) (2 ^ (n.log2 - 52)))
      infinityBits := by
  have hexponent : max (binaryExponent n 1 - 52) leastExponent = (n.log2 : ℤ) - 52 := by
    rw [binaryExponent_one hn]
    unfold leastExponent
    omega
  have hfield : ((n.log2 : ℤ) - 52 - leastExponent).toNat = n.log2 + 1022 := by
    unfold leastExponent
    omega
  have hup : (-((n.log2 : ℤ) - 52)).toNat = 52 - n.log2 := by omega
  have hdown : ((n.log2 : ℤ) - 52).toNat = n.log2 - 52 := by omega
  unfold nearestBits
  dsimp only
  rw [hexponent, hfield, hup, hdown, one_mul]
  rfl

/-- The fraction has 53 bits. -/
lemma fraction_bounds (hn : n ≠ 0) :
    2 ^ 52 * 2 ^ (n.log2 - 52) ≤ n * 2 ^ (52 - n.log2) ∧
      n * 2 ^ (52 - n.log2) < 2 ^ 53 * 2 ^ (n.log2 - 52) := by
  have hscale : 2 ^ n.log2 * 2 ^ (52 - n.log2) = 2 ^ 52 * 2 ^ (n.log2 - 52) := by
    rw [← pow_add, ← pow_add]
    congr 1
    omega
  have hlow : 2 ^ n.log2 * 2 ^ (52 - n.log2) ≤ n * 2 ^ (52 - n.log2) :=
    Nat.mul_le_mul_right _ (Nat.log2_self_le hn)
  have hhigh : n * 2 ^ (52 - n.log2) < 2 ^ (n.log2 + 1) * 2 ^ (52 - n.log2) :=
    Nat.mul_lt_mul_of_pos_right Nat.lt_log2_self (by positivity)
  rw [pow_succ, mul_right_comm, hscale] at hhigh
  constructor <;> omega

/-- An integer scaled to fifty-three bits is rounded to a number of fifty-three bits, or to the next power of
two. -/
lemma roundDiv_fraction_bounds (hn : n ≠ 0) :
    2 ^ 52 ≤ roundDiv (n * 2 ^ (52 - n.log2)) (2 ^ (n.log2 - 52)) ∧
      roundDiv (n * 2 ^ (52 - n.log2)) (2 ^ (n.log2 - 52)) ≤ 2 ^ 53 := by
  have hden : 0 < 2 ^ (n.log2 - 52) := by positivity
  obtain ⟨hlow, hhigh⟩ := fraction_bounds hn
  have hdiv : 2 ^ 52 ≤ n * 2 ^ (52 - n.log2) / 2 ^ (n.log2 - 52) := (Nat.le_div_iff_mul_le hden).mpr hlow
  have hdiv' : n * 2 ^ (52 - n.log2) / 2 ^ (n.log2 - 52) < 2 ^ 53 := (Nat.div_lt_iff_lt_mul hden).mpr hhigh
  exact ⟨hdiv.trans (div_le_roundDiv _ _), (roundDiv_le _ _).trans hdiv'⟩

/-- An integer is rounded to infinity from halfway between the greatest double and the next power of two. -/
lemma nearestBits_eq_infinityBits (hn : n ≠ 0) :
    nearestBits n 1 = infinityBits ↔ 2 ^ 1024 - 2 ^ 970 ≤ n := by
  have hlow : 2 ^ n.log2 ≤ n := Nat.log2_self_le hn
  have hhigh : n < 2 ^ (n.log2 + 1) := Nat.lt_log2_self
  obtain ⟨hleast, hgreatest⟩ := roundDiv_fraction_bounds hn
  have hinfinity : infinityBits = 2047 * 2 ^ 52 := rfl
  -- All powers of two that matter are multiples of one of them.
  have hunit : ∀ k, 2 ^ (970 + k) = 2 ^ k * 2 ^ 970 := fun k => by rw [pow_add, mul_comm]
  have hpositive : 0 < 2 ^ 970 := by positivity
  rw [nearestBits_one hn, min_eq_right_iff, hinfinity, hunit 54]
  rcases lt_trichotomy n.log2 1023 with h | h | h
  · have hbelow : n < 2 ^ (970 + 53) := hhigh.trans_le (pow_le_pow_right₀ one_le_two (by omega))
    rw [hunit 53] at hbelow
    generalize 2 ^ 970 = unit at hbelow hpositive ⊢
    constructor <;> intro hle <;> omega
  · have hden : 2 ^ (n.log2 - 52) = 2 * 2 ^ 970 := by rw [show n.log2 - 52 = 970 + 1 by omega, hunit 1, pow_one]
    have hnum : n * 2 ^ (52 - n.log2) = n := by rw [show 52 - n.log2 = 0 by omega, pow_zero, mul_one]
    rw [hden, hnum, h]
    generalize 2 ^ 970 = unit at hpositive ⊢
    have hhalf : 2 ^ 53 ≤ roundDiv n (2 * unit) ↔ 2 * (2 ^ 53 * (2 * unit)) ≤ 2 * n + 2 * unit :=
      le_roundDiv_iff (by omega) (by norm_num) (by norm_num)
    omega
  · have habove : 2 ^ (970 + 54) ≤ n := (pow_le_pow_right₀ one_le_two (by omega)).trans hlow
    rw [hunit 54] at habove
    generalize 2 ^ 970 = unit at habove hpositive ⊢
    constructor <;> intro hle <;> omega

end Integers

/-- The integers within the range of doubles are those that can be converted. -/
theorem ofInt?_eq_none {i : ℤ} : ofInt? i = none ↔ ¬ InRange i := by
  have hnone : ofInt? i = none ↔ i ≠ 0 ∧ nearestBits i.natAbs 1 = infinityBits := by
    unfold ofInt?
    split_ifs with h
    · exact iff_of_true rfl h
    · exact iff_of_false nofun h
  rw [hnone, InRange, not_lt]
  by_cases hi : i = 0
  · have hrange : 0 < 2 ^ 1024 - 2 ^ 970 := Nat.sub_pos_of_lt (pow_lt_pow_right₀ one_lt_two (by norm_num))
    rw [hi, Int.natAbs_zero]
    exact iff_of_false (fun h => h.1 rfl) (Nat.not_le.mpr hrange)
  · rw [nearestBits_eq_infinityBits (Int.natAbs_ne_zero.mpr hi)]
    exact and_iff_right hi

end Scriptlet.Decimal
