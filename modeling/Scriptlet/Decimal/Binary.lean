/-!
# Doubles as exact numbers

A finite double is a sign and a magnitude `m * 2 ^ q` with `m < 2 ^ 53` and `-1074 ≤ q`.  This file
takes doubles apart into these three numbers, and rounds an exact fraction to the nearest double, a
half going to the even neighbour.  Everything is natural number arithmetic on the bits, so what is
computed here can also be reasoned about.
-/

namespace Scriptlet.Decimal

/-- What a double stands for. -/
inductive Double where
  /-- No number at all. -/
  | nan
  /-- An infinity, negative or positive. -/
  | infinite (negative : Bool)
  /-- The number `± m * 2 ^ q`. -/
  | finite (negative : Bool) (m : Nat) (q : Int)
deriving DecidableEq, Repr

/-- The exponent of the least positive double. -/
def leastExponent : Int := -1074

/-- The bits of positive infinity, which are above those of every finite magnitude. -/
def infinityBits : Nat := 0x7FF * Nat.pow 2 52

/-- Takes the bits of a double apart. -/
def Double.ofBits (bits : Nat) : Double :=
  let negative := bits / Nat.pow 2 63 % 2 = 1
  let exponent := bits / Nat.pow 2 52 % Nat.pow 2 11
  let fraction := bits % Nat.pow 2 52
  if exponent = 0x7FF then
    if fraction = 0 then .infinite negative else .nan
  else if exponent = 0 then .finite negative fraction leastExponent
  else .finite negative (Nat.pow 2 52 + fraction) (leastExponent + (exponent - 1 : Nat))

/-- What the double `x` stands for. -/
def Double.of (x : Float) : Double :=
  .ofBits x.toBits.toNat

/-- The quotient `num / den` rounded to a natural number, a half going to the even neighbour. -/
def roundDiv (num den : Nat) : Nat :=
  let quotient := num / den
  let rest := num % den
  if 2 * rest < den then quotient
  else if den < 2 * rest then quotient + 1
  else quotient + quotient % 2

/-- Rounding depends on the quotient and on what the division leaves. -/
theorem exists_roundDiv_eq (num : Nat) {den : Nat} (hden : 0 < den) :
    ∃ quotient rest, den * quotient + rest = num ∧ rest < den ∧
      roundDiv num den = if 2 * rest < den then quotient
        else if den < 2 * rest then quotient + 1 else quotient + quotient % 2 :=
  ⟨num / den, num % den, Nat.div_add_mod num den, Nat.mod_lt num hden, rfl⟩

/-- The binary exponent of `num / den`: it lies between `2 ^ e` and `2 ^ (e + 1)`. -/
def binaryExponent (num den : Nat) : Int :=
  let e : Int := num.log2 - den.log2
  if num * Nat.pow 2 (-e).toNat < den * Nat.pow 2 e.toNat then e - 1 else e

/-- The bits of the double nearest to the positive fraction `num / den`.  The fraction is rounded to a
multiple of a power of two; the bits then are that multiple on top of the exponent's field, so a
multiple that rounds up to `2 ^ 53` moves to the next exponent by itself, and one above the greatest
double becomes infinity. -/
def nearestBits (num den : Nat) : Nat :=
  let q := max (binaryExponent num den - 52) leastExponent
  let m := roundDiv (num * Nat.pow 2 (-q).toNat) (den * Nat.pow 2 q.toNat)
  min ((q - leastExponent).toNat * Nat.pow 2 52 + m) infinityBits

/-- The double nearest to `± num / den`. -/
def nearest (negative : Bool) (num den : Nat) : Float :=
  let magnitude := if num = 0 then 0 else nearestBits num den
  Float.ofBits (UInt64.ofNat (if negative then Nat.pow 2 63 + magnitude else magnitude))

/-- The double nearest to an integer, unless it is beyond the greatest one. -/
def ofInt? (i : Int) : Option Float :=
  if i ≠ 0 ∧ nearestBits i.natAbs 1 = infinityBits then none
  else some (nearest (decide (i < 0)) i.natAbs 1)

end Scriptlet.Decimal
