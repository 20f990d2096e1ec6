import Scriptlet.Decimal.Binary

/-!
# The fewest digits that read back

Every real number in a certain interval around a double rounds to that double.  The decimal written for
a double has the fewest digits among the decimals in its interval, and of those with so few digits it
is the nearest; a tie goes to the even digit.  The search takes the decimal grids of one, two, three
and more digits in turn and looks at the two neighbours of the double on each of them, in exact
arithmetic; on the grid of seventeen digits it always succeeds.
-/

namespace Scriptlet.Decimal

/-- A positive decimal `digits * 10 ^ exponent`. -/
structure Digits where
  /-- The digits, read as one number. -/
  digits : Nat
  /-- The weight of the last digit. -/
  exponent : Int
deriving DecidableEq, Repr

/-- The interval of the reals that round to one double, as numerators over one denominator. -/
structure Interval where
  /-- The double itself. -/
  middle : Nat
  /-- The lower end. -/
  low : Nat
  /-- The upper end. -/
  high : Nat
  /-- The common denominator. -/
  den : Nat
  /-- Whether the ends themselves round to the double. -/
  closed : Bool

/-- The interval of `m * 2 ^ q`.  Below a power of two the doubles lie twice as dense, so the lower half
of its interval is half as long. -/
def Interval.of (m : Nat) (q : Int) : Interval :=
  let scale := Nat.pow 2 (q - 2).toNat
  { middle := 4 * m * scale
    low := (if m = Nat.pow 2 52 ∧ leastExponent < q then 4 * m - 1 else 4 * m - 2) * scale
    high := (4 * m + 2) * scale
    den := Nat.pow 2 (2 - q).toNat
    closed := m % 2 = 0 }

/-- Whether `num / den` lies in the interval, for a numerator over the same denominator times `k`. -/
def Interval.holds (i : Interval) (num k : Nat) : Bool :=
  if i.closed then i.low * k ≤ num && num ≤ i.high * k
  else i.low * k < num && num < i.high * k

/-- The least `k` with `den ≤ num * 10 ^ k`, looked for from `k` on. -/
def leadingZeros (num den : Nat) : (fuel k : Nat) → Nat
  | 0, k => k
  | fuel + 1, k => if den ≤ num then k else leadingZeros (num * 10) den fuel (k + 1)

/-- The number of decimal digits of `n`; one for zero. -/
def digitCount (n : Nat) : Nat :=
  (Nat.toDigits 10 n).length

/-- The decimal exponent of a positive fraction: it lies between `10 ^ e` and `10 ^ (e + 1)`. -/
def decimalExponent (num den : Nat) : Int :=
  if den ≤ num then (digitCount (num / den) : Int) - 1
  else -(leadingZeros num den 400 0 : Int)

/-- Looks for the interval's middle among the multiples of `10 ^ e`: the neighbour of the middle that
lies in the interval, the nearer one if both do. -/
def Interval.onGrid? (i : Interval) (e : Int) : Option Nat :=
  let up := Nat.pow 10 (-e).toNat
  let unit := i.den * Nat.pow 10 e.toNat
  let below := i.middle * up / unit
  let rest := i.middle * up % unit
  let belowHit := below ≠ 0 && i.holds (below * unit) up
  let aboveHit := i.holds ((below + 1) * unit) up
  if belowHit && aboveHit then
    if 2 * rest < unit then some below
    else if unit < 2 * rest then some (below + 1)
    else some (below + below % 2)
  else if belowHit then some below
  else if aboveHit then some (below + 1)
  else none

/-- Tries the grids of the exponents `e`, `e - 1`, `e - 2` and so on. -/
def Interval.search (i : Interval) : (tries : Nat) → (e : Int) → Digits
  | 0, e => ⟨i.middle / i.den, e⟩
  | tries + 1, e =>
    match i.onGrid? e with
    | some digits => ⟨digits, e⟩
    | none => i.search tries (e - 1)

/-- Drops trailing zero digits, at most `tries` of them. -/
def Digits.strip : (tries : Nat) → Digits → Digits
  | 0, d => d
  | tries + 1, d =>
    if d.digits ≠ 0 ∧ d.digits % 10 = 0 then strip tries ⟨d.digits / 10, d.exponent + 1⟩ else d

/-- The decimal with the fewest digits that rounds to the double `m * 2 ^ q`, for `0 < m`. -/
def shortest (m : Nat) (q : Int) : Digits :=
  let i := Interval.of m q
  (i.search 18 (decimalExponent i.middle i.den)).strip 20

end Scriptlet.Decimal
