import Scriptlet.Decimal.Shortest

/-!
# Writing numbers

Two texts of a double are in use.  The *canonical* text is for data: the fewest digits that read back,
positional when the scientific exponent lies between -4 and 15, and always with a point or an exponent.
The *printed* text is for the reader of a script's output: an integral number below 10 ^ 21 is written
with its exact digits and no point, and anything else as in the canonical text.
-/

namespace Scriptlet.Decimal

/-- The decisions of a format for decimals. -/
structure Layout where
  /-- The least scientific exponent that is written positionally. -/
  positionalFrom : Int
  /-- The least scientific exponent that is again written with an exponent. -/
  positionalBelow : Int
  /-- What ends an integral number in positional notation. -/
  integralMark : String
  /-- The least number of digits of a written exponent. -/
  exponentWidth : Nat
  /-- The text of zero, without its sign. -/
  zero : String

/-- The canonical text writes exponents from -4 to 15 positionally and marks integral numbers by a
fraction of zero. -/
def canonicalLayout : Layout := ⟨-4, 16, ".0", 2, "0.0"⟩

/-- The decimal digits of `n`. -/
def digitChars (n : Nat) : List Char :=
  Nat.toDigits 10 n

/-- `n` with zeros in front, up to the given width. -/
def padded (width n : Nat) : List Char :=
  let cs := digitChars n
  List.replicate (width - cs.length) '0' ++ cs

/-- A decimal without an exponent. -/
def Layout.positional (l : Layout) (d : Digits) : List Char :=
  let cs := digitChars d.digits
  if 0 ≤ d.exponent then
    cs ++ List.replicate d.exponent.toNat '0' ++ l.integralMark.toList
  else
    let fraction := (-d.exponent).toNat
    if fraction < cs.length then
      cs.take (cs.length - fraction) ++ '.' :: cs.drop (cs.length - fraction)
    else '0' :: '.' :: List.replicate (fraction - cs.length) '0' ++ cs

/-- A decimal with one digit before the point and an exponent `e`. -/
def Layout.scientific (l : Layout) (d : Digits) (e : Int) : List Char :=
  let significand :=
    match digitChars d.digits with
    | [] => []
    | [c] => [c]
    | c :: rest => c :: '.' :: rest
  significand ++ 'e' :: (if e < 0 then '-' else '+') :: padded l.exponentWidth e.natAbs

/-- A positive decimal in this layout. -/
def Layout.write (l : Layout) (d : Digits) : List Char :=
  let e := d.exponent + (digitCount d.digits : Int) - 1
  if l.positionalFrom ≤ e ∧ e < l.positionalBelow then l.positional d else l.scientific d e

/-- The text of a double in this layout. -/
def Layout.text (l : Layout) : Double → String
  | .nan => "nan"
  | .infinite negative => if negative then "-inf" else "inf"
  | .finite negative m q =>
    let body := if m = 0 then l.zero.toList else l.write (shortest m q)
    String.ofList (if negative then '-' :: body else body)

/-- The canonical text of a number, which no other number shares. -/
def canonical (x : Float) : String :=
  canonicalLayout.text (Double.of x)

/-- The natural number `m * 2 ^ q`, if it is one. -/
def natural? (m : Nat) (q : Int) : Option Nat :=
  if 0 ≤ q then some (m * Nat.pow 2 q.toNat)
  else if m % Nat.pow 2 (-q).toNat = 0 then some (m / Nat.pow 2 (-q).toNat)
  else none

/-- Integral numbers from here on are printed like fractions. -/
def printedIntegerBound : Nat := Nat.pow 10 21

/-- The text of a double as scripts print it. -/
def Double.printed (d : Double) : String :=
  match d with
  | .finite negative m q =>
    match natural? m q with
    | some n =>
      if n < printedIntegerBound then
        String.ofList (if negative then '-' :: digitChars n else digitChars n)
      else canonicalLayout.text d
    | none => canonicalLayout.text d
  | _ => canonicalLayout.text d

/-- The text that scripts print for a number. -/
def printed (x : Float) : String :=
  (Double.of x).printed

/-! ## The two texts side by side -/

example : canonical 0.1 = "0.1" ∧ printed 0.1 = "0.1" := by decide +kernel

example : canonical 3 = "3.0" ∧ printed 3 = "3" := by decide +kernel

example : canonical (-0.0) = "-0.0" ∧ printed (-0.0) = "-0" := by decide +kernel

example : canonical 1e16 = "1e+16" ∧ printed 1e16 = "10000000000000000" := by decide +kernel

example : canonical 1e21 = "1e+21" ∧ printed 1e21 = "1e+21" := by decide +kernel

example : canonical 1e-5 = "1e-05" ∧ printed 5e-324 = "5e-324" := by decide +kernel

end Scriptlet.Decimal
