import Scriptlet.Decimal.Binary
import Scriptlet.Text.Blank
import Scriptlet.Text.Digit

/-!
# Reading numbers

A decimal text is read as an exact fraction and then rounded once, so reading is correctly rounded for
any number of digits.  The general form allows a sign, a fraction, an exponent, single underscores
between digits, blanks around the text, and the names of the numbers that have no digits.  The digits of
every script count.
-/

namespace Scriptlet.Decimal

/-- Whether a character is a decimal digit. -/
def isDigit (c : Char) : Bool :=
  '0' ≤ c && c ≤ '9'

/-- The number that a list of digits denotes, continuing from `acc`. -/
def valueFrom (acc : Nat) (cs : List Char) : Nat :=
  cs.foldl (fun n c => n * 10 + (c.toNat - '0'.toNat)) acc

/-- The double nearest to `± mantissa * 10 ^ exponent`.  A decimal whose leading digit is far outside the
range of doubles is settled without computing the power of ten. -/
def ofDecimal (negative : Bool) (mantissa : Nat) (exponent : Int) : Float :=
  let size := exponent + ((Nat.toDigits 10 mantissa).length : Int)
  if mantissa = 0 ∨ size < -400 then nearest negative 0 1
  else if 400 < size then nearest negative (Nat.pow 2 1025) 1
  else nearest negative (mantissa * Nat.pow 10 exponent.toNat) (Nat.pow 10 (-exponent).toNat)

/-- A decimal text taken apart. -/
structure Numeral where
  /-- The digits before the point. -/
  whole : List Char
  /-- The digits after the point. -/
  fraction : List Char
  /-- The number after the exponent mark. -/
  exponent : Int

/-- The number that a numeral denotes, rounded once. -/
def Numeral.toFloat (n : Numeral) (negative : Bool) : Float :=
  ofDecimal negative (valueFrom (valueFrom 0 n.whole) n.fraction) (n.exponent - n.fraction.length)

/-- A sign in front, if there is one: whether it is a minus, and the rest. -/
def takeSign : List Char → Bool × List Char
  | '-' :: rest => (true, rest)
  | '+' :: rest => (false, rest)
  | cs => (false, cs)

/-- An exponent up to the end of the text; the empty text is the exponent zero. -/
def exponent? : List Char → Option Int
  | [] => some 0
  | mark :: rest =>
    let (negative, cs) := takeSign rest
    if (mark = 'e' ∨ mark = 'E') ∧ cs ≠ [] ∧ cs.all isDigit then
      some (if negative then -(valueFrom 0 cs : Int) else valueFrom 0 cs)
    else none

/-- Takes an unsigned decimal text apart.  It needs a digit before or after the point. -/
def Numeral.of? (cs : List Char) : Option Numeral :=
  let whole := cs.takeWhile isDigit
  let (fraction, rest) :=
    match cs.dropWhile isDigit with
    | '.' :: rest => (rest.takeWhile isDigit, rest.dropWhile isDigit)
    | rest => ([], rest)
  if whole.isEmpty && fraction.isEmpty then none
  else (exponent? rest).map fun e => ⟨whole, fraction, e⟩

/-- Removes the underscores, each of which must stand between two digits; `after` tells whether a digit
stands before the text. -/
def joinDigits (after : Bool) : List Char → Option (List Char)
  | [] => some []
  | c :: rest =>
    if c = '_' then
      if after && (rest.head?.map isDigit).getD false then joinDigits false rest else none
    else (joinDigits (isDigit c) rest).map (c :: ·)

/-- Whether a character may stand around a number: a blank that is no separator of fields. -/
def isPadding (c : Char) : Bool :=
  Text.isBlank c && !('\x1c' ≤ c && c ≤ '\x1f')

/-- The number that a text denotes, if it denotes one. -/
def read? (text : String) : Option Float := do
  let (negative, cs) := takeSign (← joinDigits false ((Text.strip isPadding text.toList).map Text.plainDigit))
  match String.ofList (cs.map Char.toLower) with
  | "inf" | "infinity" =>
    some (Float.ofBits (UInt64.ofNat (if negative then Nat.pow 2 63 + infinityBits else infinityBits)))
  | "nan" => some (Float.ofBits (UInt64.ofNat (infinityBits + Nat.pow 2 51)))
  | _ => (Numeral.of? cs).map (·.toFloat negative)

/-! ## What is a number, and what is none -/

example : read? "0.1" = some 0.1 ∧ read? " -1_0.5e1 " = some (-105) := by decide +kernel

example : read? "1e400" = read? "inf" ∧ read? "1e-400" = some 0 := by decide +kernel

example : read? "\u0661\u0662" = some 12 ∧ read? "\x1c5" = none := by decide +kernel

example : read? "" = none ∧ read? "." = none ∧ read? "1__0" = none ∧ read? "1e" = none := by
  decide +kernel

end Scriptlet.Decimal
