import Scriptlet.Json
import Scriptlet.Decimal.Read

/-!
# Reading JSON

The reader accepts the standard grammar and the names of the numbers without digits.  Of two members of
one key the last one counts.  A number is an integer exactly when it has neither a fraction nor an
exponent.  Recursion is on a bound for the steps left, which the length of the text provides.
-/

namespace Scriptlet.Json

/-- Whether a character may stand between two tokens. -/
def isSpace (c : Char) : Bool :=
  c = ' ' || c = '\n' || c = '\r' || c = '\t'

/-- Drops the white space in front. -/
def skip (cs : List Char) : List Char :=
  cs.dropWhile isSpace

/-- The value of a hexadecimal digit. -/
def hexDigit? (c : Char) : Option Nat :=
  if '0' ≤ c ∧ c ≤ '9' then some (c.toNat - '0'.toNat)
  else if 'a' ≤ c ∧ c ≤ 'f' then some (c.toNat - 'a'.toNat + 10)
  else if 'A' ≤ c ∧ c ≤ 'F' then some (c.toNat - 'A'.toNat + 10)
  else none

/-- Reads four hexadecimal digits. -/
def takeHex4 : List Char → Option (Nat × List Char)
  | a :: b :: c :: d :: rest => do
    let n := (((← hexDigit? a) * 16 + (← hexDigit? b)) * 16 + (← hexDigit? c)) * 16 + (← hexDigit? d)
    some (n, rest)
  | _ => none

/-- The character of one code unit; half of a pair alone is no character. -/
def unitChar (n : Nat) : Char :=
  if 0xD800 ≤ n ∧ n < 0xE000 then '\uFFFD' else Char.ofNat n

/-- Reads the code unit behind `\u`, and with it a second one if the two are a pair. -/
def takeUnicode (cs : List Char) : Option (Char × List Char) := do
  let (high, rest) ← takeHex4 cs
  if 0xD800 ≤ high ∧ high < 0xDC00 then
    match rest with
    | '\\' :: 'u' :: more =>
      match takeHex4 more with
      | some (low, rest') =>
        if 0xDC00 ≤ low ∧ low < 0xE000 then
          some (Char.ofNat (0x10000 + (high - 0xD800) * 0x400 + (low - 0xDC00)), rest')
        else some (unitChar high, rest)
      | none => some (unitChar high, rest)
    | _ => some (unitChar high, rest)
  else some (unitChar high, rest)

/-- Reads the character behind a backslash. -/
def takeEscape : List Char → Option (Char × List Char)
  | '"' :: rest => some ('"', rest)
  | '\\' :: rest => some ('\\', rest)
  | '/' :: rest => some ('/', rest)
  | 'b' :: rest => some ('\x08', rest)
  | 'f' :: rest => some ('\x0c', rest)
  | 'n' :: rest => some ('\n', rest)
  | 'r' :: rest => some ('\r', rest)
  | 't' :: rest => some ('\t', rest)
  | 'u' :: rest => takeUnicode rest
  | _ => none

/-- Reads a string behind its opening quote, on top of the reversed characters `acc`. -/
def takeString : (fuel : Nat) → (acc : List Char) → List Char → Option (String × List Char)
  | 0, _, _ => none
  | _ + 1, _, [] => none
  | fuel + 1, acc, c :: rest =>
    if c = '"' then some (String.ofList acc.reverse, rest)
    else if c = '\\' then
      match takeEscape rest with
      | some (d, rest') => takeString fuel (d :: acc) rest'
      | none => none
    else if c.toNat < 0x20 then none
    else takeString fuel (c :: acc) rest

/-- Reads the fraction of a number: a point and digits. -/
def takeFraction : List Char → Option (List Char × List Char)
  | '.' :: rest =>
    let digits := rest.takeWhile Decimal.isDigit
    if digits.isEmpty then none else some (digits, rest.drop digits.length)
  | _ => none

/-- Reads the exponent of a number: its mark, a sign perhaps, and digits. -/
def takeExponent : List Char → Option (Int × List Char)
  | mark :: rest =>
    let (negative, cs) := Decimal.takeSign rest
    let digits := cs.takeWhile Decimal.isDigit
    if (mark = 'e' ∨ mark = 'E') ∧ digits ≠ [] then
      let n : Int := Decimal.valueFrom 0 digits
      some (if negative then -n else n, cs.drop digits.length)
    else none
  | [] => none

/-- Reads a number that is written with digits. -/
def takeNumber (cs : List Char) : Option (Json × List Char) :=
  let (negative, cs) :=
    match cs with
    | '-' :: rest => (true, rest)
    | _ => (false, cs)
  let digits := cs.takeWhile Decimal.isDigit
  let whole := if digits.head? = some '0' then ['0'] else digits
  let rest := cs.drop whole.length
  if whole.isEmpty then none
  else
    let fraction? := takeFraction rest
    let (fraction, rest) := fraction?.getD ([], rest)
    let exponent? := takeExponent rest
    let (exponent, rest) := exponent?.getD (0, rest)
    if fraction?.isNone && exponent?.isNone then
      let n : Int := Decimal.valueFrom 0 whole
      some (int (if negative then -n else n), rest)
    else some (float ((Decimal.Numeral.mk whole fraction exponent).toFloat negative), rest)

/-- The values that are written by name. -/
def literals : List (String × Json) :=
  [("null", null), ("true", bool true), ("false", bool false),
   ("NaN", float (Float.ofBits (UInt64.ofNat (Decimal.infinityBits + Nat.pow 2 51)))),
   ("Infinity", float (Float.ofBits (UInt64.ofNat Decimal.infinityBits))),
   ("-Infinity", float (Float.ofBits (UInt64.ofNat (Nat.pow 2 63 + Decimal.infinityBits))))]

/-- Reads a value that is written by name. -/
def takeLiteral (cs : List Char) : Option (Json × List Char) :=
  (literals.find? fun entry => entry.1.toList.isPrefixOf cs).map fun entry =>
    (entry.2, cs.drop entry.1.length)

mutual

/-- Reads one value. -/
def takeValue : (fuel : Nat) → List Char → Option (Json × List Char)
  | 0, _ => none
  | fuel + 1, cs =>
    match cs with
    | '"' :: rest => (takeString (rest.length + 1) [] rest).map fun (s, rest) => (str s, rest)
    | '[' :: rest =>
      match skip rest with
      | ']' :: rest => some (list [], rest)
      | rest => (takeItems fuel rest).map fun (items, rest) => (list items, rest)
    | '\x7b' :: rest =>
      match skip rest with
      | '\x7d' :: rest => some (object [], rest)
      | rest => (takeMembers fuel [] rest).map fun (members, rest) => (object members, rest)
    | _ => (takeLiteral cs).or (takeNumber cs)

/-- Reads the items of a list that is not empty, with its closing bracket. -/
def takeItems : (fuel : Nat) → List Char → Option (List Json × List Char)
  | 0, _ => none
  | fuel + 1, cs => do
    let (item, rest) ← takeValue fuel cs
    match skip rest with
    | ']' :: rest => some ([item], rest)
    | ',' :: rest =>
      let (items, rest) ← takeItems fuel (skip rest)
      some (item :: items, rest)
    | _ => none

/-- Reads the members of an object that is not empty, with its closing brace, after the members
`before`. -/
def takeMembers : (fuel : Nat) → (before : List (String × Json)) → List Char →
    Option (List (String × Json) × List Char)
  | 0, _, _ => none
  | fuel + 1, before, cs =>
    match cs with
    | '"' :: rest => do
      let (key, rest) ← takeString (rest.length + 1) [] rest
      match skip rest with
      | ':' :: rest =>
        let (value, rest) ← takeValue fuel (skip rest)
        let members := insert before key value
        match skip rest with
        | '\x7d' :: rest => some (members, rest)
        | ',' :: rest => takeMembers fuel members (skip rest)
        | _ => none
      | _ => none
    | _ => none

end

/-- The value that a text holds, if it holds one value and nothing else. -/
def read? (text : String) : Option Json :=
  let cs := text.toList
  match takeValue (cs.length + 1) (skip cs) with
  | some (json, rest) => if (skip rest).isEmpty then some json else none
  | none => none

end Scriptlet.Json
