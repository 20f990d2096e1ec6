import Scriptlet.Text.Printable

/-!
# Quoted text

A text is quoted by single quotes, or by double quotes when it holds a single quote and no double one.
Inside, the closing quote and the backslash stand behind a backslash, line feed, carriage return and
tab have their letters, and any other unprintable character is written by its code point in two, four
or eight hexadecimal digits.
-/

namespace Scriptlet.Text

/-- The last `width` hexadecimal digits of `n`, in lower case. -/
def hex (width n : Nat) : List Char :=
  match width with
  | 0 => []
  | w + 1 => hex w (n / 16) ++ [Nat.digitChar (n % 16)]

/-- The quote that a text is written between. -/
def quoteFor (cs : List Char) : Char :=
  if cs.contains '\'' && !cs.contains '"' then '"' else '\''

/-- One character as it stands between the quotes `quote`. -/
def escape (quote c : Char) : List Char :=
  if c = quote || c = '\\' then ['\\', c]
  else if c = '\n' then ['\\', 'n']
  else if c = '\r' then ['\\', 'r']
  else if c = '\t' then ['\\', 't']
  else if isPrintable c then [c]
  else if c.toNat < 0x100 then ['\\', 'x'] ++ hex 2 c.toNat
  else if c.toNat < 0x10000 then ['\\', 'u'] ++ hex 4 c.toNat
  else ['\\', 'U'] ++ hex 8 c.toNat

/-- The quoted form of a text. -/
def quoted (text : String) : String :=
  let cs := text.toList
  let quote := quoteFor cs
  String.ofList (quote :: cs.flatMap (escape quote) ++ [quote])

example : quoted "wat" = "'wat'" ∧ quoted "it's" = "\"it's\"" := by decide +kernel

example : quoted "'\"" = "'\\'\"'" ∧ quoted "\n\x00\\" = "'\\n\\x00\\\\'" := by decide +kernel

end Scriptlet.Text
