import Scriptlet.Json
import Scriptlet.Decimal.Layout

/-!
# Writing JSON

Two layouts are in use: the plain one puts everything on one line, the indented one gives each item and
each member a line of its own.  Characters beyond ASCII stand for themselves; infinities and the number
that is none are written by name.
-/

namespace Scriptlet.Json

/-- A character inside a JSON string. -/
def escape (c : Char) : List Char :=
  if c = '"' then ['\\', '"']
  else if c = '\\' then ['\\', '\\']
  else if c = '\n' then ['\\', 'n']
  else if c = '\r' then ['\\', 'r']
  else if c = '\t' then ['\\', 't']
  else if c = '\x08' then ['\\', 'b']
  else if c = '\x0c' then ['\\', 'f']
  else if c.toNat < 0x20 then
    ['\\', 'u', '0', '0', Nat.digitChar (c.toNat / 16), Nat.digitChar (c.toNat % 16)]
  else [c]

/-- A JSON string. -/
def writeString (s : String) : String :=
  String.ofList ('"' :: s.toList.flatMap escape ++ ['"'])

/-- A JSON number that is no integer. -/
def writeFloat (x : Float) : String :=
  match Decimal.Double.of x with
  | .nan => "NaN"
  | .infinite negative => if negative then "-Infinity" else "Infinity"
  | _ => Decimal.canonical x

/-- How the parts of a list or object are set apart. -/
structure Layout where
  /-- The number of blanks that each level of an indented text adds, if the text is indented. -/
  indent? : Option Nat

/-- Everything on one line. -/
def Layout.plain : Layout := ⟨none⟩

/-- One line for each item, two blanks for each level. -/
def Layout.indented : Layout := ⟨some 2⟩

/-- What stands before an item at the given level. -/
def Layout.newLine (layout : Layout) (level : Nat) : String :=
  match layout.indent? with
  | none => ""
  | some n => "\n" ++ String.ofList (List.replicate (level * n) ' ')

/-- What stands between two items at the given level. -/
def Layout.separator (layout : Layout) (level : Nat) : String :=
  match layout.indent? with
  | none => ", "
  | some _ => "," ++ layout.newLine level

/-- Puts the parts of a list or object between its brackets. -/
def Layout.enclose (layout : Layout) (level : Nat) (opening closing : String) (parts : List String) :
    String :=
  if parts.isEmpty then opening ++ closing
  else
    opening ++ layout.newLine (level + 1) ++ (layout.separator (level + 1)).intercalate parts
      ++ layout.newLine level ++ closing

mutual

/-- The text of a value whose own line is at the given level. -/
def write (layout : Layout) (level : Nat) : Json → String
  | null => "null"
  | bool b => if b then "true" else "false"
  | int i => toString i
  | float x => writeFloat x
  | str s => writeString s
  | list items => layout.enclose level "[" "]" (writeItems layout (level + 1) items)
  | object members => layout.enclose level "\x7b" "\x7d" (writeMembers layout (level + 1) members)

/-- The texts of the items of a list. -/
def writeItems (layout : Layout) (level : Nat) : List Json → List String
  | [] => []
  | item :: rest => write layout level item :: writeItems layout level rest

/-- The texts of the members of an object. -/
def writeMembers (layout : Layout) (level : Nat) : List (String × Json) → List String
  | [] => []
  | (key, value) :: rest =>
    (writeString key ++ ": " ++ write layout level value) :: writeMembers layout level rest

end

/-- The text of a value on one line. -/
def compact (json : Json) : String :=
  json.write .plain 0

/-- The text of a value with one line for each item. -/
def pretty (json : Json) : String :=
  json.write .indented 0

end Scriptlet.Json
