import Scriptlet.Json
import Scriptlet.Decimal.Layout
import Scriptlet.Text.Quoted

/-!
# Showing values in messages

Messages show a value in a notation of their own: texts are quoted, the null value and the truth values
have capitalised names, lists and objects stand in brackets.
-/

namespace Scriptlet.Json

/-- The name of a truth value in messages. -/
def showBool (b : Bool) : String :=
  if b then "True" else "False"

mutual

/-- A value as messages show it. -/
def display : Json → String
  | null => "None"
  | bool b => showBool b
  | int i => toString i
  | float x => Decimal.canonical x
  | str s => Text.quoted s
  | list items => "[" ++ ", ".intercalate (displayItems items) ++ "]"
  | object members => "\x7b" ++ ", ".intercalate (displayMembers members) ++ "\x7d"

/-- The items of a list as messages show them. -/
def displayItems : List Json → List String
  | [] => []
  | item :: rest => display item :: displayItems rest

/-- The members of an object as messages show them. -/
def displayMembers : List (String × Json) → List String
  | [] => []
  | (key, value) :: rest => (Text.quoted key ++ ": " ++ display value) :: displayMembers rest

end

/-- A value as it is put into a line of text: a text stands for itself, anything else is displayed. -/
def inText : Json → String
  | str s => s
  | json => json.display

end Scriptlet.Json
