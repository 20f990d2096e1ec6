import Scriptlet.Json.Display
import Scriptlet.Json.Equal

/-!
# Names

Variables go by the texts of their identifiers.  In a tree read from a file another bare value may stand
where a text should, and it names a variable as well.  Which one is decided by its key, so two names mean
one variable exactly when they are equal values; messages show each of them as it is written.
-/

namespace Scriptlet

/-- A value that can name a variable. -/
structure Name where
  /-- The name as it is written. -/
  value : Json
  /-- What it stands for. -/
  key : Key
  /-- It stands for its key. -/
  key?_value : value.key? = some key

namespace Name

/-- The name that an identifier is. -/
def ofText (s : String) : Name := ⟨.str s, .text s, rfl⟩

/-- The name that a value is, if it is one; neither lists nor objects are. -/
def ofJson? (value : Json) : Option Name :=
  match h : value.key? with
  | some key => some ⟨value, key, h⟩
  | none => none

/-- The name as messages show it. -/
def text (name : Name) : String :=
  name.value.inText

/-- The text of an identifier is its name. -/
theorem ofJson?_str (s : String) : ofJson? (.str s) = some (ofText s) := rfl

/-- Two identifiers mean one variable only if their texts are equal. -/
theorem key_ofText_inj {s t : String} : (ofText s).key = (ofText t).key ↔ s = t := by
  simp [ofText]

/-- An identifier is shown as its text. -/
theorem text_ofText (s : String) : (ofText s).text = s := rfl

end Name

end Scriptlet
