import Scriptlet.Json.Display
import Scriptlet.Token

/-!
# Places in messages

A message shows the line and the column of the token it is about.  Those of a token that was scanned are
numbers; one that was read from a file may have anything there, which is then shown as it is.
-/

namespace Scriptlet

/-- What a message shows as its place. -/
structure Place where
  /-- What stands for the line. -/
  line : Json
  /-- What stands for the column. -/
  column : Json
deriving Inhabited

/-- A position as the place of a message. -/
def Position.place (position : Position) : Place :=
  ⟨.int position.line, .int position.column⟩

/-- Different positions are different places. -/
theorem Position.place_inj {a b : Position} : a.place = b.place ↔ a = b := by
  cases a; cases b; simp [place]

/-- A message with the place it is about, if there is one.  A place without a line is not shown. -/
def located (message : String) : Option Place → String
  | none => message
  | some place =>
    match place.line with
    | .null => message
    | line => s!"{message} (line {line.inText} col {place.column.inText})"

end Scriptlet
