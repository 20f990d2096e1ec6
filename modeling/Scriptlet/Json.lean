/-!
# JSON values

Trees are stored as JSON.  Integers and fractions are kept apart, because `3` and `3.0` are different
texts and only one of them is an integer.  An object is the list of its members in the order in which
their keys first appeared.
-/

namespace Scriptlet

/-- A JSON value. -/
inductive Json where
  | null
  | bool (b : Bool)
  | int (i : Int)
  | float (x : Float)
  | str (s : String)
  | list (items : List Json)
  | object (members : List (String × Json))
deriving Inhabited

namespace Json

/-- Adds a member; one of the same key is replaced where it stands. -/
def insert (members : List (String × Json)) (key : String) (value : Json) : List (String × Json) :=
  if members.any (·.1 = key) then members.map fun m => if m.1 = key then (key, value) else m
  else members ++ [(key, value)]

end Json

end Scriptlet
