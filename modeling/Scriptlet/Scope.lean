import Scriptlet.RuntimeError

/-!
# Scopes

A scope binds names to values and lies inside another one, except for the root.  Seen from one scope,
the scopes that count are a chain, from that scope outwards.  Reading and assigning look for the first
scope of the chain that binds the name; declaring touches the first scope only.

Which variable a name means is decided by its key.  A binding keeps the name that it was declared under.
-/

namespace Scriptlet

/-- The bindings of one scope, the newest first.  A variable is bound at most once. -/
abbrev Frame := List (Name × Value)

namespace Frame

/-- The value that a name is bound to. -/
def find? (name : Name) : Frame → Option Value
  | [] => none
  | (x, v) :: rest => if x.key = name.key then some v else find? name rest

/-- Whether a name is bound. -/
def binds (frame : Frame) (name : Name) : Bool :=
  (frame.find? name).isSome

/-- Replaces the value of a bound name. -/
def assign (name : Name) (value : Value) : Frame → Frame
  | [] => []
  | (x, v) :: rest => if x.key = name.key then (x, value) :: rest else (x, v) :: assign name value rest

/-- The names that are bound. -/
def names (frame : Frame) : List Name :=
  frame.map (·.1)

/-- Assigning changes no name. -/
theorem names_assign (name : Name) (value : Value) (frame : Frame) :
    names (assign name value frame) = names frame := by
  induction frame with
  | nil => rfl
  | cons b rest ih =>
    obtain ⟨x, v⟩ := b
    by_cases h : x.key = name.key
    · simp [assign, names, h]
    · simpa [assign, names, h] using ih

/-- After an assignment to a bound name, that name has the new value and the others keep theirs. -/
theorem find?_assign (name x : Name) (value : Value) (frame : Frame) :
    find? x (assign name value frame) =
      if x.key = name.key then (find? name frame).map fun _ => value else find? x frame := by
  induction frame with
  | nil => simp [assign, find?]
  | cons b rest ih =>
    obtain ⟨y, v⟩ := b
    by_cases h : y.key = name.key
    · by_cases hx : x.key = name.key
      · simp [assign, find?, h, hx]
      · simp [assign, find?, h, hx, Ne.symm hx]
    · by_cases hx : x.key = name.key
      · simp [assign, find?, h, hx, ih]
      · simp [assign, find?, h, hx, ih]

end Frame

/-- The scopes that are seen from one of them, that one first. -/
abbrev Chain := List Frame

namespace Chain

/-- The value of a name in the nearest scope that binds it. -/
def find? (chain : Chain) (name : Name) : Option Value :=
  chain.findSome? (·.find? name)

/-- Replaces the value of a name in the nearest scope that binds it, if there is one. -/
def assign? (name : Name) (value : Value) : Chain → Option Chain
  | [] => none
  | frame :: outer =>
    if frame.binds name then some (frame.assign name value :: outer)
    else (assign? name value outer).map (frame :: ·)

/-- Binds a name in the first scope, unless it is bound there already. -/
def declare? (name : Name) (value : Value) : Chain → Option Chain
  | [] => none
  | frame :: outer => if frame.binds name then none else some (((name, value) :: frame) :: outer)

/-- The value of a name. -/
def read (chain : Chain) (name : Name) : Except RuntimeCause Value :=
  match chain.find? name with
  | some value => .ok value
  | none => .error (.unknownIdentifier name.text)

/-- The chain after an assignment. -/
def assign (chain : Chain) (name : Name) (value : Value) : Except RuntimeCause Chain :=
  match chain.assign? name value with
  | some chain => .ok chain
  | none => .error (.unknownVariable name.text)

/-- The chain after a declaration. -/
def declare (chain : Chain) (name : Name) (value : Value) : Except RuntimeCause Chain :=
  match chain.declare? name value with
  | some chain => .ok chain
  | none => .error (.redeclaration name.text)

/-- An assignment succeeds exactly when some scope of the chain binds the name. -/
theorem isSome_assign? (chain : Chain) (name : Name) (value : Value) :
    (chain.assign? name value).isSome = (chain.find? name).isSome := by
  induction chain with
  | nil => rfl
  | cons frame outer ih =>
    simp only [find?] at ih
    cases h : frame.find? name <;> simp [assign?, find?, Frame.binds, h, ih]

/-- An assignment leaves the names of every scope as they are. -/
theorem names_of_assign? {chain after : Chain} {name : Name} {value : Value}
    (h : chain.assign? name value = some after) :
    after.map Frame.names = chain.map Frame.names := by
  induction chain generalizing after with
  | nil => simp [assign?] at h
  | cons frame outer ih =>
    simp only [assign?] at h
    split at h
    · obtain rfl := Option.some.inj h
      simp [Frame.names_assign]
    · obtain ⟨rest, hrest, rfl⟩ := Option.map_eq_some_iff.1 h
      simp [ih hrest]

end Chain

end Scriptlet
