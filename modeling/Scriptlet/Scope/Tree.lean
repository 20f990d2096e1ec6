import Scriptlet.Scope

/-!
# Trees of scopes

Scopes that outlive a run form a tree.  They are numbered in the order in which they were opened, and a
scope lies inside one that was opened before it, so the list of scopes, the newest first, can be walked
from any scope outwards.  An operation on a scope is the operation on the chain seen from it, whose
frames are then written back.
-/

namespace Scriptlet

/-- A scope of a tree. -/
structure Scope where
  /-- Its own bindings. -/
  frame : Frame
  /-- The number of the scope that it lies in, unless it is a root. -/
  parent? : Option Nat

/-- The scopes of a tree, the newest first; a scope's number is the number of scopes behind it. -/
abbrev ScopeTree := List Scope

namespace ScopeTree

/-- The bindings that every root scope starts with. -/
def builtins : Frame := [(.ofText "clock", .clock)]

/-- A tree of one scope, which holds what is built in. -/
def root : ScopeTree := [⟨builtins, none⟩]

/-- The number of the first scope. -/
def rootNumber : Nat := 0

/-- Opens a scope; its number is the number of scopes before. -/
def extend (tree : ScopeTree) (frame : Frame) (parent? : Option Nat) : ScopeTree :=
  ⟨frame, parent?⟩ :: tree

/-- The chain that is seen from the scope of the given number. -/
def chain : ScopeTree → Nat → Chain
  | [], _ => []
  | scope :: older, n =>
    if n = older.length then
      match scope.parent? with
      | some p => scope.frame :: chain older p
      | none => [scope.frame]
    else chain older n

/-- Writes the frames of a chain back to the scope of the given number and those around it. -/
def write : ScopeTree → Nat → Chain → ScopeTree
  | [], _, _ => []
  | scope :: older, _, [] => scope :: older
  | scope :: older, n, frame :: outer =>
    if n = older.length then
      match scope.parent? with
      | some p => { scope with frame } :: write older p outer
      | none => { scope with frame } :: older
    else scope :: write older n (frame :: outer)

/-- Writing frames back opens and closes no scope. -/
theorem length_write (tree : ScopeTree) (n : Nat) (chain : Chain) :
    (tree.write n chain).length = tree.length := by
  induction tree generalizing n chain with
  | nil => rfl
  | cons scope older ih =>
    cases chain with
    | nil => rfl
    | cons frame outer =>
      simp only [write]
      split
      · split <;> simp [ih]
      · simp [ih]

/-- The bindings of one scope. -/
def frame (tree : ScopeTree) (n : Nat) : Frame :=
  (tree.chain n).headD []

/-- The value of a name seen from a scope. -/
def read (tree : ScopeTree) (n : Nat) (name : Name) : Except RuntimeCause Value :=
  (tree.chain n).read name

/-- The tree after an assignment to a name seen from a scope. -/
def assign (tree : ScopeTree) (n : Nat) (name : Name) (value : Value) :
    Except RuntimeCause ScopeTree :=
  ((tree.chain n).assign name value).map (tree.write n)

/-- The tree after a declaration in a scope. -/
def declare (tree : ScopeTree) (n : Nat) (name : Name) (value : Value) :
    Except RuntimeCause ScopeTree :=
  ((tree.chain n).declare name value).map (tree.write n)

end ScopeTree

end Scriptlet
