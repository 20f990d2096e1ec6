import Scriptlet.RuntimeError
import Scriptlet.Run.Event
import Scriptlet.Scope

/-!
# What a run changes, and how it stops

A run changes the scopes that it sees, records events, counts the calls that are active, and numbers the
functions that it makes and the times that it reads the clock.  All of it is kept however a run ends: an
error does not take back what was done before it.
-/

namespace Scriptlet

/-- What a run changes. -/
structure State where
  /-- The scopes, the innermost first. -/
  scopes : Chain
  /-- The events so far, the newest first. -/
  log : List Event
  /-- The number of calls that are active. -/
  callDepth : Nat
  /-- The number of functions made so far. -/
  made : Nat
  /-- The number of times that the clock was read. -/
  readings : Nat

/-- Why a statement or an expression does not end in the usual way. -/
inductive Stop where
  /-- A return statement was executed. -/
  | returned (value : Value)
  /-- The script is wrong. -/
  | failed (error : RuntimeError)
  /-- The tree is wrong. -/
  | fault (fault : Fault)
  /-- The nesting limit is reached. -/
  | tooDeep
  /-- A loop has made as many turns as it may. -/
  | outOfTurns

/-- A computation of a run. -/
abbrev Exec := EStateM Stop State

/-- What a run takes from its surroundings. -/
structure Setting where
  /-- How deeply trees and calls may be nested. -/
  depth : Nat
  /-- How many turns one loop may make. -/
  turns : Nat
  /-- What the clock shows, for each time that it is read. -/
  clock : Nat → Float

namespace Exec

/-- Records an event. -/
def record (event : Event) : Exec Unit :=
  modify fun s => { s with log := event :: s.log }

/-- Stops with an error that is reported at a token. -/
def fail {α : Type} (cause : RuntimeCause) (t : Leaf) : Exec α :=
  throw (.failed ⟨cause, some t.place⟩)

/-- A part of a tree, or the fault that keeps it from being used. -/
def part {α : Type} : Except Fault α → Exec α
  | .ok a => pure a
  | .error f => throw (.fault f)

/-- Stops with an error that is reported at the token that `place` should be. -/
def failAt {α : Type} (cause : RuntimeCause) (place : Node) : Exec α := do
  fail cause (← part place.leaf?)

/-- The value of the variable that a token names. -/
def lookUp (t : Leaf) : Exec Value := do
  let name ← part t.name?
  match (← get).scopes.read name with
  | .ok value => return value
  | .error cause => fail cause t

/-- Assigns to the variable that a token names. -/
def assign (t : Leaf) (value : Value) : Exec Unit := do
  let name ← part t.name?
  let s ← get
  match s.scopes.assign name value with
  | .ok scopes => set { s with scopes }
  | .error cause => fail cause t

/-- Declares the variable that a token names. -/
def declare (t : Leaf) (value : Value) : Exec Unit := do
  let name ← part t.name?
  let s ← get
  match s.scopes.declare name value with
  | .ok scopes => set { s with scopes }
  | .error cause => fail cause t

/-- Runs a computation in a fresh scope, which is dropped however the computation ends. -/
def inFreshScope {α : Type} (act : Exec α) : Exec α := fun s =>
  match act { s with scopes := [] :: s.scopes } with
  | .ok a s => .ok a { s with scopes := s.scopes.tail }
  | .error stop s => .error stop { s with scopes := s.scopes.tail }

/-- Runs the body of a function as an active call: what it returns is the value of the call, and nothing
if it returns nothing.  If the nesting limit is reached in it, the call itself fails, at `paren`. -/
def asCall (paren : Node) (body : Exec Unit) : Exec Value := fun s =>
  match body { s with callDepth := s.callDepth + 1 } with
  | .ok () s => .ok .nil { s with callDepth := s.callDepth - 1 }
  | .error (.returned value) s => .ok value { s with callDepth := s.callDepth - 1 }
  | .error .tooDeep s => failAt .callsTooDeep paren { s with callDepth := s.callDepth - 1 }
  | .error stop s => .error stop { s with callDepth := s.callDepth - 1 }

/-- Makes a function. -/
def makeFunction (name : String) (params body : Node) : Exec Value := do
  let s ← get
  set { s with made := s.made + 1 }
  return .function ⟨s.made, name, params, body⟩

/-- Reads the clock. -/
def readClock (clock : Nat → Float) : Exec Value := do
  let s ← get
  set { s with readings := s.readings + 1 }
  return .number (clock s.readings)

/-- Runs a body for as long as a test holds, for at most `turns` turns. -/
def repeatWhile (test : Exec Bool) (body : Exec Unit) : (turns : Nat) → Exec Unit
  | 0 => throw .outOfTurns
  | turns + 1 => do
    if ← test then
      body
      repeatWhile test body turns

end Exec

end Scriptlet
