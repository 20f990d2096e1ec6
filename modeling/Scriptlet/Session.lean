import Scriptlet.Grammar.Program
import Scriptlet.Run.Evaluate
import Scriptlet.Scope.Tree
import Scriptlet.Tree.Codec

/-!
# Sessions

A session interprets one source after another on the same scopes.  A source with lexical errors or a
syntax error is rejected before anything of it runs; otherwise its statements run until the end or until
the first error, and whatever they did stays done.
-/

namespace Scriptlet

/-- Why interpreting a source or running a tree does not succeed. -/
inductive Failure where
  /-- The source has lexical errors. -/
  | scan (errors : List LexicalError)
  /-- The source has a syntax error. -/
  | parse (error : Grammar.ParseError)
  /-- The stored tree cannot be loaded. -/
  | load (error : LoadError)
  /-- The run stopped. -/
  | run (stop : Stop)

/-- The text that reports a failure.  A failure that no source text can cause has none. -/
def Failure.text? : Failure → Option String
  | scan errors => some ("\n".intercalate (errors.map LexicalError.text))
  | parse error =>
    match error.cause with
    | .badNumber _ | .noEnd => none
    | _ => some error.text
  | run (.failed error) => some error.text
  | _ => none

/-- The statements of a scanned source, if it has neither lexical errors nor a syntax error. -/
def Scan.statements (scan : Scan) : Except Failure (List Node) :=
  if scan.errors.isEmpty then (Grammar.parse (scan.tokens.map Token.leaf)).mapError .parse
  else .error (.scan scan.errors)

/-- What interpreting a source shows, and why it failed if it did. -/
structure Report where
  /-- The events, in their order. -/
  events : List Event
  /-- What went wrong. -/
  failure? : Option Failure

/-- What stays from one source to the next. -/
structure Session where
  /-- The scopes. -/
  scopes : ScopeTree
  /-- The number of calls that are active. -/
  callDepth : Nat
  /-- The number of functions made so far. -/
  made : Nat
  /-- The number of times that the clock was read. -/
  readings : Nat
  /-- How the events are looked at. -/
  view : View

namespace Session

/-- A session with a debug level; its debug lines go to a file of their own. -/
def start (level : Nat) : Session :=
  ⟨.root, 0, 0, 0, ⟨level, 0 < level⟩⟩

/-- Closes the debug file: from now on debug lines go to the output. -/
def closeDebug (session : Session) : Session :=
  { session with view := { session.view with separate := false } }

/-- Opens a scope inside the scope of the given number. -/
def openScope (session : Session) (parent : Nat) : Session :=
  { session with scopes := session.scopes.extend [] (some parent) }

/-- The state in which a run in the scope of the given number begins. -/
def state (session : Session) (scope : Nat) : State :=
  ⟨session.scopes.chain scope, [], session.callDepth, session.made, session.readings⟩

/-- The session after a run in the scope of the given number. -/
def resume (session : Session) (scope : Nat) (final : State) : Session :=
  { session with
    scopes := session.scopes.write scope final.scopes
    callDepth := final.callDepth
    made := final.made
    readings := final.readings }

/-- Runs statements in a scope. -/
def run (setting : Setting) (session : Session) (scope : Nat) (statements : List Node) :
    Report × Session :=
  match Exec.run setting statements (session.state scope) with
  | .ok () final => (⟨final.log.reverse, none⟩, session.resume scope final)
  | .error stop final => (⟨final.log.reverse, some (.run stop)⟩, session.resume scope final)

/-- Runs the statements that a JSON value stores. -/
def runJson (setting : Setting) (session : Session) (scope : Nat) (json : Json) : Report × Session :=
  match Node.programOfJson json with
  | .ok statements => session.run setting scope statements
  | .error error => (⟨[], some (.load error)⟩, session)

/-- The events of scanning a source. -/
def scanEvents (scan : Scan) : List Event :=
  .scanned scan.tokens.length scan.errors.length :: scan.tokens.map .token

/-- The events of parsing a program. -/
def parseEvents (statements : List Node) : List Event :=
  .parsed statements.length :: statements.map .statement

/-- Interprets a source in a scope. -/
def interpret (setting : Setting) (session : Session) (scope : Nat) (source : List UInt8) :
    Report × Session :=
  let scan := Scan.ofBytes source
  let scanned := scanEvents scan
  match scan.statements with
  | .error failure => (⟨scanned, some failure⟩, session)
  | .ok statements =>
    let (report, session) := session.run setting scope statements
    ({ report with events := scanned ++ parseEvents statements ++ report.events }, session)

/-- The output of a report. -/
def output (session : Session) (report : Report) : String :=
  session.view.output report.events

/-- The limits of an ordinary run: trees and calls may be nested a thousand deep, and no loop is ever
long enough to be stopped. -/
def limits (clock : Nat → Float) : Setting :=
  ⟨1000, Nat.pow 2 62, clock⟩

end Session

end Scriptlet
