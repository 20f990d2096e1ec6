import Scriptlet.Token.Scan
import Scriptlet.Tree.Print
import Scriptlet.Value

/-!
# Events of a run

Everything that a run shows is an event: a line that it prints, or a step that a debugging reader may
want to follow.  A run records all of its events.  Which of the steps are shown, and where, is decided
when the events are looked at, so looking closer cannot change what a run does.
-/

namespace Scriptlet

/-- Something that a run shows. -/
inductive Event where
  /-- A value was printed. -/
  | printed (value : Value)
  /-- A source was scanned. -/
  | scanned (tokens errors : Nat)
  /-- A token was found. -/
  | token (token : Token)
  /-- A program was parsed. -/
  | parsed (statements : Nat)
  /-- A statement of a program was parsed. -/
  | statement (node : Node)
  /-- The statements begin to run. -/
  | runStart
  /-- The statements have run. -/
  | runEnd
  /-- A variable was declared. -/
  | declared (name : String) (value : Value)
  /-- A function was declared. -/
  | defined (name : String)
  /-- The condition of an `if` statement was evaluated. -/
  | ifCondition (value : Value)
  /-- The condition of a `while` statement was evaluated. -/
  | whileCondition (value : Value)
  /-- A function is called. -/
  | called (callee : Value) (arguments : Nat)

namespace Event

/-- The debug level from which on an event is shown; what is printed is always shown. -/
def level : Event → Nat
  | printed _ => 0
  | scanned _ _ | parsed _ | runStart | runEnd => 1
  | declared _ _ | defined _ => 2
  | ifCondition _ | whileCondition _ | called _ _ => 3
  | token _ | statement _ => 4

/-- The text that shows a statement; one that has none is shown by nothing. -/
def statementText (node : Node) : String :=
  match node.print with
  | .ok (.str text) => text
  | _ => ""

/-- The text that shows an event. -/
def text : Event → String
  | printed value => value.text
  | scanned tokens errors => s!"scanned {tokens} tokens, {errors} errors"
  | token t => t.describe
  | parsed statements => s!"parsed {statements} statements"
  | statement node => statementText node
  | runStart => "run start"
  | runEnd => "run end"
  | declared name value => s!"declare {name}: {value.type.name} = {value.text}"
  | defined name => "define function " ++ name
  | ifCondition value => s!"if condition {value.text} -> {Json.showBool value.truthy}"
  | whileCondition value => "while condition " ++ value.text
  | called callee arguments => s!"call {callee.text} with {arguments} arguments"

/-- Whether an event is a line that the script prints. -/
def isPrinted : Event → Bool
  | printed _ => true
  | _ => false

end Event

/-- How the events of a run are looked at. -/
structure View where
  /-- The debug level. -/
  level : Nat
  /-- Whether debug lines go to a file of their own and not among the printed lines. -/
  separate : Bool
deriving DecidableEq, Repr

namespace View

/-- The events that are shown, in their order. -/
def shown (view : View) (events : List Event) : List Event :=
  events.filter fun e => e.level ≤ view.level

/-- The lines of the debug file. -/
def debugLines (view : View) (events : List Event) : List String :=
  if view.separate then ((view.shown events).filter (!·.isPrinted)).map Event.text else []

/-- The lines of the output. -/
def outputLines (view : View) (events : List Event) : List String :=
  let shown := view.shown events
  (if view.separate then shown.filter Event.isPrinted else shown).map Event.text

/-- Lines as one text, each of them ended. -/
def ofLines (lines : List String) : String :=
  lines.foldl (fun text line => text ++ line ++ "\n") ""

/-- The output as one text. -/
def output (view : View) (events : List Event) : String :=
  ofLines (view.outputLines events)

/-- The debug file as one text. -/
def debugText (view : View) (events : List Event) : String :=
  ofLines (view.debugLines events)

end View

end Scriptlet
