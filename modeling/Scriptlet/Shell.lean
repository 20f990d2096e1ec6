import Scriptlet.Session
import Scriptlet.Text.Blank

/-!
# The shell

The shell takes lines.  A few of them are commands; every other one is source text, which is interpreted
as soon as all its braces are closed and kept back until then.  Commands work in the middle of a kept
back text, too, and leave it as it is.
-/

namespace Scriptlet

/-- What a line asks for. -/
inductive Command where
  /-- Nothing. -/
  | empty
  /-- To leave. -/
  | leave
  /-- To leave because the input has ended. -/
  | endOfInput
  /-- To explain a command, or all of them if the topic is empty. -/
  | help (topic : String)
  /-- To interpret the line as source text. -/
  | source (text : String)
deriving DecidableEq, Repr

namespace Command

/-- Whether a character may be part of a command's name. -/
def isNameChar (c : Char) : Bool :=
  c.isAlphanum || c = '_'

/-- The command of a line that neither is empty nor begins with a mark. -/
def ofWords (cs : List Char) : Command :=
  let topic := String.ofList (Text.trim (cs.dropWhile isNameChar))
  match String.ofList (cs.takeWhile isNameChar) with
  | "exit" => leave
  | "EOF" => endOfInput
  | "help" => help topic
  | _ => source (String.ofList cs)

/-- What a line asks for.  Blanks at its ends do not count, a question mark at its front asks for help,
and an exclamation mark makes it source text whatever follows. -/
def ofLine (line : String) : Command :=
  match Text.trim line.toList with
  | [] => empty
  | '?' :: rest => ofWords ("help ".toList ++ rest)
  | '!' :: rest => source (String.ofList ('!' :: rest))
  | cs => ofWords cs

/-- What help says on a topic. -/
def helpOn (topic : String) : String :=
  match topic with
  | "" =>
    "\nDocumented commands (type help <topic>):\n========================================\n"
      ++ "EOF  exit  help\n\n"
  | "exit" | "EOF" => "Exits interpreter.\n"
  | "help" => "List available commands with \"help\" or detailed help with \"help cmd\".\n"
  | topic => "*** No help on " ++ topic ++ "\n"

end Command

/-- A session with the source text that is kept back. -/
structure Shell where
  /-- The session. -/
  session : Session
  /-- The lines of source text that still wait for a closing brace, each of them ended. -/
  pending : String
  /-- What asks for the next line. -/
  prompt : String

/-- What a line brings about. -/
structure Reply where
  /-- Whether the shell is left. -/
  stop : Bool
  /-- What scripts print. -/
  output : String
  /-- What errors are reported. -/
  errors : String
  /-- What the help command says. -/
  help : String
  /-- The events of the source that was interpreted, if one was. -/
  events : List Event

namespace Shell

/-- What the shell says first. -/
def intro : String := "glox interpreter\nType 'exit' or press Ctrl-D to leave."

/-- What asks for a line that begins a source. -/
def primaryPrompt : String := "> "

/-- What asks for a line that goes on with the text that is kept back. -/
def secondaryPrompt : String := ". "

/-- A shell on a session. -/
def start (session : Session) : Shell := ⟨session, "", primaryPrompt⟩

/-- Whether a source text waits for closing braces. -/
def isOpen (source : String) : Bool :=
  0 < (Scan.ofText source).openBraces

/-- Takes a line of source text. -/
def feed (setting : Setting) (shell : Shell) (line : String) : Reply × Shell :=
  let source := shell.pending ++ line ++ "\n"
  if isOpen source then (⟨false, "", "", "", []⟩, { shell with pending := source, prompt := secondaryPrompt })
  else
    let (report, session) := shell.session.interpret setting ScopeTree.rootNumber (Utf8.encode source)
    let errors := View.ofLines (report.failure?.bind Failure.text?).toList
    (⟨false, session.output report, errors, "", report.events⟩, start session)

/-- Takes a line. -/
def step (setting : Setting) (shell : Shell) (line : String) : Reply × Shell :=
  match Command.ofLine line with
  | .empty => (⟨false, "", "", "", []⟩, shell)
  | .leave => (⟨true, "", "", "", []⟩, shell)
  | .endOfInput => (⟨true, "\n", "", "", []⟩, shell)
  | .help topic => (⟨false, "", "", Command.helpOn topic, []⟩, shell)
  | .source text => shell.feed setting text

end Shell

end Scriptlet
