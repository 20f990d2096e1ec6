import Scriptlet.CommandLine.Disk
import Scriptlet.CommandLine.Options
import Scriptlet.Json.Read
import Scriptlet.Json.Write
import Scriptlet.Shell

/-!
# The command line

The command line runs a program or a stored tree, stores a tree, lists tokens, or starts the shell.
What it does depends on the files and the input only, so it is a function from them to what is written
and how it ends.
-/

namespace Scriptlet.CommandLine

/-- An error that is not one of the scripts'. -/
inductive Escape where
  /-- A directory stands where a file is needed. -/
  | directory
  /-- A file has a name that no file can have, or is out of reach. -/
  | unusable
  /-- A stored tree is no text. -/
  | notText
  /-- A stored tree is no JSON. -/
  | notJson
  /-- A stored tree cannot be run. -/
  | failure (failure : Failure)

/-- The error of not being able to open a file. -/
def Escape.ofBarrier : Barrier → Escape
  | .directory => directory
  | .unusable => unusable

/-- How the command line ends. -/
inductive Ending where
  /-- With an exit status. -/
  | exit (status : Nat)
  /-- With an error that nothing handles. -/
  | escape (escape : Escape)

/-- What the command line does. -/
structure Outcome where
  /-- What it writes to the standard output. -/
  output : String
  /-- What it writes to the standard error output. -/
  errors : String
  /-- The files that it writes, with their texts. -/
  files : List (String × String)
  /-- How it ends. -/
  ending : Ending

/-- A path in its plainest form, without empty parts and parts that lead nowhere. -/
def normalize (path : String) : String :=
  let cs := path.toList
  let root :=
    match cs with
    | '/' :: '/' :: '/' :: _ => "/"
    | '/' :: '/' :: _ => "//"
    | '/' :: _ => "/"
    | _ => ""
  let parts := (cs.splitOn '/').filter fun part => part ≠ [] && part ≠ ['.']
  let plain := root ++ "/".intercalate (parts.map String.ofList)
  if plain.isEmpty then "." else plain

/-- The file of the debug lines. -/
def debugFile : String := "debug.txt"

/-- What is said about a file that is not there. -/
def notFound (path : String) : String :=
  "Error: file " ++ path ++ " not found\n"

/-- The bytes of a file, or how the command line ends without them. -/
def readBytes (disk : Disk) (path : String) : Except Outcome (List UInt8) :=
  match disk.look path with
  | .file bytes => .ok bytes
  | .directory => .error ⟨"", "", [], .escape .directory⟩
  | .absent => .error ⟨"", notFound path, [], .exit 1⟩
  | .unusable => .error ⟨"", "", [], .escape .unusable⟩

/-- Lists the tokens of a program. -/
def listTokens (bytes : List UInt8) : Outcome :=
  let scan := Scan.ofBytes bytes
  ⟨View.ofLines (scan.tokens.map Token.describe), View.ofLines (scan.errors.map LexicalError.text), [],
   .exit (if scan.errors.isEmpty then 0 else 1)⟩

/-- The end of a run that failed or did not. -/
def endingOf : Option Failure → String × Ending
  | none => ("", .exit 0)
  | some failure =>
    match failure.text? with
    | some text => ("Error: " ++ text ++ "\n", .exit 1)
    | none => ("", .escape (.failure failure))

/-- Stores the tree of a program, beside it. -/
def emitTree (disk : Disk) (path : String) (bytes : List UInt8) : Outcome :=
  match (Scan.ofBytes bytes).statements with
  | .ok statements =>
    let target := path ++ ".ast.json"
    match disk.openToWrite target with
    | .error barrier => ⟨"", "", [], .escape (.ofBarrier barrier)⟩
    | .ok _ => ⟨target ++ "\n", "", [(target, (Node.list statements).toJson.pretty)], .exit 0⟩
  | .error failure =>
    let (errors, ending) := endingOf (some failure)
    ⟨"", errors, [], ending⟩

/-- Runs a program. -/
def runProgram (setting : Setting) (session : Session) (bytes : List UInt8) : Outcome × List Event :=
  let (report, session) := session.interpret setting ScopeTree.rootNumber bytes
  let (errors, ending) := endingOf report.failure?
  (⟨session.output report, errors, [], ending⟩, report.events)

/-- Runs a stored tree. -/
def runTree (setting : Setting) (session : Session) (bytes : List UInt8) : Outcome × List Event :=
  match Utf8.decode? bytes with
  | none => (⟨"", "", [], .escape .notText⟩, [])
  | some text =>
    match Json.read? text with
    | none => (⟨"", "", [], .escape .notJson⟩, [])
    | some json =>
      let (report, session) := session.runJson setting ScopeTree.rootNumber json
      let (errors, ending) := endingOf report.failure?
      (⟨session.output report, errors, [], ending⟩, report.events)

/-- Gives lines to the shell until one of them leaves it; the end of the lines leaves it, too.  What is
written begins with what the shell has written before. -/
def converse (setting : Setting) (shell : Shell) : List String → Outcome × List Event
  | [] =>
    let (reply, _) := shell.step setting "EOF"
    (⟨shell.prompt ++ reply.output, "", [], .exit 0⟩, [])
  | line :: rest =>
    let (reply, next) := shell.step setting line
    let said := shell.prompt ++ reply.output ++ reply.help
    if reply.stop then (⟨said, reply.errors, [], .exit 0⟩, reply.events)
    else
      let (later, events) := converse setting next rest
      (⟨said ++ later.output, reply.errors ++ later.errors, [], later.ending⟩, reply.events ++ events)

/-- The lines of a text; a line feed ends a line. -/
def linesOf (text : String) : List String :=
  let parts := (text.toList.splitOn '\n').map String.ofList
  if parts.getLast? = some "" then parts.dropLast else parts

/-- Runs the shell on an input. -/
def runShell (setting : Setting) (session : Session) (input : String) : Outcome × List Event :=
  let (outcome, events) := converse setting (.start session) (linesOf input)
  ({ outcome with output := Shell.intro ++ "\n" ++ outcome.output }, events)

/-- Does a job that runs something, with a debug file if the verbosity asks for one.  The debug file is opened
before anything else is looked at, so the job is not even begun if this fails, and a file that is the debug
file under another name is read as an empty one. -/
def withSession (verbosity : Nat) (disk : Disk) (act : Disk → Session → Outcome × List Event) : Outcome :=
  let session := Session.start verbosity
  if verbosity = 0 then (act disk session).1
  else
    match disk.openToWrite debugFile with
    | .error barrier => ⟨"", "", [], .escape (.ofBarrier barrier)⟩
    | .ok opened =>
      let (outcome, events) := act opened session
      { outcome with files := (debugFile, session.view.debugText events) :: outcome.files }

/-- Runs something that is read from a file. -/
def runFile (path : String) (run : Session → List UInt8 → Outcome × List Event)
    (disk : Disk) (session : Session) : Outcome × List Event :=
  match readBytes disk path with
  | .ok bytes => run session bytes
  | .error outcome => (outcome, [])

/-- The file that the options make the command line read; none if they start the shell.  An empty name
of a file counts as none. -/
def Options.path? (options : Options) : Option String :=
  match options.job?, options.program? with
  | some (_, file), program? =>
    if file = "" then (program?.filter (· ≠ "")).map normalize else some (normalize file)
  | none, program? => (program?.filter (· ≠ "")).map normalize

/-- Whether the options make the command line run something, which is when the debug file is opened. -/
def Options.opensDebugFile (options : Options) : Bool :=
  match options.job? with
  | none | some (_, "") | some (.runTree, _) => true
  | some (.listTokens, _) | some (.emitTree, _) => false

/-- Does what the options ask for. -/
def perform (setting : Setting) (disk : Disk) (input : String) (options : Options) : Outcome :=
  let shellOrProgram :=
    withSession options.verbosity disk fun disk session =>
      match options.program? with
      | none | some "" => runShell setting session input
      | some program => runFile (normalize program) (runProgram setting) disk session
  match options.job? with
  | none | some (_, "") => shellOrProgram
  | some (.listTokens, file) =>
    match readBytes disk (normalize file) with
    | .ok bytes => listTokens bytes
    | .error outcome => outcome
  | some (.emitTree, file) =>
    match readBytes disk (normalize file) with
    | .ok bytes => emitTree disk (normalize file) bytes
    | .error outcome => outcome
  | some (.runTree, file) =>
    withSession options.verbosity disk (runFile (normalize file) (runTree setting))

/-- The name by which the program calls itself. -/
def programName : String := "__main__.py"

/-- The options in short, for lines of eighty characters. -/
def usage : String :=
  "usage: " ++ programName ++ " [-h] [-v]\n" ++
  "                   [--emit-ast LOX_FILE | --ast AST_JSON_FILE | --tokens LOX_FILE]\n" ++
  "                   [program]\n"

/-- The explanation of the options. -/
def explanation : String :=
  usage ++
  "\nglox language interpreter\n" ++
  "\npositional arguments:\n" ++
  "  program              glox program file (.lox) to execute\n" ++
  "\noptions:\n" ++
  "  -h, --help           show this help message and exit\n" ++
  "  -v                   increase debug verbosity (can be repeated)\n" ++
  "  --emit-ast LOX_FILE  emit AST JSON for the given .lox file\n" ++
  "  --ast AST_JSON_FILE  execute AST from a JSON file\n" ++
  "  --tokens LOX_FILE    print the token stream of the given .lox file\n"

/-- What the command line does with its arguments, and what it says about them if they are not in order.  That
goes to the standard error output, too, but is kept apart, as it is not about what is run. -/
structure Response extends Outcome where
  /-- What is said about the arguments. -/
  complaint : String

/-- What the command line does with its arguments. -/
def runArguments (setting : Setting) (disk : Disk) (input : String) (arguments : List String) : Response :=
  match Options.ofArguments arguments with
  | .options options => ⟨perform setting disk input options, ""⟩
  | .help => ⟨⟨explanation, "", [], .exit 0⟩, ""⟩
  | .refused complaint =>
    ⟨⟨"", "", [], .exit 2⟩, usage ++ programName ++ ": error: " ++ complaint ++ "\n"⟩

end Scriptlet.CommandLine
