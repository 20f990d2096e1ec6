import Scriptlet.CommandLine

/-!
# The program

The outer layer of the command line: it reads the files and the input and writes what is to be written.
-/

namespace Scriptlet.CommandLine

/-- Looks up a path. -/
def lookUp (path : String) : IO Entry := do
  try
    return .file (← IO.FS.readBinFile path).toList
  catch
    | .noFileOrDirectory .. => return .absent
    | .invalidArgument .. => return .unusable
    | _ => return .directory

/-- Says what went wrong, for an error that nothing handles. -/
def Escape.text : Escape → String
  | directory => "is a directory"
  | unusable => "not a name of a file"
  | notText => "invalid UTF-8"
  | notJson => "invalid JSON"
  | failure (.load error) => error.message
  | failure (.run (.fault fault)) => fault.message?.getD "ill-formed tree"
  | failure _ => "stopped"

/-- Writes what is to be written, and gives the exit status. -/
def finish (outcome : Outcome) : IO UInt32 := do
  for (path, text) in outcome.files do
    IO.FS.writeFile path text
  IO.print outcome.output
  IO.eprint outcome.errors
  match outcome.ending with
  | .exit status => return status.toUInt32
  | .escape e => do
    IO.eprintln e.text
    return 1

/-- Answers lines until one of them leaves the shell; debug lines are passed to `debug`. -/
partial def chat (setting : Setting) (debug : String → IO Unit) (shell : Shell) : IO Unit := do
  IO.print shell.prompt
  (← IO.getStdout).flush
  let line ← (← IO.getStdin).getLine
  let (reply, next) := shell.step setting (if line.isEmpty then "EOF" else line)
  IO.print (reply.output ++ reply.help)
  IO.eprint reply.errors
  debug (shell.session.view.debugText reply.events)
  unless reply.stop do chat setting debug next

/-- Opens the debug file if debug lines are asked for, which empties it, and gives what writes debug lines. -/
def openDebugFile (verbosity : Nat) : IO (String → IO Unit) := do
  if verbosity = 0 then return fun _ => pure ()
  let file ← IO.FS.Handle.mk debugFile .write
  return fun text => do
    file.putStr text
    file.flush

/-- Runs the shell on the standard input. -/
def interact (setting : Setting) (verbosity : Nat) : IO UInt32 := do
  let debug ← openDebugFile verbosity
  IO.println Shell.intro
  chat setting debug (.start (.start verbosity))
  return 0

end Scriptlet.CommandLine

open Scriptlet CommandLine in
/-- The command line.  The clock starts from the time at which the program starts, and each reading of
it takes a microsecond. -/
def main (arguments : List String) : IO UInt32 := do
  let start ← IO.monoNanosNow
  let setting := Session.limits fun reading => (start + 1000 * reading).toFloat / 1000000000
  match Options.ofArguments arguments with
  | .options options =>
    match options.path? with
    | none => interact setting options.verbosity
    | some path => do
      -- The file is looked up behind that, so it is found empty if it is the debug file under another name.
      if options.opensDebugFile then discard (openDebugFile options.verbosity)
      let entry ← lookUp path
      finish (perform setting (Disk.ofEntries fun p => if p = path then entry else .absent) "" options)
  | _ => do
    let response := runArguments setting (Disk.ofEntries fun _ => .absent) "" arguments
    IO.eprint response.complaint
    finish response.toOutcome
