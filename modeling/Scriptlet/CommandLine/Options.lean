import Scriptlet.Text.Digit
import Scriptlet.Text.Quoted

/-!
# Options of the command line

The command line takes a program to run, or a file for one of three other jobs, and a switch that may be
repeated.  Long options may be abbreviated as long as they stay unique, and may carry their file behind
an equal sign.  Short options are single letters and may share one argument, in which an equal sign may
follow the first letter.  Behind a lone `--` nothing is an option any more.

The first thing that is wrong is what is complained about.  Options that may be abbreviations of several ones come
before everything else, and arguments that there is no use for come last, all of them together.
-/

namespace Scriptlet.CommandLine

/-- The jobs that take a file of their own. -/
inductive Job where
  /-- To store the tree of a program. -/
  | emitTree
  /-- To run a stored tree. -/
  | runTree
  /-- To list the tokens of a program. -/
  | listTokens
deriving DecidableEq, Repr

/-- The option that asks for a job. -/
def Job.option : Job → String
  | emitTree => "--emit-ast"
  | runTree => "--ast"
  | listTokens => "--tokens"

/-- What a long option stands for. -/
inductive LongOption where
  /-- To explain the options. -/
  | help
  /-- To do a job with a file. -/
  | job (job : Job)
deriving DecidableEq, Repr

/-- The long options. -/
def longOptions : List (String × LongOption) :=
  ("--help", .help) :: [Job.emitTree, .runTree, .listTokens].map fun job => (job.option, .job job)

/-- What one argument is. -/
inductive Argument where
  /-- Something other than an option. -/
  | plain (text : String)
  /-- The switch, given a number of times. -/
  | verbose (times : Nat)
  /-- A request to explain the options. -/
  | help
  /-- A job, perhaps with its file. -/
  | job (job : Job) (file? : Option String)
  /-- No option that exists. -/
  | unknown
  /-- An option that is given wrongly. -/
  | faulty (complaint : String)
  /-- What may stand for several options. -/
  | ambiguous (complaint : String)
deriving DecidableEq, Repr

/-- What is said about an option. -/
def about (option : String) (complaint : String) : String :=
  "argument " ++ option ++ ": " ++ complaint

/-- A text up to its first equal sign, and what is behind it if there is one. -/
def splitEqual (cs : List Char) : List Char × Option (List Char) :=
  match cs.dropWhile (· ≠ '=') with
  | [] => (cs, none)
  | _ :: rest => (cs.takeWhile (· ≠ '='), some rest)

/-- The file that a long option carries.  The mark that ends the options is no file: it counts as an empty
name. -/
def carriedFile (cs : List Char) : String :=
  if cs = ['-', '-'] then "" else String.ofList cs

/-- The name under which the request for an explanation is complained about. -/
def helpOption : String := "-h/--help"

/-- An option that takes no value, with one. -/
def Argument.withValue (option : String) (value : List Char) : Argument :=
  faulty (about option ("ignored explicit argument " ++ Text.quoted (String.ofList value)))

/-- The long option with a value that may stand behind it. -/
def Argument.ofLong (option : LongOption) (value? : Option (List Char)) : Argument :=
  match option, value? with
  | .help, none => help
  | .help, some value => withValue helpOption value
  | .job j, value? => job j (value?.map carriedFile)

/-- A text without the line feed that ends it, if one does. -/
def dropLineFeed (cs : List Char) : List Char :=
  if cs.getLast? = some '\n' then cs.dropLast else cs

/-- Whether a text is written like a negative number, in the digits of any script.  A line feed may end
it. -/
def looksNegative (cs : List Char) : Bool :=
  match dropLineFeed cs with
  | '-' :: rest =>
    let whole := rest.takeWhile Text.isDigit
    match rest.dropWhile Text.isDigit with
    | [] => !whole.isEmpty
    | '.' :: fraction => !fraction.isEmpty && fraction.all Text.isDigit
    | _ => false
  | _ => false

/-- An argument that matches no option: it may still be plain. -/
def Argument.ofOther (cs : List Char) : Argument :=
  if looksNegative cs || cs.contains ' ' then plain (String.ofList cs) else unknown

/-- A short option. -/
inductive ShortOption where
  /-- The switch. -/
  | verbose
  /-- To explain the options. -/
  | help
deriving DecidableEq, Repr

/-- The short option of a letter. -/
def ShortOption.ofLetter? : Char → Option ShortOption
  | 'v' => some verbose
  | 'h' => some help
  | _ => none

/-- The name under which a short option is complained about. -/
def ShortOption.name : ShortOption → String
  | verbose => "-v"
  | help => helpOption

/-- What the letters behind a short option add to it.  Once an explanation is asked for, it does not matter what
else is.  A letter that is no option is taken, with those behind it, as a value of the option in front of it. -/
def Argument.addLetters (option : ShortOption) (asked : Argument) : (letters : List Char) → Argument
  | [] => asked
  | letter :: letters =>
    match ShortOption.ofLetter? letter, asked with
    | none, _ => withValue option.name (letter :: letters)
    | some .verbose, verbose times => addLetters .verbose (verbose (times + 1)) letters
    | some .verbose, asked => addLetters .verbose asked letters
    | some .help, _ => addLetters .help help letters

/-- A short option with what stands behind it in the same argument: further letters, with or without an
equal sign before them. -/
def Argument.ofShort (option : ShortOption) (behind : List Char) : Argument :=
  let asked :=
    match option with
    | .verbose => verbose 1
    | .help => help
  match behind with
  | ['='] => withValue option.name []
  | '=' :: letters | letters => addLetters option asked letters

/-- What an argument is, when no lone `--` stands before it. -/
def Argument.ofText (text : String) : Argument :=
  let cs := text.toList
  match cs with
  | [] | ['-'] => plain text
  | '-' :: '-' :: _ =>
    let (name, value?) := splitEqual cs
    match longOptions.lookup (String.ofList name) with
    | some option => ofLong option value?
    | none =>
      match longOptions.filter fun entry => name.isPrefixOf entry.1.toList with
      | [] => ofOther cs
      | [entry] => ofLong entry.2 value?
      | entries =>
        ambiguous ("ambiguous option: " ++ text ++ " could match " ++ ", ".intercalate (entries.map Prod.fst))
  | '-' :: letter :: behind =>
    match ShortOption.ofLetter? letter with
    | some option => ofShort option behind
    | none => ofOther cs
  | _ => plain text

/-- What the arguments ask for. -/
structure Options where
  /-- How often the switch was given. -/
  verbosity : Nat
  /-- The job and its file. -/
  job? : Option (Job × String)
  /-- The program. -/
  program? : Option String
deriving DecidableEq, Repr

/-- The outcome of reading the arguments. -/
inductive Reading where
  /-- They are in order. -/
  | options (options : Options)
  /-- They ask for an explanation. -/
  | help
  /-- They are not in order. -/
  | refused (complaint : String)
deriving DecidableEq, Repr

namespace Options

/-- Adds a job.  Two different jobs exclude each other; of two files for one job the later counts. -/
def addJob (options : Options) (job : Job) (file : String) : Except String Options :=
  match options.job? with
  | some (other, _) =>
    if other = job then .ok { options with job? := some (job, file) }
    else .error (about job.option ("not allowed with argument " ++ other.option))
  | none => .ok { options with job? := some (job, file) }

/-- The options, unless there are arguments that they have no use for. -/
def finish (options : Options) (strays : List String) : Reading :=
  if strays.isEmpty then .options options
  else .refused ("unrecognized arguments: " ++ " ".intercalate strays)

/-- The arguments behind a lone `--`.  One of them may be the program if there is none yet.  If there is one, the
`--` itself is of use only right behind it, as `behindProgram` tells. -/
def readPlain (options : Options) (behindProgram : Bool) (strays rest : List String) : Reading :=
  match options.program?, rest with
  | none, [] => options.finish strays
  | none, program :: rest => finish { options with program? := some program } (strays ++ rest)
  | some _, rest => options.finish (strays ++ if behindProgram then rest else "--" :: rest)

/-- Reads the arguments one after the other.  Those that there is no use for are gathered in `strays`. -/
def read (options : Options) (behindProgram : Bool) (strays : List String) : List String → Reading
  | [] => options.finish strays
  | argument :: rest =>
    if argument = "--" then options.readPlain behindProgram strays rest
    else
      match Argument.ofText argument with
      | .plain program =>
        match options.program? with
        | none => read { options with program? := some program } true strays rest
        | some _ => read options false (strays ++ [program]) rest
      | .verbose times => read { options with verbosity := options.verbosity + times } false strays rest
      | .help => .help
      | .job job (some file) =>
        match options.addJob job file with
        | .ok options => read options false strays rest
        | .error complaint => .refused complaint
      | .job job none =>
        let complaint := about job.option "expected one argument"
        match rest with
        | [] => .refused complaint
        | file :: rest =>
          if file = "--" then .refused complaint
          else
            match Argument.ofText file with
            | .plain file =>
              match options.addJob job file with
              | .ok options => read options false strays rest
              | .error complaint => .refused complaint
            | _ => .refused complaint
      | .unknown => read options false (strays ++ [argument]) rest
      | .faulty complaint | .ambiguous complaint => .refused complaint

/-- What is said about an argument that may stand for several options. -/
def ambiguity? (argument : String) : Option String :=
  match Argument.ofText argument with
  | .ambiguous complaint => some complaint
  | _ => none

/-- Reads the arguments of the command line. -/
def ofArguments (arguments : List String) : Reading :=
  match (arguments.takeWhile (· ≠ "--")).findSome? ambiguity? with
  | some complaint => .refused complaint
  | none => read ⟨0, none, none⟩ false [] arguments

end Options

end Scriptlet.CommandLine
