import Scriptlet.Proofs.Accepted
import Scriptlet.Proofs.Codec
import Scriptlet.Proofs.Paths
import Scriptlet.Proofs.SessionSteps
import Scriptlet.Proofs.Utf8

/-!
# Running what was stored

A program can be run at once, or its tree can be stored in a file and run from there.  Both come to the same:
what is stored is loaded as it was, and it is run by a session in the same state.  The debug lines, which
depend on the verbosity, go to a file of their own, so what is printed does not depend on it.

A program that has no tree is rejected in both ways with the same words.

Two things can come between the two ways.  A run with debug lines opens the debug file, and empties it, before
it reads anything: if the debug file cannot be opened there is no run, and if the file to be run is the debug file
itself, under whatever name, there is nothing left of it.  Storing a tree writes no debug lines at all.  And the
tree needs a file of its own, whose name is longer than that of the program.
-/

namespace Scriptlet

open Grammar (IsExpression IsStatement)

/-! ## What is parsed can be stored -/

namespace Node

/-- The literal of a token that comes from a source can be stored. -/
lemma isStorable_of_denoted {t : Leaf} {v : Node} (ht : t.IsScanned) (h : t.denoted? = some v) :
    (literal v).IsStorable := by
  rcases ht.cases_of_denoted h with rfl | ⟨b, rfl⟩ | ⟨x, rfl⟩ | ⟨text, rfl⟩
  · exact isStorable_literal .null (by simp)
  · exact isStorable_literal (.bool b) (by simp)
  · exact isStorable_literal (.float x) (by simp)
  · exact isStorable_literal (.str text) (by simp)

/-- An expression of a source can be stored. -/
lemma isStorable_of_isExpression {e : Node} (h : IsExpression Leaf.IsScanned e) : e.IsStorable := by
  induction h with
  | literal ht hv => exact isStorable_of_denoted ht hv
  | always => exact isStorable_literal (.bool true) (by simp)
  | grouping _ he => exact isStorable_of_field rfl nofun he
  | ident => exact isStorable_of_field rfl nofun (.token _)
  | call _ _ _ _ _ hcallee harguments =>
    exact isStorable_of_three_fields rfl nofun hcallee (.token _) (.list harguments)
  | unary _ _ _ _ he => exact isStorable_of_two_fields rfl nofun (.token _) he
  | operator hlevel _ _ _ _ _ _ hleft hright =>
    rcases Grammar.build_eq hlevel with hb | hb
    · rw [hb]
      exact isStorable_of_three_fields rfl nofun hleft (.token _) hright
    · rw [hb]
      exact isStorable_of_three_fields rfl nofun hleft (.token _) hright
  | assign _ _ _ hvalue => exact isStorable_of_two_fields rfl nofun (.token _) hvalue

/-- A statement of a source can be stored. -/
lemma isStorable_of_isStatement {s : Node} (h : IsStatement Leaf.IsScanned s) : s.IsStorable := by
  have hexpression : ∀ {e : Node}, IsExpression Leaf.IsScanned e → e.IsStorable := isStorable_of_isExpression
  induction h with
  | exprStmt he | printStmt he => exact isStorable_of_field rfl nofun (hexpression he)
  | varDecl => exact isStorable_of_two_fields rfl nofun (.token _) .null
  | varInit _ _ he => exact isStorable_of_two_fields rfl nofun (.token _) (hexpression he)
  | block _ hbody => exact isStorable_of_field rfl nofun (.list hbody)
  | ifStmt hcondition _ _ _ hthen =>
    exact isStorable_of_three_fields rfl nofun (hexpression hcondition) hthen .null
  | ifElse hcondition _ _ _ _ _ _ hthen helse =>
    exact isStorable_of_three_fields rfl nofun (hexpression hcondition) hthen helse
  | whileStmt hcondition _ _ _ hbody =>
    exact isStorable_of_two_fields rfl nofun (hexpression hcondition) hbody
  | @funDecl _ params _ _ _ hparams _ hbody =>
    have hlist : (list (params.map .token)).IsStorable := .list fun item hitem => by
      obtain ⟨t, -, rfl⟩ := List.mem_map.mp hitem
      exact .token t
    exact isStorable_of_three_fields rfl nofun (.token _) hlist (.list hbody)
  | returnStmt => exact isStorable_of_two_fields rfl nofun (.token _) .null
  | returnValue _ _ he => exact isStorable_of_two_fields rfl nofun (.token _) (hexpression he)

/-- The statements of a source are loaded as they were stored. -/
lemma programOfJson_of_source {source : List UInt8} {statements : List Node}
    (h : (Scan.ofBytes source).statements = .ok statements) :
    programOfJson (list statements).toJson = .ok statements := by
  have hsource := statements_of_source source
  rw [h] at hsource
  have hstored : (list statements).IsStorable :=
    .list fun s hs => isStorable_of_isStatement (hsource s hs)
  rw [programOfJson, ofJson_toJson hstored]
  rfl

end Node

namespace CommandLine

/-! ## What is printed -/

/-- The lines that a script prints, as one text. -/
def printed (events : List Event) : String :=
  View.ofLines ((events.filter Event.isPrinted).map Event.text)

/-- Events that print nothing do not matter to what is printed. -/
lemma printed_append_of_silent {silent events : List Event} (h : ∀ event ∈ silent, event.isPrinted = false) :
    printed (silent ++ events) = printed events := by
  have hsilent : silent.filter Event.isPrinted = [] :=
    List.filter_eq_nil_iff.mpr fun event hevent => by simp [h event hevent]
  rw [printed, List.filter_append, hsilent]
  rfl

/-- Scanning and parsing print nothing. -/
lemma not_isPrinted_of_mem {scan : Scan} {statements : List Node} {event : Event}
    (h : event ∈ Session.scanEvents scan ++ Session.parseEvents statements) : event.isPrinted = false := by
  simp only [Session.scanEvents, Session.parseEvents, List.mem_append, List.mem_cons, List.mem_map] at h
  rcases h with (rfl | ⟨token, -, rfl⟩) | rfl | ⟨stmt, -, rfl⟩ <;> rfl

/-- The output of a fresh session is what the script prints, at every debug level. -/
lemma output_start (level : ℕ) (events : List Event) :
    (Session.start level).view.output events = printed events := by
  have hlevel : ∀ event : Event, event.isPrinted = decide (event.level ≤ 0) := by
    intro event
    cases event <;> rfl
  unfold View.output printed
  congr 1
  cases level with
  | zero =>
    have hshown : (fun event : Event => decide (event.level ≤ 0)) = Event.isPrinted :=
      funext fun event => (hlevel event).symm
    simp [View.outputLines, View.shown, Session.start, ← hshown]
  | succ level =>
    have hshown : ∀ event : Event, (event.isPrinted && decide (event.level ≤ level + 1)) = event.isPrinted := by
      intro event
      cases event <;> simp [Event.isPrinted, Event.level]
    simp [View.outputLines, View.shown, Session.start, List.filter_filter, hshown]

/-! ## Running in a fresh session -/

variable {setting : Setting} {disk : Disk} {input : String} {bytes : List UInt8}
  {statements : List Node} {failure : Failure} {level : ℕ}

/-- Two outcomes that look the same: they write the same to both outputs and end in the same way.  Of the
files nothing is said. -/
structure Agree (a b : Outcome) : Prop where
  output_eq : a.output = b.output
  errors_eq : a.errors = b.errors
  ending_eq : a.ending = b.ending

/-- What running some statements in a fresh session comes to. -/
def freshRun (setting : Setting) (statements : List Node) : Outcome :=
  let report := ((Session.start 0).run setting ScopeTree.rootNumber statements).1
  ⟨printed report.events, (endingOf report.failure?).1, [], (endingOf report.failure?).2⟩

/-- The debug level of a session has no part in what it runs. -/
lemma run_start (level : ℕ) : ((Session.start level).run setting ScopeTree.rootNumber statements).1 =
    ((Session.start 0).run setting ScopeTree.rootNumber statements).1 := by
  have hstate : (Session.start level).state ScopeTree.rootNumber =
      (Session.start 0).state ScopeTree.rootNumber := rfl
  unfold Session.run
  rw [hstate]
  cases Exec.run setting statements ((Session.start 0).state ScopeTree.rootNumber) <;> rfl

/-- A run shows its events in the way in which they were shown before. -/
lemma output_run (level : ℕ) (report : Report) :
    ((Session.start level).run setting ScopeTree.rootNumber statements).2.output report =
      printed report.events := by
  rw [Session.run_snd]
  exact output_start level report.events

/-- A program that is accepted runs in a fresh session. -/
lemma runProgram_of_ok (h : (Scan.ofBytes bytes).statements = .ok statements) :
    (runProgram setting (.start level) bytes).1 = freshRun setting statements := by
  unfold runProgram
  rw [Session.interpret_of_ok h]
  dsimp only
  rw [output_run, printed_append_of_silent fun _ => not_isPrinted_of_mem, run_start]
  rfl

/-- A program that is rejected prints nothing and ends with the errors that it is rejected for. -/
lemma runProgram_of_error (h : (Scan.ofBytes bytes).statements = .error failure) :
    (runProgram setting (.start level) bytes).1 =
      ⟨"", (endingOf (some failure)).1, [], (endingOf (some failure)).2⟩ := by
  have hsilent : ∀ event ∈ Session.scanEvents (Scan.ofBytes bytes) ++ Session.parseEvents [],
      event.isPrinted = false := fun _ => not_isPrinted_of_mem
  have hprinted : printed (Session.scanEvents (Scan.ofBytes bytes) ++ []) = printed [] :=
    printed_append_of_silent fun event hevent => hsilent event (List.mem_append_left _ hevent)
  unfold runProgram
  rw [Session.interpret_of_error h]
  dsimp only [Session.output]
  rw [output_start, ← List.append_nil (Session.scanEvents (Scan.ofBytes bytes)), hprinted]
  rfl

/-- A tree that is read and loaded runs in a fresh session. -/
lemma runTree_of_ok {text : String} {json : Json} (hread : Json.read? text = some json)
    (hload : Node.programOfJson json = .ok statements) :
    (runTree setting (.start level) (Utf8.encode text)).1 = freshRun setting statements := by
  unfold runTree
  rw [Utf8.decode?_eq_some.mpr rfl]
  dsimp only
  rw [hread]
  dsimp only
  rw [Session.runJson_of_ok hload, output_run, run_start]
  rfl

/-- What a rejection says, and that it ends the command line with one. -/
lemma endingOf_of_isRejection (h : failure.IsRejection) :
    ∃ text, endingOf (some failure) = ("Error: " ++ text ++ "\n", .exit 1) := by
  cases failure with
  | scan errors => exact ⟨_, rfl⟩
  | parse error =>
    obtain ⟨cause, place?⟩ := error
    cases cause with
    | badNumber _ | noEnd => exact h.elim
    | _ => exact ⟨_, rfl⟩
  | load error => exact h.elim
  | run stop => exact h.elim

/-! ## Running a file -/

/-- A file can be written under a path. -/
def Disk.IsWritable (disk : Disk) (path : String) : Prop :=
  disk.barrier? (disk.place path) = none

/-- A file can be run with debug lines: the debug file can be opened, and it is another file. -/
def Disk.AllowsDebugging (disk : Disk) (path : String) : Prop :=
  disk.IsWritable debugFile ∧ disk.place path ≠ disk.place debugFile

/-- A file that can be written is opened, which empties it. -/
lemma Disk.openToWrite_of_isWritable {path : String} (h : disk.IsWritable path) :
    disk.openToWrite path = .ok (disk.write path []) := by
  rw [Disk.IsWritable] at h
  rw [Disk.openToWrite, h]

/-- Opening the debug file leaves the files to be read as they are, unless it is one of them. -/
lemma agree_withSession {path : String} {run : Session → List UInt8 → Outcome × List Event}
    (hfile : disk.look path = .file bytes) (hdebug : level = 0 ∨ disk.AllowsDebugging path) :
    Agree (withSession level disk (runFile path run)) (run (.start level) bytes).1 := by
  have hread : ∀ disk' : Disk, disk'.look path = .file bytes →
      runFile path run disk' (.start level) = run (.start level) bytes := by
    intro disk' h
    simp only [runFile, readBytes, h]
  unfold withSession
  dsimp only
  split
  next =>
    rw [hread disk hfile]
    exact ⟨rfl, rfl, rfl⟩
  next hlevel =>
    obtain ⟨hwritable, hother⟩ := hdebug.resolve_left hlevel
    rw [Disk.openToWrite_of_isWritable hwritable]
    dsimp only
    rw [hread _ ((Disk.look_write_of_ne hother).trans hfile)]
    exact ⟨rfl, rfl, rfl⟩

section Perform

variable {file : String} {program? : Option String} (hname : file ≠ "")
include hname

/-- Running a program comes to what its file holds. -/
lemma perform_program (hfile : disk.look (normalize file) = .file bytes)
    (hdebug : level = 0 ∨ disk.AllowsDebugging (normalize file)) :
    Agree (perform setting disk input ⟨level, none, some file⟩)
      (runProgram setting (.start level) bytes).1 := by
  have hperform : perform setting disk input ⟨level, none, some file⟩ =
      withSession level disk (runFile (normalize file) (runProgram setting)) := by
    unfold perform
    dsimp only
    congr 1
    funext disk session
    split
    next h => cases h
    next h => exact absurd (Option.some.inj h) hname
    next h => rw [Option.some.inj h]
  rw [hperform]
  exact agree_withSession hfile hdebug

/-- Running a stored tree comes to what its file holds. -/
lemma perform_runTree (hfile : disk.look (normalize file) = .file bytes)
    (hdebug : level = 0 ∨ disk.AllowsDebugging (normalize file)) :
    Agree (perform setting disk input ⟨level, some (.runTree, file), program?⟩)
      (runTree setting (.start level) bytes).1 := by
  have hperform : perform setting disk input ⟨level, some (.runTree, file), program?⟩ =
      withSession level disk (runFile (normalize file) (runTree setting)) := by
    simp [perform]
  rw [hperform]
  exact agree_withSession hfile hdebug

/-- Storing a tree depends on what the file of the program holds, and not on the verbosity. -/
lemma perform_emitTree (hfile : disk.look (normalize file) = .file bytes) :
    perform setting disk input ⟨level, some (.emitTree, file), program?⟩ =
      emitTree disk (normalize file) bytes := by
  simp [perform, readBytes, hfile]

end Perform

/-- The tree of a program that is accepted is stored where it can be written. -/
lemma emitTree_of_ok {path : String} (h : (Scan.ofBytes bytes).statements = .ok statements)
    (hwritable : disk.IsWritable (path ++ ".ast.json")) :
    emitTree disk path bytes = ⟨path ++ ".ast.json" ++ "\n", "",
      [(path ++ ".ast.json", (Node.list statements).toJson.pretty)], .exit 0⟩ := by
  unfold emitTree
  rw [h]
  dsimp only
  rw [Disk.openToWrite_of_isWritable hwritable]

/-- Of a program that is rejected no tree is stored. -/
lemma emitTree_of_error {path : String} (h : (Scan.ofBytes bytes).statements = .error failure) :
    emitTree disk path bytes = ⟨"", (endingOf (some failure)).1, [], (endingOf (some failure)).2⟩ := by
  unfold emitTree
  rw [h]

/-- The files after some texts have been written, one after the other. -/
def Disk.after (disk : Disk) (files : List (String × String)) : Disk :=
  files.foldl (fun disk file => disk.write file.1 (Utf8.encode file.2)) disk

end CommandLine

/-! ## A program that greets -/

namespace Json

mutual

/-- Whether two values are one and the same; doubles are never found to be. -/
def same : Json → Json → Bool
  | null, null => true
  | bool a, bool b => a = b
  | int i, int j => i = j
  | str s, str t => s = t
  | list xs, list ys => sameItems xs ys
  | object xs, object ys => sameMembers xs ys
  | _, _ => false

/-- Whether the items of two lists are the same. -/
def sameItems : List Json → List Json → Bool
  | [], [] => true
  | x :: xs, y :: ys => same x y && sameItems xs ys
  | _, _ => false

/-- Whether two objects have the same members in the same order. -/
def sameMembers : List (String × Json) → List (String × Json) → Bool
  | [], [] => true
  | (key, x) :: xs, (key', y) :: ys => key = key' && same x y && sameMembers xs ys
  | _, _ => false

end

mutual

/-- JSON values that the comparison takes for the same are equal. -/
lemma eq_of_same : ∀ {a b : Json}, same a b = true → a = b
  | null, null, _ => rfl
  | bool _, bool _, h => congrArg bool (of_decide_eq_true h)
  | int _, int _, h => congrArg int (of_decide_eq_true h)
  | str _, str _, h => congrArg str (of_decide_eq_true h)
  | list _, list _, h => congrArg list (eq_of_sameItems h)
  | object _, object _, h => congrArg object (eq_of_sameMembers h)

lemma eq_of_sameItems : ∀ {xs ys : List Json}, sameItems xs ys = true → xs = ys
  | [], [], _ => rfl
  | x :: xs, y :: ys, h => by
    obtain ⟨hitem, hrest⟩ := Bool.and_eq_true_iff.mp h
    rw [eq_of_same hitem, eq_of_sameItems hrest]

lemma eq_of_sameMembers : ∀ {xs ys : List (String × Json)}, sameMembers xs ys = true → xs = ys
  | [], [], _ => rfl
  | (key, x) :: xs, (key', y) :: ys, h => by
    obtain ⟨hmember, hrest⟩ := Bool.and_eq_true_iff.mp h
    obtain ⟨hkey, hvalue⟩ := Bool.and_eq_true_iff.mp hmember
    rw [of_decide_eq_true hkey, eq_of_same hvalue, eq_of_sameMembers hrest]

end

end Json

namespace CommandLine

/-- The source of a program that prints a greeting. -/
def greeting : List UInt8 :=
  Utf8.encode "print \"hi\";"

/-- The statements of the greeting. -/
def greetingTree : List Node :=
  [.printStmt (.literal (.str "hi"))]

/-- The greeting is accepted, and parsed to its tree. -/
lemma statements_greeting : (Scan.ofBytes greeting).statements = .ok greetingTree := by
  have hscan : Scan.ofBytes greeting =
      ⟨[⟨.printWord, "print", none, ⟨1, 0, 5⟩⟩, ⟨.string, "\"hi\"", some "hi", ⟨1, 6, 10⟩⟩,
        ⟨.semicolon, ";", none, ⟨1, 10, 11⟩⟩, .endOfSource 2], []⟩ := by
    decide +kernel
  rw [hscan]
  rfl

/-- The stored text of the tree of the greeting is read back. -/
lemma read_greetingTree : Json.read? (Node.list greetingTree).toJson.pretty =
    some (Node.list greetingTree).toJson := by
  have hread : (Json.read? (Node.list greetingTree).toJson.pretty).any
      (·.same (Node.list greetingTree).toJson) = true := by
    decide +kernel
  cases hjson : Json.read? (Node.list greetingTree).toJson.pretty with
  | none =>
    rw [hjson] at hread
    cases hread
  | some json =>
    rw [hjson] at hread
    rw [Json.eq_of_same hread]

/-- The greeting, in a file of the given name and nothing else.  Names have 255 bytes at most. -/
def greetingIn (name path : String) : Entry :=
  if path = name then .file greeting
  else if 255 < path.utf8ByteSize then .unusable
  else .absent

/-- A disk with the greeting in a file of the given name and nothing else. -/
def greetingDisk (name : String) : Disk :=
  .ofEntries (greetingIn name)

/-- The greeting is found under every name on a disk that holds nothing else. -/
lemma look_greetingDisk (name : String) : (greetingDisk name).look name = .file greeting :=
  if_pos rfl

/-- Other files can be written if they have names of a decent length. -/
lemma isWritable_greetingDisk {name path : String} (hne : path ≠ name) (hlength : path.utf8ByteSize ≤ 255) :
    (greetingDisk name).IsWritable path := by
  have hentry : greetingIn name path = .absent := by
    rw [greetingIn, if_neg hne, if_neg (Nat.not_lt.mpr hlength)]
  simp only [Disk.IsWritable, greetingDisk, Disk.ofEntries, id, hentry]

/-- A name that is so long that the name under which the tree would be stored is too long. -/
def longName : String :=
  pathOf 0 [List.replicate 250 'a']

/-- The greeting in the debug file, to which another name leads as well. -/
def linkedDisk : Disk :=
  { greetingDisk debugFile with place := fun path => if path = "link" then debugFile else path }

/-- The greeting in a file of its own, with a directory in the place of the debug file. -/
def blockedDisk : Disk :=
  .ofEntries fun path => if path = debugFile then .directory else greetingIn "hi" path

end CommandLine

end Scriptlet
