import Scriptlet.Proofs.Debugging
import Scriptlet.Proofs.Lines
import Scriptlet.Proofs.StoredRuns
import Scriptlet.Shell

/-!
# Shell sessions as files

A shell interprets what it is given piece by piece: it cuts the text at the ends of those lines where all braces
are closed.  If every piece succeeds, then the text could as well have been interpreted at once.  Scanning does
not see the cuts, as each piece ends with a line feed and has no lexical errors; neither does parsing, as no
piece can begin with the `else` that the one before it could still take; and running the statements of the
pieces one after another is running all of them.  Only the positions of the tokens are other ones, and these
do not matter to runs.

So a shell keeps an invariant (`Shell.Replays`): the text that it has interpreted is a program that leads from a
fresh session to the session of the shell, with the same output.
-/

namespace Scriptlet

/-! ## Programs run one after another -/

namespace Exec

variable {setting : Setting} {statements : List Node} {s : State}

/-- Without lines to write, a run is nothing but its statements. -/
lemma runWith_debug_zero (setting : Setting) (statements : List Node) :
    runWith (debug 0) setting statements =
      outermost (statements.forM (executeWith (debug 0) setting setting.depth)) := by
  have hstart : debug 0 .runStart = pure () := rfl
  have hend : debug 0 .runEnd = pure () := rfl
  unfold runWith
  rw [hstart, hend, pure_bind, bind_pure_unit]

/-- The nesting limit is turned into an error for two computations together as it is for each of them. -/
lemma outermost_bind (act next : Exec Unit) :
    outermost (act >>= fun _ => next) = outermost act >>= fun _ => outermost next := by
  funext s
  rw [bind_apply]
  unfold outermost
  rw [bind_apply]
  cases act s with
  | ok _ t => rfl
  | error stop t => cases stop <;> rfl

/-- Statements behind one another are run one after the other. -/
lemma runWith_debug_append (setting : Setting) (statements others : List Node) :
    runWith (debug 0) setting (statements ++ others) =
      runWith (debug 0) setting statements >>= fun _ => runWith (debug 0) setting others := by
  rw [runWith_debug_zero, runWith_debug_zero, runWith_debug_zero, ← outermost_bind]
  exact congrArg outermost List.forM_append

/-- A watched run ends as the run does. -/
lemma stop?_runWith_debug (setting : Setting) (statements : List Node) (before : List Event) (s : State) :
    stop? (runWith (debug 0) setting statements (shownState 0 before s)) = stop? (run setting statements s) := by
  rw [runWith_debug]
  cases run setting statements s <;> rfl

/-- A watched run leaves the state of the run, with what is shown of the events. -/
lemma final_runWith_debug (setting : Setting) (statements : List Node) (before : List Event) (s : State) :
    final (runWith (debug 0) setting statements (shownState 0 before s)) =
      shownState 0 before (final (run setting statements s)) := by
  rw [runWith_debug]
  cases run setting statements s <;> rfl

/-- If a program succeeds, then running it with another one behind it is running the other one on what it
leaves. -/
theorem run_append (h : stop? (run setting statements s) = none) (others : List Node) :
    let middle := final (run setting statements s)
    let next := run setting others { middle with log := [] }
    stop? (run setting (statements ++ others) s) = stop? next ∧
      shownState 0 [] (final (run setting (statements ++ others) s)) = shownState 0 middle.log (final next) := by
  intro middle next
  have hfirst : runWith (debug 0) setting statements (shownState 0 [] s) = .ok () (shownState 0 [] middle) := by
    have hstop := stop?_runWith_debug setting statements [] s
    have hfinal := final_runWith_debug setting statements [] s
    rw [h] at hstop
    generalize runWith (debug 0) setting statements (shownState 0 [] s) = outcome at hstop hfinal
    cases outcome with
    | ok _ t => exact congrArg (EStateM.Result.ok ()) hfinal
    | error stop t => cases hstop
  have hmiddle : shownState 0 [] middle = shownState 0 middle.log { middle with log := [] } := by
    simp [shownState]
  have hwhole : runWith (debug 0) setting (statements ++ others) (shownState 0 [] s) =
      runWith (debug 0) setting others (shownState 0 middle.log { middle with log := [] }) := by
    rw [runWith_debug_append, bind_apply, hfirst, ← hmiddle]
  constructor
  · rw [← stop?_runWith_debug, hwhole, stop?_runWith_debug]
  · rw [← final_runWith_debug, hwhole, final_runWith_debug]

end Exec

namespace Session

variable {setting : Setting} {session : Session} {scope : ℕ} {statements : List Node}

/-- If a program succeeds, then running it with another one behind it prints what they print, ends as the other
one does on what it leaves, and leaves the same. -/
theorem run_append (h : (session.run setting scope statements).1.failure? = none) (others : List Node) :
    let (first, middle) := session.run setting scope statements
    let (second, after) := middle.run setting scope others
    let (report, session') := session.run setting scope (statements ++ others)
    report.failure? = second.failure? ∧ report.printedLines = first.printedLines ++ second.printedLines ∧
      session' = after := by
  have hstop : Exec.stop? (Exec.run setting statements (session.state scope)) = none := by
    rw [run_fst] at h
    exact Option.map_eq_none_iff.mp h
  have hstate := state_run setting session scope statements
  rw [run_snd] at hstate
  have hlength := (Exec.respects_run setting statements (session.state scope)).1.length_eq
  have hlength' := (Exec.respects_run setting (statements ++ others) (session.state scope)).1.length_eq
  obtain ⟨hends, hfinal⟩ := Exec.run_append hstop others
  simp only [run_fst, run_snd, hstate]
  generalize Exec.final (Exec.run setting statements (session.state scope)) = middle at *
  generalize Exec.run setting (statements ++ others) (session.state scope) = whole at *
  generalize Exec.run setting others { middle with log := [] } = next at *
  unfold Exec.shownState at hfinal
  obtain ⟨hscopes, hlogs, hcallDepth, hmade, hreadings⟩ := State.mk.inj hfinal
  refine ⟨congrArg (Option.map Failure.run) hends, ?_, ?_⟩
  · simp only [shownAt_zero, List.append_nil, List.filter_append] at hlogs
    simp only [Report.printedLines, List.filter_reverse, hlogs, List.reverse_append, List.map_append]
  · have hwrite : (session.scopes.write scope middle.scopes).write scope (Exec.final next).scopes =
        session.scopes.write scope (Exec.final next).scopes :=
      ScopeTree.write_write _ _ (by rw [hlength, ← hscopes, hlength'])
    simp only [resume, hwrite, hscopes, hcallDepth, hmade, hreadings]

end Session

/-! ## Texts of lines -/

/-- Lines as one text are the ended lines, put together. -/
lemma View.ofLines_eq_join (lines : List String) : View.ofLines lines = String.join (lines.map (· ++ "\n")) := by
  unfold View.ofLines String.join
  rw [List.foldl_map]
  simp only [String.append_assoc]

/-- Two runs of lines are viewed one behind the other. -/
lemma View.ofLines_append (lines more : List String) :
    View.ofLines (lines ++ more) = View.ofLines lines ++ View.ofLines more := by
  rw [ofLines_eq_join, ofLines_eq_join, ofLines_eq_join, List.map_append, String.join_append]

/-- Lines as one text are the lines with a line feed between them, and one more at the end. -/
lemma View.ofLines_eq_intercalate {lines : List String} (h : lines ≠ []) :
    View.ofLines lines = "\n".intercalate lines ++ "\n" := by
  rw [ofLines_eq_join]
  induction lines with
  | nil => exact absurd rfl h
  | cons line lines ih =>
    rw [List.map_cons, String.join_cons]
    cases lines with
    | nil => simp
    | cons next lines =>
      rw [ih (List.cons_ne_nil _ _), String.intercalate_cons_cons]
      simp only [String.append_assoc]

lemma Utf8.encode_empty : encode "" = [] := by
  decide +kernel

/-- The bytes of a line that is ended. -/
lemma Utf8.encode_line (text : String) : encode (text ++ "\n") = encode text ++ [newline] := by
  have hfeed : encode "\n" = [newline] := by decide +kernel
  rw [encode_append, hfeed]

/-! ## What scopes show -/

namespace Frame

/-- The names of a scope, with the types and the texts of their values. -/
def listing (frame : Frame) : List (Name × ValueType × String) :=
  frame.map fun b => (b.1, b.2.type, b.2.text)

/-- Frames that correspond are listed alike. -/
lemma listing_eq_of_corresponds {T : Likeness} {frame frame' : Frame} (h : Frame.Corresponds T frame frame') :
    frame.listing = frame'.listing := by
  induction h with
  | nil => rfl
  | @cons b b' rest rest' hb _ ih =>
    obtain ⟨hname, hvalue⟩ := hb
    unfold listing at ih ⊢
    rw [List.map_cons, List.map_cons, ih, hname, hvalue.type_eq, hvalue.text_eq]

end Frame

/-- The innermost frames of chains that correspond do so. -/
lemma Chain.head_corresponds {T : Likeness} {chain chain' : Chain} (h : Chain.Corresponds T chain chain') :
    Frame.Corresponds T (chain.headD []) (chain'.headD []) := by
  cases h with
  | nil => exact .nil
  | cons hframe _ => exact hframe

/-! ## Taking lines -/

namespace Shell

/-- A line of source text: it is not empty, has no blanks at its ends, begins with no mark, and its first word
is no command. -/
structure IsSourceLine (line : String) : Prop where
  ne_empty : line ≠ ""
  trimmed : Text.trim line.toList = line.toList
  unmarked : line.toList.head? ≠ some '?' ∧ line.toList.head? ≠ some '!'
  noCommand : String.ofList (line.toList.takeWhile Command.isNameChar) ∉ ["exit", "EOF", "help"]

instance : DecidablePred IsSourceLine := fun line =>
  decidable_of_iff
    (line ≠ "" ∧ Text.trim line.toList = line.toList ∧
      (line.toList.head? ≠ some '?' ∧ line.toList.head? ≠ some '!') ∧
      String.ofList (line.toList.takeWhile Command.isNameChar) ∉ ["exit", "EOF", "help"])
    ⟨fun ⟨hne, htrimmed, hunmarked, hno⟩ => ⟨hne, htrimmed, hunmarked, hno⟩,
      fun h => ⟨h.ne_empty, h.trimmed, h.unmarked, h.noCommand⟩⟩

/-- A line of source text is given to the session as it is. -/
lemma ofLine_of_isSourceLine {line : String} (h : IsSourceLine line) : Command.ofLine line = .source line := by
  have hwords : Command.ofWords line.toList = .source line := by
    have hno := h.noCommand
    unfold Command.ofWords
    split
    next hword => simp [hword] at hno
    next hword => simp [hword] at hno
    next hword => simp [hword] at hno
    next => rw [String.ofList_toList]
  have hne : line.toList ≠ [] := fun hnil => h.ne_empty (String.toList_eq_nil_iff.mp hnil)
  obtain ⟨hquestion, hexclamation⟩ := h.unmarked
  unfold Command.ofLine
  rw [h.trimmed]
  split
  next hnil => exact absurd hnil hne
  next hcons => simp [hcons] at hquestion
  next hcons => simp [hcons] at hexclamation
  next => exact hwords

/-- Takes lines one after the other. -/
def takeAll (setting : Setting) (shell : Shell) : List String → List Reply × Shell
  | [] => ([], shell)
  | line :: lines =>
    let (reply, shell) := shell.step setting line
    let (replies, shell) := takeAll setting shell lines
    (reply :: replies, shell)

/-- Why the source that a line completes fails, if it completes one and that fails. -/
def failure? (setting : Setting) (shell : Shell) (line : String) : Option Failure :=
  match Command.ofLine line with
  | .source text =>
    let source := shell.pending ++ text ++ "\n"
    if isOpen source then none
    else (shell.session.interpret setting ScopeTree.rootNumber (Utf8.encode source)).1.failure?
  | _ => none

/-- No source that is completed by one of the lines fails. -/
def IsQuiet (setting : Setting) : Shell → List String → Prop
  | _, [] => True
  | shell, line :: lines =>
    shell.failure? setting line = none ∧ IsQuiet setting (shell.step setting line).2 lines

instance decidableIsQuiet (setting : Setting) : (shell : Shell) → (lines : List String) →
    Decidable (shell.IsQuiet setting lines)
  | _, [] => isTrue trivial
  | shell, line :: lines =>
    have : Decidable (shell.failure? setting line = none) := decidable_of_iff _ Option.isNone_iff_eq_none
    have := decidableIsQuiet setting (shell.step setting line).2 lines
    inferInstanceAs (Decidable (_ ∧ _))

/-- The errors that a line brings about are those of the source that it completes. -/
lemma errors_step (setting : Setting) (shell : Shell) (line : String) :
    (shell.step setting line).1.errors =
      View.ofLines ((shell.failure? setting line).bind Failure.text?).toList := by
  unfold step failure?
  cases Command.ofLine line with
  | source text =>
    unfold feed
    dsimp only
    split <;> rfl
  | _ => rfl

/-- All that a shell has interpreted is, in one piece, a program that succeeds, prints the given output, and
leaves the session of the shell.  What it keeps back are the last lines of the text. -/
structure Replays (setting : Setting) (level : ℕ) (shell : Shell) (text output : String) (source : List UInt8)
    (tokens : List Leaf) (statements : List Node) : Prop where
  encode_text : Utf8.encode text = source ++ Utf8.encode shell.pending
  endsLine : EndsLine source
  clean : (Scan.ofBytes source).errors = []
  alike : List.Forall₂ Leaf.Alike tokens (programOf source)
  program : IsProgram tokens statements
  succeeds : ((Session.start level).run setting ScopeTree.rootNumber statements).1.failure? = none
  session : ((Session.start level).run setting ScopeTree.rootNumber statements).2 = shell.session
  printed : CommandLine.printed ((Session.start level).run setting ScopeTree.rootNumber statements).1.events =
    output

variable {setting : Setting} {level : ℕ} {shell : Shell} {text output line : String} {source : List UInt8}
  {tokens : List Leaf} {statements : List Node}

/-- In the beginning nothing was interpreted. -/
lemma replays_start (setting : Setting) (level : ℕ) :
    (start (Session.start level)).Replays setting level "" "" [] [] [] := by
  have hscans : Scan.ofBytes [] = ⟨[.endOfSource 2], []⟩ := ofBytes_of_scans .stop
  have hprogram : programOf [] = [] := by
    unfold programOf
    rw [hscans]
    rfl
  exact
    { encode_text := Utf8.encode_empty.trans Utf8.encode_empty.symm
      endsLine := fun b hb => absurd hb (Option.not_mem_none b)
      clean := congrArg Scan.errors hscans
      alike := by
        rw [hprogram]
        exact .nil
      program := .done rfl
      succeeds := rfl
      session := rfl
      printed := rfl }

/-- One more source that is complete and succeeds. -/
lemma Replays.complete {piece : List UInt8} {others : List Node}
    (h : shell.Replays setting level text output source tokens statements) {text' : String}
    (htext : Utf8.encode text' = source ++ piece) (hline : EndsLine (source ++ piece))
    (hpiece : (Scan.ofBytes piece).statements = .ok others)
    (hquiet : (shell.session.run setting ScopeTree.rootNumber others).1.failure? = none) :
    (start (shell.session.run setting ScopeTree.rootNumber others).2).Replays setting level text'
      (output ++ CommandLine.printed (shell.session.run setting ScopeTree.rootNumber others).1.events)
      (source ++ piece) (tokens ++ programOf piece) (statements ++ others) := by
  obtain ⟨hclean, hprogram⟩ := statements_eq_ok.mp hpiece
  obtain ⟨hboth, halike⟩ := programOf_append h.clean h.endsLine hclean
  have happend := Session.run_append h.succeeds others
  dsimp only at happend
  rw [h.session] at happend
  obtain ⟨hends, hlines, hsession⟩ := happend
  exact
    { encode_text := by rw [htext, start, Utf8.encode_empty, List.append_nil]
      endsLine := hline
      clean := hboth
      alike := Leaf.alike_trans (List.rel_append h.alike (Leaf.alike_refl _)) halike
      program := Grammar.gathers_append h.program hprogram
      succeeds := hends.trans hquiet
      session := hsession
      printed := by
        rw [← h.printed]
        exact (congrArg View.ofLines hlines).trans (View.ofLines_append _ _) }

/-- The output of a session that runs statements is what they print. -/
lemma Replays.output_eq (h : shell.Replays setting level text output source tokens statements)
    (report : Report) :
    shell.session.output report = CommandLine.printed report.events := by
  rw [← h.session]
  exact CommandLine.output_run level report

/-- One more line of source text. -/
theorem replays_step (h : shell.Replays setting level text output source tokens statements)
    (hline : IsSourceLine line) (hquiet : shell.failure? setting line = none) :
    ((shell.step setting line).1.stop = false ∧ (shell.step setting line).1.errors = "") ∧
      ∃ source tokens statements, (shell.step setting line).2.Replays setting level (text ++ (line ++ "\n"))
        (output ++ (shell.step setting line).1.output) source tokens statements := by
  have hcommand := ofLine_of_isSourceLine hline
  have herrors : (shell.step setting line).1.errors = "" := by
    rw [errors_step, hquiet]
    rfl
  have htext : Utf8.encode (text ++ (line ++ "\n")) =
      source ++ Utf8.encode (shell.pending ++ line ++ "\n") := by
    rw [Utf8.encode_append text, h.encode_text, String.append_assoc, Utf8.encode_append shell.pending,
      List.append_assoc]
  have hend : EndsLine (source ++ Utf8.encode (shell.pending ++ line ++ "\n")) := by
    rw [Utf8.encode_line, ← List.append_assoc]
    exact endsLine_append _
  unfold failure? at hquiet
  unfold step feed at herrors ⊢
  rw [hcommand] at hquiet herrors ⊢
  dsimp only at hquiet herrors ⊢
  split_ifs at hquiet herrors ⊢ with hopen
  · -- The line is kept back, and nothing is interpreted.
    exact ⟨⟨rfl, rfl⟩, source, tokens, statements, { h with
      encode_text := htext
      printed := h.printed.trans String.append_empty.symm }⟩
  · -- The line completes the pending text, which is interpreted as the next piece of the file.
    generalize Utf8.encode (shell.pending ++ line ++ "\n") = piece at *
    cases hstatements : (Scan.ofBytes piece).statements with
    | error failure =>
      rw [Session.interpret_of_error hstatements] at hquiet
      cases hquiet
    | ok others =>
      rw [Session.interpret_of_ok hstatements] at hquiet herrors ⊢
      have hnext := h.complete htext hend hstatements hquiet
      refine ⟨⟨rfl, herrors⟩, source ++ piece, tokens ++ programOf piece, statements ++ others, ?_⟩
      dsimp only at hnext ⊢
      have houtput := hnext.output_eq
      dsimp only [start] at houtput
      rw [houtput, CommandLine.printed_append_of_silent fun _ => CommandLine.not_isPrinted_of_mem]
      exact hnext

/-- Some more lines of source text. -/
theorem replays_takeAll {lines : List String}
    (h : shell.Replays setting level text output source tokens statements)
    (hlines : ∀ line ∈ lines, IsSourceLine line) (hquiet : shell.IsQuiet setting lines) :
    (∀ reply ∈ (shell.takeAll setting lines).1, reply.stop = false ∧ reply.errors = "") ∧
      ∃ source tokens statements,
        (shell.takeAll setting lines).2.Replays setting level (text ++ View.ofLines lines)
          (output ++ String.join ((shell.takeAll setting lines).1.map Reply.output)) source tokens statements := by
  induction lines generalizing shell text output source tokens statements with
  | nil =>
    refine ⟨List.forall_mem_nil _, source, tokens, statements, ?_⟩
    change shell.Replays setting level (text ++ "") (output ++ "") source tokens statements
    rwa [String.append_empty, String.append_empty]
  | cons line lines ih =>
    obtain ⟨hline, hlines⟩ := List.forall_mem_cons.mp hlines
    obtain ⟨hquiet, hlater⟩ := hquiet
    obtain ⟨hstop, source, tokens, statements, hnext⟩ := replays_step h hline hquiet
    obtain ⟨hstops, source, tokens, statements, hlast⟩ := ih hnext hlines hlater
    refine ⟨List.forall_mem_cons.mpr ⟨hstop, hstops⟩, source, tokens, statements, ?_⟩
    have htext : text ++ View.ofLines (line :: lines) = text ++ (line ++ "\n") ++ View.ofLines lines := by
      rw [View.ofLines_eq_join, View.ofLines_eq_join, List.map_cons, String.join_cons, ← String.append_assoc]
    have houtput : output ++ String.join ((shell.takeAll setting (line :: lines)).1.map Reply.output) =
        output ++ (shell.step setting line).1.output ++
          String.join (((shell.step setting line).2.takeAll setting lines).1.map Reply.output) := by
      rw [String.append_assoc]
      exact congrArg (output ++ ·) String.join_cons
    rw [htext, houtput]
    exact hlast

/-! ## The file -/

/-- All that a shell has interpreted is a program as well if it is read from a file, where the last line need
not be ended. -/
lemma Replays.exists_file {lines : List String}
    (h : shell.Replays setting level (View.ofLines lines) output source tokens statements)
    (hdone : shell.pending = "") :
    ∃ parsed, (Scan.ofBytes (Utf8.encode ("\n".intercalate lines))).statements = .ok parsed ∧
      List.Forall₂ Node.Alike statements parsed := by
  have hsource : source = Utf8.encode (View.ofLines lines) := by
    rw [h.encode_text, hdone, Utf8.encode_empty, List.append_nil]
  have hfile : (Scan.ofBytes (Utf8.encode ("\n".intercalate lines))).errors = [] ∧
      programOf (Utf8.encode ("\n".intercalate lines)) = programOf source := by
    cases lines with
    | nil =>
      subst hsource
      exact ⟨h.clean, rfl⟩
    | cons line lines =>
      rw [View.ofLines_eq_intercalate (List.cons_ne_nil line lines), Utf8.encode_line] at hsource
      subst hsource
      exact programOf_line h.clean
  obtain ⟨parsed, hparsed, halike⟩ := h.program.alike h.alike
  exact ⟨parsed, statements_eq_ok.mpr ⟨hfile.1, hfile.2 ▸ hparsed⟩, halike⟩

/-- A shell session equals running the file.  If lines of source text are given to a fresh shell one by one, none
of the sources that they complete fails, and nothing is kept back at the end, then a fresh session interprets
the lines as one source without a failure, has the same output, and leaves a root scope with the same names,
types and texts of values. -/
theorem session_equals_file (setting : Setting) (level : ℕ) (lines : List String)
    (hlines : ∀ line ∈ lines, IsSourceLine line) (hquiet : (start (.start level)).IsQuiet setting lines)
    (hdone : ((start (.start level)).takeAll setting lines).2.pending = "") :
    let (replies, shell) := (start (.start level)).takeAll setting lines
    let (report, session) := (Session.start level).interpret setting ScopeTree.rootNumber
      (Utf8.encode ("\n".intercalate lines))
    (∀ reply ∈ replies, reply.stop = false ∧ reply.errors = "") ∧ report.failure? = none ∧
      session.output report = String.join (replies.map Reply.output) ∧
      (session.scopes.frame ScopeTree.rootNumber).listing =
        (shell.session.scopes.frame ScopeTree.rootNumber).listing := by
  obtain ⟨hstops, source, tokens, statements, h⟩ :=
    replays_takeAll (replays_start setting level) hlines hquiet
  rw [String.empty_append, String.empty_append] at h
  obtain ⟨parsed, hparsed, halike⟩ := h.exists_file hdone
  have hruns := Session.run_alike setting halike (Session.alike_refl (.start level) ScopeTree.rootNumber)
  dsimp only at hruns ⊢
  rw [h.session, h.succeeds] at hruns
  obtain ⟨houtputs, hfailures, hafter⟩ := hruns
  rw [Session.interpret_of_ok hparsed]
  dsimp only
  have houtput := houtputs (Session.start level).view
  rw [CommandLine.output_start, CommandLine.output_start, h.printed] at houtput
  refine ⟨hstops, ?_, ?_, ?_⟩
  · generalize ((Session.start level).run setting ScopeTree.rootNumber parsed).1.failure? = failure?
      at hfailures ⊢
    cases hfailures
    rfl
  · rw [CommandLine.output_run, CommandLine.printed_append_of_silent fun _ => CommandLine.not_isPrinted_of_mem]
    exact houtput.symm
  · exact (Frame.listing_eq_of_corresponds (Chain.head_corresponds hafter.scopes)).symm

/-- A function that is declared over three lines, and a call of it. -/
def greetingLines : List String :=
  ["fun greet(name) \x7b", "print name;", "\x7d", "greet(\"hi\");"]

/-- The function is declared by the first three lines and called by the last one, as it is in a file. -/
theorem greetingLines_equal_file :
    (∀ line ∈ greetingLines, IsSourceLine line) ∧ (start (.start 0)).IsQuiet ⟨10, 10, fun _ => 0⟩ greetingLines ∧
      ((start (.start 0)).takeAll ⟨10, 10, fun _ => 0⟩ greetingLines).2.pending = "" ∧
      let (replies, shell) := (start (.start 0)).takeAll ⟨10, 10, fun _ => 0⟩ greetingLines
      let (report, session) := (Session.start 0).interpret ⟨10, 10, fun _ => 0⟩ ScopeTree.rootNumber
        (Utf8.encode ("\n".intercalate greetingLines))
      (∀ reply ∈ replies, reply.stop = false ∧ reply.errors = "") ∧ report.failure? = none ∧
        session.output report = String.join (replies.map Reply.output) ∧
        (session.scopes.frame ScopeTree.rootNumber).listing =
          (shell.session.scopes.frame ScopeTree.rootNumber).listing := by
  have hlines : ∀ line ∈ greetingLines, IsSourceLine line := by decide +kernel
  have hquiet : (start (.start 0)).IsQuiet ⟨10, 10, fun _ => 0⟩ greetingLines := by decide +kernel
  have hdone : ((start (.start 0)).takeAll ⟨10, 10, fun _ => 0⟩ greetingLines).2.pending = "" := by
    decide +kernel
  exact ⟨hlines, hquiet, hdone, session_equals_file ⟨10, 10, fun _ => 0⟩ 0 greetingLines hlines hquiet hdone⟩

end Shell

end Scriptlet
