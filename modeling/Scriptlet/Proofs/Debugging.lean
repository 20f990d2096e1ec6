import Scriptlet.Proofs.Sessions
import Scriptlet.Proofs.Simulation

/-!
# Debugging changes nothing

A debugger with a level puts a line together for each step that is shown at its level, and writes it, while the
source is scanned, parsed and run.  What could go wrong is that a line cannot be put together, or that its
writing changes what comes after.  Neither happens: every statement that is parsed has a text
(`Node.prints_of_isStatement`), and a run that is watched is the run as it is, with those of its events that are
shown (`Session.watch_eq`).  So two debuggers see the same program do the same, and the one with the higher level
sees all that the other one sees.
-/

namespace Scriptlet

open Grammar (IsExpression IsStatement)

/-! ## Statements as lines -/

namespace Node

/-- A tree is printed as a text. -/
def Prints (node : Node) : Prop :=
  ∃ text, node.print = .ok (.str text)

/-- All of some printed parts are texts. -/
def AreTexts (parts : List Json) : Prop :=
  ∀ part ∈ parts, ∃ text, part = .str text

/-- Texts are joined to a text. -/
lemma join_of_areTexts {parts : List Json} (h : AreTexts parts) : ∃ text, join parts = .ok text := by
  obtain ⟨texts, rfl⟩ : parts ∈ Set.range (List.map Json.str) := by
    rw [Set.range_list_map]
    exact fun part hpart => (h part hpart).imp fun _ => Eq.symm
  exact ⟨_, join_texts texts⟩

/-- Texts are put in parentheses, behind another text. -/
lemma parenthesize_of_areTexts {head : String} {parts : List Json} (h : AreTexts parts) :
    ∃ text, parenthesize (.str head) parts = .ok (.str text) := by
  have hall : AreTexts (.str head :: parts) := List.forall_mem_cons.mpr ⟨⟨head, rfl⟩, h⟩
  obtain ⟨inner, hinner⟩ := join_of_areTexts hall
  refine ⟨"(" ++ inner ++ ")", ?_⟩
  unfold parenthesize
  rw [hinner]
  rfl

lemma areTexts_nil : AreTexts [] :=
  List.forall_mem_nil _

/-- One more text may stand in front. -/
lemma AreTexts.cons {text : String} {parts : List Json} (h : AreTexts parts) : AreTexts (.str text :: parts) :=
  List.forall_mem_cons.mpr ⟨⟨text, rfl⟩, h⟩

/-- Nodes that print are printed one by one. -/
lemma printAll_of_prints {items : List Node} (h : ∀ item ∈ items, item.Prints) :
    ∃ parts, printAll items = .ok parts ∧ AreTexts parts := by
  induction items with
  | nil => exact ⟨[], rfl, areTexts_nil⟩
  | cons item items ih =>
    obtain ⟨⟨text, htext⟩, hitems⟩ := List.forall_mem_cons.mp h
    obtain ⟨parts, hparts, htexts⟩ := ih hitems
    refine ⟨.str text :: parts, ?_, htexts.cons⟩
    unfold printAll
    rw [htext, hparts]
    rfl

/-- The names of parameters that come from a source are texts. -/
lemma areTexts_paramNames {params : List Leaf} (h : ∀ t ∈ params, t.IsScanned) :
    AreTexts (params.map Leaf.lexeme) := by
  intro part hpart
  obtain ⟨t, ht, rfl⟩ := List.mem_map.mp hpart
  obtain ⟨token, rfl⟩ := h t ht
  exact ⟨token.lexeme, rfl⟩

/-- Every expression of a source is printed as a text. -/
lemma prints_of_isExpression {e : Node} (h : IsExpression Leaf.IsScanned e) : e.Prints := by
  induction h with
  | literal ht hv =>
    rcases ht.cases_of_denoted hv with rfl | ⟨b, rfl⟩ | ⟨x, rfl⟩ | ⟨s, rfl⟩
    · exact ⟨_, rfl⟩
    · exact ⟨_, rfl⟩
    · exact ⟨_, rfl⟩
    · exact ⟨_, rfl⟩
  | always => exact ⟨_, rfl⟩
  | grouping _ ih =>
    obtain ⟨text, htext⟩ := ih
    unfold Prints print
    rw [htext]
    exact parenthesize_of_areTexts areTexts_nil.cons
  | ident ht _ =>
    obtain ⟨token, rfl⟩ := ht
    exact ⟨token.lexeme, rfl⟩
  | call _ _ _ _ _ ih iharguments =>
    obtain ⟨text, htext⟩ := ih
    obtain ⟨parts, hparts, htexts⟩ := printAll_of_prints iharguments
    unfold Prints print printParts
    rw [htext, hparts]
    exact parenthesize_of_areTexts htexts.cons
  | unary ht _ _ _ ih =>
    obtain ⟨token, rfl⟩ := ht
    obtain ⟨text, htext⟩ := ih
    unfold Prints print
    rw [htext]
    exact parenthesize_of_areTexts areTexts_nil.cons
  | operator hlevel ht _ _ _ _ _ ihleft ihright =>
    obtain ⟨token, rfl⟩ := ht
    obtain ⟨left, hleft⟩ := ihleft
    obtain ⟨right, hright⟩ := ihright
    rcases Grammar.build_eq hlevel with hbuild | hbuild
    all_goals
      rw [hbuild]
      unfold Prints print
      rw [hleft, hright]
      exact parenthesize_of_areTexts areTexts_nil.cons.cons
  | assign ht _ _ ih =>
    obtain ⟨token, rfl⟩ := ht
    obtain ⟨text, htext⟩ := ih
    unfold Prints print
    rw [htext]
    exact parenthesize_of_areTexts areTexts_nil.cons

/-- Every statement of a source is printed as a text. -/
theorem prints_of_isStatement {s : Node} (h : IsStatement Leaf.IsScanned s) : s.Prints := by
  induction h with
  | exprStmt he | printStmt he =>
    obtain ⟨text, htext⟩ := prints_of_isExpression he
    unfold Prints print
    rw [htext]
    exact parenthesize_of_areTexts areTexts_nil.cons
  | varDecl ht _ =>
    obtain ⟨token, rfl⟩ := ht
    exact ⟨_, rfl⟩
  | varInit ht _ he =>
    obtain ⟨token, rfl⟩ := ht
    obtain ⟨text, htext⟩ := prints_of_isExpression he
    unfold Prints
    rw [print_varInit he.ne_null, htext]
    exact parenthesize_of_areTexts areTexts_nil.cons
  | block _ ih =>
    obtain ⟨parts, hparts, htexts⟩ := printAll_of_prints ih
    unfold Prints print printParts
    rw [hparts]
    exact parenthesize_of_areTexts htexts
  | ifStmt hcondition _ _ _ ihthen =>
    obtain ⟨condition, hcondition⟩ := prints_of_isExpression hcondition
    obtain ⟨thenBranch, hthen⟩ := ihthen
    unfold Prints print
    rw [hcondition, hthen]
    exact parenthesize_of_areTexts areTexts_nil.cons.cons
  | ifElse hcondition _ _ _ _ helse _ ihthen ihelse =>
    obtain ⟨condition, hcondition⟩ := prints_of_isExpression hcondition
    obtain ⟨thenBranch, hthen⟩ := ihthen
    obtain ⟨elseBranch, helseBranch⟩ := ihelse
    unfold Prints
    rw [print_ifElse helse.ne_null, hcondition, hthen, helseBranch]
    exact parenthesize_of_areTexts areTexts_nil.cons.cons.cons
  | whileStmt hcondition _ _ _ ihbody =>
    obtain ⟨condition, hcondition⟩ := prints_of_isExpression hcondition
    obtain ⟨body, hbody⟩ := ihbody
    unfold Prints print
    rw [hcondition, hbody]
    exact parenthesize_of_areTexts areTexts_nil.cons.cons
  | @funDecl _ params _ ht _ hparams _ ih =>
    obtain ⟨token, rfl⟩ := ht
    obtain ⟨joined, hjoined⟩ := join_of_areTexts (areTexts_paramNames fun t ht => (hparams t ht).1)
    obtain ⟨parts, hparts, htexts⟩ := printAll_of_prints ih
    unfold Prints print printParts
    rw [paramNames_tokens, hparts]
    change ∃ text, (do
      let names ← join (params.map Leaf.lexeme)
      parenthesize (.str ("fun " ++ token.lexeme ++ " (" ++ names ++ ")")) parts) = _
    rw [hjoined]
    exact parenthesize_of_areTexts htexts
  | returnStmt _ _ => exact ⟨_, rfl⟩
  | returnValue _ _ he =>
    obtain ⟨text, htext⟩ := prints_of_isExpression he
    unfold Prints
    rw [print_returnValue he.ne_null, htext]
    exact parenthesize_of_areTexts areTexts_nil.cons

end Node

/-! ## Debuggers -/

/-- Those of some events that are shown at a debug level. -/
abbrev Event.shownAt (level : ℕ) (events : List Event) : List Event :=
  View.shown ⟨level, true⟩ events

namespace Exec

/-- Puts together the line that shows an event, and writes it, if the event is shown at a debug level. -/
def debug (level : ℕ) (event : Event) : Exec Unit := do
  if event.level ≤ level then
    let _ ← part event.line?
    record event

/-- The state of a run that has only written what is shown, of its own events and of those before it. -/
def shownState (level : ℕ) (before : List Event) (s : State) : State :=
  { s with log := Event.shownAt level (s.log ++ before) }

variable {level : ℕ} {before : List Event}

/-- An event that has a line is written if it is shown, and nothing else happens. -/
lemma debug_shownState {event : Event} {line : String} (h : event.line? = .ok line) (s : State) :
    debug level event (shownState level before s) =
      .ok () (shownState level before { s with log := event :: s.log }) := by
  unfold debug
  by_cases hlevel : event.level ≤ level
  · have hshown : Event.shownAt level (event :: (s.log ++ before)) =
        event :: Event.shownAt level (s.log ++ before) := by
      simp [View.shown, hlevel]
    rw [if_pos hlevel, h]
    unfold shownState
    rw [List.cons_append, hshown]
    rfl
  · have hshown : Event.shownAt level (event :: (s.log ++ before)) = Event.shownAt level (s.log ++ before) := by
      simp [View.shown, hlevel]
    rw [if_neg hlevel]
    unfold shownState
    rw [List.cons_append, hshown]
    rfl

/-- Events that have lines come before what is recorded later. -/
lemma forM_debug {events : List Event} (h : ∀ event ∈ events, ∃ line, event.line? = .ok line) {s : State}
    (hs : s.log = []) : events.forM (debug level) (shownState level before s) =
      .ok () (shownState level (events.reverse ++ before) s) := by
  induction events generalizing before with
  | nil => rfl
  | cons event events ih =>
    obtain ⟨⟨line, hline⟩, hevents⟩ := List.forall_mem_cons.mp h
    have hone : shownState level before { s with log := event :: s.log } =
        shownState level (event :: before) s := by
      unfold shownState
      rw [hs]
      rfl
    change (debug level event >>= fun _ => events.forM (debug level)) (shownState level before s) = _
    rw [bind_apply, debug_shownState hline, hone]
    dsimp only
    rw [ih hevents, List.reverse_cons, List.append_assoc]
    rfl

/-- What a debugger has written while a run is recorded, with what was there before. -/
def WritesShown (level : ℕ) (before log log' : List Event) : Prop :=
  log' = Event.shownAt level (log ++ before)

/-- Only the state that has written what another one shows corresponds to that. -/
lemma eq_shownState {s s' : State} (h : s.Corresponds .same (WritesShown level before) s') :
    s' = shownState level before s := by
  obtain ⟨scopes', log', callDepth', made', readings'⟩ := s'
  obtain ⟨hscopes, rfl, rfl, hmade, rfl⟩ := h
  obtain rfl : s.made = made' := hmade 0
  obtain rfl := Chain.eq_of_corresponds hscopes
  rfl

/-- A state corresponds to the one that has written what it shows. -/
lemma shownState_corresponds (s : State) :
    s.Corresponds .same (WritesShown level before) (shownState level before s) :=
  ⟨Chain.corresponds_refl (fun _ _ => rfl) (fun _ => rfl) s.scopes, rfl, rfl, fun _ => rfl, rfl⟩

/-- The events of a run have lines. -/
lemma line?_of_corresponds {T : Likeness} {event event' : Event}
    (h : event.Corresponds T event') : event.line? = .ok event.text := by
  cases h <;> rfl

/-- Next to a run that records every event, a debugger writes those that are shown. -/
lemma seeAlike_debug (level : ℕ) (before : List Event) :
    SeeAlike .same (WritesShown level before) record (debug level) where
  prints hv hlog := by
    obtain rfl := hv.eq
    simpa [WritesShown, View.shown, Event.level] using hlog
  notes {event event'} he s s' hs := by
    obtain rfl := he.eq
    rw [eq_shownState hs, debug_shownState (line?_of_corresponds he)]
    exact .ok trivial (shownState_corresponds _)

/-- A run that a debugger watches is the run as it is. -/
theorem runWith_debug (level : ℕ) (setting : Setting) (statements : List Node) (before : List Event)
    (s : State) :
    runWith (debug level) setting statements (shownState level before s) =
      match run setting statements s with
      | .ok () final => .ok () (shownState level before final)
      | .error stop final => .error stop (shownState level before final) := by
  have hself : List.Forall₂ (Node.Corresponds (fun _ => Eq) .stray) statements statements :=
    List.forall₂_same.mpr fun statement _ => Node.corresponds_refl (fun _ _ => rfl) .stray statement
  have hsimulates := simulates_run Likeness.meansSame_same (seeAlike_debug level before) setting hself
  rw [runWith_record] at hsimulates
  have hagree := hsimulates (shownState_corresponds s)
  generalize run setting statements s = outcome,
    runWith (debug level) setting statements (shownState level before s) = watched at hagree ⊢
  cases hagree with
  | ok _ hfinal => rw [eq_shownState hfinal]
  | error hstop hfinal => rw [eq_shownState hfinal, hstop.eq]

end Exec

/-! ## Sessions that are watched -/

namespace Report

/-- The lines that a script printed. -/
def printedLines (report : Report) : List String :=
  (report.events.filter Event.isPrinted).map Event.text

/-- The lines that a debugger wrote. -/
def debugLines (report : Report) : List String :=
  (report.events.filter (!·.isPrinted)).map Event.text

end Report

namespace Session

/-- Interprets a source, with a hook wherever a debugger would write a line. -/
def interpretWith (hook : Event → Exec Unit) (setting : Setting) (source : List UInt8) :
    EStateM Failure State Unit := do
  let scan := Scan.ofBytes source
  EStateM.adaptExcept .run ((scanEvents scan).forM hook)
  match scan.statements with
  | .error failure => throw failure
  | .ok statements =>
    EStateM.adaptExcept .run ((parseEvents statements).forM hook)
    EStateM.adaptExcept .run (Exec.runWith hook setting statements)

/-- Interprets a source in a scope, under a debugger with the given level.  The report holds what was printed
and what the debugger wrote. -/
def watch (level : ℕ) (setting : Setting) (session : Session) (scope : ℕ) (source : List UInt8) :
    Report × Session :=
  match interpretWith (Exec.debug level) setting source (session.state scope) with
  | .ok () final => (⟨final.log.reverse, none⟩, session.resume scope final)
  | .error failure final => (⟨final.log.reverse, some failure⟩, session.resume scope final)

/-- Tokens and counts have lines. -/
lemma line?_of_mem_scanEvents {scan : Scan} : ∀ event ∈ scanEvents scan, ∃ line, event.line? = .ok line := by
  refine List.forall_mem_cons.mpr ⟨⟨_, rfl⟩, fun event hevent => ?_⟩
  obtain ⟨token, -, rfl⟩ := List.mem_map.mp hevent
  exact ⟨_, rfl⟩

/-- Statements of a source have lines. -/
lemma line?_of_mem_parseEvents {statements : List Node} (h : ∀ s ∈ statements, IsStatement Leaf.IsScanned s) :
    ∀ event ∈ parseEvents statements, ∃ line, event.line? = .ok line := by
  refine List.forall_mem_cons.mpr ⟨⟨_, rfl⟩, fun event hevent => ?_⟩
  obtain ⟨s, hs, rfl⟩ := List.mem_map.mp hevent
  obtain ⟨text, htext⟩ := Node.prints_of_isStatement (h s hs)
  exact ⟨text, by simp only [Event.line?, htext]⟩

/-- What comes behind a stage that succeeds begins where the stage ends. -/
lemma stage_bind {stage : Exec Unit} {next : EStateM Failure State Unit} {s t : State}
    (h : stage s = .ok () t) : (EStateM.adaptExcept Failure.run stage >>= fun _ => next) s = next t := by
  change EStateM.bind (EStateM.adaptExcept Failure.run stage) (fun _ => next) s = next t
  simp only [EStateM.bind, EStateM.adaptExcept, h]

/-- What was written before a run and in it, in its order. -/
lemma reverse_shownState (level : ℕ) (before : List Event) (s : State) :
    (Exec.shownState level before s).log.reverse = Event.shownAt level (before.reverse ++ s.log.reverse) := by
  unfold Exec.shownState Event.shownAt View.shown
  rw [← List.filter_reverse, List.reverse_append]

/-- A source that is interpreted under a debugger is interpreted as it always is, with the same end and the
same effects; of its events those are kept that are shown. -/
theorem watch_eq (level : ℕ) (setting : Setting) (session : Session) (scope : ℕ) (source : List UInt8) :
    session.watch level setting scope source =
      (⟨Event.shownAt level (session.interpret setting scope source).1.events,
        (session.interpret setting scope source).1.failure?⟩,
       (session.interpret setting scope source).2) := by
  have hsource := statements_of_source source
  have hbegin : session.state scope = Exec.shownState level [] (session.state scope) := rfl
  unfold watch interpretWith
  rw [hbegin, stage_bind (Exec.forM_debug line?_of_mem_scanEvents rfl)]
  cases hstatements : (Scan.ofBytes source).statements with
  | error failure =>
    rw [interpret_of_error hstatements]
    change (Report.mk (Exec.shownState level _ (session.state scope)).log.reverse _,
      { session with scopes := session.scopes.write scope (session.scopes.chain scope) }) = _
    rw [reverse_shownState, ScopeTree.write_chain]
    simp [Session.state]
  | ok statements =>
    rw [hstatements] at hsource
    rw [interpret_of_ok hstatements, run_fst, run_snd]
    dsimp only
    rw [stage_bind (Exec.forM_debug (line?_of_mem_parseEvents hsource) rfl)]
    unfold EStateM.adaptExcept
    rw [Exec.runWith_debug]
    cases Exec.run setting statements (session.state scope) with
    | ok _ final =>
      dsimp only
      rw [reverse_shownState]
      simp [Exec.final, Exec.stop?, Exec.shownState, Session.resume]
    | error stop final =>
      dsimp only
      rw [reverse_shownState]
      simp [Exec.final, Exec.stop?, Exec.shownState, Session.resume]

/-- What is printed is shown at every level. -/
lemma isPrinted_shownAt (level : ℕ) (events : List Event) :
    (Event.shownAt level events).filter Event.isPrinted = events.filter Event.isPrinted := by
  have hprinted : ∀ event : Event, event.isPrinted = true → event.level ≤ level := by
    intro event hevent
    cases event with
    | printed value => exact Nat.zero_le level
    | _ => cases hevent
  unfold Event.shownAt View.shown
  rw [List.filter_filter]
  refine List.filter_congr fun event _ => ?_
  cases hevent : event.isPrinted with
  | false => rfl
  | true => simpa using hprinted event hevent

/-- Only what is printed is shown at level zero. -/
lemma shownAt_zero (events : List Event) : Event.shownAt 0 events = events.filter Event.isPrinted := by
  refine List.filter_congr fun event _ => ?_
  cases event <;> rfl

/-- What is shown at a level is shown at higher ones. -/
lemma shownAt_sublist (level more : ℕ) (events : List Event) :
    (Event.shownAt level events).Sublist (Event.shownAt (level + more) events) := by
  refine List.monotone_filter_right events fun event hevent => ?_
  have hlevel : event.level ≤ level := of_decide_eq_true hevent
  exact decide_eq_true (hlevel.trans (Nat.le_add_right level more))

/-- A debugger prints what the output of the session shows. -/
theorem printedLines_watch (level : ℕ) (setting : Setting) (session : Session) (scope : ℕ)
    (source : List UInt8) :
    (session.watch level setting scope source).1.printedLines =
      View.outputLines ⟨level, true⟩ (session.interpret setting scope source).1.events := by
  rw [watch_eq]
  rfl

/-- A debugger writes what the debug file of the session shows. -/
theorem debugLines_watch (level : ℕ) (setting : Setting) (session : Session) (scope : ℕ)
    (source : List UInt8) :
    (session.watch level setting scope source).1.debugLines =
      View.debugLines ⟨level, true⟩ (session.interpret setting scope source).1.events := by
  rw [watch_eq]
  rfl

/-- Debugging never changes what a source does, whatever the scopes hold that it is interpreted in.  With two
debug levels, the same lines are printed, the same failure is reported, and the session is left the same, with
the same scopes and as many active calls; what is written at the lower level is written, in this order, at the
higher one; and nothing is written at level zero.  All of this is what the session itself does and shows at
that level. -/
theorem watching_changes_nothing (setting : Setting) (session : Session) (scope : ℕ) (source : List UInt8)
    (level more : ℕ) :
    let plain := session.interpret setting scope source
    let lower := session.watch level setting scope source
    let higher := session.watch (level + more) setting scope source
    (lower.1.printedLines = higher.1.printedLines ∧ lower.1.failure? = higher.1.failure? ∧
      lower.2 = higher.2 ∧ lower.1.debugLines.Sublist higher.1.debugLines ∧
      (session.watch 0 setting scope source).1.debugLines = []) ∧
    lower.1.printedLines = View.outputLines ⟨level, true⟩ plain.1.events ∧
      lower.1.debugLines = View.debugLines ⟨level, true⟩ plain.1.events ∧
      lower.1.failure? = plain.1.failure? ∧ lower.2 = plain.2 := by
  have hprinted := printedLines_watch level setting session scope source
  have hdebug := debugLines_watch level setting session scope source
  dsimp only
  refine ⟨?_, hprinted, hdebug, ?_, ?_⟩
  · rw [watch_eq level, watch_eq (level + more), watch_eq 0]
    refine ⟨?_, rfl, rfl, ?_, ?_⟩
    · unfold Report.printedLines
      rw [isPrinted_shownAt, isPrinted_shownAt]
    · exact ((shownAt_sublist level more _).filter _).map _
    · unfold Report.debugLines
      rw [shownAt_zero, List.filter_filter]
      simp
  · rw [watch_eq]
  · rw [watch_eq]

end Session

end Scriptlet
