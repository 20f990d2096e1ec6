import Scriptlet.Proofs.ShellSessions

/-!
# What a shell keeps back

A shell collects lines of source text until all their braces are closed, and interprets what it has collected.
A line can change which braces of the next ones count, as it can begin a string that goes on behind it, so every
decision looks at the whole text again.  What the shell keeps back is always the lines since the last source was
complete, and everything said here of it follows from that (`Shell.Keeps`): nothing is lost, no source is
interpreted before its first chance or after it, and the prompt tells whether there is something kept back.
-/

namespace Scriptlet

namespace Session

/-- Interprets sources in the root scope, one after the other. -/
def interpretAll (setting : Setting) (session : Session) : List String → List Report × Session
  | [] => ([], session)
  | source :: sources =>
    let (report, session) := session.interpret setting ScopeTree.rootNumber (Utf8.encode source)
    let (reports, session) := interpretAll setting session sources
    (report :: reports, session)

end Session

namespace Shell

/-- The source text of a line that is no command. -/
def sourceOf? (line : String) : Option String :=
  match Command.ofLine line with
  | .source text => some text
  | _ => none

/-- The source that a line completes, if it completes one. -/
def completed? (shell : Shell) (line : String) : Option String :=
  match sourceOf? line with
  | some text =>
    let source := shell.pending ++ text ++ "\n"
    if isOpen source then none else some source
  | none => none

/-- The sources that lines complete. -/
def completed (setting : Setting) : Shell → List String → List String
  | _, [] => []
  | shell, line :: lines =>
    (shell.completed? line).toList ++ completed setting (shell.step setting line).2 lines

/-- Lines make up a source: their braces are closed at the end of the last of them, and at no line before. -/
structure IsPiece (lines : List String) : Prop where
  ne_nil : lines ≠ []
  closed : (Scan.ofText (View.ofLines lines)).openBraces ≤ 0
  open_front : ∀ front, front <+: lines → front ≠ [] → front ≠ lines →
    0 < (Scan.ofText (View.ofLines front)).openBraces

/-- What a shell keeps back are the given lines.  At the end of each of them there is an open brace, and the
prompt is the one for further lines if there are any of them. -/
structure Keeps (shell : Shell) (kept : List String) : Prop where
  pending : shell.pending = View.ofLines kept
  prompt : shell.prompt = if kept = [] then primaryPrompt else secondaryPrompt
  open_front : ∀ front, front <+: kept → front ≠ [] → 0 < (Scan.ofText (View.ofLines front)).openBraces

variable {setting : Setting} {shell : Shell} {kept : List String} {line text : String}

/-! ## One line -/

/-- A fresh shell has nothing pending. -/
lemma keeps_start (session : Session) : (start session).Keeps [] where
  pending := rfl
  prompt := rfl
  open_front _ hfront hne := absurd (List.prefix_nil.mp hfront) hne

/-- A text is open if more braces are opened in it than closed. -/
lemma isOpen_eq_true {source : String} : isOpen source = true ↔ 0 < (Scan.ofText source).openBraces :=
  decide_eq_true_iff

/-- A text is not open if no more braces are opened in it than closed. -/
lemma isOpen_eq_false {source : String} : isOpen source = false ↔ (Scan.ofText source).openBraces ≤ 0 :=
  decide_eq_false_iff_not.trans not_lt

/-- The text that is kept back with one more line. -/
lemma Keeps.pending_append (h : shell.Keeps kept) (text : String) :
    shell.pending ++ text ++ "\n" = View.ofLines (kept ++ [text]) := by
  rw [h.pending, View.ofLines_append, String.append_assoc]
  rfl

/-- A front of some lines and one more is all of them, or it is a front of the others. -/
lemma front_cases {front : List String} (hfront : front <+: kept ++ [text]) :
    front = kept ++ [text] ∨ front <+: kept :=
  List.prefix_concat_iff.mp (by simpa using hfront)

/-- A command changes nothing. -/
lemma step_of_command (setting : Setting) (shell : Shell) (h : sourceOf? line = none) :
    (shell.step setting line).2 = shell ∧ (shell.step setting line).1.events = [] ∧
      (shell.step setting line).1.errors = "" := by
  unfold sourceOf? at h
  unfold step
  cases hcommand : Command.ofLine line with
  | source text => simp [hcommand] at h
  | _ => exact ⟨rfl, rfl, rfl⟩

/-- Source text is fed to the shell. -/
lemma step_of_source (setting : Setting) (shell : Shell) (h : sourceOf? line = some text) :
    shell.step setting line = shell.feed setting text := by
  unfold sourceOf? at h
  unfold step
  cases hcommand : Command.ofLine line with
  | source _ =>
    rw [hcommand] at h
    cases h
    rfl
  | _ => simp [hcommand] at h

/-- Source text that leaves a brace open is kept back. -/
lemma feed_of_open (setting : Setting) (hopen : isOpen (shell.pending ++ text ++ "\n") = true) :
    shell.feed setting text =
      (⟨false, "", "", "", []⟩,
        { shell with pending := shell.pending ++ text ++ "\n", prompt := secondaryPrompt }) := by
  unfold feed
  rw [if_pos hopen]

/-- Source text that leaves no brace open is interpreted with what was kept back, and whatever comes of it
nothing is kept back any more. -/
lemma feed_of_closed (setting : Setting) (hclosed : isOpen (shell.pending ++ text ++ "\n") = false) :
    let outcome := shell.session.interpret setting ScopeTree.rootNumber
      (Utf8.encode (shell.pending ++ text ++ "\n"))
    shell.feed setting text =
      (⟨false, outcome.2.output outcome.1, View.ofLines (outcome.1.failure?.bind Failure.text?).toList, "",
        outcome.1.events⟩, start outcome.2) := by
  unfold feed
  rw [if_neg (Bool.eq_false_iff.mp hclosed)]

/-- One more line: a command leaves everything as it is, source text is kept back or it completes a source. -/
theorem Keeps.step (h : shell.Keeps kept) (setting : Setting) (line : String) :
    ∃ (pieces : List (List String)) (kept' : List String),
      kept ++ (sourceOf? line).toList = pieces.flatten ++ kept' ∧
      (shell.completed? line).toList = pieces.map View.ofLines ∧ (∀ piece ∈ pieces, IsPiece piece) ∧
      (shell.step setting line).2.Keeps kept' := by
  unfold completed?
  cases hsource : sourceOf? line with
  | none =>
    rw [(step_of_command setting shell hsource).1]
    exact ⟨[], kept, List.append_nil kept, rfl, List.forall_mem_nil _, h⟩
  | some text =>
    have hpending := h.pending_append text
    rw [step_of_source setting shell hsource]
    cases hopen : isOpen (shell.pending ++ text ++ "\n") with
    | true =>
      rw [feed_of_open setting hopen]
      refine ⟨[], kept ++ [text], rfl, by simp [hopen], List.forall_mem_nil _, hpending, ?_, ?_⟩
      · exact (if_neg (List.append_ne_nil_of_right_ne_nil kept (List.cons_ne_nil text []))).symm
      · intro front hfront hne
        rcases front_cases hfront with rfl | hfront
        · exact hpending ▸ isOpen_eq_true.mp hopen
        · exact h.open_front front hfront hne
    | false =>
      rw [feed_of_closed setting hopen]
      refine ⟨[kept ++ [text]], [], by simp, by simp [← hpending, hopen], ?_, keeps_start _⟩
      rw [List.forall_mem_singleton]
      refine ⟨List.append_ne_nil_of_right_ne_nil kept (List.cons_ne_nil text []),
        hpending ▸ isOpen_eq_false.mp hopen, fun front hfront hne hall => ?_⟩
      exact h.open_front front ((front_cases hfront).resolve_left hall) hne

/-! ## Some lines -/

/-- The lines that a shell takes make up the sources that they complete and what is kept back at the end. -/
theorem Keeps.takeAll (h : shell.Keeps kept) (setting : Setting) (lines : List String) :
    ∃ (pieces : List (List String)) (kept' : List String),
      kept ++ lines.filterMap sourceOf? = pieces.flatten ++ kept' ∧
      shell.completed setting lines = pieces.map View.ofLines ∧ (∀ piece ∈ pieces, IsPiece piece) ∧
      (shell.takeAll setting lines).2.Keeps kept' := by
  induction lines generalizing shell kept with
  | nil => exact ⟨[], kept, List.append_nil kept, rfl, List.forall_mem_nil _, h⟩
  | cons line lines ih =>
    obtain ⟨first, middle, hfirst, hfirsts, hpiece, hmiddle⟩ := h.step setting line
    obtain ⟨later, kept', hlater, hlaters, hpieces, hkept⟩ := ih hmiddle
    refine ⟨first ++ later, kept', ?_, ?_, List.forall_mem_append.mpr ⟨hpiece, hpieces⟩, hkept⟩
    · calc kept ++ (line :: lines).filterMap sourceOf?
        _ = kept ++ (sourceOf? line).toList ++ lines.filterMap sourceOf? := by
          cases hsource : sourceOf? line <;> simp [hsource]
        _ = first.flatten ++ (middle ++ lines.filterMap sourceOf?) := by rw [hfirst, List.append_assoc]
        _ = (first ++ later).flatten ++ kept' := by
          rw [hlater, List.flatten_append, List.append_assoc]
    · rw [completed, hfirsts, hlaters, List.map_append]

/-- What a shell does with the lines that it takes is interpreting the sources that they complete. -/
theorem takeAll_eq_interpretAll (setting : Setting) (shell : Shell) (lines : List String) :
    let (replies, after) := shell.takeAll setting lines
    let (reports, session) := shell.session.interpretAll setting (shell.completed setting lines)
    after.session = session ∧ replies.flatMap Reply.events = reports.flatMap Report.events ∧
      String.join (replies.map Reply.errors) =
        String.join (reports.map fun report => View.ofLines (report.failure?.bind Failure.text?).toList) := by
  induction lines generalizing shell with
  | nil => exact ⟨rfl, rfl, rfl⟩
  | cons line lines ih =>
    obtain ⟨hsession, hevents, herrors⟩ := ih (shell.step setting line).2
    unfold takeAll completed completed?
    dsimp only at hsession hevents herrors ⊢
    cases hsource : sourceOf? line with
    | none =>
      obtain ⟨hsame, hno, hquiet⟩ := step_of_command setting shell hsource
      rw [hsame] at hsession hevents herrors ⊢
      refine ⟨hsession, ?_, ?_⟩
      · rw [List.flatMap_cons, hno]
        exact hevents
      · rw [List.map_cons, String.join_cons, hquiet, String.empty_append]
        exact herrors
    | some text =>
      rw [step_of_source setting shell hsource] at hsession hevents herrors ⊢
      dsimp only
      cases hopen : isOpen (shell.pending ++ text ++ "\n") with
      | true =>
        rw [feed_of_open setting hopen] at hsession hevents herrors ⊢
        refine ⟨hsession, hevents, ?_⟩
        rw [List.map_cons, String.join_cons]
        exact (String.empty_append).trans herrors
      | false =>
        rw [feed_of_closed setting hopen] at hsession hevents herrors ⊢
        refine ⟨hsession, ?_, ?_⟩
        · exact congrArg _ hevents
        · rw [List.map_cons, String.join_cons, herrors, ← String.join_cons]
          rfl

/-! ## The shell at every point -/

lemma primaryPrompt_ne_secondaryPrompt : primaryPrompt ≠ secondaryPrompt := by
  decide

/-- A text of lines is empty if there are none. -/
lemma ofLines_eq_empty {lines : List String} : View.ofLines lines = "" ↔ lines = [] := by
  refine ⟨fun h => ?_, fun h => h ▸ rfl⟩
  by_contra hne
  rw [View.ofLines_eq_intercalate hne, String.append_eq_empty_iff] at h
  exact absurd h.2 (by decide)

/-- Texts of lines, put together, are the text of all the lines. -/
lemma join_map_ofLines (pieces : List (List String)) :
    String.join (pieces.map View.ofLines) = View.ofLines pieces.flatten := by
  induction pieces with
  | nil => rfl
  | cons piece pieces ih => rw [List.map_cons, String.join_cons, ih, List.flatten_cons, View.ofLines_append]

lemma openBraces_empty : (Scan.ofText "").openBraces = 0 := by
  decide +kernel

/-- The text that is kept back, the prompt, and the open braces tell the same. -/
lemma Keeps.agree (h : shell.Keeps kept) :
    (shell.pending ≠ "" ↔ shell.prompt = secondaryPrompt) ∧
      (shell.prompt = secondaryPrompt ↔ 0 < (Scan.ofText shell.pending).openBraces) := by
  rw [h.pending, h.prompt, ne_eq, ofLines_eq_empty]
  by_cases hkept : kept = []
  · subst hkept
    have hclosed : ¬ 0 < (Scan.ofText (View.ofLines [])).openBraces := openBraces_empty.not_gt
    simp [hclosed, primaryPrompt_ne_secondaryPrompt]
  · simp [hkept, h.open_front kept List.prefix_rfl hkept]

/-- A line that completes a source leaves nothing kept back, whatever comes of the source. -/
lemma step_of_completed (setting : Setting) {source : String} (h : shell.completed? line = some source) :
    (shell.step setting line).2 =
      start (shell.session.interpret setting ScopeTree.rootNumber (Utf8.encode source)).2 := by
  unfold completed? at h
  cases hsource : sourceOf? line with
  | none => simp [hsource] at h
  | some text =>
    rw [step_of_source setting shell hsource]
    cases hopen : isOpen (shell.pending ++ text ++ "\n") with
    | true => simp [hsource, hopen] at h
    | false =>
      simp only [hsource, hopen, Bool.false_eq_true, if_false, Option.some.injEq] at h
      rw [feed_of_closed setting hopen, h]

/-- Buffering loses nothing.  When a shell has taken some lines, it has interpreted the sources that they
complete, one after the other, and these and the text that is kept back are the source text of the lines.  The
text that is kept back is not empty if and only if the prompt is the secondary one, and if and only if the text
has more opening than closing braces.  Each source consists of some of the lines, has no more opening than closing
braces, and has more at the end of each line but the last.  From there on a command changes nothing, and a line
that completes a source leaves nothing kept back, even if the source fails. -/
theorem buffering_loses_nothing (setting : Setting) (session : Session) (lines : List String) :
    let (replies, shell) := (start session).takeAll setting lines
    let sources := (start session).completed setting lines
    let (reports, session') := session.interpretAll setting sources
    (shell.session = session' ∧ replies.flatMap Reply.events = reports.flatMap Report.events ∧
      String.join (replies.map Reply.errors) =
        String.join (reports.map fun report => View.ofLines (report.failure?.bind Failure.text?).toList)) ∧
      String.join sources ++ shell.pending = View.ofLines (lines.filterMap sourceOf?) ∧
      (shell.pending ≠ "" ↔ shell.prompt = secondaryPrompt) ∧
      (shell.prompt = secondaryPrompt ↔ 0 < (Scan.ofText shell.pending).openBraces) ∧
      (∃ pieces : List (List String), pieces.flatten <+: lines.filterMap sourceOf? ∧
        sources = pieces.map View.ofLines ∧ ∀ piece ∈ pieces, IsPiece piece) ∧
      ∀ line, (sourceOf? line = none → (shell.step setting line).2 = shell) ∧
        ∀ source, shell.completed? line = some source → (shell.step setting line).2 =
          start (shell.session.interpret setting ScopeTree.rootNumber (Utf8.encode source)).2 := by
  obtain ⟨pieces, kept, hlines, hsources, hpieces, hkept⟩ := (keeps_start session).takeAll setting lines
  rw [List.nil_append] at hlines
  refine ⟨takeAll_eq_interpretAll setting (start session) lines, ?_, hkept.agree.1, hkept.agree.2,
    ⟨pieces, hlines ▸ List.prefix_append _ _, hsources, hpieces⟩,
    fun line => ⟨fun hcommand => ?_, fun source => ?_⟩⟩
  · rw [hlines, View.ofLines_append, hsources, hkept.pending]
    rw [join_map_ofLines]
  · exact (step_of_command setting _ hcommand).1
  · exact step_of_completed setting

/-- The brace on the third line is part of a string, so it does not close the one on the first line; that the
string begins is seen again when the last line comes. -/
example : (start (.start 0)).completed ⟨10, 10, fun _ => 0⟩ ["\x7b", "help", "print \"\x7d", "\";", "\x7d"] =
    ["\x7b\nprint \"\x7d\n\";\n\x7d\n"] := by
  decide +kernel

end Shell

end Scriptlet
