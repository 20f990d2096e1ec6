import Scriptlet.Proofs.CorrespondingPrograms
import Scriptlet.Proofs.Simulation

/-!
# Positions are only diagnostics

Tokens that differ only in their positions are parsed to programs that differ only in the positions of their
tokens, and such programs run alike: they show the same, fail for the same reason or not at all, and leave
scopes that hold the same, but for positions in the declarations of functions.

Functions are told apart by numbers that say in which order they were made.  Two sessions need not have made
the same number of functions; it is enough that the functions in their scopes can be paired.
-/

namespace Scriptlet

/-! ## Differing only in positions -/

/-- Tokens that differ only in their positions. -/
structure Leaf.Alike (t u : Leaf) : Prop where
  kind : t.kind = u.kind
  lexeme : t.lexeme = u.lexeme
  literal : t.literal = u.literal

/-- Trees that differ only in the positions of their tokens. -/
abbrev Node.Alike : Node → Node → Prop :=
  Node.Corresponds (fun _ => Leaf.Alike) .stray

/-- Tokens count as the same whatever their positions, and functions as they are paired. -/
def Likeness.upToPositions (pairing : ℕ → ℕ → Prop) : Likeness :=
  ⟨fun _ => Leaf.Alike, pairing⟩

/-- Two scopes, one of each of two sessions, that see the same up to positions, when functions are paired.  The
pairing confuses no two functions, and it pairs those that will be made. -/
structure Session.Alike (pairing : ℕ → ℕ → Prop) (session : Session) (scope : ℕ) (session' : Session)
    (scope' : ℕ) : Prop where
  scopes : Chain.Corresponds (.upToPositions pairing) (session.scopes.chain scope)
    (session'.scopes.chain scope')
  callDepth : session.callDepth = session'.callDepth
  readings : session.readings = session'.readings
  id_iff {i i' j j' : ℕ} : pairing i i' → pairing j j' → (i = j ↔ i' = j')
  made (k : ℕ) : pairing (session.made + k) (session'.made + k)

/-- The kind and the wording of the error that stops a run. -/
def Stop.message? : Stop → Option String
  | .failed error => some error.cause.message
  | .fault f => f.message?
  | .returned _ | .tooDeep | .outOfTurns => none

/-- Two runs fail for the same reason, up to positions, and with the same message. -/
inductive Failure.Alike (pairing : ℕ → ℕ → Prop) : Failure → Failure → Prop
  | run {stop stop' : Stop} : stop.Corresponds (.upToPositions pairing) stop' → stop.message? = stop'.message? →
      Alike pairing (.run stop) (.run stop')

/-! ## Parsing -/

namespace Grammar

/-- Tokens that differ in their positions only are parsed alike. -/
lemma parsesSame_alike : ParsesSame Leaf.Alike :=
  ⟨fun h => h.kind, fun h => h.literal⟩

/-- Lists of tokens that differ in their positions only end with such tokens. -/
lemma getLast?_alike {tokens tokens' : List Leaf} (h : List.Forall₂ Leaf.Alike tokens tokens') :
    Option.Rel Leaf.Alike tokens.getLast? tokens'.getLast? := by
  induction h with
  | nil => exact .none
  | @cons t u ts us ht _ ih =>
    rw [List.getLast?_cons, List.getLast?_cons]
    generalize ts.getLast? = last, us.getLast? = last' at ih
    cases ih with
    | none => exact .some ht
    | some hlast => exact .some hlast

/-- The end marks of tokens that are alike are alike.  If all lines are numbers, there are such marks. -/
lemma endMark?_alike {tokens tokens' : List Leaf} (h : List.Forall₂ Leaf.Alike tokens tokens')
    (hlines : ∀ t ∈ tokens ++ tokens', ∃ line : ℤ, t.line = .int line) :
    Option.Rel Leaf.Alike (endMark? tokens) (endMark? tokens') := by
  have hmark : ∀ line line' : Json, (Leaf.endMark line).Alike (Leaf.endMark line') :=
    fun _ _ => ⟨rfl, rfl, rfl⟩
  have hlast := getLast?_alike h
  unfold endMark?
  cases ht : tokens.getLast? with
  | none =>
    cases hu : tokens'.getLast? with
    | none => exact .some (hmark _ _)
    | some u =>
      rw [ht, hu] at hlast
      cases hlast
  | some t =>
    cases hu : tokens'.getLast? with
    | none =>
      rw [ht, hu] at hlast
      cases hlast
    | some u =>
      rw [ht, hu] at hlast
      cases hlast with
      | some htu =>
        obtain ⟨line, hline⟩ := hlines t (List.mem_append_left _ (List.mem_of_getLast? ht))
        obtain ⟨line', hline'⟩ := hlines u (List.mem_append_right _ (List.mem_of_getLast? hu))
        dsimp only
        rw [← htu.kind, hline, hline']
        split
        · exact .some htu
        · exact .some (hmark _ _)

/-- Tokens that differ only in their positions are parsed to programs that differ only in positions, or rejected
with one message. -/
theorem parse_alike {tokens tokens' : List Leaf} (h : List.Forall₂ Leaf.Alike tokens tokens')
    (hlines : ∀ t ∈ tokens ++ tokens', ∃ line : ℤ, t.line = .int line) :
    Matched (fun error error' : ParseError => error.message = error'.message) (List.Forall₂ Node.Alike)
      (parse tokens) (parse tokens') := by
  have hfilter := forall₂_filter parsesSame_alike h
  have hends : ∀ t ∈ tokens.filter (·.kind ≠ .comment) ++ tokens'.filter (·.kind ≠ .comment),
      ∃ line : ℤ, t.line = .int line := by
    intro t ht
    rw [← List.filter_append] at ht
    exact hlines t (List.mem_of_mem_filter ht)
  have hparse := parseWithin_corresponds parsesSame_alike nestingLimit h (endMark?_alike hfilter hends)
  change Matched _ _ (parse tokens) (parse tokens') at hparse
  generalize parse tokens = outcome, parse tokens' = outcome' at hparse
  cases hparse with
  | ok htrees => exact .ok (htrees.imp fun _ _ htree => htree.mono fun hleaf => hleaf.1)
  | error herror => exact .error (herror.message_eq parsesSame_alike)

end Grammar

/-! ## Runs -/

variable {pairing : ℕ → ℕ → Prop}

/-- Runs that stop for corresponding reasons stop with one message. -/
lemma Stop.Corresponds.message?_eq {T : Likeness} {stop stop' : Stop} (h : stop.Corresponds T stop') :
    stop.message? = stop'.message? := by
  cases h with
  | fault hfault => exact hfault.message?_eq
  | _ => rfl

namespace Session

variable {session session' : Session} {scope scope' : ℕ}

/-- Each scope sees the same as itself, if each function is paired with itself. -/
lemma alike_refl (session : Session) (scope : ℕ) : session.Alike Eq scope session scope where
  scopes := Chain.corresponds_refl (fun _ _ => Leaf.Alike.mk rfl rfl rfl) (fun _ => rfl) _
  callDepth := rfl
  readings := rfl
  id_iff hi hj := by rw [hi, hj]
  made _ := rfl

/-- Programs that differ only in positions run alike in scopes that are alike. -/
theorem run_alike (setting : Setting) {statements statements' : List Node}
    (hstatements : List.Forall₂ Node.Alike statements statements')
    (h : session.Alike pairing scope session' scope') :
    let (report, after) := session.run setting scope statements
    let (report', after') := session'.run setting scope' statements'
    (∀ view : View, view.output report.events = view.output report'.events) ∧
      Option.Rel (Failure.Alike pairing) report.failure? report'.failure? ∧
      after.Alike pairing scope after' scope' := by
  have hmeans : (Likeness.upToPositions pairing).MeansSame :=
    ⟨fun h => h.kind, fun h => h.lexeme, h.id_iff⟩
  have hhooks : Exec.SeeAlike (.upToPositions pairing)
      (List.Forall₂ (Event.Corresponds (.upToPositions pairing))) Exec.record Exec.record :=
    Exec.seeAlike_record fun he hlogs => .cons he hlogs
  have hstates : State.Corresponds (.upToPositions pairing)
      (List.Forall₂ (Event.Corresponds (.upToPositions pairing))) (session.state scope)
      (session'.state scope') :=
    ⟨h.scopes, .nil, h.callDepth, h.made, h.readings⟩
  have hsimulates := Exec.simulates_run hmeans hhooks setting hstatements
  rw [Exec.runWith_record, Exec.runWith_record] at hsimulates
  have hagree := hsimulates hstates
  have hfinal := hagree.final
  have hchains := hfinal.scopes
  rw [← chain_run setting session, ← chain_run setting session'] at hchains
  dsimp only
  rw [run_fst, run_fst, run_snd, run_snd] at *
  refine ⟨fun view => ?_, ?_, ⟨hchains, hfinal.callDepth, hfinal.readings, h.id_iff, hfinal.made⟩⟩
  · have hevents := (List.rel_reverse hfinal.log).imp fun _ _ he => he.embraced
    exact View.output_eq_of_embraced hevents view
  · have hstop := hagree.stop?
    generalize Exec.stop? (Exec.run setting statements (session.state scope)) = stop?,
      Exec.stop? (Exec.run setting statements' (session'.state scope')) = stop?' at hstop
    cases hstop with
    | none => exact .none
    | some hstop => exact .some (.run hstop hstop.message?_eq)

/-- Positions are only diagnostics.  Tokens that differ only in their positions are parsed to programs that
differ only in positions, or rejected with one message.  Programs that differ only in positions, run in scopes
that hold the same up to positions, have the same output, end both normally or for the same reason with the
same message, and leave scopes that again hold the same up to positions, and as many active calls.

The lines of the tokens are numbers: if a list has no end mark, then the parser puts one on the line after the
last token. -/
theorem positions_are_only_diagnostics :
    (∀ tokens tokens' : List Leaf, List.Forall₂ Leaf.Alike tokens tokens' →
      (∀ t ∈ tokens ++ tokens', ∃ line : ℤ, t.line = .int line) →
      Matched (fun error error' : Grammar.ParseError => error.message = error'.message)
        (List.Forall₂ Node.Alike) (Grammar.parse tokens) (Grammar.parse tokens')) ∧
    ∀ (setting : Setting) (pairing : ℕ → ℕ → Prop) (session session' : Session) (scope scope' : ℕ)
      (statements statements' : List Node), List.Forall₂ Node.Alike statements statements' →
      session.Alike pairing scope session' scope' →
      let (report, after) := session.run setting scope statements
      let (report', after') := session'.run setting scope' statements'
      (∀ view : View, view.output report.events = view.output report'.events) ∧
        Option.Rel (Failure.Alike pairing) report.failure? report'.failure? ∧
        after.Alike pairing scope after' scope' := by
  refine ⟨fun tokens tokens' htokens hlines => ?_, fun setting pairing session session' scope scope' => ?_⟩
  · exact Grammar.parse_alike htokens hlines
  · exact fun statements statements' hstatements h => run_alike setting hstatements h

/-- The tokens of `x;` at a given place. -/
def unknownNameAt (line column : ℤ) : List Leaf :=
  [Token.leaf ⟨.identifier, "x", none, ⟨line, column, column + 1⟩⟩,
    Token.leaf ⟨.semicolon, ";", none, ⟨line, column + 1, column + 2⟩⟩, Token.leaf (.endOfSource line)]

/-- The program of `x;` at a given place. -/
def unknownNameTree (line column : ℤ) : List Node :=
  [.exprStmt (.ident (.token (Token.leaf ⟨.identifier, "x", none, ⟨line, column, column + 1⟩⟩)))]

/-- An unknown name is parsed, and not found, wherever it stands. -/
theorem unknownName_anywhere :
    Matched (fun error error' : Grammar.ParseError => error.message = error'.message)
        (List.Forall₂ Node.Alike) (Grammar.parse (unknownNameAt 1 0)) (Grammar.parse (unknownNameAt 7 3)) ∧
      let (report, after) := (start 0).run ⟨10, 10, fun _ => 0⟩ ScopeTree.rootNumber (unknownNameTree 1 0)
      let (report', after') := (start 0).run ⟨10, 10, fun _ => 0⟩ ScopeTree.rootNumber (unknownNameTree 7 3)
      (∀ view : View, view.output report.events = view.output report'.events) ∧
        Option.Rel (Failure.Alike Eq) report.failure? report'.failure? ∧
        after.Alike Eq ScopeTree.rootNumber after' ScopeTree.rootNumber := by
  have htokens : List.Forall₂ Leaf.Alike (unknownNameAt 1 0) (unknownNameAt 7 3) :=
    .cons ⟨rfl, rfl, rfl⟩ (.cons ⟨rfl, rfl, rfl⟩ (.cons ⟨rfl, rfl, rfl⟩ .nil))
  have hlines : ∀ t ∈ unknownNameAt 1 0 ++ unknownNameAt 7 3, ∃ line : ℤ, t.line = .int line := by
    simp [unknownNameAt, Token.leaf]
  have htrees : List.Forall₂ Node.Alike (unknownNameTree 1 0) (unknownNameTree 7 3) :=
    .cons (.exprStmt (.ident (.token ⟨rfl, rfl, rfl⟩))) .nil
  exact ⟨positions_are_only_diagnostics.1 _ _ htokens hlines,
    positions_are_only_diagnostics.2 ⟨10, 10, fun _ => 0⟩ Eq _ _ _ _ _ _ htrees
      (alike_refl (start 0) ScopeTree.rootNumber)⟩

end Session

end Scriptlet
