import Scriptlet.Proofs.EmptyScopes
import Scriptlet.Proofs.ForLoops
import Scriptlet.Proofs.Sessions

/-!
# Redundant braces

A statement that stands as a branch or as the body of a loop declares nothing in the scope that it stands in, so
braces around it only open a scope that stays empty.  Executed on its own, such a statement does the same with and
without braces, if there is one more level of nesting for them (`Exec.execute_braced`).

Braces that are put around statements in the middle of a program are executed many times, and within scopes and
calls that hang below them.  A program with such braces is compared with the one without them
(`Session.run_braced`).  The scopes of the two runs never differ in anything but the bodies of functions, because
each time that braces are met, they may as well be left out.  What remains is that braces use up nesting, so one of
the runs may reach the limit where the other does not.
-/

namespace Scriptlet

open Grammar (IsStatement textToken)

/-! ## Statements that take braces -/

/-- What is read as a branch or as the body of a loop takes braces. -/
lemma Grammar.takesBraces_of_statement {limit : ℕ} {ts rest : List Leaf} {s : Node}
    (h : Grammar.statement limit ts = .ok (s, rest)) : s.takesBraces = true := by
  obtain ⟨_, -, hread⟩ := (reads_declaration_statement (T := fun _ => True) limit).2 (fun _ _ => trivial) h
  have hdeclares : s.declares = false := hread.shape.declares_eq.trans hread.plain
  have hstatement : s.isStatement = true := by
    cases hread.shape <;> rfl
  unfold Node.takesBraces
  rw [hstatement, hdeclares]
  rfl

/-- Braces around a statement that takes them need one more level of nesting, and nothing else. -/
lemma Exec.execute_braced (setting : Setting) (depth : ℕ) {s : Node} (h : s.declares = false) :
    Exec.execute setting (depth + 1) (.block (.list [s])) = Exec.execute setting depth s := by
  rw [Exec.execute_block_of_declares_eq_false setting depth (List.forall_mem_singleton.mpr h)]
  exact bind_pure_unit

/-! ## Scopes up to braces -/

/-- Trees of scopes whose scopes are related one by one, and lie in the same ones. -/
def ScopeTree.Related (V : Value → Value → Prop) : ScopeTree → ScopeTree → Prop :=
  List.Forall₂ fun scope scope' => Frame.Related V scope.frame scope'.frame ∧ scope.parent? = scope'.parent?

namespace ScopeTree.Related

variable {V : Value → Value → Prop} {tree tree' : ScopeTree}

lemma refl (hV : ∀ v, V v v) (tree : ScopeTree) : ScopeTree.Related V tree tree :=
  List.forall₂_same.mpr fun _ _ => ⟨List.forall₂_same.mpr fun binding _ => ⟨rfl, hV binding.2⟩, rfl⟩

lemma chain (h : ScopeTree.Related V tree tree') (n : ℕ) : Chain.Related V (tree.chain n) (tree'.chain n) := by
  induction h generalizing n with
  | nil => exact .nil
  | @cons scope scope' older older' hscope holder ih =>
    obtain ⟨hframe, hparent⟩ := hscope
    unfold ScopeTree.chain
    rw [← hparent, ← List.Forall₂.length_eq holder]
    split
    · split
      · exact .cons hframe (ih _)
      · exact .cons hframe .nil
    · exact ih n

lemma write (h : ScopeTree.Related V tree tree') (n : ℕ) {chain chain' : Chain}
    (hchain : Chain.Related V chain chain') :
    ScopeTree.Related V (tree.write n chain) (tree'.write n chain') := by
  induction h generalizing n chain chain' with
  | nil => exact .nil
  | @cons scope scope' older older' hscope holder ih =>
    cases hchain with
    | nil => exact .cons hscope holder
    | cons hframe houter =>
      have hlength : older'.length = older.length := (List.Forall₂.length_eq holder).symm
      obtain ⟨frame, parent?⟩ := scope
      obtain ⟨frame', parent?'⟩ := scope'
      obtain rfl : parent? = parent?' := hscope.2
      by_cases hn : n = older.length
      · cases parent? with
        | none => simpa [ScopeTree.write, hn, hlength, ScopeTree.Related] using ⟨hframe, holder⟩
        | some p => simpa [ScopeTree.write, hn, hlength, ScopeTree.Related] using ⟨hframe, ih p houter⟩
      · simpa [ScopeTree.write, hn, hlength, ScopeTree.Related] using ⟨hscope.1, ih n (.cons hframe houter)⟩

end ScopeTree.Related

/-- The second tree is the first one with braces around any number of its statements, wherever they are. -/
abbrev Node.Braced : Node → Node → Prop :=
  Node.Embraced (fun _ => Eq) True

/-- Values that are the same but for such braces in the bodies of functions. -/
abbrev Value.Braced : Value → Value → Prop :=
  Value.Embraced .same True

namespace Session

/-- Two sessions that are the same but for braces in the bodies of functions. -/
structure Braced (session session' : Session) : Prop where
  scopes : ScopeTree.Related Value.Braced session.scopes session'.scopes
  callDepth : session.callDepth = session'.callDepth
  made : session.made = session'.made
  readings : session.readings = session'.readings
  view : session.view = session'.view

lemma braced_refl (session : Session) : session.Braced session where
  scopes := .refl (Value.embraced_refl (fun _ _ => rfl) fun _ => rfl) session.scopes
  callDepth := rfl
  made := rfl
  readings := rfl
  view := rfl

end Session

/-! ## Runs -/

namespace Session

variable {session session' : Session} {setting setting' : Setting} {program program' : List Node}

/-- A program with more braces is run alike, unless one of the runs reaches the nesting limit. -/
theorem run_braced (scope : ℕ) (hturns : setting.turns = setting'.turns) (hclock : setting.clock = setting'.clock)
    (hprogram : List.Forall₂ Node.Braced program program') (h : session.Braced session') :
    let plain := session.run setting scope program
    let braced := session'.run setting' scope program'
    plain.1.Exhausts ∨ braced.1.Exhausts ∨ plain.1.Embraced .same True braced.1 ∧ plain.2.Braced braced.2 := by
  let C := Comparison.ofLikeness .same True (List.Forall₂ (Event.Embraced .same True))
  have hC : C.Lawful :=
    Comparison.lawful_ofLikeness Likeness.meansSame_same fun hv hlog => .cons (.printed hv) hlog
  have hrecord : C.Surroundings Exec.record Exec.record setting setting' :=
    Comparison.surroundings_record hturns hclock .cons fun _ => Exec.execute_braced setting'
  have hadmits : ∀ s ∈ program, C.Admits () 0 s := fun _ _ => ⟨fun _ => trivial, fun _ => trivial⟩
  have hstates : C.States () 0 (session.state scope) (session'.state scope) :=
    ⟨h.scopes.chain scope, .nil, h.callDepth, fun k => congrArg (· + k) h.made, h.readings⟩
  intro plain braced
  rcases run_compares hC rfl hrecord (.inr trivial) hadmits hprogram hstates with ⟨-, hexhausts⟩ | ⟨hreport, hafter⟩
  · exact hexhausts.imp_right .inl
  · refine .inr (.inr ⟨hreport, ?_⟩)
    have hresumed : (session.resume scope _).Braced (session'.resume scope _) :=
      ⟨h.scopes.write scope hafter.scopes, hafter.calls, hafter.made 0, hafter.readings, h.view⟩
    rwa [← run_snd, ← run_snd] at hresumed

/-- If a parsed program runs in scopes that hold sound values and reaches the nesting limit, then it fails with an
error that says so. -/
lemma exists_of_exhausts (scope : ℕ) (hscopes : session.scopes.IsSound)
    (hprogram : ∀ s ∈ program, IsStatement Leaf.IsScanned s)
    (h : (session.run setting scope program).1.Exhausts) :
    ∃ error, (session.run setting scope program).1.failure? = some (.run (.failed error)) ∧
      (error.cause = .callsTooDeep ∨ error.cause = .programTooDeep) := by
  have hstate : (session.state scope).IsSound := ⟨hscopes.chain scope, List.forall_mem_nil _⟩
  have hkeeps := Exec.keeps_run session.callDepth setting hprogram _ hstate rfl
  obtain ⟨stop, hfailure, hstop⟩ := h
  rw [run_fst] at hfailure ⊢
  cases hrun : Exec.run setting program (session.state scope) with
  | ok u s =>
    rw [hrun] at hfailure
    cases hfailure
  | error stop' s =>
    rw [hrun] at hfailure hkeeps
    cases hfailure
    cases stop with
    | failed error => exact ⟨error, rfl, hstop⟩
    | fault fault => exact hkeeps.1.elim
    | tooDeep => exact absurd hrun (Exec.run_ne_tooDeep setting program _ s)
    | returned _ | outOfTurns => exact hstop.elim

end Session

/-- Redundant braces are transparent.  The statements that the grammar accepts as branches and bodies of loops take
braces, and executing such a statement with braces around it is executing it with one more level of nesting: with
the same result and from the same state into the same state, whatever the scopes and the active calls.  More
generally, a program with such braces anywhere, run in scopes that are the same but for such braces in the bodies of
functions, has the same output and the same outcome, and leaves scopes that are again the same but for such braces.
This holds unless one of the runs reaches the nesting limit, which need not be the same for both.

A run that reaches the nesting limit fails with an error that says so, if it is a parsed program that runs in sound
scopes; otherwise a call that should be blamed for it may have no closing parenthesis. -/
theorem redundant_braces_are_transparent :
    (∀ (limit : ℕ) (ts rest : List Leaf) (s : Node), Grammar.statement limit ts = .ok (s, rest) →
      s.takesBraces = true) ∧
    (∀ (setting : Setting) (depth : ℕ) (s : Node), s.takesBraces = true →
      Exec.execute setting (depth + 1) (.block (.list [s])) = Exec.execute setting depth s) ∧
    ∀ (setting setting' : Setting) (session session' : Session) (scope : ℕ) (program program' : List Node),
      setting.turns = setting'.turns → setting.clock = setting'.clock → List.Forall₂ Node.Braced program program' →
      session.Braced session' →
      let plain := session.run setting scope program
      let braced := session'.run setting' scope program'
      (plain.1.Exhausts ∨ braced.1.Exhausts ∨ plain.1.Embraced .same True braced.1 ∧ plain.2.Braced braced.2) ∧
      (session.scopes.IsSound → (∀ s ∈ program, IsStatement Leaf.IsScanned s) → plain.1.Exhausts →
        ∃ error, plain.1.failure? = some (.run (.failed error)) ∧
          (error.cause = .callsTooDeep ∨ error.cause = .programTooDeep)) ∧
      (session'.scopes.IsSound → (∀ s ∈ program', IsStatement Leaf.IsScanned s) → braced.1.Exhausts →
        ∃ error, braced.1.failure? = some (.run (.failed error)) ∧
          (error.cause = .callsTooDeep ∨ error.cause = .programTooDeep)) := by
  refine ⟨fun _ _ _ _ h => Grammar.takesBraces_of_statement h, fun setting depth s h => ?_, ?_⟩
  · exact Exec.execute_braced setting depth (Node.declares_of_takesBraces h)
  · intro setting setting' session session' scope program program' hturns hclock hprogram hsession
    exact ⟨Session.run_braced scope hturns hclock hprogram hsession,
      Session.exists_of_exhausts scope, Session.exists_of_exhausts scope⟩

/-- The tokens of `print nil;`. -/
def printNilTokens : List Leaf :=
  [textToken .printWord "print", textToken .nilWord "nil", textToken .semicolon ";"]

/-- The tree of these tokens. -/
def printNil : Node :=
  .printStmt (.literal .null)

/-- The tree of `fun f() { print nil; } while (f()) print nil;`, with something around three of its statements. -/
def callingLoop (around : Node → Node) : List Node :=
  let f : Node := .token (textToken .identifier "f")
  let called : Node := .call (.ident f) (.token (textToken .rightParen ")")) (.list [])
  [.funDecl f (.list []) (.list [around printNil]), around (.whileStmt called (around printNil))]

/-- A loop that calls a function runs alike with braces around the statements in it. -/
theorem callingLoop_with_braces :
    (Grammar.statement 9 printNilTokens = .ok (printNil, []) ∧ printNil.takesBraces = true) ∧
    (∀ (setting : Setting) (depth : ℕ),
      Exec.execute setting (depth + 1) (.block (.list [printNil])) = Exec.execute setting depth printNil) ∧
    let plain := (Session.start 0).run ⟨30, 9, fun _ => 0⟩ 0 (callingLoop id)
    let braced := (Session.start 0).run ⟨20, 9, fun _ => 0⟩ 0 (callingLoop fun s => .block (.list [s]))
    ¬ plain.1.Exhausts ∧ ¬ braced.1.Exhausts ∧ plain.1.Embraced .same True braced.1 ∧ plain.2.Braced braced.2 := by
  have hread : Grammar.statement 9 printNilTokens = .ok (printNil, []) := rfl
  have hsame : ∀ s, Node.Braced s s := fun s => (Node.corresponds_refl (fun _ _ => rfl) .stray s).embraced
  have hprint : Node.Braced printNil (.block (.list [printNil])) := .braced trivial rfl (hsame printNil)
  have hloop : List.Forall₂ Node.Braced (callingLoop id) (callingLoop fun s => .block (.list [s])) := by
    refine .cons (.funDecl (.token rfl) .nil (.cons hprint .nil)) (.cons (.braced trivial rfl ?_) .nil)
    exact .whileStmt (.call (.ident (.token rfl)) (.token rfl) .nil) hprint
  refine ⟨⟨hread, redundant_braces_are_transparent.1 9 _ _ _ hread⟩, fun setting depth => ?_, ?_⟩
  · exact redundant_braces_are_transparent.2.1 setting depth printNil rfl
  · have hends : ∀ report : Report, report.failure?.isNone = true → ¬ report.Exhausts := by
      rintro report hnone ⟨stop, hstop, -⟩
      rw [hstop] at hnone
      cases hnone
    have hplain := hends ((Session.start 0).run ⟨30, 9, fun _ => 0⟩ 0 (callingLoop id)).1 (by decide +kernel)
    have hbraced := hends ((Session.start 0).run ⟨20, 9, fun _ => 0⟩ 0 (callingLoop fun s => .block (.list [s]))).1
      (by decide +kernel)
    have hruns := redundant_braces_are_transparent.2.2 ⟨30, 9, fun _ => 0⟩ ⟨20, 9, fun _ => 0⟩ _ _ 0 _ _ rfl rfl
      hloop (Session.braced_refl (.start 0))
    exact ⟨hplain, hbraced, (hruns.1.resolve_left hplain).resolve_left hbraced⟩

end Scriptlet
