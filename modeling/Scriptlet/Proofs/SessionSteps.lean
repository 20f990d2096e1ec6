import Scriptlet.Proofs.Footprints
import Scriptlet.Session

/-!
# The steps of a session

In a session sources are interpreted and stored trees are run, each in some scope, scopes are opened, and
the debug file may be closed.  A source that is rejected and a tree that cannot be loaded leave the session
alone; everything else that a session does to its scopes is a run of some statements (`take_cases`).
-/

namespace Scriptlet

/-- Why a computation stopped before its end, if it did. -/
def Exec.stop? {α : Type} : EStateM.Result Stop State α → Option Stop
  | .ok _ _ => none
  | .error stop _ => some stop

/-! ## Frames that are written back -/

/-- A chain grows in its frames, not in their number. -/
lemma Chain.Grows.length_eq {before after : Chain} (h : Chain.Grows before after) :
    after.length = before.length := by
  cases h with
  | nil => rfl
  | cons _ houter => simpa using congrArg List.length houter

namespace ScopeTree

/-- Writing back the frames that are seen from a scope changes nothing. -/
lemma write_chain (tree : ScopeTree) (n : ℕ) : tree.write n (tree.chain n) = tree := by
  induction tree generalizing n with
  | nil => rfl
  | cons scope older ih =>
    obtain ⟨frame, parent?⟩ := scope
    unfold ScopeTree.chain
    by_cases hn : n = older.length
    · rw [if_pos hn]
      cases parent? with
      | none => simp [ScopeTree.write, hn]
      | some p => simp [ScopeTree.write, hn, ih p]
    · rw [if_neg hn]
      cases hchain : ScopeTree.chain older n with
      | nil => rfl
      | cons frame outer =>
        have hwrite := ih n
        rw [hchain] at hwrite
        simp [ScopeTree.write, hn, hwrite]

/-- As many frames as are seen from a scope are seen from it after they have been written back. -/
lemma chain_write (tree : ScopeTree) (n : ℕ) {chain : Chain} (h : chain.length = (tree.chain n).length) :
    (tree.write n chain).chain n = chain := by
  induction tree generalizing n chain with
  | nil => exact (List.length_eq_zero_iff.mp h).symm
  | cons scope older ih =>
    obtain ⟨frame, parent?⟩ := scope
    cases chain with
    | nil => exact List.length_eq_zero_iff.mp h.symm
    | cons frame' outer =>
      unfold ScopeTree.chain at h
      by_cases hn : n = older.length
      · rw [if_pos hn] at h
        cases parent? with
        | none =>
          obtain rfl : outer = [] := List.length_eq_zero_iff.mp (Nat.succ.inj h)
          simp [ScopeTree.write, ScopeTree.chain, hn]
        | some p =>
          have houter := ih p (Nat.succ.inj h)
          simp [ScopeTree.write, ScopeTree.chain, hn, length_write, houter]
      · rw [if_neg hn] at h
        have hchain := ih n h
        simp [ScopeTree.write, ScopeTree.chain, hn, length_write, hchain]

/-- Frames that are written back twice are the later ones. -/
lemma write_write (tree : ScopeTree) (n : ℕ) {first second : Chain} (h : first.length = second.length) :
    (tree.write n first).write n second = tree.write n second := by
  induction tree generalizing n first second with
  | nil => rfl
  | cons scope older ih =>
    obtain ⟨frame, parent?⟩ := scope
    cases first with
    | nil =>
      obtain rfl : second = [] := List.length_eq_zero_iff.mp h.symm
      rfl
    | cons frame' outer =>
      cases second with
      | nil => cases h
      | cons frame'' outer' =>
        have houter : outer.length = outer'.length := Nat.succ.inj h
        by_cases hn : n = older.length
        · cases parent? with
          | none => simp [ScopeTree.write, hn]
          | some p => simp [ScopeTree.write, hn, length_write, ih p houter]
        · have hwrite := ih n h
          simp [ScopeTree.write, hn, length_write, hwrite]

end ScopeTree

namespace Session

/-- Something that is done in a session. -/
inductive Step where
  /-- A source is interpreted in a scope. -/
  | interpret (scope : ℕ) (source : List UInt8)
  /-- The statements that a JSON value stores are run in a scope. -/
  | runJson (scope : ℕ) (json : Json)
  /-- A scope is opened inside another one. -/
  | openScope (parent : ℕ)
  /-- The debug file is closed. -/
  | closeDebug

/-- The session after one step. -/
def take (setting : Setting) (session : Session) : Step → Session
  | .interpret scope source => (session.interpret setting scope source).2
  | .runJson scope json => (session.runJson setting scope json).2
  | .openScope parent => session.openScope parent
  | .closeDebug => session.closeDebug

/-- The session after some steps. -/
def takeAll (setting : Setting) (session : Session) (steps : List Step) : Session :=
  steps.foldl (take setting) session

variable {setting : Setting} {session : Session} {scope : ℕ} {source : List UInt8} {json : Json}
  {statements : List Node}

/-- A run changes a session in the way in which it changes its state, however it ends. -/
lemma run_snd : (session.run setting scope statements).2 =
    session.resume scope (Exec.final (Exec.run setting statements (session.state scope))) := by
  unfold Session.run
  cases Exec.run setting statements (session.state scope) <;> rfl

/-- A run reports what it recorded, and why it stopped. -/
lemma run_fst : (session.run setting scope statements).1 =
    ⟨(Exec.final (Exec.run setting statements (session.state scope))).log.reverse,
      (Exec.stop? (Exec.run setting statements (session.state scope))).map .run⟩ := by
  unfold Session.run
  cases Exec.run setting statements (session.state scope) <;> rfl

/-- An accepted source is scanned, parsed and run. -/
lemma interpret_of_ok (h : (Scan.ofBytes source).statements = .ok statements) :
    session.interpret setting scope source =
      (⟨scanEvents (Scan.ofBytes source) ++ parseEvents statements
          ++ (session.run setting scope statements).1.events,
        (session.run setting scope statements).1.failure?⟩,
       (session.run setting scope statements).2) := by
  unfold Session.interpret
  simp only [h]

/-- A rejected source is scanned and nothing more. -/
lemma interpret_of_error {failure : Failure} (h : (Scan.ofBytes source).statements = .error failure) :
    session.interpret setting scope source =
      (⟨scanEvents (Scan.ofBytes source), some failure⟩, session) := by
  unfold Session.interpret
  simp only [h]

/-- A stored program that can be loaded is run. -/
lemma runJson_of_ok (h : Node.programOfJson json = .ok statements) :
    session.runJson setting scope json = session.run setting scope statements := by
  unfold Session.runJson
  rw [h]

lemma runJson_of_error {error : LoadError} (h : Node.programOfJson json = .error error) :
    session.runJson setting scope json = (⟨[], some (.load error)⟩, session) := by
  unfold Session.runJson
  rw [h]

/-- Interpreting a source changes nothing or what running some statements changes. -/
lemma interpret_cases (setting : Setting) (session : Session) (scope : ℕ) (source : List UInt8) :
    (session.interpret setting scope source).2 = session ∨
      ∃ statements, (session.interpret setting scope source).2 =
        (session.run setting scope statements).2 := by
  cases h : (Scan.ofBytes source).statements with
  | error failure =>
    rw [interpret_of_error h]
    exact .inl rfl
  | ok statements =>
    rw [interpret_of_ok h]
    exact .inr ⟨statements, rfl⟩

/-- A stored program leaves the session as it was, or as a run does. -/
lemma runJson_cases (setting : Setting) (session : Session) (scope : ℕ) (json : Json) :
    (session.runJson setting scope json).2 = session ∨
      ∃ statements, (session.runJson setting scope json).2 =
        (session.run setting scope statements).2 := by
  cases h : Node.programOfJson json with
  | error error =>
    rw [runJson_of_error h]
    exact .inl rfl
  | ok statements =>
    rw [runJson_of_ok h]
    exact .inr ⟨statements, rfl⟩

/-- A step runs some statements in a scope: those of an accepted source, or those that a stored tree holds. -/
inductive Step.Runs : Step → ℕ → List Node → Prop
  | interpret {scope : ℕ} {source : List UInt8} {statements : List Node} :
      (Scan.ofBytes source).statements = .ok statements → Runs (.interpret scope source) scope statements
  | runJson {scope : ℕ} {json : Json} {statements : List Node} :
      Node.programOfJson json = .ok statements → Runs (.runJson scope json) scope statements

/-- A step that runs some statements does to a session what their run does. -/
lemma take_of_runs {step : Step} (h : step.Runs scope statements) :
    session.take setting step = (session.run setting scope statements).2 := by
  cases h with
  | interpret h => rw [take, interpret_of_ok h]
  | runJson h => rw [take, runJson_of_ok h]

/-- What one step does to a session. -/
theorem take_cases (setting : Setting) (session : Session) (step : Step) :
    session.take setting step = session ∨
      (∃ scope statements, step.Runs scope statements ∧
        session.take setting step = (session.run setting scope statements).2) ∨
      (∃ parent, session.take setting step = session.openScope parent) ∨
      session.take setting step = session.closeDebug := by
  cases step with
  | interpret scope source =>
    cases h : (Scan.ofBytes source).statements with
    | error failure => exact .inl (by rw [take, interpret_of_error h])
    | ok statements => exact .inr (.inl ⟨scope, statements, .interpret h, take_of_runs (.interpret h)⟩)
  | runJson scope json =>
    cases h : Node.programOfJson json with
    | error error => exact .inl (by rw [take, runJson_of_error h])
    | ok statements => exact .inr (.inl ⟨scope, statements, .runJson h, take_of_runs (.runJson h)⟩)
  | openScope parent => exact .inr (.inr (.inl ⟨parent, rfl⟩))
  | closeDebug => exact .inr (.inr (.inr rfl))

/-- What a step runs is determined by the step. -/
lemma Step.Runs.unique {step : Step} {scope' : ℕ} {statements' : List Node} (h : step.Runs scope statements)
    (h' : step.Runs scope' statements') : scope = scope' ∧ statements = statements' := by
  cases h with
  | interpret h =>
    cases h' with
    | interpret h' => exact ⟨rfl, Except.ok.inj (h.symm.trans h')⟩
  | runJson h =>
    cases h' with
    | runJson h' => exact ⟨rfl, Except.ok.inj (h.symm.trans h')⟩

/-- The scopes that a run has left are those that are seen from its scope afterwards. -/
lemma chain_run (setting : Setting) (session : Session) (scope : ℕ) (statements : List Node) :
    (session.run setting scope statements).2.scopes.chain scope =
      (Exec.final (Exec.run setting statements (session.state scope))).scopes := by
  rw [run_snd]
  exact ScopeTree.chain_write _ _ (Exec.respects_run setting statements (session.state scope)).1.length_eq

/-- A run begins with what the one before it has left. -/
lemma state_run (setting : Setting) (session : Session) (scope : ℕ) (statements : List Node) :
    (session.run setting scope statements).2.state scope =
      { Exec.final (Exec.run setting statements (session.state scope)) with log := [] } := by
  have hchain := chain_run setting session scope statements
  rw [run_snd] at hchain ⊢
  exact congrArg (fun scopes => State.mk scopes [] _ _ _) hchain

/-- A run leaves all calls that it begins. -/
lemma callDepth_run (setting : Setting) (session : Session) (scope : ℕ) (statements : List Node) :
    (session.run setting scope statements).2.callDepth = session.callDepth := by
  rw [run_snd]
  exact (Exec.respects_run setting statements (session.state scope)).2

/-- Whatever a step does, and however it ends, as many calls are active as before. -/
theorem callDepth_take (setting : Setting) (session : Session) (step : Step) :
    (session.take setting step).callDepth = session.callDepth := by
  rcases take_cases setting session step with h | ⟨scope, statements, -, h⟩ | ⟨parent, h⟩ | h
  · rw [h]
  · rw [h, callDepth_run]
  · rw [h]
    rfl
  · rw [h]
    rfl

/-- No step leaves a call open. -/
theorem callDepth_takeAll (setting : Setting) (session : Session) (steps : List Step) :
    (session.takeAll setting steps).callDepth = session.callDepth := by
  unfold takeAll
  induction steps generalizing session with
  | nil => rfl
  | cons step steps ih => exact (ih (session.take setting step)).trans (callDepth_take setting session step)

end Session

end Scriptlet
