import Scriptlet.Proofs.Tasks

/-!
# Sessions of accepted and rejected sources

A session interprets sources one after the other on the same scopes, whether the earlier ones were
accepted or not.  What its scopes hold stays sound, so each source is interpreted as if it were the only
one: it is rejected with its errors, or runs until it ends, fails for a reason that a script can bring
about, or is found not to end.
-/

namespace Scriptlet

open Grammar (IsExpression IsStatement)

/-! ## Runs -/

/-- The stops that a run may report: an error of the script, or a loop that does not end. -/
def Stop.IsReported : Stop → Prop
  | failed error => error.cause.IsPlain
  | outOfTurns => True
  | returned _ | fault _ | tooDeep => False

namespace Exec

/-- How a run ends that begins while no call is active. -/
def Concludes : EStateM.Result Stop State Unit → Prop
  | .ok () s => s.IsSound ∧ s.callDepth = 0
  | .error stop s => stop.IsReported ∧ s.IsSound ∧ s.callDepth = 0

/-- Outside of all calls nothing is returned, and reaching the nesting limit is an error of the script. -/
lemma concludes_outermost {act : Exec Unit} (h : Keeps 0 act fun _ => True) {s : State}
    (hs : s.IsSound) (hdepth : s.callDepth = 0) : Concludes (outermost act s) := by
  have hends := h s hs hdepth
  unfold outermost
  cases hrun : act s with
  | ok u t =>
    rw [hrun] at hends
    exact hends.2
  | error stop t =>
    rw [hrun] at hends
    obtain ⟨hstop, ht⟩ := hends
    cases stop with
    | returned value => exact absurd hstop.1 (Nat.lt_irrefl 0)
    | failed error => exact ⟨hstop, ht⟩
    | fault fault => exact hstop.elim
    | tooDeep => exact ⟨trivial, ht⟩
    | outOfTurns => exact ⟨trivial, ht⟩

/-- Turning the nesting limit into an error of the program keeps the state sound. -/
lemma keeps_outermost {active : ℕ} {act : Exec Unit} (h : Keeps active act fun _ => True) :
    Keeps active (outermost act) fun _ => True := by
  intro s hs hdepth
  have hends := h s hs hdepth
  unfold outermost
  cases hrun : act s with
  | ok u t =>
    rw [hrun] at hends
    exact hends
  | error stop t =>
    rw [hrun] at hends
    cases stop with
    | tooDeep => exact ⟨trivial, hends.2⟩
    | _ => exact hends

/-- Reaching the nesting limit outside of all calls is an error of the script. -/
lemma outermost_ne_tooDeep (act : Exec Unit) (s t : State) : outermost act s ≠ .error .tooDeep t := by
  unfold outermost
  cases act s with
  | ok u t => nofun
  | error stop t => cases stop <;> nofun

/-- Statements are run between the two events that mark the start and the end of a run. -/
lemma run_apply (setting : Setting) (statements : List Node) (s : State) :
    run setting statements s =
      match outermost (statements.forM (execute setting setting.depth))
          { s with log := .runStart :: s.log } with
      | .ok _ t => .ok () { t with log := .runEnd :: t.log }
      | .error stop t => .error stop t := by
  have hrecord : ∀ (event : Event) (t : State),
      record event t = .ok () { t with log := event :: t.log } := fun _ _ => rfl
  unfold run
  rw [bind_apply, hrecord]
  dsimp only
  rw [bind_apply]
  cases outermost (statements.forM (execute setting setting.depth))
    { s with log := .runStart :: s.log } <;> rfl

/-- A run never stops for being nested too deeply, as this is turned into an error at its outermost level. -/
lemma run_ne_tooDeep (setting : Setting) (statements : List Node) (s t : State) :
    run setting statements s ≠ .error .tooDeep t := by
  rw [run_apply]
  cases hbody : outermost (statements.forM (execute setting setting.depth))
      { s with log := .runStart :: s.log } with
  | ok u t => nofun
  | error stop t =>
    intro h
    cases h
    exact outermost_ne_tooDeep _ _ _ hbody

/-- Whatever calls are active, accepted statements are run soundly. -/
theorem keeps_run (active : ℕ) (setting : Setting) {statements : List Node}
    (h : ∀ s ∈ statements, IsStatement Leaf.IsScanned s) :
    Keeps active (run setting statements) fun _ => True := by
  have hstatements : Keeps active (statements.forM (execute setting setting.depth)) fun _ => True :=
    keeps_forM fun s hs => keeps_execute setting _ (h s hs)
  refine .bind (keeps_record (List.forall_mem_nil _)) fun _ _ => ?_
  exact .bind (keeps_outermost hstatements) fun _ _ => keeps_record (List.forall_mem_nil _)

/-- The run of accepted statements ends for a reason that a run may report. -/
theorem concludes_run (setting : Setting) {statements : List Node}
    (h : ∀ s ∈ statements, IsStatement Leaf.IsScanned s) {s : State} (hs : s.IsSound)
    (hdepth : s.callDepth = 0) : Concludes (run setting statements s) := by
  have hstatements : Keeps 0 (statements.forM (execute setting setting.depth)) fun _ => True :=
    keeps_forM fun s hs => keeps_execute setting _ (h s hs)
  have hnone : ∀ value ∈ Event.values .runStart, value.IsSound := List.forall_mem_nil _
  have hconcludes := concludes_outermost hstatements (hs.record hnone) hdepth
  rw [run_apply]
  cases hrun : outermost (statements.forM (execute setting setting.depth))
      { s with log := .runStart :: s.log } with
  | ok u t =>
    rw [hrun] at hconcludes
    exact ⟨hconcludes.1.record (List.forall_mem_nil _), hconcludes.2⟩
  | error stop t =>
    rw [hrun] at hconcludes
    exact hconcludes

end Exec

/-! ## Scopes that outlive a run -/

/-- All values that are bound in the scopes of a tree have a property. -/
def ScopeTree.All (P : Value → Prop) (tree : ScopeTree) : Prop :=
  ∀ scope ∈ tree, scope.frame.All P

/-- All values that are bound in the scopes of a tree are sound. -/
def ScopeTree.IsSound (tree : ScopeTree) : Prop :=
  ∀ scope ∈ tree, scope.frame.IsSound

namespace ScopeTree

variable {tree : ScopeTree}

/-- The root scope is sound. -/
lemma isSound_root : root.IsSound := by
  refine List.forall_mem_singleton.mpr (List.forall_mem_singleton.mpr ?_)
  exact .clock

section All

variable {P : Value → Prop}

lemma All.chain (h : tree.All P) (n : ℕ) : (tree.chain n).All P := by
  induction tree generalizing n with
  | nil => exact List.forall_mem_nil _
  | cons scope older ih =>
    obtain ⟨hscope, holder⟩ := List.forall_mem_cons.mp h
    unfold ScopeTree.chain
    split
    · split
      · exact List.forall_mem_cons.mpr ⟨hscope, ih holder _⟩
      · exact List.forall_mem_singleton.mpr hscope
    · exact ih holder n

/-- What holds of the values of a tree still holds when a chain of such values is written back. -/
lemma All.write (h : tree.All P) (n : ℕ) {chain : Chain} (hchain : chain.All P) :
    (tree.write n chain).All P := by
  induction tree generalizing n chain with
  | nil => exact List.forall_mem_nil _
  | cons scope older ih =>
    cases chain with
    | nil => exact h
    | cons frame outer =>
      obtain ⟨hscope, holder⟩ := List.forall_mem_cons.mp h
      obtain ⟨hframe, houter⟩ := List.forall_mem_cons.mp hchain
      unfold ScopeTree.write
      split
      · split
        · exact List.forall_mem_cons.mpr ⟨hframe, ih holder _ houter⟩
        · exact List.forall_mem_cons.mpr ⟨hframe, holder⟩
      · exact List.forall_mem_cons.mpr ⟨hscope, ih holder n hchain⟩

end All

lemma IsSound.chain (h : tree.IsSound) (n : ℕ) : (tree.chain n).IsSound :=
  All.chain h n

lemma IsSound.write (h : tree.IsSound) (n : ℕ) {chain : Chain} (hchain : chain.IsSound) :
    (tree.write n chain).IsSound :=
  All.write h n hchain

end ScopeTree

/-! ## Sessions -/

namespace Session

/-- Between two sources no call is active and all scopes hold sound values. -/
structure IsSound (session : Session) : Prop where
  scopes : session.scopes.IsSound
  callDepth : session.callDepth = 0

/-- A run of a sound session starts in a sound state. -/
lemma IsSound.state {session : Session} (h : session.IsSound) (scope : ℕ) :
    (session.state scope).IsSound :=
  ⟨h.scopes.chain scope, by simp [Session.state]⟩

/-- The session after some sources, each of them interpreted in the root scope. -/
def after (setting : Setting) (sources : List (List UInt8)) : Session :=
  sources.foldl (fun session source => (session.interpret setting ScopeTree.rootNumber source).2)
    (.start 0)

end Session

/-- What a report may give as the reason for not succeeding: the errors for which a source is rejected,
or a stop that a run may report. -/
def Failure.IsReported : Failure → Prop
  | run stop => stop.IsReported
  | failure => failure.IsRejection

/-- A report gives none but such reasons, and all values that it shows are sound. -/
structure Report.IsSound (report : Report) : Prop where
  failure : ∀ failure ∈ report.failure?, failure.IsReported
  events : ∀ event ∈ report.events, ∀ value ∈ event.values, value.IsSound

namespace Session

/-- Interpreting a source gives a sound report and leaves a sound session. -/
theorem IsSound.interpret {session : Session} (h : session.IsSound) (setting : Setting) (scope : ℕ)
    (source : List UInt8) :
    (session.interpret setting scope source).1.IsSound ∧
      (session.interpret setting scope source).2.IsSound := by
  have hsource := statements_of_source source
  have hscanned : ∀ event ∈ scanEvents (Scan.ofBytes source), ∀ value ∈ event.values,
      value.IsSound := by
    simp [scanEvents, Event.values]
  unfold Session.interpret
  dsimp only
  cases hstatements : (Scan.ofBytes source).statements with
  | error failure =>
    rw [hstatements] at hsource
    refine ⟨⟨?_, hscanned⟩, h⟩
    rintro _ ⟨⟩
    cases failure with
    | run stop => exact hsource.elim
    | _ => exact hsource
  | ok statements =>
    rw [hstatements] at hsource
    have hrun := Exec.concludes_run setting hsource (h.state scope) h.callDepth
    have hparsed : ∀ event ∈ parseEvents statements, ∀ value ∈ event.values, value.IsSound := by
      simp [parseEvents, Event.values]
    have hevents : ∀ final : State, final.IsSound →
        ∀ event ∈ scanEvents (Scan.ofBytes source) ++ parseEvents statements ++ final.log.reverse,
          ∀ value ∈ event.values, value.IsSound := by
      intro final hfinal event hevent
      rcases List.mem_append.mp hevent with hevent | hevent
      · exact (List.mem_append.mp hevent).elim (hscanned event) (hparsed event)
      · exact hfinal.log event (List.mem_reverse.mp hevent)
    have hresume : ∀ final : State, final.IsSound ∧ final.callDepth = 0 →
        (session.resume scope final).IsSound :=
      fun final hfinal => ⟨h.scopes.write scope hfinal.1.scopes, hfinal.2⟩
    unfold Session.run
    dsimp only
    cases hresult : Exec.run setting statements (session.state scope) with
    | ok u final =>
      rw [hresult] at hrun
      exact ⟨⟨by simp, hevents final hrun.1⟩, hresume final hrun⟩
    | error stop final =>
      rw [hresult] at hrun
      refine ⟨⟨?_, hevents final hrun.2.1⟩, hresume final hrun.2⟩
      rintro _ ⟨⟩
      exact hrun.1

/-- A fresh session is sound. -/
lemma isSound_start (level : ℕ) : (start level).IsSound :=
  ⟨ScopeTree.isSound_root, rfl⟩

/-- A session stays sound whatever sources it interprets. -/
theorem isSound_after (setting : Setting) (sources : List (List UInt8)) :
    (after setting sources).IsSound := by
  unfold after
  induction sources using List.reverseRecOn with
  | nil => exact isSound_start 0
  | append_singleton sources source ih =>
    rw [List.foldl_append]
    exact (ih.interpret setting ScopeTree.rootNumber source).2

/-- After any sources a further one is interpreted soundly.  Its number tokens denote numbers; its report
shows sound values and gives no reason for not succeeding but lexical errors, a syntax error, an error of
the script or a loop that does not end; the scopes hold sound values again.  If it is accepted, it is a
list of statements, and every task that its run comes to start is to evaluate an expression, to call a
value or to execute a statement, is started in a sound state and comes to a sound value if it comes to
one. -/
theorem interprets_soundly (setting : Setting) (sources : List (List UInt8)) (source : List UInt8) :
    (∀ token ∈ (Scan.ofBytes source).tokens, token.leaf.Converts) ∧
      ((after setting sources).interpret setting ScopeTree.rootNumber source).1.IsSound ∧
      ((after setting sources).interpret setting ScopeTree.rootNumber source).2.IsSound ∧
      match (Scan.ofBytes source).statements with
      | .ok statements => (∀ s ∈ statements, IsStatement Leaf.IsScanned s) ∧
        ∀ depth task s,
          Reached setting statements ((after setting sources).state ScopeTree.rootNumber) depth task s →
            task.IsSound ∧ s.IsSound ∧
              Exec.EndsWell s.callDepth (fun value? => ∀ value ∈ value?, value.IsSound)
                (task.perform setting depth s)
      | .error failure => failure.IsRejection := by
  have hsession := isSound_after setting sources
  have hsource := statements_of_source source
  obtain ⟨hreport, hnext⟩ := hsession.interpret setting ScopeTree.rootNumber source
  refine ⟨converts_of_scans (scans_ofChunks [] source), hreport, hnext, ?_⟩
  cases hstatements : (Scan.ofBytes source).statements with
  | error failure =>
    rw [hstatements] at hsource
    exact hsource
  | ok statements =>
    rw [hstatements] at hsource
    refine ⟨hsource, fun depth task s hreached => ?_⟩
    obtain ⟨htask, hs⟩ := hreached.isSound hsource (hsession.state ScopeTree.rootNumber)
    exact ⟨htask, hs, htask.keeps setting depth s.callDepth s hs rfl⟩

end Session

end Scriptlet
