import Scriptlet.Proofs.Executions
import Scriptlet.Proofs.Sessions

/-!
# The identity of functions

A function is what one execution of its declaration has made.  In a session every function that is ever handled
comes from exactly one such execution, which may lie in an earlier step; and two functions are equal exactly if they
come from the same execution, whatever way they have taken since (`Session.functions_have_identity`).

An execution is told by the step in which it is, and by the state in which it begins: no two executions of
declarations begin in the same state, since each of them leaves one more function made than it has found.  A step in
which a loop runs on for ever has none after it, so what comes later is looked at only if all steps before it come to
an end.
-/

namespace Scriptlet

open Exec

/-! ## Functions -/

/-- A value is a function: one that a script has declared, or the clock. -/
def Value.IsFunction : Value → Prop
  | function _ | clock => True
  | _ => False

/-- A function equals no value of another kind, and no function of another kind. -/
lemma Value.of_equal {v w : Value} (h : v.IsFunction ∨ w.IsFunction) (hequal : v.equal w = true) :
    v = .clock ∧ w = .clock ∨ ∃ f g, v = .function f ∧ w = .function g := by
  cases v <;> cases w <;> simp_all [Value.equal, Value.IsFunction]

/-- The values that an activity has to do with: those that it is given, those that it finds or leaves in the scopes,
and what it comes to or returns. -/
inductive Activity.Handles (setting : Setting) (activity : Activity) : Value → Prop
  | given {v : Value} : v ∈ activity.task.values → Handles setting activity v
  | found {v : Value} {frame : Frame} {x : Name} :
      frame ∈ activity.state.scopes → (x, v) ∈ frame → Handles setting activity v
  | left {v : Value} {frame : Frame} {x : Name} :
      frame ∈ (final (activity.outcome setting)).scopes → (x, v) ∈ frame → Handles setting activity v
  | value {v : Value} {t : State} : activity.outcome setting = .ok (some v) t → Handles setting activity v
  | returned {v : Value} {t : State} : activity.outcome setting = .error (.returned v) t → Handles setting activity v

/-- All functions that an activity of a run has to do with were there when the run began, or the run has made them. -/
lemma Activity.InRun.from {P : UserFunction → Prop} {setting : Setting} {statements : List Node} {start : State}
    {activity : Activity} {v : Value} (h : activity.InRun setting statements start)
    (hmakes : ∀ (maker : Activity) f, maker.InRun setting statements start → maker.Makes f → P f)
    (hstart : start.scopes.All (Value.From P)) (hv : activity.Handles setting v) : v.From P := by
  have hdeclares : ∀ {d t params body s}, Reached setting statements start (d + 1)
      (.execute (.funDecl (.token t) params body)) s → P ⟨s.made, t.lexeme.inText, params, body⟩ :=
    fun hreached => hmakes ⟨_, _, _⟩ _ hreached .funDecl
  obtain ⟨hvalues, hs⟩ := Reached.given hdeclares h hstart
  have hdraws := Reached.draws hdeclares h hvalues
  cases hv with
  | given hmem => exact hvalues v hmem
  | found hframe hmem => exact hs _ hframe _ hmem
  | left hframe hmem => exact (hdraws.final hs).1 _ hframe _ hmem
  | value houtcome => exact (hdraws.of_ok hs houtcome).1 v rfl
  | returned houtcome => exact hdraws.of_error hs houtcome

/-! ## Sessions -/

/-- Something that a session is busy with, and the number of the step in which it is. -/
structure Moment where
  step : ℕ
  activity : Activity

namespace Session

variable {setting : Setting} {session : Session} {steps : List Step} {moment moment' : Moment}
  {f g : UserFunction} {v w : Value} {n : ℕ}

/-- A step comes to an end if all that it runs does. -/
def Completes (setting : Setting) (session : Session) (step : Step) : Prop :=
  ∀ scope statements, step.Runs scope statements → Ends (Exec.run setting statements (session.state scope))

/-- The session before the step of the given number. -/
def before (setting : Setting) (session : Session) (steps : List Step) (n : ℕ) : Session :=
  session.takeAll setting (steps.take n)

/-- A session gets to the step of the given number if all steps before it come to an end. -/
def GetsTo (setting : Setting) (session : Session) (steps : List Step) (n : ℕ) : Prop :=
  ∀ m < n, ∀ step, steps[m]? = some step → (session.before setting steps m).Completes setting step

/-- What a session comes to do in some steps. -/
structure ComesTo (setting : Setting) (session : Session) (steps : List Step) (moment : Moment) : Prop where
  getsTo : session.GetsTo setting steps moment.step
  inRun : ∃ step scope statements, steps[moment.step]? = some step ∧ step.Runs scope statements ∧
    moment.activity.InRun setting statements ((session.before setting steps moment.step).state scope)

/-- At some moment a session executes a declaration that makes the value. -/
def Produces (setting : Setting) (session : Session) (steps : List Step) (moment : Moment) (v : Value) : Prop :=
  session.ComesTo setting steps moment ∧ ∃ f, v = .function f ∧ moment.activity.Makes f

/-- The values that a session has to do with in some steps: those that it handles in the course of them, and those
that it keeps in its scopes from each of them to the next. -/
inductive Handles (setting : Setting) (session : Session) (steps : List Step) : Value → Prop
  | moment {moment : Moment} {v : Value} : session.ComesTo setting steps moment →
      moment.activity.Handles setting v → Handles setting session steps v
  | kept {n : ℕ} {scope : Scope} {x : Name} {v : Value} : session.GetsTo setting steps n →
      scope ∈ (session.before setting steps n).scopes → (x, v) ∈ scope.frame → Handles setting session steps v

/-- The session before the next step is what this step makes of the session before it. -/
lemma before_succ {step : Step} (h : steps[n]? = some step) :
    session.before setting steps (n + 1) = (session.before setting steps n).take setting step := by
  unfold before takeAll
  rw [List.take_add_one, h, List.foldl_append]
  rfl

/-- Behind the last step the session stays as it is. -/
lemma before_of_none (h : steps[n]? = none) :
    session.before setting steps (n + 1) = session.before setting steps n := by
  unfold before
  rw [List.take_add_one, h, Option.toList_none, List.append_nil]

/-! ### The functions made -/

/-- A step does not lower the count of functions. -/
lemma made_le_take (setting : Setting) (session : Session) (step : Step) :
    session.made ≤ (session.take setting step).made := by
  rcases take_cases setting session step with h | ⟨scope, statements, -, h⟩ | ⟨parent, h⟩ | h
  · rw [h]
  · have hcounts : Counts (Exec.run setting statements) := counts_of_draws fun _ => draws_run fun _ => trivial
    rw [h, run_snd]
    exact hcounts (session.state scope)
  · rw [h]
    rfl
  · rw [h]
    rfl

/-- The count of functions grows along the steps. -/
lemma made_mono (setting : Setting) (session : Session) (steps : List Step) :
    Monotone fun n => (session.before setting steps n).made := by
  refine monotone_nat_of_le_succ fun n => ?_
  cases h : steps[n]? with
  | none => rw [before_of_none h]
  | some step =>
    rw [before_succ h]
    exact made_le_take setting _ step

/-- In a step that comes to an end no more functions are made than in the steps up to it. -/
lemma made_le_of_completes {step : Step} {scope : ℕ} {statements : List Node} {activity : Activity}
    (hruns : step.Runs scope statements) (h : activity.InRun setting statements (session.state scope))
    (hends : session.Completes setting step) :
    (final (activity.outcome setting)).made ≤ (session.take setting step).made := by
  rw [take_of_runs hruns, run_snd]
  exact h.made_le (hends scope statements hruns)

/-- What is executed in a later step makes functions with greater numbers. -/
lemma id_lt_of_step_lt (h : session.ComesTo setting steps moment) (h' : session.ComesTo setting steps moment')
    (hf : moment.activity.Makes f) (hg : moment'.activity.Makes g) (hlt : moment.step < moment'.step) : f.id < g.id := by
  obtain ⟨step, scope, statements, hstep, hruns, hrun⟩ := h.inRun
  obtain ⟨_, _, _, -, -, hrun'⟩ := h'.inRun
  have hends := h'.getsTo moment.step hlt step hstep
  rw [hf.id_eq, hg.id_eq]
  calc moment.activity.state.made
      < (final (moment.activity.outcome setting)).made := hf.made_lt setting
    _ ≤ (session.before setting steps (moment.step + 1)).made := by
        rw [before_succ hstep]
        exact made_le_of_completes hruns hrun hends
    _ ≤ (session.before setting steps moment'.step).made := made_mono setting session steps hlt
    _ ≤ moment'.activity.state.made := hrun'.le_made

/-- Functions with the same number come from the same execution. -/
theorem eq_of_makes (h : session.ComesTo setting steps moment) (h' : session.ComesTo setting steps moment')
    (hf : moment.activity.Makes f) (hg : moment'.activity.Makes g) (hid : f.id = g.id) : moment = moment' := by
  -- in one step the order of the run tells the executions apart, in different steps the count that is handed on
  rcases lt_trichotomy moment.step moment'.step with hlt | heq | hlt
  · exact absurd hid (id_lt_of_step_lt h h' hf hg hlt).ne
  · obtain ⟨step, scope, statements, hstep, hruns, hrun⟩ := h.inRun
    obtain ⟨step', scope', statements', hstep', hruns', hrun'⟩ := h'.inRun
    rw [← heq] at hstep' hrun'
    cases hstep.symm.trans hstep'
    obtain ⟨rfl, rfl⟩ := hruns.unique hruns'
    have hactivity := hrun.eq_of_makes hrun' hf hg hid
    cases moment
    cases moment'
    cases heq
    cases hactivity
    rfl
  · exact absurd hid.symm (id_lt_of_step_lt h' h hg hf hlt).ne

/-! ### The functions handled -/

/-- After a step the values hold functions of before, or functions that the step has made. -/
lemma all_take {P : UserFunction → Prop} {step : Step} (h : ScopeTree.All (Value.From P) session.scopes)
    (hmakes : ∀ scope statements, step.Runs scope statements → ∀ (maker : Activity) f,
      maker.InRun setting statements (session.state scope) → maker.Makes f → P f) :
    ScopeTree.All (Value.From P) (session.take setting step).scopes := by
  rcases take_cases setting session step with hsame | ⟨scope, statements, hruns, hrun⟩ | ⟨parent, hopen⟩ | hclose
  · rwa [hsame]
  · have hdraws : Draws P (session.state scope) (Exec.run setting statements) fun _ => True :=
      draws_run fun hreached => hmakes scope statements hruns ⟨_, _, _⟩ _ hreached .funDecl
    rw [hrun, run_snd]
    exact h.write scope (hdraws.final (h.chain scope)).1
  · rw [hopen]
    exact List.forall_mem_cons.mpr ⟨List.forall_mem_nil _, h⟩
  · rw [hclose]
    exact h

/-- The functions that are made in some steps of a session. -/
def Made (setting : Setting) (session : Session) (steps : List Step) (f : UserFunction) : Prop :=
  ∃ moment, session.ComesTo setting steps moment ∧ moment.activity.Makes f

/-- The functions in the scopes of a session were there at the beginning, or it has made them. -/
lemma all_before (hstart : ScopeTree.All (Value.From (session.Made setting steps)) session.scopes)
    (hgets : session.GetsTo setting steps n) :
    ScopeTree.All (Value.From (session.Made setting steps)) (session.before setting steps n).scopes := by
  induction n with
  | zero => exact hstart
  | succ n ih =>
    have hbefore : session.GetsTo setting steps n := fun m hm => hgets m (by omega)
    cases hstep : steps[n]? with
    | none =>
      rw [before_of_none hstep]
      exact ih hbefore
    | some step =>
      rw [before_succ hstep]
      exact all_take (ih hbefore) fun scope statements hruns maker f hrun hmakes =>
        ⟨⟨n, maker⟩, ⟨hbefore, step, scope, statements, hstep, hruns, hrun⟩, hmakes⟩

/-- All functions that a session has to do with were there at the beginning, or it has made them. -/
theorem Handles.from (hv : session.Handles setting steps v)
    (hstart : ScopeTree.All (Value.From (session.Made setting steps)) session.scopes) :
    v.From (session.Made setting steps) := by
  cases hv with
  | @moment moment v hcomes hv =>
    obtain ⟨hgets, step, scope, statements, hstep, hruns, hrun⟩ := hcomes
    refine hrun.from (fun maker f hmaker hmakes => ?_) ((all_before hstart hgets).chain scope) hv
    exact ⟨⟨moment.step, maker⟩, ⟨hgets, step, scope, statements, hstep, hruns, hmaker⟩, hmakes⟩
  | kept hgets hscope hmem => exact all_before hstart hgets _ hscope _ hmem

/-- A fresh session holds no functions of the program. -/
lemma all_start (P : UserFunction → Prop) (level : ℕ) : ScopeTree.All (Value.From P) (start level).scopes := by
  refine List.forall_mem_singleton.mpr (List.forall_mem_singleton.mpr ?_)
  trivial

/-- Where a function comes from: one execution of its declaration. -/
lemma existsUnique_produces {level : ℕ} (hf : (start level).Handles setting steps (.function f)) :
    ∃! moment, (start level).Produces setting steps moment (.function f) := by
  obtain ⟨moment, hcomes, hmakes⟩ := hf.from (all_start _ level)
  refine ⟨moment, ⟨hcomes, f, rfl, hmakes⟩, ?_⟩
  rintro moment' ⟨hcomes', g, hg, hmakes'⟩
  cases hg
  exact eq_of_makes hcomes' hcomes hmakes' hmakes rfl

/-- Two functions are equal if the same execution makes them, and only then. -/
lemma equal_iff_of_produces (h : session.Produces setting steps moment v)
    (h' : session.Produces setting steps moment' w) : v.equal w = true ↔ moment = moment' := by
  obtain ⟨hcomes, f, rfl, hf⟩ := h
  obtain ⟨hcomes', g, rfl, hg⟩ := h'
  simp only [Value.equal, decide_eq_true_eq]
  constructor
  · exact eq_of_makes hcomes hcomes' hf hg
  · rintro rfl
    rw [hf.unique hg]

/-- What is started in the course of something that a session comes to, the session comes to. -/
lemma ComesTo.starts {depth : ℕ} {task task' : Task} {s s' : State}
    (h : session.ComesTo setting steps ⟨n, depth + 1, task, s⟩) (hstarts : Starts setting depth task s task' s') :
    session.ComesTo setting steps ⟨n, depth, task', s'⟩ := by
  obtain ⟨hgets, step, scope, statements, hstep, hruns, hrun⟩ := h
  exact ⟨hgets, step, scope, statements, hstep, hruns, .task hrun hstarts⟩

/-- What an expression comes to that a session evaluates, the session has to do with. -/
lemma ComesTo.handles {depth : ℕ} {e : Node} {s t : State}
    (h : session.ComesTo setting steps ⟨n, depth, .evaluate e, s⟩) (hv : evaluate setting depth e s = .ok v t) :
    session.Handles setting steps v :=
  .moment h (.value (map_congr hv))

/-- Functions have identity.  Every function that a session ever has to do with, in whatever scope or task it turns
up, comes from exactly one execution of a declaration; functions that different executions have made differ; and a
function equals another value exactly if both are the clock or both come from the same execution.  A comparison finds
out whether its operands are equal, its negation finds out the opposite, and the operands of a comparison that the
session comes to are values that it has to do with. -/
theorem functions_have_identity (setting : Setting) (level : ℕ) (steps : List Step) :
    (∀ f, (start level).Handles setting steps (.function f) →
      ∃! moment, (start level).Produces setting steps moment (.function f)) ∧
    (∀ moment moment' v w, (start level).Produces setting steps moment v →
      (start level).Produces setting steps moment' w → (v.equal w = true ↔ moment = moment')) ∧
    (∀ v w, (start level).Handles setting steps v → (start level).Handles setting steps w →
      v.IsFunction ∨ w.IsFunction →
      (v.equal w = true ↔ v = .clock ∧ w = .clock ∨
        ∃ moment, (start level).Produces setting steps moment v ∧ (start level).Produces setting steps moment w)) ∧
    ∀ depth left t right s v u w u', evaluate setting depth left s = .ok v u →
      evaluate setting depth right u = .ok w u' →
      (t.kind = .equalEqual →
        evaluate setting (depth + 1) (.binary left (.token t) right) s = .ok (.bool (v.equal w)) u') ∧
      (t.kind = .bangEqual →
        evaluate setting (depth + 1) (.binary left (.token t) right) s = .ok (.bool (!v.equal w)) u') ∧
      ∀ n, (start level).ComesTo setting steps ⟨n, depth + 1, .evaluate (.binary left (.token t) right), s⟩ →
        (start level).Handles setting steps v ∧ (start level).Handles setting steps w := by
  refine ⟨fun f => existsUnique_produces, fun _ _ _ _ => equal_iff_of_produces,
    fun v w hv hw hfunction => ⟨fun hequal => ?_, ?_⟩, fun depth left t right s v u w u' hleft hright => ?_⟩
  · -- Equal values are the clock on both sides, or functions, which then share their moments.
    rcases Value.of_equal hfunction hequal with hclock | ⟨f, g, rfl, rfl⟩
    · exact .inl hclock
    · obtain ⟨moment, hf, -⟩ := existsUnique_produces hv
      obtain ⟨moment', hg, -⟩ := existsUnique_produces hw
      obtain rfl := (equal_iff_of_produces hf hg).mp hequal
      exact .inr ⟨moment, hf, hg⟩
  · rintro (⟨rfl, rfl⟩ | ⟨moment, hf, hg⟩)
    · rfl
    · exact (equal_iff_of_produces hf hg).mpr rfl
  · have hrun : evaluate setting (depth + 1) (.binary left (.token t) right) s = applyBinary t v w u' :=
      (bind_of_ok hleft).trans (bind_of_ok hright)
    rw [hrun]
    refine ⟨fun hkind => ?_, fun hkind => ?_, fun n hcomes => ⟨?_, ?_⟩⟩
    · rw [applyBinary, hkind]
      rfl
    · rw [applyBinary, hkind]
      rfl
    · exact (hcomes.starts .binaryLeft).handles hleft
    · exact (hcomes.starts (.binaryRight hleft)).handles hright

/-- The declaration of a function without parameters that does nothing. -/
def idleDecl : Node :=
  .funDecl (markOf .identifier "f") (.list []) (.list [])

/-- The declaration is executed twice in a session, from the same stored tree but in different scopes.  It makes
two functions that are kept, and each of them equals itself but not the other one, though they look the same. -/
theorem declared_twice_differ :
    let setting : Setting := ⟨9, 9, fun _ => 0⟩
    let json := Json.list [idleDecl.toJson]
    let steps := [Step.runJson 0 json, .openScope 0, .runJson 1 json]
    let v := Value.function ⟨0, "f", .list [], .list []⟩
    let w := Value.function ⟨1, "f", .list [], .list []⟩
    (start 0).Handles setting steps v ∧ (∃! moment, (start 0).Produces setting steps moment v) ∧
      (start 0).Handles setting steps w ∧ (∃! moment, (start 0).Produces setting steps moment w) ∧
      v.equal v = true ∧ w.equal w = true ∧ v.equal w = false := by
  intro setting json steps v w
  have hdecoded : Node.programOfJson json = .ok ([] ++ idleDecl :: []) := rfl
  have hgets : ∀ n, (start 0).GetsTo setting steps n := by
    intro n m _ step hstep scope statements hruns
    rcases m with _ | _ | _ | m <;> cases hstep
    · cases hruns with
      | runJson h =>
        cases hdecoded.symm.trans h
        trivial
    · cases hruns
    · cases hruns with
      | runJson h =>
        cases hdecoded.symm.trans h
        trivial
  have hv : (start 0).Produces setting steps
      ⟨0, 9, .execute idleDecl, { (start 0).state 0 with log := [.runStart] }⟩ v :=
    ⟨⟨hgets 0, _, 0, _, rfl, .runJson hdecoded, .statement rfl rfl⟩, _, rfl, .funDecl⟩
  have hw : (start 0).Produces setting steps
      ⟨2, 9, .execute idleDecl, { ((start 0).before setting steps 2).state 1 with log := [.runStart] }⟩ w :=
    ⟨⟨hgets 2, _, 1, _, rfl, .runJson hdecoded, .statement rfl rfl⟩, _, rfl, .funDecl⟩
  have hkeptV : (start 0).Handles setting steps v := .kept (hgets 1) (List.mem_cons_self ..) (List.mem_cons_self ..)
  have hkeptW : (start 0).Handles setting steps w := .kept (hgets 3) (List.mem_cons_self ..) (List.mem_cons_self ..)
  obtain ⟨hunique, hdiffer, -⟩ := functions_have_identity setting 0 steps
  have hne : v.equal w ≠ true := fun h => by cases (hdiffer _ _ _ _ hv hw).mp h
  exact ⟨hkeptV, hunique _ hkeptV, hkeptW, hunique _ hkeptW, (hdiffer _ _ _ _ hv hv).mpr rfl,
    (hdiffer _ _ _ _ hw hw).mpr rfl, by simpa using hne⟩

end Session

end Scriptlet
