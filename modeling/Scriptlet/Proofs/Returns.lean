import Scriptlet.Proofs.SessionSteps
import Scriptlet.Proofs.Unwinding

/-!
# Active calls and returns

While a task is busy, the tasks that it was started by are waiting for it, each for the one inside.  The
calls among them are the active ones, and their number is the one that the run keeps count of: no way in
which a task can end leaves the count wrong, so between the steps of a session it is zero.

A return statement therefore finds out correctly whether there is a call to return from.  If there is, the
innermost of the active calls takes the value, whatever statements lie between.  If there is none, the run
fails, and with this error only then.  A statement whose keyword is no token has no place to report the
error at, and is a fault of the tree.
-/

namespace Scriptlet

open Exec

/-! ## Tasks that wait for another -/

/-- A task that has been started: the nesting that was left for it, and the state it was started in. -/
structure Activity where
  depth : ℕ
  task : Task
  state : State

namespace Activity

/-- What comes of an activity. -/
def outcome (setting : Setting) (activity : Activity) : EStateM.Result Stop State (Option Value) :=
  activity.task.perform setting activity.depth activity.state

/-- The calls among some activities. -/
def calls (activities : List Activity) : List Activity :=
  activities.filter (·.task.isCall)

end Activity

open Activity (calls)

/-- The activities that a run of some statements from a given state comes to, the innermost first: each of
them was started by the one behind it, which waits for it. -/
inductive Running (setting : Setting) (statements : List Node) (start : State) : List Activity → Prop
  | statement {before after : List Node} {stmt : Node} {s : State} :
      statements = before ++ stmt :: after →
      (do record .runStart; before.forM (execute setting setting.depth) : Exec Unit) start = .ok () s →
      Running setting statements start [⟨setting.depth, .execute stmt, s⟩]
  | task {depth : ℕ} {task task' : Task} {s s' : State} {outer : List Activity} :
      Running setting statements start (⟨depth + 1, task, s⟩ :: outer) →
      Starts setting depth task s task' s' →
      Running setting statements start (⟨depth, task', s'⟩ :: ⟨depth + 1, task, s⟩ :: outer)

variable {setting : Setting} {statements : List Node} {start : State}

/-- A run comes to a task exactly when the task is the innermost one at some time. -/
theorem reached_iff_running {depth : ℕ} {task : Task} {s : State} :
    Reached setting statements start depth task s ↔
      ∃ outer, Running setting statements start (⟨depth, task, s⟩ :: outer) := by
  constructor
  · intro h
    induction h with
    | statement hsplit hrun => exact ⟨[], .statement hsplit hrun⟩
    | task _ hstarts ih =>
      obtain ⟨outer, hrunning⟩ := ih
      exact ⟨_, .task hrunning hstarts⟩
  · rintro ⟨outer, h⟩
    generalize hstack : (⟨depth, task, s⟩ : Activity) :: outer = stack at h
    induction h generalizing depth task s outer with
    | statement hsplit hrun =>
      cases hstack
      exact .statement hsplit hrun
    | task _ hstarts ih =>
      cases hstack
      exact .task (ih _ rfl) hstarts

/-! ## Counting calls -/

section Count

variable {depth : ℕ} {task task' : Task} {s s' t : State}

/-- A task is started with one more active call than the task that starts it if that is a call, and with
as many otherwise. -/
lemma Starts.callDepth (h : Starts setting depth task s task' s') :
    s'.callDepth = s.callDepth + if task.isCall then 1 else 0 := by
  rw [(h.enters discipline_sameNames_grows).2]
  cases task with
  | execute stmt => cases stmt <;> rfl
  | _ => rfl

end Count

/-- The number of active calls that a run keeps count of is the number of calls that wait. -/
theorem Running.callDepth {activity : Activity} {outer : List Activity}
    (h : Running setting statements start (activity :: outer)) :
    activity.state.callDepth = start.callDepth + (calls outer).length := by
  generalize hstack : activity :: outer = stack at h
  induction h generalizing activity outer with
  | @statement before _ _ _ _ hrun =>
    cases hstack
    have hbefore : Respects Chain.Grows (before.forM (execute setting setting.depth)) :=
      respects_forM fun stmt _ => respects_execute setting _ stmt
    have hrecord : Respects Chain.Grows (record .runStart) := respects_record _
    exact ((hrecord.bind fun _ => hbefore).of_ok hrun).2
  | @task depth task _ s _ outer' _ hstarts ih =>
    cases hstack
    have houter := ih rfl
    rw [hstarts.callDepth, houter]
    by_cases hcall : task.isCall = true
    · simp [calls, hcall]
      omega
    · simp [calls, hcall]

/-- Where there are active calls, one of them is the innermost. -/
lemma exists_innermost_call {outer : List Activity} (h : calls outer ≠ []) :
    ∃ inner call rest, outer = inner ++ call :: rest ∧ calls inner = [] ∧ call.task.isCall = true := by
  obtain ⟨call, hcall⟩ := List.exists_mem_of_ne_nil _ h
  obtain ⟨hmem, hiscall⟩ := List.mem_filter.mp hcall
  have hfound : (outer.find? (·.task.isCall)).isSome := List.find?_isSome.mpr ⟨call, hmem, hiscall⟩
  obtain ⟨first, hfirst⟩ := Option.isSome_iff_exists.mp hfound
  obtain ⟨hiscall, inner, rest, hsplit, hinner⟩ := List.find?_eq_some_iff_append.mp hfirst
  refine ⟨inner, first, rest, hsplit, List.filter_eq_nil_iff.mpr fun a ha => ?_, hiscall⟩
  simpa using hinner a ha

/-! ## What a return comes to -/

/-- The stops that no task makes anything of: errors of the script and faults of the tree. -/
def Stop.IsFinal : Stop → Prop
  | failed _ | fault _ => True
  | _ => False

/-- No task catches a final stop. -/
lemma Stop.IsFinal.receive {stop : Stop} (h : stop.IsFinal) (task : Task) (s : State) :
    task.receive stop s = .error stop s := by
  cases stop with
  | failed error => cases task <;> rfl
  | fault fault => cases task <;> rfl
  | _ => exact h.elim

section Stops

variable {activity call : Activity} {inner outer rest : List Activity} {stop : Stop} {s t : State}
  {value : Value}

/-- What does not run out of turns ends. -/
lemma Exec.ends_of_ne {α : Type} {result : EStateM.Result Stop State α}
    (h : ∀ t, result ≠ .error .outOfTurns t) : Ends result := by
  cases result with
  | ok a s => trivial
  | error stop s =>
    cases stop with
    | outOfTurns => exact absurd rfl (h s)
    | _ => trivial

/-- A task that comes to an end has started tasks only that come to an end. -/
lemma Starts.ends {depth : ℕ} {task task' : Task} {s' : State}
    (h : Starts setting depth task s task' s') (hends : Ends (task.perform setting (depth + 1) s)) :
    Ends (task'.perform setting depth s') := by
  refine ends_of_ne fun t hcut => ?_
  obtain ⟨u, hreceive⟩ := h.receives hcut hends
  have hpassed : task.receive .outOfTurns u = .error .outOfTurns u := by cases task <;> rfl
  rw [hreceive, hpassed] at hends
  exact hends

/-- All that a task leads to comes to an end if the task does. -/
lemma LeadsTo.ends {depth d : ℕ} {task task' : Task} {s' : State} (h : LeadsTo setting depth task s d task' s')
    (hends : Ends (task.perform setting depth s)) : Ends (task'.perform setting d s') := by
  induction h with
  | refl => exact hends
  | tail _ hstarts ih => exact hstarts.ends ih

/-- An activity that is running was started by the one around it, which is allowed one level more. -/
lemma Running.started (h : Running setting statements start (activity :: call :: rest)) :
    call.depth = activity.depth + 1 ∧
      Starts setting activity.depth call.task call.state activity.task activity.state ∧
      Running setting statements start (call :: rest) := by
  cases h with
  | task hrunning hstarts => exact ⟨rfl, hstarts, hrunning⟩

/-- An activity that is started by one that comes to an end hands on its stop to that one. -/
lemma Running.receives (h : Running setting statements start (activity :: call :: rest))
    (hends : Ends (call.outcome setting)) (hstop : activity.outcome setting = .error stop t) :
    ∃ u, call.outcome setting = call.task.receive stop u := by
  obtain ⟨hdepth, hstarts, -⟩ := h.started
  unfold Activity.outcome at hends ⊢
  rw [hdepth] at hends ⊢
  exact hstarts.receives hstop hends

/-- An activity that is started by one that comes to an end comes to an end. -/
lemma Running.ends_of_waiting (h : Running setting statements start (activity :: call :: rest))
    (hends : Ends (call.outcome setting)) : Ends (activity.outcome setting) := by
  obtain ⟨hdepth, hstarts, -⟩ := h.started
  unfold Activity.outcome at hends
  rw [hdepth] at hends
  exact hstarts.ends hends

/-- All that is done inside an activity that comes to an end comes to an end. -/
lemma Running.ends (h : Running setting statements start (activity :: (inner ++ call :: rest)))
    (hends : Ends (call.outcome setting)) : Ends (activity.outcome setting) := by
  induction inner generalizing activity with
  | nil => exact h.ends_of_waiting hends
  | cons waiting inner ih => exact h.ends_of_waiting (ih h.started.2.2)

/-- A call that waits for something is the call of a function that was declared. -/
lemma Running.exists_function (h : Running setting statements start (activity :: (inner ++ call :: rest)))
    (hcall : call.task.isCall = true) : ∃ f args paren, call.task = .call (.function f) args paren := by
  induction inner generalizing activity with
  | nil =>
    obtain ⟨-, hstarts, -⟩ := h.started
    generalize call.task = task, call.state = s, activity.task = task', activity.state = s'
      at hstarts hcall
    cases hstarts with
    | body => exact ⟨_, _, _, rfl⟩
    | _ => cases hcall
  | cons waiting inner ih => exact ih h.started.2.2

/-- What is returned is the value of the innermost active call. -/
lemma Running.returned (h : Running setting statements start (activity :: (inner ++ call :: rest)))
    (hinner : calls inner = []) (hcall : call.task.isCall = true) (hends : Ends (call.outcome setting))
    (hreturned : activity.outcome setting = .error (.returned value) t) :
    ∃ u, call.outcome setting = .ok (some value) u := by
  induction inner generalizing activity t with
  | nil =>
    obtain ⟨u, hreceive⟩ := h.receives hends hreturned
    obtain ⟨depth, task, s⟩ := call
    cases task with
    | call callee args paren => exact ⟨u, hreceive⟩
    | _ => cases hcall
  | cons waiting inner ih =>
    have hwaiting := h.started.2.2
    obtain ⟨u, hreceive⟩ := h.receives (hwaiting.ends hends) hreturned
    have hplain : waiting.task.isCall = false ∧ calls inner = [] := by
      by_cases hiscall : waiting.task.isCall = true
      · simp [calls, hiscall] at hinner
      · simpa [calls, hiscall] using hinner
    have hpassed : waiting.task.receive (.returned value) u = .error (.returned value) u := by
      obtain ⟨depth, task, s⟩ := waiting
      cases task with
      | call callee args paren => cases hplain.1
      | _ => rfl
    exact ih hwaiting hplain.2 (hreceive.trans hpassed)

/-- A statement of a run that stops makes the run stop. -/
lemma run_of_error {before after : List Node} {stmt : Node} (hsplit : statements = before ++ stmt :: after)
    (hbefore : (do record .runStart; before.forM (execute setting setting.depth) : Exec Unit) start =
      .ok () s)
    (hstmt : execute setting setting.depth stmt s = .error stop t) (hstop : stop ≠ .tooDeep) :
    run setting statements start = .error stop t := by
  subst hsplit
  have hstatements : outermost ((before ++ stmt :: after).forM (execute setting setting.depth))
      { start with log := .runStart :: start.log } = .error stop t := by
    unfold outermost
    rw [forM_of_error hbefore hstmt]
    cases stop with
    | tooDeep => exact absurd rfl hstop
    | _ => rfl
  exact (bind_of_ok rfl).trans (bind_of_error hstatements)

/-- All that a run comes to do comes to an end if the run does. -/
lemma Running.ends_of_run (h : Running setting statements start (activity :: outer))
    (hends : Ends (run setting statements start)) : Ends (activity.outcome setting) := by
  generalize hstack : activity :: outer = stack at h
  induction h generalizing activity outer with
  | statement hsplit hbefore =>
    cases hstack
    refine ends_of_ne fun t hcut => ?_
    have hrun := run_of_error hsplit hbefore (map_eq_error.mp hcut) (by simp)
    rw [hrun] at hends
    exact hends
  | task _ hstarts ih =>
    cases hstack
    exact hstarts.ends (ih rfl)

/-- An error of the script or a fault of the tree, wherever it comes up in a run, is what the run ends
with. -/
lemma Running.error_of_isFinal (h : Running setting statements start (activity :: outer))
    (hends : Ends (run setting statements start)) (hfinal : stop.IsFinal)
    (herror : activity.outcome setting = .error stop t) :
    ∃ u, run setting statements start = .error stop u := by
  -- outwards, from each activity to the one that waits for it
  induction outer generalizing activity t with
  | nil =>
    cases h with
    | statement hsplit hbefore =>
      have hstop : stop ≠ .tooDeep := by
        rintro rfl
        exact hfinal
      exact ⟨t, run_of_error hsplit hbefore (map_eq_error.mp herror) hstop⟩
  | cons waiting outer ih =>
    have hwaiting := h.started.2.2
    obtain ⟨u, hreceive⟩ := h.receives (hwaiting.ends_of_run hends) herror
    exact ih hwaiting (hreceive.trans (hfinal.receive waiting.task u))

end Stops

/-! ## Where a return without a call comes from -/

section Origin

variable {depth : ℕ} {task : Task} {s t : State} {value : Value} {place? : Option Place}

/-- A value is returned only while a call is active. -/
lemma callDepth_of_returned (h : task.perform setting depth s = .error (.returned value) t) :
    s.callDepth ≠ 0 := by
  induction depth generalizing task s t with
  | zero =>
    have hlimit : task.perform setting 0 s = .error .tooDeep s := by cases task <;> rfl
    rw [hlimit] at h
    cases h
  | succ depth ih =>
    have hreturn : Stop.IsReturn (.returned value) := trivial
    rcases Task.returns_or_handsOn hreturn h with hreturns | ⟨task', s', u, hstarts, hstop, hcall⟩
    -- either the task is the return statement, which has looked at the count, or it has started one
    · obtain ⟨keyword, e, -, ⟨-, token, -, hfailed⟩ | ⟨hactive, -⟩⟩ := hreturns
      · cases hfailed
      · exact hactive
    · have hs' := ih hstop
      rw [hstarts.callDepth] at hs'
      have hnocall : task.isCall = false := by
        by_contra hiscall
        exact hcall (by simpa using hiscall) value rfl
      simpa [hnocall] using hs'

/-- A run that comes to complain of a return outside of all calls comes to a return statement that it
executes while no call is active. -/
lemma Running.exists_return {outer : List Activity}
    (h : Running setting statements start (⟨depth, task, s⟩ :: outer))
    (hfailed : task.perform setting depth s = .error (.failed ⟨.returnOutside, place?⟩) t) :
    ∃ depth' keyword e s' outer',
      Running setting statements start (⟨depth' + 1, .execute (.returnStmt (.token keyword) e), s'⟩ :: outer') ∧
        s'.callDepth = 0 ∧ place? = some keyword.place := by
  induction depth generalizing task s t outer with
  | zero =>
    have hlimit : task.perform setting 0 s = .error .tooDeep s := by cases task <;> rfl
    rw [hlimit] at hfailed
    cases hfailed
  | succ depth ih =>
    have hreturn : Stop.IsReturn (.failed ⟨.returnOutside, place?⟩) := rfl
    rcases Task.returns_or_handsOn hreturn hfailed with hreturns | ⟨task', s', u, hstarts, hstop, -⟩
    · obtain ⟨keyword, e, rfl, ⟨hnone, token, rfl, hplace⟩ | ⟨-, value, hvalue⟩⟩ := hreturns
      · cases hplace
        exact ⟨depth, token, e, s, outer, h, hnone, rfl⟩
      · cases hvalue
    · exact ih (.task h hstarts) hstop

/-- A run stops where one of its statements does; only reaching the nesting limit becomes an error. -/
lemma exists_statement_of_run {stop : Stop} (h : run setting statements start = .error stop t)
    (hreturn : stop.IsReturn) :
    ∃ stmt s, Running setting statements start [⟨setting.depth, .execute stmt, s⟩] ∧
      execute setting setting.depth stmt s = .error stop t := by
  obtain ⟨_, u, hstart, hrest⟩ := (quiet_record _).ok_of_bind hreturn h
  have hstatements : statements.forM (execute setting setting.depth) u = .error stop t := by
    rcases bind_eq_error.mp hrest with hrun | ⟨_, v, -, hend⟩
    · unfold outermost at hrun
      cases hforM : statements.forM (execute setting setting.depth) u with
      | ok _ v =>
        rw [hforM] at hrun
        cases hrun
      | error stop' v =>
        rw [hforM] at hrun
        cases stop' with
        | tooDeep =>
          cases hrun
          cases hreturn
        | _ => exact hrun
    · cases hend
  obtain ⟨before, stmt, after, v, hsplit, hbefore, hstmt⟩ := forM_eq_error hstatements
  exact ⟨stmt, v, .statement hsplit ((bind_of_ok hstart).trans hbefore), hstmt⟩

end Origin

/-- Calls and returns are in order, whatever is run.  A task leaves as many calls active as it found, so
none is active between the steps of a session.  A run that begins while no call is active never ends with a
return.  A value that is returned in it, at whatever depth, becomes the value of the innermost active call,
which is the call of a declared function, if that call comes to an end.  And the run, if it comes to an end,
ends with the error of a return outside of all calls exactly if it comes to a return statement, whose
keyword is a token, while no call is active; it is the place of that token at which the error is reported.
If the keyword is no token, it ends with the fault that this is. -/
theorem calls_left_and_returns_caught (setting : Setting) :
    (∀ depth (task : Task) s, (final (task.perform setting depth s)).callDepth = s.callDepth) ∧
    (∀ level steps scope, (((Session.start level).takeAll setting steps).state scope).callDepth = 0) ∧
    ∀ statements start, start.callDepth = 0 →
      (∀ value t, run setting statements start ≠ .error (.returned value) t) ∧
      (∀ activity outer value t, Running setting statements start (activity :: outer) →
        activity.outcome setting = .error (.returned value) t →
        ∃ inner call rest, outer = inner ++ call :: rest ∧ calls inner = [] ∧
          (∃ f args paren, call.task = .call (.function f) args paren) ∧
          (Ends (call.outcome setting) → ∃ u, call.outcome setting = .ok (some value) u)) ∧
      (Ends (run setting statements start) →
        (∀ place?, (∃ t, run setting statements start = .error (.failed ⟨.returnOutside, place?⟩) t) ↔
          ∃ depth keyword e s outer,
            Running setting statements start
              (⟨depth + 1, .execute (.returnStmt (.token keyword) e), s⟩ :: outer) ∧
            calls outer = [] ∧ place? = some keyword.place) ∧
        ∀ depth keyword e s outer fault,
          Running setting statements start (⟨depth + 1, .execute (.returnStmt keyword e), s⟩ :: outer) →
          calls outer = [] → keyword.leaf? = .error fault →
          ∃ t, run setting statements start = .error (.fault fault) t) := by
  refine ⟨fun depth task s => (respects_perform setting depth task s).2,
    fun level steps scope => Session.callDepth_takeAll setting (.start level) steps,
    fun statements start hstart => ?_⟩
  have hinactive : ∀ {activity : Activity} {outer : List Activity},
      Running setting statements start (activity :: outer) → calls outer = [] →
      activity.state.callDepth = 0 := by
    intro activity outer hrunning hnone
    simpa [hnone, hstart] using hrunning.callDepth
  refine ⟨fun value t hrun => ?_, fun activity outer value t hrunning hreturned => ?_,
    fun hends => ⟨fun place? => ⟨?_, ?_⟩, ?_⟩⟩
  · -- No call is active outside of all calls, so nothing can be returned there.
    obtain ⟨stmt, s, hrunning, hstmt⟩ := exists_statement_of_run hrun trivial
    have hreturned : (Task.execute stmt).perform setting setting.depth s = .error (.returned value) t :=
      map_eq_error.mpr hstmt
    exact callDepth_of_returned hreturned (hinactive hrunning rfl)
  · have hactive : calls outer ≠ [] := fun hnone =>
      callDepth_of_returned hreturned (hinactive hrunning hnone)
    obtain ⟨inner, call, rest, rfl, hinner, hcall⟩ := exists_innermost_call hactive
    exact ⟨inner, call, rest, rfl, hinner, hrunning.exists_function hcall,
      fun hends => hrunning.returned hinner hcall hends hreturned⟩
  · rintro ⟨t, hrun⟩
    obtain ⟨stmt, s, hrunning, hstmt⟩ := exists_statement_of_run hrun rfl
    obtain ⟨depth, keyword, e, s', outer, hreturn, hnone, hplace⟩ :=
      hrunning.exists_return (map_eq_error.mpr hstmt)
    -- The failure was found while no call was counted, and every active call is counted.
    have hcount := hreturn.callDepth
    refine ⟨depth, keyword, e, s', outer, hreturn, ?_, hplace⟩
    exact List.length_eq_zero_iff.mp (by simpa [hnone, hstart] using hcount.symm)
  · rintro ⟨depth, keyword, e, s, outer, hreturn, hnone, rfl⟩
    have hfailed : execute setting (depth + 1) (.returnStmt (.token keyword) e) s =
        .error (.failed ⟨.returnOutside, some keyword.place⟩) s := by
      rw [execute_returnStmt, if_pos (hinactive hreturn hnone)]
      rfl
    exact hreturn.error_of_isFinal hends trivial (map_eq_error.mpr hfailed)
  · intro depth keyword e s outer fault hreturn hnone hkeyword
    have hfault : execute setting (depth + 1) (.returnStmt keyword e) s = .error (.fault fault) s := by
      rw [execute_returnStmt, if_pos (hinactive hreturn hnone)]
      unfold failAt
      rw [hkeyword]
      rfl
    exact hreturn.error_of_isFinal hends trivial (map_eq_error.mpr hfault)

/-- A name or a mark that was written at the beginning of a source. -/
def markOf (kind : Kind) (text : String) : Node :=
  .token ⟨kind, .str text, .null, .int 1, .int 0, .int 0⟩

/-- The declaration of a function that returns nothing. -/
def returningDecl : Node :=
  .funDecl (markOf .identifier "f") (.list []) (.list [.returnStmt (markOf .returnWord "return") .null])

/-- The call of the function. -/
def returningCall : Node :=
  .exprStmt (.call (.ident (markOf .identifier "f")) (markOf .rightParen ")") (.list []))

/-- What the function returns is the value of its call. -/
theorem returned_value_is_value_of_call :
    let setting := Session.limits fun _ => 0
    let start := (Session.start 0).state ScopeTree.rootNumber
    ∃ activity outer call t u, Running setting [returningDecl, returningCall] start (activity :: outer) ∧
      activity.outcome setting = .error (.returned .nil) t ∧ call ∈ outer ∧
      call.outcome setting = .ok (some .nil) u := by
  intro setting start
  have hsplit : [returningDecl, returningCall] = [returningDecl] ++ returningCall :: [] := rfl
  have hstatement : Running setting [returningDecl, returningCall] start
      [⟨setting.depth, .execute returningCall, _⟩] := .statement hsplit rfl
  have hcall := (hstatement.task .exprStmt).task (.call rfl rfl rfl)
  have hitems : (Node.list [.returnStmt (markOf .returnWord "return") .null]).items? =
      .ok ([] ++ .returnStmt (markOf .returnWord "return") .null :: []) := rfl
  have hbody := hcall.task (.body rfl hitems rfl rfl)
  obtain ⟨-, -, hruns⟩ := calls_left_and_returns_caught setting
  obtain ⟨-, hcaught, -⟩ := hruns _ start rfl
  obtain ⟨inner, call, rest, houter, -, -, hvalue⟩ := hcaught _ _ .nil _ hbody rfl
  have hmem : call ∈ inner ++ call :: rest := by simp
  rw [← houter] at hmem
  have hends : Ends (call.outcome setting) := by
    simp only [List.mem_cons, List.not_mem_nil, or_false] at hmem
    rcases hmem with rfl | rfl | rfl <;> trivial
  obtain ⟨u, hu⟩ := hvalue hends
  exact ⟨_, _, call, _, u, hbody, rfl, hmem, hu⟩

/-- A stored tree with nothing but a return statement, which has no keyword. -/
def keywordless : Json :=
  .list [.object [("__node__", .str "ReturnStmt"), ("keyword", .null), ("value", .null)]]

/-- A return statement that is executed while no call is active need not end in the error of a return
outside of all calls: its keyword may be missing in a stored tree. -/
theorem return_without_keyword_is_fault :
    ∃ statements, Node.programOfJson keywordless = .ok statements ∧
      let setting := Session.limits fun _ => 0
      let start := (Session.start 0).state ScopeTree.rootNumber
      (∃ depth e s, Running setting statements start [⟨depth + 1, .execute (.returnStmt .null e), s⟩] ∧
        s.callDepth = 0) ∧
      Ends (run setting statements start) ∧
      ∀ place? t, run setting statements start ≠ .error (.failed ⟨.returnOutside, place?⟩) t := by
  have hsplit : [Node.returnStmt .null .null] = [] ++ .returnStmt .null .null :: [] := rfl
  refine ⟨[.returnStmt .null .null], rfl, ⟨999, .null, _, .statement hsplit rfl, rfl⟩, trivial, ?_⟩
  intro place? t hrun
  cases hrun

end Scriptlet
