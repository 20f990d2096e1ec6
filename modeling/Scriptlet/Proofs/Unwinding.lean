import Scriptlet.Proofs.Footprints

/-!
# How tasks go on, and how stops travel

When a task that was started has come to its result, the task that started it goes on: it does something more
with the value, drops the scope that it has opened, or hands on what it got.  Whatever it does has no more
effect on the scopes than tasks have (`Starts.resumes`).

In particular a task that stops makes the task that started it stop as well, and so on outwards.  Only a call
looks at what comes out of its body: it takes what was returned as its own value, and blames itself if the
nesting limit was reached.  Every other stop passes through all tasks unchanged (`Starts.receives`).

Conversely, a task that returns, or that complains of a return outside of all calls, has this from a task
that it started, unless it is itself the return statement (`Task.returns_or_handsOn`).  So such a stop can be
traced back, task by task, to the return statement that it comes from.

A loop that is cut off has no counterpart in a script, which would go on for ever; what is said of a task
here is said of tasks that come to an end.
-/

namespace Scriptlet

/-! ## Sequences of computations -/

namespace Exec

variable {α β : Type} {act : Exec α} {next : α → Exec β} {stop : Stop} {s t u : State}

/-- What comes second is not reached if the first part stops. -/
lemma bind_of_error (h : act s = .error stop t) : (act >>= next) s = .error stop t := by
  rw [bind_apply, h]

lemma bind_eq_ok {b : β} : (act >>= next) s = .ok b u ↔
    ∃ a t, act s = .ok a t ∧ next a t = .ok b u := by
  rw [bind_apply]
  cases act s <;> simp

/-- A sequence stops in its first part, or in its second part behind the first. -/
lemma bind_eq_error : (act >>= next) s = .error stop u ↔
    act s = .error stop u ∨ ∃ a t, act s = .ok a t ∧ next a t = .error stop u := by
  rw [bind_apply]
  cases act s <;> simp

/-- What is done with results does not change that two computations do the same. -/
lemma map_congr {f : α → β} {act' : Exec α} (h : act s = act' t) : (f <$> act) s = (f <$> act') t := by
  rw [← bind_pure_comp, ← bind_pure_comp, bind_apply, bind_apply, h]

lemma map_eq_error {f : α → β} : (f <$> act) s = .error stop t ↔ act s = .error stop t := by
  rw [← bind_pure_comp, bind_eq_error, or_iff_left]
  rintro ⟨a, u, -, h⟩
  cases h

variable {as before after : List α} {a : α} {bs : List β}

/-- Computations go on where those before them have led. -/
lemma forM_of_ok {f : α → Exec Unit} (hbefore : before.forM f s = .ok () t) :
    (before ++ a :: after).forM f s = (do f a; after.forM f : Exec Unit) t := by
  have happend : (before ++ a :: after).forM f = (do before.forM f; f a; after.forM f) :=
    List.forM_append
  rw [happend]
  exact bind_of_ok hbefore

/-- The first of some computations that stops makes all of them stop. -/
lemma forM_of_error {f : α → Exec Unit} (hbefore : before.forM f s = .ok () t)
    (h : f a t = .error stop u) : (before ++ a :: after).forM f s = .error stop u :=
  (forM_of_ok hbefore).trans (bind_of_error h)

/-- Of some computations that stop together, one stops and those before it have ended well. -/
lemma forM_eq_error {f : α → Exec Unit} (h : as.forM f s = .error stop u) :
    ∃ before a after t, as = before ++ a :: after ∧ before.forM f s = .ok () t ∧
      f a t = .error stop u := by
  induction as generalizing s with
  | nil => cases h
  | cons a as ih =>
    rcases bind_eq_error.mp h with h | ⟨_, t, ha, h⟩
    · exact ⟨[], a, as, s, rfl, rfl, h⟩
    · obtain ⟨before, b, after, v, rfl, hbefore, hb⟩ := ih h
      exact ⟨a :: before, b, after, v, rfl, (bind_of_ok ha).trans hbefore, hb⟩

/-- Of some computations of values that stop together, one stops and those before it have ended well. -/
lemma mapM_eq_error {f : α → Exec β} (h : as.mapM f s = .error stop u) :
    ∃ before a after bs t, as = before ++ a :: after ∧ before.mapM f s = .ok bs t ∧
      f a t = .error stop u := by
  induction as generalizing s with
  | nil => cases h
  | cons a as ih =>
    rw [List.mapM_cons] at h
    rcases bind_eq_error.mp h with h | ⟨b, t, ha, h⟩
    · exact ⟨[], a, as, [], s, rfl, rfl, h⟩
    · rcases bind_eq_error.mp h with h | ⟨bs, v, -, h⟩
      · obtain ⟨before, c, after, cs, v, rfl, hbefore, hc⟩ := ih h
        exact ⟨a :: before, c, after, b :: cs, v, rfl, mapM_cons_of_ok ha hbefore, hc⟩
      · cases h

/-! ## Loops -/

variable {test : Exec Bool} {body : Exec Unit}

/-- After some turns a loop goes on from where they have led, unless it is cut off before. -/
lemma repeatWhile_of_turns (h : Relation.ReflTransGen (Turn test body) s t) (turns : ℕ) :
    (∃ rest, repeatWhile test body turns s = repeatWhile test body (rest + 1) t) ∨
      ∃ u, repeatWhile test body turns s = .error .outOfTurns u := by
  induction h using Relation.ReflTransGen.head_induction_on generalizing turns with
  | refl =>
    cases turns with
    | zero => exact .inr ⟨t, rfl⟩
    | succ rest => exact .inl ⟨rest, rfl⟩
  | head hturn _ ih =>
    cases turns with
    | zero => exact .inr ⟨_, rfl⟩
    | succ turns =>
      obtain ⟨m, htest, hbody⟩ := hturn
      have hstep : ∀ v, body m = .ok () v →
          repeatWhile test body (turns + 1) _ = repeatWhile test body turns v :=
        fun v hv => (bind_of_ok htest).trans (bind_of_ok hv)
      rw [hstep _ hbody]
      exact ih turns

/-- A loop stops in a test or in a body that some turns lead to, if it is not cut off. -/
lemma repeatWhile_eq_error {turns : ℕ} (h : repeatWhile test body turns s = .error stop u)
    (hstop : stop ≠ .outOfTurns) :
    ∃ t, Relation.ReflTransGen (Turn test body) s t ∧
      (test t = .error stop u ∨ ∃ m, test t = .ok true m ∧ body m = .error stop u) := by
  induction turns generalizing s with
  | zero =>
    cases h
    exact absurd rfl hstop
  | succ turns ih =>
    rcases bind_eq_error.mp h with h | ⟨b, m, htest, h⟩
    · exact ⟨s, .refl, .inl h⟩
    · cases b with
      | false => cases h
      | true =>
        rcases bind_eq_error.mp h with h | ⟨_, v, hbody, h⟩
        · exact ⟨s, .refl, .inr ⟨m, htest, h⟩⟩
        · obtain ⟨t, hturns, ht⟩ := ih h
          exact ⟨t, .head ⟨m, htest, hbody⟩ hturns, ht⟩

/-- A result that is an end: no loop was cut off. -/
def Ends : EStateM.Result Stop State α → Prop
  | .error .outOfTurns _ => False
  | _ => True

end Exec

open Exec

/-! ## What a task goes on with -/

namespace Task

/-- Whether a task is a call. -/
def isCall : Task → Bool
  | call _ _ _ => true
  | _ => false

/-- What a task does when a task that it started stops.  A call takes what was returned for its value and
blames itself for the nesting; anything else stops in the same way. -/
def receive : Task → Stop → Exec (Option Value)
  | call _ _ _, .returned value => pure (some value)
  | call _ _ paren, .tooDeep => some <$> failAt .callsTooDeep paren
  | _, stop => throw stop

/-- The state in which a task begins what it does inside: in a fresh scope if it is a block or a call, and as
an active call if it is one. -/
def enter : Task → State → State
  | call _ _ _, s => { s with scopes := [] :: s.scopes, callDepth := s.callDepth + 1 }
  | execute (.block _), s => { s with scopes := [] :: s.scopes }
  | _, s => s

/-- What comes of a task when all that it does inside has come to a result.  A block drops its scope.  A call
drops its scope too, is active no longer, and makes its own of what its body has stopped with. -/
def leave : Task → EStateM.Result Stop State (Option Value) → EStateM.Result Stop State (Option Value)
  | call _ _ _, .ok _ t => .ok (some .nil) { t with scopes := t.scopes.tail, callDepth := t.callDepth - 1 }
  | call callee args paren, .error stop t =>
    (call callee args paren).receive stop { t with scopes := t.scopes.tail, callDepth := t.callDepth - 1 }
  | execute (.block _), .ok value? t => .ok value? { t with scopes := t.scopes.tail }
  | execute (.block _), .error stop t => .error stop { t with scopes := t.scopes.tail }
  | _, result => result

end Task

variable {setting : Setting} {depth : ℕ} {task task' : Task} {stop : Stop} {s s' t t' : State}

/-- A call with as many arguments as are taken is recorded. -/
lemma of_checkArity {callee : Value} {expected got : ℕ} {paren : Node}
    (h : checkArity callee expected got paren s = .ok () t) :
    got = expected ∧ t = { s with log := .called callee got :: s.log } := by
  unfold checkArity at h
  split at h
  next =>
    obtain ⟨leaf, u, -, hfail⟩ := bind_eq_ok.mp h
    cases hfail
  next hequal =>
    cases h
    exact ⟨not_not.mp hequal, rfl⟩

section Entering

variable {R S : Chain → Chain → Prop} [Std.Refl R] [IsTrans Chain R] [Std.Refl S] [IsTrans Chain S]
  (D : Discipline R S)
include D

/-- The test of a loop respects what may be done where names are declared. -/
lemma respects_whileTest (condition : Node) : Respects S (whileTest setting depth condition) := by
  refine ((D.respects_evaluate setting depth condition).mono D.weaken).bind fun value => ?_
  exact (respects_record _).bind fun _ => respects_pure _

/-- Any turns of a loop respect what may be done where names are declared. -/
lemma respects_turns {condition body : Node}
    (h : Relation.ReflTransGen (WhileTurn setting depth condition body) s t) :
    S s.scopes t.scopes ∧ t.callDepth = s.callDepth := by
  induction h with
  | refl => exact ⟨Std.Refl.refl _, rfl⟩
  | tail _ hturn ih =>
    obtain ⟨m, htest, hbody⟩ := hturn
    obtain ⟨hm, hmDepth⟩ := (respects_whileTest D condition).of_ok htest
    obtain ⟨ht, htDepth⟩ := (D.respects_execute setting depth body).of_ok hbody
    exact ⟨IsTrans.trans _ _ _ ih.1 (IsTrans.trans _ _ _ hm ht), htDepth.trans (hmDepth.trans ih.2)⟩

/-- What a task has done before it starts another one has no more effect on the scopes than tasks have. -/
theorem Starts.enters (h : Starts setting depth task s task' s') :
    S (task.enter s).scopes s'.scopes ∧ s'.callDepth = (task.enter s).callDepth := by
  have hevaluate : ∀ e, Respects S (evaluate setting depth e) :=
    fun e => (D.respects_evaluate setting depth e).mono D.weaken
  have hstatements : ∀ stmts : List Node, Respects S (stmts.forM (execute setting depth)) :=
    fun stmts => respects_forM fun stmt _ => D.respects_execute setting depth stmt
  have hvalues : ∀ es : List Node, Respects S (es.mapM (evaluate setting depth)) :=
    fun es => respects_mapM fun e _ => hevaluate e
  cases h with
  | logicalRight hleft _ | binaryRight hleft => exact (hevaluate _).of_ok hleft
  | argument _ hf hprefix | call _ hf hprefix =>
    obtain ⟨hcallee, hcalleeDepth⟩ := (hevaluate _).of_ok hf
    obtain ⟨hargs, hargsDepth⟩ := (hvalues _).of_ok hprefix
    exact ⟨IsTrans.trans _ _ _ hcallee hargs, hargsDepth.trans hcalleeDepth⟩
  | @body f args paren stmt params before after s t _ _ _ harity hbefore =>
    have hcounted : Respects S (do declareAll params args; before.forM (execute setting depth) : Exec Unit) :=
      (D.respects_declareAll params args).bind fun _ => hstatements before
    obtain ⟨-, rfl⟩ := of_checkArity harity
    have hbody := hcounted.of_ok hbefore
    exact hbody
  | block _ hbefore => exact (hstatements _).of_ok hbefore
  | thenBranch hcondition _ | elseBranch hcondition _ _ =>
    have hvalue := (hevaluate _).of_ok hcondition
    exact hvalue
  | whileCondition hturns => exact respects_turns D hturns
  | whileBody hturns htest =>
    obtain ⟨hbegun, hbegunDepth⟩ := respects_turns D hturns
    obtain ⟨htested, htestedDepth⟩ := (respects_whileTest D _).of_ok htest
    exact ⟨IsTrans.trans _ _ _ hbegun htested, htestedDepth.trans hbegunDepth⟩
  | _ => exact ⟨Std.Refl.refl _, rfl⟩

end Entering

/-- A call leaves its body as calls leave what they do inside. -/
lemma leave_of_call {callee : Value} {args : List Value} {paren : Node} {body : Exec Unit} :
    (some <$> asCall paren (inFreshScope body)) s = (Task.call callee args paren).leave
      (((fun _ => none) <$> body) { s with scopes := [] :: s.scopes, callDepth := s.callDepth + 1 }) := by
  rw [← bind_pure_comp, ← bind_pure_comp, bind_apply, bind_apply]
  unfold asCall inFreshScope
  cases body { s with scopes := [] :: s.scopes, callDepth := s.callDepth + 1 } with
  | ok u t => rfl
  | error stop t =>
    cases stop with
    | tooDeep =>
      rw [Task.leave, Task.receive, ← bind_pure_comp, bind_apply]
    | _ => rfl

/-- A block leaves its statements as blocks leave what they do inside. -/
lemma leave_of_block {statements : Node} {body : Exec Unit} :
    ((fun _ => none) <$> inFreshScope body) s = (Task.execute (.block statements)).leave
      (((fun _ => none) <$> body) { s with scopes := [] :: s.scopes }) := by
  rw [← bind_pure_comp, ← bind_pure_comp, bind_apply, bind_apply]
  unfold inFreshScope
  cases body { s with scopes := [] :: s.scopes } <;> rfl

/-- A sequence whose first part has ended well goes on with its second part. -/
lemma map_bind_of_ok {α β : Type} {g : α → Option Value} {act : Exec β} {f : β → Exec α} {b : β}
    (h : act s = .ok b t) : (g <$> (act >>= f)) s = (g <$> f b) t := by
  rw [map_bind, bind_of_ok h]

/-! ## What is left to do -/

section Remaining

variable {u : State} {paren : Node}

/-- A call whose callee and first arguments have values evaluates the other arguments, and then it is made. -/
lemma perform_call_of_values {callee arguments : Node} {before rest : List Node} {f : Value}
    {values : List Value} (hitems : arguments.items? = .ok (before ++ rest))
    (hf : evaluate setting depth callee s = .ok f t)
    (hvalues : before.mapM (evaluate setting depth) t = .ok values u) :
    (Task.evaluate (.call callee paren arguments)).perform setting (depth + 1) s =
      (some <$> do
        let others ← rest.mapM (evaluate setting depth)
        Exec.call setting depth f (values ++ others) paren) u := by
  refine (map_bind_of_ok hf).trans ?_
  simp only [hitems, part_ok, pure_bind, List.mapM_append, bind_assoc]
  exact map_bind_of_ok hvalues

/-- A call that has executed the first statements of its body executes the others. -/
lemma perform_call_of_statements {f : UserFunction} {args : List Value} {params before after : List Node}
    {stmt : Node} (hparams : f.params.items? = .ok params)
    (hbody : f.body.items? = .ok (before ++ stmt :: after))
    (harity : checkArity (.function f) params.length args.length paren s = .ok () t)
    (hbefore : (do declareAll params args; before.forM (execute setting depth) : Exec Unit)
      { t with scopes := [] :: t.scopes, callDepth := t.callDepth + 1 } = .ok () u) :
    (Task.call (.function f) args paren).perform setting (depth + 1) s =
      (Task.call (.function f) args paren).leave
        (((fun _ => none) <$> (do execute setting depth stmt; after.forM (execute setting depth) : Exec Unit))
          u) := by
  have hrun : (Task.call (.function f) args paren).perform setting (depth + 1) s =
      (some <$> asCall paren (inFreshScope do
        declareAll params args
        (before ++ stmt :: after).forM (execute setting depth))) t := by
    simp only [Task.perform, Exec.call, hparams, hbody, part_ok, pure_bind]
    exact map_bind_of_ok harity
  obtain ⟨_, v, hdeclared, hprefix⟩ := bind_eq_ok.mp hbefore
  have hrest : (do
      declareAll params args
      (before ++ stmt :: after).forM (execute setting depth) : Exec Unit)
        { t with scopes := [] :: t.scopes, callDepth := t.callDepth + 1 } =
      (do execute setting depth stmt; after.forM (execute setting depth) : Exec Unit) u :=
    (bind_of_ok hdeclared).trans (forM_of_ok hprefix)
  rw [hrun, leave_of_call, map_congr hrest]

/-- A loop that has made some turns goes on from there, if it comes to an end. -/
lemma perform_while_of_turns {condition body : Node}
    (hturns : Relation.ReflTransGen (WhileTurn setting depth condition body) s t)
    (hends : Ends ((Task.execute (.whileStmt condition body)).perform setting (depth + 1) s)) :
    ∃ rest, (Task.execute (.whileStmt condition body)).perform setting (depth + 1) s =
      ((fun _ => none) <$>
        repeatWhile (whileTest setting depth condition) (execute setting depth body) (rest + 1)) t := by
  rcases repeatWhile_of_turns hturns setting.turns with ⟨rest, hloop⟩ | ⟨u, hloop⟩
  · exact ⟨rest, map_congr hloop⟩
  · have hcut : (Task.execute (.whileStmt condition body)).perform setting (depth + 1) s =
        .error .outOfTurns u := map_eq_error.mpr hloop
    rw [hcut] at hends
    cases hends

end Remaining

/-! ## Going on -/

/-- A property of computations that all have which a run is made of. -/
structure Exec.Manner (K : {α : Type} → Exec α → Prop) : Prop where
  pure {α : Type} (a : α) : K (pure a : Exec α)
  throw {α : Type} (stop : Stop) : K (throw stop : Exec α)
  bind {α β : Type} {act : Exec α} {next : α → Exec β} : K act → (∀ a, K (next a)) → K (act >>= next)
  record (event : Event) : K (record event)
  assign (t : Leaf) (value : Value) : K (assign t value)
  declare (t : Leaf) (value : Value) : K (declare t value)
  evaluate (setting : Setting) (depth : ℕ) (e : Node) : K (evaluate setting depth e)
  call (setting : Setting) (depth : ℕ) (callee : Value) (args : List Value) (paren : Node) :
    K (call setting depth callee args paren)
  execute (setting : Setting) (depth : ℕ) (stmt : Node) : K (execute setting depth stmt)

namespace Exec.Manner

variable {K : {α : Type} → Exec α → Prop} {α β : Type}

lemma map (hK : Manner K) {act : Exec α} (h : K act) (f : α → β) : K (f <$> act) := by
  rw [← bind_pure_comp]
  exact hK.bind h fun a => hK.pure (f a)

/-- Looking at a part of a tree is in every manner. -/
lemma part (hK : Manner K) (result : Except Fault α) : K (part result) := by
  cases result with
  | ok a => exact hK.pure a
  | error fault => exact hK.throw _

/-- Giving the result of an operator is in every manner. -/
lemma result (hK : Manner K) (operator : Leaf) (outcome : Except RuntimeCause Value) :
    K (result operator outcome) := by
  cases outcome with
  | ok value => exact hK.pure value
  | error cause => exact hK.throw _

/-- Executing a statement that may be left out is in the manner of executing one that is there. -/
lemma execute? (hK : Manner K) (setting : Setting) (depth : ℕ) (stmt : Node) :
    K (Exec.execute? setting depth stmt) := by
  unfold Exec.execute?
  split
  · exact hK.pure ()
  · exact hK.execute setting depth stmt

/-- Statements one after the other are in the manner in which each of them is. -/
lemma forM (hK : Manner K) {f : α → Exec Unit} (h : ∀ a, K (f a)) (as : List α) : K (as.forM f) := by
  induction as with
  | nil => exact hK.pure _
  | cons a as ih => exact hK.bind (h a) fun _ => ih

/-- Expressions one after the other are in the manner in which each of them is. -/
lemma mapM (hK : Manner K) {f : α → Exec β} (h : ∀ a, K (f a)) (as : List α) : K (as.mapM f) := by
  induction as with
  | nil => exact hK.pure _
  | cons a as ih =>
    rw [List.mapM_cons]
    exact hK.bind (h a) fun b => hK.bind ih fun bs => hK.pure (b :: bs)

/-- A loop is in the manner in which its condition and its body are. -/
lemma repeatWhile (hK : Manner K) {test : Exec Bool} {body : Exec Unit} (htest : K test) (hbody : K body)
    (turns : ℕ) : K (repeatWhile test body turns) := by
  induction turns with
  | zero => exact hK.throw _
  | succ turns ih =>
    refine hK.bind htest fun b => ?_
    cases b with
    | true => exact hK.bind hbody fun _ => ih
    | false => exact hK.pure ()

/-- The test of a loop is in every manner. -/
lemma whileTest (hK : Manner K) (setting : Setting) (depth : ℕ) (condition : Node) :
    K (whileTest setting depth condition) :=
  hK.bind (hK.evaluate setting depth condition) fun _ => hK.bind (hK.record _) fun _ => hK.pure _

end Exec.Manner

/-- All that a run is made of does to the scopes what tasks may do to them. -/
lemma Discipline.manner {R S : Chain → Chain → Prop} [Std.Refl R] [IsTrans Chain R] [Std.Refl S] [IsTrans Chain S]
    (D : Discipline R S) : Manner (Respects S) where
  pure := respects_pure
  throw := respects_throw
  bind := Respects.bind
  record := respects_record
  assign t value := (D.respects_assign t value).mono D.weaken
  declare := D.toScoping.respects_declare
  evaluate setting depth e := (D.respects_evaluate setting depth e).mono D.weaken
  call setting depth callee args paren := (D.respects_call setting depth callee args paren).mono D.weaken
  execute := D.respects_execute

section Resuming

variable {K : {α : Type} → Exec α → Prop} {α : Type} {g : α → Option Value}

/-- Going on with some computation after a started task, in a given manner. -/
def Resumes (K : {α : Type} → Exec α → Prop) (result : EStateM.Result Stop State (Option Value))
    (act : Exec (Option Value)) (s : State) : Prop :=
  ∃ next : Option Value → Exec (Option Value), (∀ value?, K (next value?)) ∧ result = (act >>= next) s

variable (hK : Manner K)
include hK

/-- A task is the last thing that is done. -/
lemma resumes_last (act : Exec (Option Value)) (s : State) : Resumes K (act s) act s :=
  ⟨pure, hK.pure, by rw [bind_pure]⟩

/-- An expression is evaluated, and something is done with its value. -/
lemma resumes_value {act : Exec Value} {f : Value → Exec α} (hf : ∀ value, K (f value)) :
    Resumes K ((g <$> (act >>= f)) s) (some <$> act) s := by
  refine ⟨fun value? => value?.elim (pure none) (g <$> f ·), fun value? => ?_, by simp⟩
  cases value? with
  | none => exact hK.pure none
  | some value => exact hK.map (hf value) g

/-- A statement is executed, and something is done then. -/
lemma resumes_unit {act : Exec Unit} {f : Unit → Exec α} (hf : K (f ())) :
    Resumes K ((g <$> (act >>= f)) s) ((fun _ => none) <$> act) s :=
  ⟨fun _ => g <$> f (), fun _ => hK.map hf g, by simp⟩

/-- When a task that was started has come to its result, the task that started it goes on in the manner in which tasks
go on, and leaves the scope that it has opened if it is a block or a call.  Only of a loop that is cut off one cannot
say this. -/
theorem Starts.resumes (h : Starts setting depth task s task' s')
    (hends : Ends (task.perform setting (depth + 1) s)) :
    ∃ result, task.perform setting (depth + 1) s = task.leave result ∧
      Resumes K result (task'.perform setting depth) s' := by
  have hevaluate : ∀ e, K (evaluate setting depth e) := hK.evaluate setting depth
  have hexecute : ∀ stmt, K (execute setting depth stmt) := hK.execute setting depth
  have hloops : ∀ condition body turns,
      K (repeatWhile (whileTest setting depth condition) (execute setting depth body) turns) :=
    fun condition body => hK.repeatWhile (hK.whileTest setting depth condition) (hexecute body)
  cases h with
  -- Nothing of the task is left behind its last part, so that the result of that part is what is resumed.
  | grouping => exact ⟨_, rfl, resumes_last hK _ s⟩
  | assigned =>
    refine ⟨_, rfl, resumes_value hK fun value => hK.bind (hK.part _) fun t => ?_⟩
    exact hK.bind (hK.assign t value) fun _ => hK.pure value
  | operand =>
    exact ⟨_, rfl, resumes_value hK fun value => hK.bind (hK.part _) fun t => hK.result t _⟩
  | @logicalLeft left operator right s =>
    refine ⟨_, rfl, resumes_value hK fun value => hK.bind (hK.part _) fun t => ?_⟩
    split
    · exact hK.pure value
    · exact hevaluate right
  | @logicalRight left right operator value s _ hleft hopen =>
    refine ⟨_, ?_, resumes_last hK _ s'⟩
    refine (map_bind_of_ok hleft).trans ?_
    simp only [Node.leaf?, part_ok, pure_bind, hopen]
    rfl
  | binaryLeft =>
    refine ⟨_, rfl, resumes_value hK fun a => hK.bind (hevaluate _) fun b => ?_⟩
    exact hK.bind (hK.part _) fun t => hK.result t _
  | binaryRight hleft =>
    refine ⟨_, map_bind_of_ok hleft, resumes_value hK fun b => ?_⟩
    exact hK.bind (hK.part _) fun t => hK.result t _
  | callee =>
    refine ⟨_, rfl, resumes_value hK fun f => hK.bind (hK.part _) fun items => ?_⟩
    exact hK.bind (hK.mapM hevaluate items) fun args => hK.call setting depth f args _
  | @argument callee paren arguments e before after f values s t _ hitems hf hvalues =>
    -- The arguments before this one have been evaluated, so the rest of the list and then the call are left.
    have hrun : (Task.evaluate (.call callee paren arguments)).perform setting (depth + 1) s =
        (some <$> do
          let value ← evaluate setting depth e
          let others ← after.mapM (evaluate setting depth)
          Exec.call setting depth f (values ++ value :: others) paren) s' := by
      rw [perform_call_of_values hitems hf hvalues]
      simp only [List.mapM_cons, bind_assoc, pure_bind]
    refine ⟨_, hrun, resumes_value hK fun value => ?_⟩
    exact hK.bind (hK.mapM hevaluate after) fun others => hK.call setting depth f _ paren
  | @call callee paren arguments items f values s t _ hitems hf hvalues =>
    have hrun : (Task.evaluate (.call callee paren arguments)).perform setting (depth + 1) s =
        (some <$> Exec.call setting depth f values paren) s' := by
      rw [← List.append_nil items] at hitems
      rw [perform_call_of_values hitems hf hvalues, List.mapM_nil, pure_bind, List.append_nil]
    exact ⟨_, hrun, resumes_last hK _ s'⟩
  | body hparams hbody harity hbefore =>
    exact ⟨_, perform_call_of_statements hparams hbody harity hbefore, resumes_unit hK (hK.forM hexecute _)⟩
  | exprStmt => exact ⟨_, rfl, resumes_value hK fun _ => hK.pure ()⟩
  | printStmt => exact ⟨_, rfl, resumes_value hK fun value => hK.record _⟩
  | @initializer name e s hnull =>
    have hrun : (Task.execute (.varDecl name e)).perform setting (depth + 1) s =
        ((fun _ => none) <$> do
          let value ← evaluate setting depth e
          let t ← part name.leaf?
          declare t value
          record (.declared t.lexeme.inText value)) s := by
      rw [Task.perform, execute_varDecl, evaluate?_of_ne_null hnull]
    refine ⟨_, hrun, resumes_value hK fun value => hK.bind (hK.part _) fun t => ?_⟩
    exact hK.bind (hK.declare t value) fun _ => hK.record _
  | @block statements stmt before after s _ hitems hbefore =>
    refine ⟨_, leave_of_block, ?_⟩
    simp only [hitems, part_ok, pure_bind]
    rw [map_congr (forM_of_ok hbefore)]
    exact resumes_unit hK (hK.forM hexecute after)
  | @ifCondition condition thenBranch elseBranch s =>
    have hrun : (Task.execute (.ifStmt condition thenBranch elseBranch)).perform setting (depth + 1) s =
        ((fun _ => none) <$> do
          let value ← evaluate setting depth condition
          record (.ifCondition value)
          if value.truthy then execute setting depth thenBranch
          else execute? setting depth elseBranch) s := by
      rw [Task.perform, execute_ifStmt]
    refine ⟨_, hrun, resumes_value hK fun value => hK.bind (hK.record _) fun _ => ?_⟩
    split
    · exact hexecute thenBranch
    · exact hK.execute? setting depth elseBranch
  | @thenBranch condition thenBranch elseBranch value s _ hcondition htruthy =>
    refine ⟨_, ?_, resumes_last hK _ _⟩
    rw [Task.perform, execute_ifStmt, map_bind_of_ok hcondition, if_pos htruthy]
    rfl
  | elseBranch hcondition hfalsy hnull =>
    refine ⟨_, ?_, resumes_last hK _ _⟩
    rw [Task.perform, execute_ifStmt, map_bind_of_ok hcondition, hfalsy, execute?_of_ne_null hnull]
    rfl
  | @whileCondition condition body s _ hturns =>
    -- Some turns have been made, and the loop goes on with the turns that are left to it.
    obtain ⟨rest, hloop⟩ := perform_while_of_turns hturns hends
    have hrun : (Task.execute (.whileStmt condition body)).perform setting (depth + 1) s =
        ((fun _ => none) <$> do
          let value ← evaluate setting depth condition
          record (.whileCondition value)
          if value.truthy then
            execute setting depth body
            repeatWhile (whileTest setting depth condition) (execute setting depth body) rest) s' := by
      rw [hloop]
      simp only [repeatWhile, whileTest, bind_assoc, pure_bind]
    refine ⟨_, hrun, resumes_value hK fun value => hK.bind (hK.record _) fun _ => ?_⟩
    split
    · exact hK.bind (hexecute body) fun _ => hloops condition body rest
    · exact hK.pure ()
  | @whileBody condition body s _ _ hturns htest =>
    obtain ⟨rest, hloop⟩ := perform_while_of_turns hturns hends
    refine ⟨_, hloop.trans (map_congr (bind_of_ok htest)), resumes_unit hK (hloops condition body rest)⟩
  | @returned keyword e s hactive hnull =>
    have hrun : (Task.execute (.returnStmt keyword e)).perform setting (depth + 1) s =
        ((fun _ => none) <$> (do throw (.returned (← evaluate setting depth e)) : Exec Unit)) s := by
      refine map_congr ?_
      rw [execute_returnStmt, if_neg hactive, evaluate?_of_ne_null hnull]
    exact ⟨_, hrun, resumes_value hK fun value => hK.throw _⟩

end Resuming

/-- A task whose started task stops does with the stop what tasks of its kind do, unless a loop is cut
off in it. -/
theorem Starts.receives (h : Starts setting depth task s task' s')
    (hstop : task'.perform setting depth s' = .error stop t')
    (hends : Ends (task.perform setting (depth + 1) s)) :
    ∃ t, task.perform setting (depth + 1) s = task.receive stop t := by
  obtain ⟨result, hperform, next, -, rfl⟩ := h.resumes discipline_sameNames_grows.manner hends
  rw [hperform, bind_of_error hstop]
  cases task with
  | evaluate e => exact ⟨t', rfl⟩
  | call callee args paren => exact ⟨_, rfl⟩
  | execute stmt => cases stmt <;> exact ⟨_, rfl⟩

/-! ## Where returns come from -/

/-- The stops that are caused by return statements and by nothing else. -/
def Stop.IsReturn : Stop → Prop
  | returned _ => True
  | failed error => error.cause = .returnOutside
  | _ => False

namespace Exec

variable {α β : Type}

/-- A computation that does not stop in the way of a return statement. -/
def Quiet (act : Exec α) : Prop :=
  ∀ s stop t, act s = .error stop t → ¬ stop.IsReturn

variable {act : Exec α} {next : α → Exec β} {cause : RuntimeCause}

/-- What a quiet computation stops with is no return. -/
lemma Quiet.not_isReturn (h : Quiet act) {s t : State} {stop : Stop} (hrun : act s = .error stop t) :
    ¬ stop.IsReturn :=
  h s stop t hrun

lemma quiet_pure (a : α) : Quiet (pure a) := by
  intro s stop t h
  cases h

/-- Recording an event does not stop. -/
lemma quiet_record (event : Event) : Quiet (record event) := by
  intro s stop t h
  cases h

/-- Making a function does not stop. -/
lemma quiet_makeFunction (name : String) (params body : Node) : Quiet (makeFunction name params body) := by
  intro s stop t h
  cases h

lemma quiet_part (result : Except Fault α) : Quiet (part result) := by
  intro s stop t h
  cases result with
  | ok a => cases h
  | error fault =>
    cases h
    exact id

/-- An error other than a return outside of all calls is no return. -/
lemma quiet_fail (hcause : cause ≠ .returnOutside) (t : Leaf) : Quiet (fail cause t : Exec α) := by
  intro s stop u h
  cases h
  exact hcause

/-- A sequence of quiet computations is quiet. -/
lemma Quiet.bind (hact : Quiet act) (hnext : ∀ a, Quiet (next a)) : Quiet (act >>= next) := by
  intro s stop t h
  rcases bind_eq_error.mp h with h | ⟨a, u, -, h⟩
  · exact hact.not_isReturn h
  · exact (hnext a).not_isReturn h

/-- If a sequence stops in the way of a return statement and its first part does not, the second does. -/
lemma Quiet.ok_of_bind {s u : State} {stop : Stop} (hact : Quiet act) (hstop : stop.IsReturn)
    (h : (act >>= next) s = .error stop u) : ∃ a t, act s = .ok a t ∧ next a t = .error stop u :=
  (bind_eq_error.mp h).resolve_left fun h => hact.not_isReturn h hstop

/-- If a sequence stops in the way of a return statement, the part that it began with was of the right sort. -/
lemma exists_ok_of_part {result : Except Fault α} {s u : State} {stop : Stop} (hstop : stop.IsReturn)
    (h : (part result >>= next) s = .error stop u) : ∃ a, result = .ok a ∧ next a s = .error stop u := by
  cases result with
  | ok a => exact ⟨a, rfl, h⟩
  | error fault => exact absurd hstop ((quiet_part (.error fault)).not_isReturn h)

lemma quiet_get {next : State → Exec α} (h : ∀ s, Quiet (next s)) : Quiet (get >>= next) :=
  fun s stop t hrun => h s s stop t hrun

/-- Failing at a place is no return, even if the place is no token. -/
lemma quiet_failAt (hcause : cause ≠ .returnOutside) (place : Node) :
    Quiet (failAt cause place : Exec α) :=
  (quiet_part _).bind fun t => quiet_fail hcause t

/-- Counting arguments does not return. -/
lemma quiet_checkArity (callee : Value) (expected got : ℕ) (paren : Node) :
    Quiet (checkArity callee expected got paren) := by
  unfold checkArity
  split
  · exact quiet_failAt (by simp) paren
  · exact quiet_record _

/-- Looking up a name does not return. -/
lemma quiet_lookUp (t : Leaf) : Quiet (lookUp t) := by
  refine (quiet_part _).bind fun name => quiet_get fun s => ?_
  unfold Chain.read
  cases s.scopes.find? name with
  | some value => exact quiet_pure value
  | none => exact quiet_fail (by simp) t

/-- Assigning does not return. -/
lemma quiet_assign (t : Leaf) (value : Value) : Quiet (assign t value) := by
  refine (quiet_part _).bind fun name => quiet_get fun s => ?_
  unfold Chain.assign
  cases s.scopes.assign? name value with
  | some scopes =>
    intro u stop v h
    cases h
  | none => exact quiet_fail (by simp) t

/-- Declaring does not return. -/
lemma quiet_declare (t : Leaf) (value : Value) : Quiet (declare t value) := by
  refine (quiet_part _).bind fun name => quiet_get fun s => ?_
  unfold Chain.declare
  cases s.scopes.declare? name value with
  | some scopes =>
    intro u stop v h
    cases h
  | none => exact quiet_fail (by simp) t

/-- Binding the parameters of a call does not return. -/
lemma quiet_declareAll (params : List Node) (arguments : List Value) :
    Quiet (declareAll params arguments) := by
  intro s stop t h
  obtain ⟨before, p, after, u, -, -, h⟩ := forM_eq_error h
  exact ((quiet_part _).bind fun t => quiet_declare t p.2).not_isReturn h

/-- The result of an operator is no return, as no operator fails like one. -/
lemma quiet_result {operator : Leaf} {outcome : Except RuntimeCause Value}
    (h : outcome ≠ .error .returnOutside) : Quiet (result operator outcome) := by
  cases outcome with
  | ok value => exact quiet_pure value
  | error cause => exact quiet_fail (fun hcause => h (congrArg _ hcause)) operator

/-- Binary operators do not return. -/
lemma quiet_applyBinary (operator : Leaf) (a b : Value) : Quiet (applyBinary operator a b) := by
  refine quiet_result ?_
  unfold Operator.binary Operator.onNumbers
  repeat' split
  all_goals simp

/-- Unary operators do not return. -/
lemma quiet_applyUnary (operator : Leaf) (a : Value) : Quiet (applyUnary operator a) := by
  refine quiet_result ?_
  unfold Operator.unary
  repeat' split
  all_goals simp

end Exec

/-- A task is a return statement that stops: with the value that it returns, or, where no call is active,
with the complaint that there is nothing to return from. -/
def Task.Returns (task : Task) (s : State) (stop : Stop) : Prop :=
  ∃ keyword e, task = .execute (.returnStmt keyword e) ∧
    (s.callDepth = 0 ∧ (∃ t : Leaf, keyword = .token t ∧ stop = .failed ⟨.returnOutside, some t.place⟩) ∨
      s.callDepth ≠ 0 ∧ ∃ value, stop = .returned value)

/-- A task hands on what a task that it started has stopped with. -/
def Task.HandsOn (setting : Setting) (depth : ℕ) (task : Task) (s : State) (stop : Stop) : Prop :=
  ∃ task' s' t, Starts setting depth task s task' s' ∧ task'.perform setting depth s' = .error stop t ∧
    (task.isCall = true → ∀ value, stop ≠ .returned value)

section Origin

/-- What stops in a fresh scope stops when that scope has been opened. -/
lemma inFreshScope_eq_error {α : Type} {act : Exec α} (h : inFreshScope act s = .error stop t) :
    ∃ u, act { s with scopes := [] :: s.scopes } = .error stop u := by
  unfold inFreshScope at h
  cases hrun : act { s with scopes := [] :: s.scopes } with
  | ok a u => simp [hrun] at h
  | error stop' u =>
    rw [hrun] at h
    cases h
    exact ⟨u, rfl⟩

/-- If an expression that may be left out stops, then it is there. -/
lemma evaluate?_eq_error {e : Node} (h : evaluate? setting depth e s = .error stop t) :
    e ≠ .null ∧ evaluate setting depth e s = .error stop t := by
  cases e with
  | null => cases h
  | _ => exact ⟨nofun, h⟩

/-- If a statement that may be left out stops, then it is there. -/
lemma execute?_eq_error {stmt : Node} (h : execute? setting depth stmt s = .error stop t) :
    stmt ≠ .null ∧ execute setting depth stmt s = .error stop t := by
  cases stmt with
  | null => cases h
  | _ => exact ⟨nofun, h⟩

variable (hstop : stop.IsReturn)
include hstop

/-- A call does not return further what its body returns. -/
lemma asCall_eq_error {paren : Node} {body : Exec Unit} (h : asCall paren body s = .error stop t) :
    ∃ u, body { s with callDepth := s.callDepth + 1 } = .error stop u ∧
      ∀ value, stop ≠ .returned value := by
  unfold asCall at h
  cases hrun : body { s with callDepth := s.callDepth + 1 } with
  | ok _ u =>
    rw [hrun] at h
    cases h
  | error stop' u =>
    rw [hrun] at h
    cases stop' with
    | returned value => cases h
    | tooDeep => exact absurd hstop ((quiet_failAt (by simp) paren).not_isReturn h)
    | _ =>
      cases h
      exact ⟨u, rfl, by simp⟩

/-- An expression that stops in the way of a return statement has this from a task that it started. -/
lemma handsOn_of_evaluate {e : Node} (h : evaluate setting (depth + 1) e s = .error stop t) :
    (Task.evaluate e).HandsOn setting depth s stop := by
  have hdirect : ∀ {e' : Node} {s' t' : State}, Starts setting depth (.evaluate e) s (.evaluate e') s' →
      evaluate setting depth e' s' = .error stop t' → (Task.evaluate e).HandsOn setting depth s stop :=
    fun hstarts hrun => ⟨_, _, _, hstarts, map_eq_error.mpr hrun, by simp [Task.isCall]⟩
  cases e with
  | literal value => cases h
  | grouping e => exact hdirect .grouping h
  | ident name =>
    have hquiet := (quiet_part name.leaf?).bind quiet_lookUp
    exact absurd hstop (hquiet.not_isReturn h)
  | assign name e =>
    rcases bind_eq_error.mp h with h | ⟨value, u, -, h⟩
    · exact hdirect .assigned h
    · have hquiet := (quiet_part name.leaf?).bind fun t =>
        (quiet_assign t value).bind fun _ => quiet_pure value
      exact absurd hstop (hquiet.not_isReturn h)
  | unary operator e =>
    rcases bind_eq_error.mp h with h | ⟨a, u, -, h⟩
    · exact hdirect .operand h
    · have hquiet := (quiet_part operator.leaf?).bind fun t => quiet_applyUnary t a
      exact absurd hstop (hquiet.not_isReturn h)
  | logical left operator right =>
    rcases bind_eq_error.mp h with h | ⟨value, u, hleft, h⟩
    · exact hdirect .logicalLeft h
    · obtain ⟨t', hoperator, hrest⟩ := exists_ok_of_part hstop h
      cases operator with
      | token operator =>
        obtain rfl := Except.ok.inj hoperator
        split at hrest
        next => cases hrest
        next hopen => exact hdirect (.logicalRight hleft (by simpa using hopen)) hrest
      | _ => cases hoperator
  | binary left operator right =>
    rcases bind_eq_error.mp h with h | ⟨a, u, hleft, h⟩
    · exact hdirect .binaryLeft h
    · rcases bind_eq_error.mp h with h | ⟨b, v, -, h⟩
      · exact hdirect (.binaryRight hleft) h
      · have hquiet := (quiet_part operator.leaf?).bind fun t => quiet_applyBinary t a b
        exact absurd hstop (hquiet.not_isReturn h)
  | call callee paren arguments =>
    rcases bind_eq_error.mp h with h | ⟨f, u, hf, h⟩
    · exact hdirect .callee h
    · obtain ⟨items, hitems, hrest⟩ := exists_ok_of_part hstop h
      rcases bind_eq_error.mp hrest with hvalues | ⟨values, v, hvalues, hcall⟩
      · obtain ⟨before, e, after, bs, v, rfl, hbefore, he⟩ := mapM_eq_error hvalues
        exact hdirect (.argument hitems hf hbefore) he
      · exact ⟨_, _, _, .call hitems hf hvalues, map_eq_error.mpr hcall, by simp [Task.isCall]⟩
  | _ =>
    cases h
    exact hstop.elim

/-- A call that stops in the way of a return statement has this from a task that it started. -/
lemma handsOn_of_call {callee : Value} {args : List Value} {paren : Node}
    (h : call setting (depth + 1) callee args paren s = .error stop t) :
    (Task.call callee args paren).HandsOn setting depth s stop := by
  cases callee with
  | function f =>
    obtain ⟨params, hparams, hrest⟩ := exists_ok_of_part hstop h
    obtain ⟨_, v, harity, hbody⟩ := (quiet_checkArity _ _ _ paren).ok_of_bind hstop hrest
    obtain ⟨w, hfresh, hreturned⟩ := asCall_eq_error hstop hbody
    obtain ⟨x, hstatements⟩ := inFreshScope_eq_error hfresh
    obtain ⟨_, y, hdeclare, hitems⟩ := (quiet_declareAll params args).ok_of_bind hstop hstatements
    obtain ⟨body, hlist, hrun⟩ := exists_ok_of_part hstop hitems
    obtain ⟨before, stmt, after, z, rfl, hbefore, hstmt⟩ := forM_eq_error hrun
    refine ⟨_, _, _, .body hparams hlist harity ((bind_of_ok hdeclare).trans hbefore),
      map_eq_error.mpr hstmt, fun _ => hreturned⟩
  | clock =>
    obtain ⟨_, v, -, hread⟩ := (quiet_checkArity _ _ _ paren).ok_of_bind hstop h
    cases hread
  | nil | bool | number | string | tree =>
    exact absurd hstop ((quiet_failAt (by simp) paren).not_isReturn h)

/-- A statement that stops in the way of a return statement is one, or it has this from a task that it started.
-/
lemma returns_or_handsOn_of_execute {stmt : Node} (h : execute setting (depth + 1) stmt s = .error stop t) :
    (Task.execute stmt).Returns s stop ∨ (Task.execute stmt).HandsOn setting depth s stop := by
  have hexpression : ∀ {e : Node} {s' t' : State}, Starts setting depth (.execute stmt) s (.evaluate e) s' →
      evaluate setting depth e s' = .error stop t' → (Task.execute stmt).HandsOn setting depth s stop :=
    fun hstarts hrun => ⟨_, _, _, hstarts, map_eq_error.mpr hrun, by simp [Task.isCall]⟩
  have hstatement : ∀ {e : Node} {s' t' : State}, Starts setting depth (.execute stmt) s (.execute e) s' →
      execute setting depth e s' = .error stop t' → (Task.execute stmt).HandsOn setting depth s stop :=
    fun hstarts hrun => ⟨_, _, _, hstarts, map_eq_error.mpr hrun, by simp [Task.isCall]⟩
  cases stmt with
  | exprStmt e =>
    rcases bind_eq_error.mp h with h | ⟨value, u, -, h⟩
    · exact .inr (hexpression .exprStmt h)
    · cases h
  | printStmt e =>
    rcases bind_eq_error.mp h with h | ⟨value, u, -, h⟩
    · exact .inr (hexpression .printStmt h)
    · cases h
  | varDecl name initializer =>
    rw [execute_varDecl] at h
    rcases bind_eq_error.mp h with h | ⟨value, u, -, h⟩
    · obtain ⟨hnull, hvalue⟩ := evaluate?_eq_error h
      exact .inr (hexpression (.initializer hnull) hvalue)
    · -- What follows the initializer cannot stop in the way of a return statement.
      have hquiet := (quiet_part name.leaf?).bind fun t =>
        (quiet_declare t value).bind fun _ => quiet_record (.declared t.lexeme.inText value)
      exact absurd hstop (hquiet.not_isReturn h)
  | block statements =>
    obtain ⟨u, hstatements⟩ := inFreshScope_eq_error h
    obtain ⟨body, hitems, hrun⟩ := exists_ok_of_part hstop hstatements
    obtain ⟨before, stmt, after, v, rfl, hbefore, hstmt⟩ := forM_eq_error hrun
    exact .inr (hstatement (.block hitems hbefore) hstmt)
  | ifStmt condition thenBranch elseBranch =>
    rw [execute_ifStmt] at h
    rcases bind_eq_error.mp h with h | ⟨value, u, hcondition, h⟩
    · exact .inr (hexpression .ifCondition h)
    · by_cases htruthy : value.truthy = true
      · rw [if_pos htruthy] at h
        exact .inr (hstatement (.thenBranch hcondition htruthy) h)
      · rw [if_neg htruthy] at h
        obtain ⟨hnull, helse⟩ := execute?_eq_error h
        have hfalsy : value.truthy = false := by simpa using htruthy
        exact .inr (hstatement (.elseBranch hcondition hfalsy hnull) helse)
  | whileStmt condition body =>
    -- A loop that has no turns left is cut off, which is no return.
    have hcut : stop ≠ .outOfTurns := by
      rintro rfl
      exact hstop
    obtain ⟨u, hturns, htest | ⟨m, htest, hbody⟩⟩ := repeatWhile_eq_error h hcut
    · rcases bind_eq_error.mp htest with htest | ⟨value, v, -, htest⟩
      · exact .inr (hexpression (.whileCondition hturns) htest)
      · cases htest
    · exact .inr (hstatement (.whileBody hturns htest) hbody)
  | funDecl name params body =>
    obtain ⟨t', -, hmake⟩ := exists_ok_of_part hstop h
    have hquiet := (quiet_makeFunction t'.lexeme.inText params body).bind fun f =>
      (quiet_declare t' f).bind fun _ => quiet_record (.defined t'.lexeme.inText)
    exact absurd hstop (hquiet.not_isReturn hmake)
  | returnStmt keyword e =>
    rw [execute_returnStmt] at h
    split at h
    next hnone =>
      obtain ⟨t', hkeyword, hfail⟩ := exists_ok_of_part hstop h
      cases keyword with
      | token t =>
        cases hfail
        cases hkeyword
        exact .inl ⟨_, e, rfl, .inl ⟨hnone, _, rfl, rfl⟩⟩
      | _ => cases hkeyword
    next hactive =>
      rcases bind_eq_error.mp h with hvalue | ⟨value, u, -, hthrow⟩
      · obtain ⟨hnull, hvalue⟩ := evaluate?_eq_error hvalue
        exact .inr (hexpression (.returned hactive hnull) hvalue)
      · cases hthrow
        exact .inl ⟨keyword, e, rfl, .inr ⟨hactive, value, rfl⟩⟩
  | _ =>
    cases h
    exact hstop.elim

/-- A task that stops in the way of a return statement is that statement or has this from a task that it
started. -/
theorem Task.returns_or_handsOn (h : task.perform setting (depth + 1) s = .error stop t) :
    task.Returns s stop ∨ task.HandsOn setting depth s stop := by
  cases task with
  | evaluate e => exact .inr (handsOn_of_evaluate hstop (map_eq_error.mp h))
  | call callee args paren => exact .inr (handsOn_of_call hstop (map_eq_error.mp h))
  | execute stmt => exact returns_or_handsOn_of_execute hstop (map_eq_error.mp h)

end Origin

end Scriptlet
