import Scriptlet.Proofs.Likeness
import Scriptlet.Proofs.Unwinding

/-!
# Where functions come from

The functions that a run has to do with were there before, or they are made by declarations that the run comes to
execute.  Values are passed on, assigned, returned and looked up, but never made up: a property that the functions
have which are there at the beginning, and which every declaration gives to the function that it makes, is a property
of all functions that the run ever handles (`Task.draws`, `Reached.given`, `draws_run`).

Besides, no function is ever unmade: the count of the functions made only grows.
-/

namespace Scriptlet

open Exec

/-! ## Values that are drawn from given functions -/

/-- A value is no function of a script, or one that has a property. -/
def Value.From (P : UserFunction → Prop) : Value → Prop
  | function f => P f
  | _ => True

/-- All values are drawn from all functions. -/
lemma Value.from_true (v : Value) : v.From fun _ => True := by
  cases v <;> trivial

/-- The values that a task is given. -/
def Task.values : Task → List Value
  | call callee args _ => callee :: args
  | _ => []

/-- What a computation stops with. -/
def Stop.From (P : UserFunction → Prop) : Stop → Prop
  | returned value => value.From P
  | _ => True

namespace Exec

variable {α β : Type}

/-- How a computation ends that begins when so many functions are made: with functions of the property, and with no
fewer functions made. -/
def Yields (P : UserFunction → Prop) (made : ℕ) (post : α → Prop) : EStateM.Result Stop State α → Prop
  | .ok a t => post a ∧ t.scopes.All (Value.From P) ∧ made ≤ t.made
  | .error stop t => stop.From P ∧ t.scopes.All (Value.From P) ∧ made ≤ t.made

/-- If the functions in the scopes of a state have the property, then a computation has to do with such functions
only. -/
def Draws (P : UserFunction → Prop) (s : State) (act : Exec α) (post : α → Prop) : Prop :=
  s.scopes.All (Value.From P) → Yields P s.made post (act s)

variable {P : UserFunction → Prop} {post : α → Prop} {last : β → Prop} {act : Exec α} {s : State}

lemma Yields.mono {made made' : ℕ} {outcome : EStateM.Result Stop State α} (h : Yields P made post outcome)
    (hle : made' ≤ made) : Yields P made' post outcome := by
  cases outcome with
  | ok a t => exact ⟨h.1, h.2.1, hle.trans h.2.2⟩
  | error stop t => exact ⟨h.1, h.2.1, hle.trans h.2.2⟩

/-- However a computation ends. -/
lemma Draws.final (h : Draws P s act post) (hs : s.scopes.All (Value.From P)) :
    (final (act s)).scopes.All (Value.From P) ∧ s.made ≤ (final (act s)).made := by
  have hact := h hs
  cases hrun : act s with
  | ok a t =>
    rw [hrun] at hact
    exact hact.2
  | error stop t =>
    rw [hrun] at hact
    exact hact.2

/-- What a computation gives in the end, and what it leaves in the scopes, is drawn from functions of the
property. -/
lemma Draws.of_ok (h : Draws P s act post) (hs : s.scopes.All (Value.From P)) {a : α} {t : State}
    (hrun : act s = .ok a t) : post a ∧ t.scopes.All (Value.From P) ∧ s.made ≤ t.made := by
  have hact := h hs
  rw [hrun] at hact
  exact hact

/-- What a stop hands over is drawn from functions of the property. -/
lemma Draws.of_error (h : Draws P s act post) (hs : s.scopes.All (Value.From P)) {stop : Stop} {t : State}
    (hrun : act s = .error stop t) : stop.From P := by
  have hact := h hs
  rw [hrun] at hact
  exact hact.1

/-- A computation that goes on after another one does so from the state that this one leaves. -/
lemma Draws.bind {next : α → Exec β} (h : Draws P s act post)
    (hnext : ∀ a t, act s = .ok a t → post a → Draws P t (next a) last) : Draws P s (act >>= next) last := by
  intro hs
  have hact := h hs
  rw [bind_apply]
  cases hrun : act s with
  | error stop t =>
    rw [hrun] at hact
    exact hact
  | ok a t =>
    rw [hrun] at hact
    obtain ⟨ha, ht, hle⟩ := hact
    exact (hnext a t hrun ha ht).mono hle

lemma draws_map {f : α → β} : Draws P s (f <$> act) last ↔ Draws P s act fun a => last (f a) := by
  unfold Draws
  rw [← bind_pure_comp, bind_apply]
  cases act s <;> rfl

lemma draws_pure {a : α} (h : post a) : Draws P s (pure a) post :=
  fun hs => ⟨h, hs, le_rfl⟩

/-- Stopping draws what the stop holds. -/
lemma draws_throw {stop : Stop} (h : stop.From P) : Draws P s (throw stop : Exec α) post :=
  fun hs => ⟨h, hs, le_rfl⟩

/-- Recording an event draws nothing. -/
lemma draws_record (event : Event) : Draws P s (record event) fun _ => True :=
  fun hs => ⟨trivial, hs, le_rfl⟩

/-- Looking at a part of a tree draws nothing. -/
lemma draws_part (result : Except Fault α) : Draws P s (part result) fun _ => True := by
  cases result with
  | ok a => exact draws_pure trivial
  | error fault => exact draws_throw trivial

/-- Failing draws nothing. -/
lemma draws_fail (cause : RuntimeCause) (t : Leaf) : Draws P s (fail cause t : Exec α) post :=
  draws_throw trivial

/-- Failing at a place draws nothing. -/
lemma draws_failAt (cause : RuntimeCause) (place : Node) : Draws P s (failAt cause place : Exec α) post :=
  (draws_part _).bind fun t _ _ _ => draws_fail cause t

/-- Counting arguments draws nothing. -/
lemma draws_checkArity (callee : Value) (expected got : ℕ) (paren : Node) :
    Draws P s (checkArity callee expected got paren) fun _ => True := by
  unfold checkArity
  split
  · exact draws_failAt _ paren
  · exact draws_record _

/-- The clock shows a number, and no function. -/
lemma draws_readClock (clock : ℕ → Float) : Draws P s (readClock clock) (Value.From P) :=
  fun hs => ⟨trivial, hs, le_rfl⟩

/-- Operators give no functions. -/
lemma draws_result {operator : Leaf} {outcome : Except RuntimeCause Value}
    (h : ∀ {v}, outcome = .ok v → v.IsPlain) : Draws P s (result operator outcome) (Value.From P) := by
  cases outcome with
  | ok v =>
    refine draws_pure ?_
    cases h rfl <;> trivial
  | error cause => exact draws_fail cause operator

/-- A new function is drawn if it has the property. -/
lemma draws_makeFunction {name : String} {params body : Node} (h : P ⟨s.made, name, params, body⟩) :
    Draws P s (makeFunction name params body) (Value.From P) :=
  fun hs => ⟨h, hs, Nat.le_succ _⟩

/-! ## Variables -/

/-- Looking up a name gives what is in the scopes. -/
lemma draws_lookUp (t : Leaf) : Draws P s (lookUp t) (Value.From P) := by
  refine (draws_part _).bind fun name u _ _ hu => ?_
  rw [get_bind]
  cases hread : u.scopes.read name with
  | ok value => exact ⟨hu.read hread, hu, le_rfl⟩
  | error cause => exact draws_fail cause t hu

/-- Assigning puts into the scopes what is assigned. -/
lemma draws_assign {t : Leaf} {value : Value} (h : value.From P) :
    Draws P s (assign t value) fun _ => True := by
  refine (draws_part _).bind fun name u _ _ hu => ?_
  rw [get_bind]
  cases hassign : u.scopes.assign name value with
  | ok scopes => exact ⟨trivial, hu.assign h hassign, le_rfl⟩
  | error cause => exact draws_fail cause t hu

/-- Declaring puts into the scopes what is declared. -/
lemma draws_declare {t : Leaf} {value : Value} (h : value.From P) :
    Draws P s (declare t value) fun _ => True := by
  refine (draws_part _).bind fun name u _ _ hu => ?_
  rw [get_bind]
  cases hdeclare : u.scopes.declare name value with
  | ok scopes => exact ⟨trivial, hu.declare h hdeclare, le_rfl⟩
  | error cause => exact draws_fail cause t hu

/-! ## Sequences, scopes and calls -/

/-- Computations one after the other draw what each of them draws from where those before it have led. -/
lemma draws_forM {f : α → Exec Unit} {as : List α}
    (h : ∀ before a after t, as = before ++ a :: after → before.forM f s = .ok () t →
      Draws P t (f a) fun _ => True) : Draws P s (as.forM f) fun _ => True := by
  induction as generalizing s with
  | nil => exact draws_pure trivial
  | cons a as ih =>
    refine (h [] a as s rfl rfl).bind fun _ t ha _ => ih fun before b after u hsplit hbefore => ?_
    have hall : (a :: before).forM f s = .ok () u := (bind_of_ok ha).trans hbefore
    exact h (a :: before) b after u (congrArg (a :: ·) hsplit) hall

/-- Computations of values draw what each of them draws from where those before it have led. -/
lemma draws_mapM {f : α → Exec β} {as : List α}
    (h : ∀ before a after bs t, as = before ++ a :: after → before.mapM f s = .ok bs t →
      Draws P t (f a) last) : Draws P s (as.mapM f) fun bs => ∀ b ∈ bs, last b := by
  induction as generalizing s with
  | nil => exact draws_pure (List.forall_mem_nil _)
  | cons a as ih =>
    rw [List.mapM_cons]
    refine (h [] a as [] s rfl rfl).bind fun b t ha hb => ?_
    have hrest : Draws P t (as.mapM f) fun bs => ∀ b ∈ bs, last b := by
      refine ih fun before c after bs u hsplit hbefore => ?_
      exact h (a :: before) c after (b :: bs) u (congrArg (a :: ·) hsplit) (mapM_cons_of_ok ha hbefore)
    exact hrest.bind fun bs u _ hbs => draws_pure (List.forall_mem_cons.mpr ⟨hb, hbs⟩)

/-- A loop draws what its condition and its body draw wherever its turns lead. -/
lemma draws_repeatWhile {test : Exec Bool} {body : Exec Unit}
    (htest : ∀ t, Relation.ReflTransGen (Turn test body) s t → Draws P t test fun _ => True)
    (hbody : ∀ t m, Relation.ReflTransGen (Turn test body) s t → test t = .ok true m →
      Draws P m body fun _ => True) (turns : ℕ) : Draws P s (repeatWhile test body turns) fun _ => True := by
  induction turns generalizing s with
  | zero => exact draws_throw trivial
  | succ turns ih =>
    refine (htest s .refl).bind fun b m hm _ => ?_
    cases b with
    | true =>
      refine (hbody s m .refl hm).bind fun _ t ht _ => ?_
      have hturn : Turn test body s t := ⟨m, hm, ht⟩
      exact ih (fun u hturns => htest u (.head hturn hturns)) fun u v hturns => hbody u v (.head hturn hturns)
    | false => exact draws_pure trivial

/-- Binding parameters puts the arguments into the scopes. -/
lemma draws_declareAll (params : List Node) {args : List Value} (h : ∀ v ∈ args, v.From P) :
    Draws P s (declareAll params args) fun _ => True := by
  refine draws_forM fun before p after t hsplit _ => (draws_part _).bind fun leaf u _ _ => draws_declare ?_
  have hmem : p ∈ params.zip args := by simp [hsplit]
  exact h p.2 (List.of_mem_zip hmem).2

/-- A scope that is opened is empty, and dropping it loses nothing of the others. -/
lemma draws_inFreshScope (h : Draws P { s with scopes := [] :: s.scopes } act post) :
    Draws P s (inFreshScope act) post := by
  intro hs
  have hdrop : ∀ {chain : Chain}, chain.All (Value.From P) → Chain.All (Value.From P) chain.tail :=
    fun hchain frame hmem => hchain frame (List.mem_of_mem_tail hmem)
  have hact := h (List.forall_mem_cons.mpr ⟨List.forall_mem_nil _, hs⟩)
  unfold inFreshScope
  cases hrun : act { s with scopes := [] :: s.scopes } with
  | ok a t =>
    rw [hrun] at hact
    exact ⟨hact.1, hdrop hact.2.1, hact.2.2⟩
  | error stop t =>
    rw [hrun] at hact
    exact ⟨hact.1, hdrop hact.2.1, hact.2.2⟩

/-- A call takes what its body returns. -/
lemma draws_asCall (paren : Node) {body : Exec Unit}
    (h : Draws P { s with callDepth := s.callDepth + 1 } body fun _ => True) :
    Draws P s (asCall paren body) (Value.From P) := by
  intro hs
  have hbody := h hs
  unfold asCall
  cases hrun : body { s with callDepth := s.callDepth + 1 } with
  | ok u t =>
    rw [hrun] at hbody
    exact ⟨trivial, hbody.2⟩
  | error stop t =>
    rw [hrun] at hbody
    obtain ⟨hstop, ht, hle⟩ := hbody
    cases stop with
    | returned value => exact ⟨hstop, ht, hle⟩
    | tooDeep =>
      have hfail : Draws P { t with callDepth := t.callDepth - 1 } (failAt .callsTooDeep paren : Exec Value)
          (Value.From P) := draws_failAt _ paren
      exact (hfail ht).mono hle
    | failed _ | fault _ | outOfTurns => exact ⟨trivial, ht, hle⟩

end Exec

/-! ## Tasks -/

section Step

variable {P : UserFunction → Prop} {setting : Setting} {depth : ℕ} {s : State}

/-- A task draws its functions from those that it is given, which are in the scopes or passed to it. -/
def Task.Draws (P : UserFunction → Prop) (setting : Setting) (depth : ℕ) (task : Task) (s : State) : Prop :=
  (∀ v ∈ task.values, v.From P) →
    Exec.Draws P s (task.perform setting depth) fun value? => ∀ v ∈ value?, v.From P

/-- The task of evaluating an expression draws as the evaluation does. -/
lemma draws_evaluate {e : Node} : (Task.evaluate e).Draws P setting depth s ↔
    Exec.Draws P s (evaluate setting depth e) (Value.From P) := by
  unfold Task.Draws Task.perform
  rw [draws_map]
  simp [Task.values]

/-- The task of executing a statement draws as the execution does. -/
lemma draws_execute {stmt : Node} : (Task.execute stmt).Draws P setting depth s ↔
    Exec.Draws P s (execute setting depth stmt) fun _ => True := by
  unfold Task.Draws Task.perform
  rw [draws_map]
  simp [Task.values]

/-- The task of a call draws as the call does, if its callee and its arguments are given. -/
lemma draws_call {callee : Value} {args : List Value} {paren : Node} :
    (Task.call callee args paren).Draws P setting depth s ↔
      (callee.From P → (∀ v ∈ args, v.From P) →
        Exec.Draws P s (call setting depth callee args paren) (Value.From P)) := by
  unfold Task.Draws Task.perform
  rw [draws_map]
  simp [Task.values]

section Parts

variable {task : Task}
  (hstarts : ∀ {task' s'}, Starts setting depth task s task' s' → task'.Draws P setting depth s')

include hstarts

/-- The arguments of a call are evaluated after its callee. -/
lemma draws_arguments {callee paren arguments : Node} (htask : task = .evaluate (.call callee paren arguments))
    {before rest : List Node} {f : Value} {t : State} (hitems : arguments.items? = .ok (before ++ rest))
    (hf : evaluate setting depth callee s = .ok f t) :
    Exec.Draws P t (before.mapM (evaluate setting depth)) fun values => ∀ v ∈ values, v.From P := by
  subst htask
  refine draws_mapM fun first e after values u hsplit hvalues => draws_evaluate.mp (hstarts ?_)
  rw [hsplit, List.append_assoc] at hitems
  exact .argument hitems hf hvalues

/-- The statements of a body are executed after the parameters are declared. -/
lemma draws_body {f : UserFunction} {args : List Value} {paren : Node} (htask : task = .call (.function f) args paren)
    {params before rest : List Node} {t u : State} (hparams : f.params.items? = .ok params)
    (hbody : f.body.items? = .ok (before ++ rest))
    (harity : checkArity (.function f) params.length args.length paren s = .ok () t)
    (hdeclared : declareAll params args { t with scopes := [] :: t.scopes, callDepth := t.callDepth + 1 } =
      .ok () u) : Exec.Draws P u (before.forM (execute setting depth)) fun _ => True := by
  subst htask
  refine draws_forM fun first stmt after v hsplit hfirst => draws_execute.mp (hstarts ?_)
  rw [hsplit, List.append_assoc] at hbody
  exact .body hparams hbody harity ((bind_of_ok hdeclared).trans hfirst)

/-- The first statements of a block draw what tasks draw that the block starts. -/
lemma draws_block {statements : Node} (htask : task = .execute (.block statements)) {before rest : List Node}
    (hitems : statements.items? = .ok (before ++ rest)) :
    Exec.Draws P { s with scopes := [] :: s.scopes } (before.forM (execute setting depth)) fun _ => True := by
  subst htask
  refine draws_forM fun first stmt after t hsplit hfirst => draws_execute.mp (hstarts ?_)
  rw [hsplit, List.append_assoc] at hitems
  exact .block hitems hfirst

/-- After any turns of a loop its test draws as its condition does. -/
lemma draws_whileTest {condition body : Node} (htask : task = .execute (.whileStmt condition body)) {t : State}
    (hturns : Relation.ReflTransGen (WhileTurn setting depth condition body) s t) :
    Exec.Draws P t (whileTest setting depth condition) fun _ => True := by
  subst htask
  refine (draws_evaluate.mp (hstarts (.whileCondition hturns))).bind fun value u _ _ => ?_
  exact (draws_record _).bind fun _ _ _ _ => draws_pure trivial

/-- Any turns of a loop leave only functions of the property in the scopes, and unmake none. -/
lemma draws_turns {condition body : Node} (htask : task = .execute (.whileStmt condition body)) {t : State}
    (hs : s.scopes.All (Value.From P))
    (hturns : Relation.ReflTransGen (WhileTurn setting depth condition body) s t) :
    t.scopes.All (Value.From P) ∧ s.made ≤ t.made := by
  induction hturns with
  | refl => exact ⟨hs, le_rfl⟩
  | tail hbefore hturn ih =>
    obtain ⟨ht, hle⟩ := ih
    obtain ⟨m, htest, hbody⟩ := hturn
    obtain ⟨-, hm, hlem⟩ := (draws_whileTest hstarts htask hbefore).of_ok ht htest
    have hbegun : Starts setting depth task s (.execute body) m := htask ▸ .whileBody hbefore htest
    obtain ⟨-, hu, hleu⟩ := (draws_execute.mp (hstarts hbegun)).of_ok hm hbody
    exact ⟨hu, hle.trans (hlem.trans hleu)⟩

end Parts

/-- Evaluating an expression draws functions as the tasks do that it starts. -/
lemma draws_evaluate_succ {e : Node}
    (hstarts : ∀ {task' s'}, Starts setting depth (.evaluate e) s task' s' → task'.Draws P setting depth s') :
    Exec.Draws P s (evaluate setting (depth + 1) e) (Value.From P) := by
  have hevaluate : ∀ {e' s'}, Starts setting depth (.evaluate e) s (.evaluate e') s' →
      Exec.Draws P s' (evaluate setting depth e') (Value.From P) := fun h => draws_evaluate.mp (hstarts h)
  cases e with
  | literal value =>
    refine draws_pure ?_
    unfold Value.ofNode
    split <;> trivial
  | grouping e => exact hevaluate .grouping
  | ident name => exact (draws_part _).bind fun t _ _ _ => draws_lookUp t
  | assign name e =>
    refine (hevaluate .assigned).bind fun value t _ hvalue => (draws_part _).bind fun leaf u _ _ => ?_
    exact (draws_assign hvalue).bind fun _ _ _ _ => draws_pure hvalue
  | unary operator e =>
    refine (hevaluate .operand).bind fun a t _ _ => (draws_part _).bind fun leaf u _ _ => ?_
    exact draws_result Operator.isPlain_of_unary
  | logical left operator right =>
    refine (hevaluate .logicalLeft).bind fun value t hleft hvalue => ?_
    refine (draws_part _).bind fun leaf u hpart _ => ?_
    obtain ⟨hleaf, rfl⟩ := part_eq_ok.mp hpart
    obtain rfl := Node.leaf?_eq_ok.mp hleaf
    split
    next => exact draws_pure hvalue
    next hopen => exact hevaluate (.logicalRight hleft (by simpa using hopen))
  | binary left operator right =>
    refine (hevaluate .binaryLeft).bind fun a t ha _ => (hevaluate (.binaryRight ha)).bind fun b u _ _ => ?_
    exact (draws_part _).bind fun leaf _ _ _ => draws_result Operator.isPlain_of_binary
  | call callee paren arguments =>
    refine (hevaluate .callee).bind fun f t hf hfrom => (draws_part _).bind fun items u hpart _ => ?_
    obtain ⟨hitems, rfl⟩ := part_eq_ok.mp hpart
    have hsplit : arguments.items? = .ok (items ++ []) := by rw [hitems, List.append_nil]
    refine (draws_arguments hstarts rfl hsplit hf).bind fun args v hargs hvalues => ?_
    exact draws_call.mp (hstarts (.call hitems hf hargs)) hfrom hvalues
  | _ => exact draws_throw trivial

/-- A call draws functions as the tasks do that it starts. -/
lemma draws_call_succ {callee : Value} {args : List Value} {paren : Node} (hargs : ∀ v ∈ args, v.From P)
    (hstarts : ∀ {task' s'}, Starts setting depth (.call callee args paren) s task' s' →
      task'.Draws P setting depth s') :
    Exec.Draws P s (call setting (depth + 1) callee args paren) (Value.From P) := by
  cases callee with
  | function f =>
    refine (draws_part _).bind fun params t hpart _ => ?_
    obtain ⟨hparams, rfl⟩ := part_eq_ok.mp hpart
    refine (draws_checkArity _ _ _ paren).bind fun _ t harity _ => ?_
    refine draws_asCall paren (draws_inFreshScope ?_)
    refine (draws_declareAll params hargs).bind fun _ u hdeclared _ => (draws_part _).bind fun body v hpart _ => ?_
    obtain ⟨hbody, rfl⟩ := part_eq_ok.mp hpart
    have hsplit : f.body.items? = .ok (body ++ []) := by rw [hbody, List.append_nil]
    exact draws_body hstarts rfl hparams hsplit harity hdeclared
  | clock => exact (draws_checkArity _ _ _ paren).bind fun _ _ _ _ => draws_readClock _
  | _ => exact draws_failAt _ paren

/-- Executing a statement draws functions as the tasks do that it starts, and the function that it declares, if
any. -/
lemma draws_execute_succ {stmt : Node}
    (hstarts : ∀ {task' s'}, Starts setting depth (.execute stmt) s task' s' → task'.Draws P setting depth s')
    (hmakes : ∀ {t params body}, stmt = .funDecl (.token t) params body →
      P ⟨s.made, t.lexeme.inText, params, body⟩) :
    Exec.Draws P s (execute setting (depth + 1) stmt) fun _ => True := by
  have hevaluate : ∀ {e s'}, Starts setting depth (.execute stmt) s (.evaluate e) s' →
      Exec.Draws P s' (evaluate setting depth e) (Value.From P) := fun h => draws_evaluate.mp (hstarts h)
  have hexecute : ∀ {stmt' s'}, Starts setting depth (.execute stmt) s (.execute stmt') s' →
      Exec.Draws P s' (execute setting depth stmt') fun _ => True := fun h => draws_execute.mp (hstarts h)
  have hevaluate? : ∀ {e}, (e ≠ .null → Starts setting depth (.execute stmt) s (.evaluate e) s) →
      Exec.Draws P s (evaluate? setting depth e) (Value.From P) := by
    intro e hbegun
    unfold evaluate?
    split
    next => exact draws_pure trivial
    next hnull => exact hevaluate (hbegun hnull)
  cases stmt with
  | exprStmt e => exact (hevaluate .exprStmt).bind fun _ _ _ _ => draws_pure trivial
  | printStmt e => exact (hevaluate .printStmt).bind fun value _ _ _ => draws_record _
  | varDecl name initializer =>
    rw [execute_varDecl]
    refine (hevaluate? .initializer).bind fun value t _ hvalue => (draws_part _).bind fun leaf u _ _ => ?_
    exact (draws_declare hvalue).bind fun _ _ _ _ => draws_record _
  | block statements =>
    refine draws_inFreshScope ((draws_part _).bind fun body t hpart _ => ?_)
    obtain ⟨hitems, rfl⟩ := part_eq_ok.mp hpart
    have hsplit : statements.items? = .ok (body ++ []) := by rw [hitems, List.append_nil]
    exact draws_block hstarts rfl hsplit
  | ifStmt condition thenBranch elseBranch =>
    rw [execute_ifStmt]
    refine (hevaluate .ifCondition).bind fun value t hcondition _ => (draws_record _).bind fun _ u hrecord _ => ?_
    cases hrecord
    split
    next htruthy => exact hexecute (.thenBranch hcondition htruthy)
    next hfalsy =>
      unfold execute?
      split
      next => exact draws_pure trivial
      next hnull =>
        have hno : value.truthy = false := by simpa using hfalsy
        exact hexecute (.elseBranch hcondition hno hnull)
  | whileStmt condition body =>
    -- The turns made so far are part of what the loop starts, so no induction on them is needed.
    exact draws_repeatWhile (fun t hturns => draws_whileTest hstarts rfl hturns)
      (fun t m hturns htest => hexecute (.whileBody hturns htest)) _
  | funDecl name params body =>
    refine (draws_part _).bind fun leaf t hpart _ => ?_
    obtain ⟨hleaf, rfl⟩ := part_eq_ok.mp hpart
    obtain rfl := Node.leaf?_eq_ok.mp hleaf
    refine (draws_makeFunction (hmakes rfl)).bind fun f t _ hf => ?_
    exact (draws_declare hf).bind fun _ _ _ _ => draws_record _
  | returnStmt keyword e =>
    intro hs
    rw [execute_returnStmt]
    split
    next => exact draws_failAt (.returnOutside) keyword hs
    next hactive => exact (hevaluate? (.returned hactive)).bind (fun value _ _ hvalue => draws_throw hvalue) hs
  | _ => exact draws_throw trivial

/-- A task draws its functions from those that it is given and those that it makes, if the tasks that it starts
do. -/
theorem Task.draws_succ {task : Task}
    (hstarts : ∀ {task' s'}, Starts setting depth task s task' s' → task'.Draws P setting depth s')
    (hmakes : ∀ {t params body}, task = .execute (.funDecl (.token t) params body) →
      P ⟨s.made, t.lexeme.inText, params, body⟩) : task.Draws P setting (depth + 1) s := by
  cases task with
  | evaluate e => exact draws_evaluate.mpr (draws_evaluate_succ hstarts)
  | call callee args paren => exact draws_call.mpr fun _ hargs => draws_call_succ hargs hstarts
  | execute stmt => exact draws_execute.mpr (draws_execute_succ hstarts fun hstmt => hmakes (congrArg _ hstmt))

/-- All functions that a task has to do with are given to it, or made by the declarations that it comes to
execute. -/
theorem Task.draws {task : Task}
    (hmakes : ∀ {d t params body s'}, LeadsTo setting depth task s (d + 1)
      (.execute (.funDecl (.token t) params body)) s' → P ⟨s'.made, t.lexeme.inText, params, body⟩) :
    task.Draws P setting depth s := by
  -- by induction on the nesting that is left: what a started task leads to, the task itself leads to
  induction depth generalizing task s with
  | zero =>
    intro _ hs
    cases task <;> exact ⟨trivial, hs, le_rfl⟩
  | succ depth ih =>
    refine Task.draws_succ (fun hbegun => ih fun hleads => hmakes (.head hbegun hleads)) fun htask => ?_
    subst htask
    exact hmakes .refl

/-- A task that is started is given functions from those of the task that starts it, and begins where no fewer
functions are made. -/
theorem Starts.given {task task' : Task} {s' : State} (h : Starts setting depth task s task' s')
    (hstarts : ∀ {task' s'}, Starts setting depth task s task' s' → task'.Draws P setting depth s')
    (hvalues : ∀ v ∈ task.values, v.From P) (hs : s.scopes.All (Value.From P)) :
    (∀ v ∈ task'.values, v.From P) ∧ s'.scopes.All (Value.From P) ∧ s.made ≤ s'.made := by
  have hvalue : ∀ {e value t u}, Starts setting depth task s (.evaluate e) t → t.scopes.All (Value.From P) →
      evaluate setting depth e t = .ok value u →
      value.From P ∧ u.scopes.All (Value.From P) ∧ t.made ≤ u.made :=
    fun hbegun ht hrun => (draws_evaluate.mp (hstarts hbegun)).of_ok ht hrun
  cases h with
  | logicalRight hleft _ => exact ⟨nofun, (hvalue .logicalLeft hs hleft).2⟩
  | binaryRight hleft => exact ⟨nofun, (hvalue .binaryLeft hs hleft).2⟩
  | argument hitems hf hargs =>
    obtain ⟨-, ht, hle⟩ := hvalue .callee hs hf
    obtain ⟨-, hu, hleu⟩ := (draws_arguments hstarts rfl hitems hf).of_ok ht hargs
    exact ⟨nofun, hu, hle.trans hleu⟩
  | @call callee paren arguments items f values s t u hitems hf hargs =>
    have hsplit : arguments.items? = .ok (items ++ []) := by rw [hitems, List.append_nil]
    obtain ⟨hfrom, ht, hle⟩ := hvalue .callee hs hf
    obtain ⟨hall, hu, hleu⟩ := (draws_arguments hstarts rfl hsplit hf).of_ok ht hargs
    exact ⟨List.forall_mem_cons.mpr ⟨hfrom, hall⟩, hu, hle.trans hleu⟩
  | @body f args paren stmt params before after s t u hparams hbody harity hbefore =>
    have hargs := (List.forall_mem_cons.mp hvalues).2
    have hcounted := (draws_checkArity (.function f) params.length args.length paren).of_ok hs harity
    have hopening : Exec.Draws P { t with scopes := [] :: t.scopes, callDepth := t.callDepth + 1 }
        (do declareAll params args; before.forM (execute setting depth)) fun _ => True :=
      (draws_declareAll params hargs).bind fun _ _ hdeclared _ =>
        draws_body hstarts rfl hparams hbody harity hdeclared
    obtain ⟨-, ht, hle⟩ := hcounted
    obtain ⟨-, hu, hleu⟩ := hopening.of_ok (List.forall_mem_cons.mpr ⟨List.forall_mem_nil _, ht⟩) hbefore
    exact ⟨nofun, hu, hle.trans hleu⟩
  | block hitems hbefore =>
    have hfresh := List.forall_mem_cons.mpr ⟨List.forall_mem_nil _, hs⟩
    exact ⟨nofun, ((draws_block hstarts rfl hitems).of_ok hfresh hbefore).2⟩
  | thenBranch hcondition _ | elseBranch hcondition _ _ => exact ⟨nofun, (hvalue .ifCondition hs hcondition).2⟩
  | whileCondition hturns => exact ⟨nofun, draws_turns hstarts rfl hs hturns⟩
  | whileBody hturns htest =>
    obtain ⟨ht, hle⟩ := draws_turns hstarts rfl hs hturns
    obtain ⟨-, hu, hleu⟩ := (draws_whileTest hstarts rfl hturns).of_ok ht htest
    exact ⟨nofun, hu, hle.trans hleu⟩
  | _ => exact ⟨nofun, hs, le_rfl⟩

end Step

/-! ## Runs -/

section Runs

variable {P : UserFunction → Prop} {setting : Setting} {statements : List Node} {start : State}

/-- Turning the nesting limit into an error of the program draws nothing. -/
lemma draws_outermost {act : Exec Unit} {s : State} (h : Exec.Draws P s act fun _ => True) :
    Exec.Draws P s (outermost act) fun _ => True := by
  intro hs
  have hact := h hs
  unfold outermost
  cases hrun : act s with
  | ok u t =>
    rw [hrun] at hact
    exact hact
  | error stop t =>
    rw [hrun] at hact
    cases stop with
    | tooDeep => exact ⟨trivial, hact.2⟩
    | _ => exact hact

/-- What a task leads to that a run comes to, the run comes to. -/
lemma Reached.leadsTo {depth d : ℕ} {task task' : Task} {s s' : State}
    (h : Reached setting statements start depth task s) (hleads : LeadsTo setting depth task s d task' s') :
    Reached setting statements start d task' s' := by
  induction hleads with
  | refl => exact h
  | tail _ hstarts ih => exact .task ih hstarts

variable (hmakes : ∀ {d t params body s}, Reached setting statements start (d + 1)
  (.execute (.funDecl (.token t) params body)) s → P ⟨s.made, t.lexeme.inText, params, body⟩)

include hmakes

/-- A task that a run comes to draws its functions from those that it is given and those that the run makes. -/
lemma Reached.draws {depth : ℕ} {task : Task} {s : State} (h : Reached setting statements start depth task s) :
    task.Draws P setting depth s :=
  Task.draws fun hleads => hmakes (h.leadsTo hleads)

/-- The first statements of a program draw what the tasks draw that the run comes to. -/
lemma draws_statements {before rest : List Node} {s : State} (hsplit : statements = before ++ rest)
    (hstart : record .runStart start = .ok () s) :
    Exec.Draws P s (before.forM (execute setting setting.depth)) fun _ => True := by
  refine draws_forM fun first stmt after t hbefore hfirst => draws_execute.mp (Reached.draws hmakes ?_)
  rw [hbefore, List.append_assoc] at hsplit
  exact .statement hsplit ((bind_of_ok hstart).trans hfirst)

/-- A task that a run comes to is given functions that were there when the run began, or that it has made. -/
theorem Reached.given {depth : ℕ} {task : Task} {s : State} (h : Reached setting statements start depth task s)
    (hstart : start.scopes.All (Value.From P)) :
    (∀ v ∈ task.values, v.From P) ∧ s.scopes.All (Value.From P) := by
  induction h with
  | @statement before after stmt s hsplit hbefore =>
    have hopening : Exec.Draws P start (do
        record .runStart
        before.forM (execute setting setting.depth)) fun _ => True :=
      (draws_record _).bind fun _ _ hbegun _ => draws_statements hmakes hsplit hbegun
    exact ⟨nofun, (hopening.of_ok hstart hbefore).2.1⟩
  | task hreached hstarts ih =>
    obtain ⟨hvalues, hs, -⟩ :=
      hstarts.given (fun hbegun => Reached.draws hmakes (.task hreached hbegun)) ih.1 ih.2
    exact ⟨hvalues, hs⟩

/-- The functions that a run leaves in the scopes were there when it began, or it has made them. -/
theorem draws_run : Exec.Draws P start (run setting statements) fun _ => True := by
  refine (draws_record _).bind fun _ s hbegun _ => ?_
  have hstatements := draws_statements hmakes (List.append_nil statements).symm hbegun
  exact (draws_outermost hstatements).bind fun _ _ _ _ => draws_record _

end Runs

end Scriptlet
