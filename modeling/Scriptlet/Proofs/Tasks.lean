import Scriptlet.Proofs.Evaluation

/-!
# What a run comes to do

A run is busy with tasks: it evaluates expressions, calls functions and executes statements, and each of
these starts further ones, in the states that the earlier ones leave behind.  In the run of an accepted
program every task that is ever started is one that makes sense: only expressions are evaluated, only
statements are executed, and only sound values are called or passed to a function.
-/

namespace Scriptlet

open Exec
open Grammar (IsExpression IsStatement)

/-- Something that a run is busy with. -/
inductive Task where
  /-- An expression is evaluated. -/
  | evaluate (e : Node)
  /-- A value is called. -/
  | call (callee : Value) (args : List Value) (paren : Node)
  /-- A statement is executed. -/
  | execute (s : Node)

namespace Task

/-- What a task does, and the value that it comes to if it is one for a value. -/
def perform (setting : Setting) (depth : ℕ) : Task → Exec (Option Value)
  | evaluate e => some <$> Exec.evaluate setting depth e
  | call callee args paren => some <$> Exec.call setting depth callee args paren
  | execute s => (fun _ => none) <$> Exec.execute setting depth s

/-- A task that makes sense. -/
def IsSound : Task → Prop
  | evaluate e => IsExpression Leaf.IsScanned e
  | call callee args paren =>
    callee.IsSound ∧ (∀ value ∈ args, value.IsSound) ∧ ∃ t : Leaf, paren = .token t
  | execute s => IsStatement Leaf.IsScanned s

end Task

/-- The test of a loop. -/
def whileTest (setting : Setting) (depth : ℕ) (condition : Node) : Exec Bool := do
  let value ← evaluate setting depth condition
  record (.whileCondition value)
  return value.truthy

/-- One turn of a loop leads from a state to another. -/
def WhileTurn (setting : Setting) (depth : ℕ) (condition body : Node) (s t : State) : Prop :=
  ∃ m, whileTest setting depth condition s = .ok true m ∧ execute setting depth body m = .ok () t

/-- What a task starts: the first task, begun in the first state, comes to start the second task in the
second state. -/
inductive Starts (setting : Setting) (depth : ℕ) : Task → State → Task → State → Prop
  | grouping {e : Node} {s : State} :
      Starts setting depth (.evaluate (.grouping e)) s (.evaluate e) s
  | assigned {name e : Node} {s : State} :
      Starts setting depth (.evaluate (.assign name e)) s (.evaluate e) s
  | operand {operator e : Node} {s : State} :
      Starts setting depth (.evaluate (.unary operator e)) s (.evaluate e) s
  | logicalLeft {left operator right : Node} {s : State} :
      Starts setting depth (.evaluate (.logical left operator right)) s (.evaluate left) s
  | logicalRight {left right : Node} {operator : Leaf} {value : Value} {s t : State} :
      evaluate setting depth left s = .ok value t →
      (value.truthy == (operator.kind == .orWord)) = false →
      Starts setting depth (.evaluate (.logical left (.token operator) right)) s (.evaluate right) t
  | binaryLeft {left operator right : Node} {s : State} :
      Starts setting depth (.evaluate (.binary left operator right)) s (.evaluate left) s
  | binaryRight {left operator right : Node} {value : Value} {s t : State} :
      evaluate setting depth left s = .ok value t →
      Starts setting depth (.evaluate (.binary left operator right)) s (.evaluate right) t
  | callee {callee paren arguments : Node} {s : State} :
      Starts setting depth (.evaluate (.call callee paren arguments)) s (.evaluate callee) s
  | argument {callee paren arguments e : Node} {before after : List Node} {f : Value}
      {values : List Value} {s t u : State} :
      arguments.items? = .ok (before ++ e :: after) → evaluate setting depth callee s = .ok f t →
      before.mapM (evaluate setting depth) t = .ok values u →
      Starts setting depth (.evaluate (.call callee paren arguments)) s (.evaluate e) u
  | call {callee paren arguments : Node} {items : List Node} {f : Value} {values : List Value}
      {s t u : State} :
      arguments.items? = .ok items → evaluate setting depth callee s = .ok f t →
      items.mapM (evaluate setting depth) t = .ok values u →
      Starts setting depth (.evaluate (.call callee paren arguments)) s (.call f values paren) u
  /-- A statement of the body of a function, in the fresh scope of the call. -/
  | body {f : UserFunction} {args : List Value} {paren stmt : Node} {params before after : List Node}
      {s t u : State} :
      f.params.items? = .ok params → f.body.items? = .ok (before ++ stmt :: after) →
      checkArity (.function f) params.length args.length paren s = .ok () t →
      (do declareAll params args; before.forM (execute setting depth) : Exec Unit)
        { t with scopes := [] :: t.scopes, callDepth := t.callDepth + 1 } = .ok () u →
      Starts setting depth (.call (.function f) args paren) s (.execute stmt) u
  | exprStmt {e : Node} {s : State} : Starts setting depth (.execute (.exprStmt e)) s (.evaluate e) s
  | printStmt {e : Node} {s : State} : Starts setting depth (.execute (.printStmt e)) s (.evaluate e) s
  | initializer {name e : Node} {s : State} :
      e ≠ .null → Starts setting depth (.execute (.varDecl name e)) s (.evaluate e) s
  /-- A statement of a block, in the fresh scope of the block. -/
  | block {statements stmt : Node} {before after : List Node} {s t : State} :
      statements.items? = .ok (before ++ stmt :: after) →
      before.forM (execute setting depth) { s with scopes := [] :: s.scopes } = .ok () t →
      Starts setting depth (.execute (.block statements)) s (.execute stmt) t
  | ifCondition {condition thenBranch elseBranch : Node} {s : State} :
      Starts setting depth (.execute (.ifStmt condition thenBranch elseBranch)) s
        (.evaluate condition) s
  | thenBranch {condition thenBranch elseBranch : Node} {value : Value} {s t : State} :
      evaluate setting depth condition s = .ok value t → value.truthy = true →
      Starts setting depth (.execute (.ifStmt condition thenBranch elseBranch)) s
        (.execute thenBranch) { t with log := .ifCondition value :: t.log }
  | elseBranch {condition thenBranch elseBranch : Node} {value : Value} {s t : State} :
      evaluate setting depth condition s = .ok value t → value.truthy = false → elseBranch ≠ .null →
      Starts setting depth (.execute (.ifStmt condition thenBranch elseBranch)) s
        (.execute elseBranch) { t with log := .ifCondition value :: t.log }
  /-- The condition of a loop, after any number of turns. -/
  | whileCondition {condition body : Node} {s t : State} :
      Relation.ReflTransGen (WhileTurn setting depth condition body) s t →
      Starts setting depth (.execute (.whileStmt condition body)) s (.evaluate condition) t
  /-- The body of a loop, after any number of turns. -/
  | whileBody {condition body : Node} {s t u : State} :
      Relation.ReflTransGen (WhileTurn setting depth condition body) s t →
      whileTest setting depth condition t = .ok true u →
      Starts setting depth (.execute (.whileStmt condition body)) s (.execute body) u
  | returned {keyword e : Node} {s : State} :
      s.callDepth ≠ 0 → e ≠ .null →
      Starts setting depth (.execute (.returnStmt keyword e)) s (.evaluate e) s

/-- The tasks that the run of some statements from a given state comes to start, with the nesting that is
left to them and the states in which they are started. -/
inductive Reached (setting : Setting) (statements : List Node) (start : State) :
    ℕ → Task → State → Prop
  | statement {before after : List Node} {stmt : Node} {s : State} :
      statements = before ++ stmt :: after →
      (do record .runStart; before.forM (execute setting setting.depth) : Exec Unit) start = .ok () s →
      Reached setting statements start setting.depth (.execute stmt) s
  | task {depth : ℕ} {task task' : Task} {s s' : State} :
      Reached setting statements start (depth + 1) task s → Starts setting depth task s task' s' →
      Reached setting statements start depth task' s'

/-- The tasks that a task comes to start, directly or by way of others, with the nesting that is left to
them and the states in which they are started; the first of them is the task itself. -/
inductive LeadsTo (setting : Setting) (depth : ℕ) (task : Task) (s : State) : ℕ → Task → State → Prop
  | refl : LeadsTo setting depth task s depth task s
  | tail {d : ℕ} {task' task'' : Task} {s' s'' : State} :
      LeadsTo setting depth task s (d + 1) task' s' → Starts setting d task' s' task'' s'' →
      LeadsTo setting depth task s d task'' s''

/-- What a task that is started leads to, the task that starts it leads to. -/
lemma LeadsTo.head {setting : Setting} {depth d : ℕ} {task task' task'' : Task} {s s' s'' : State}
    (h : Starts setting depth task s task' s') (hleads : LeadsTo setting depth task' s' d task'' s'') :
    LeadsTo setting (depth + 1) task s d task'' s'' := by
  induction hleads with
  | refl => exact .tail .refl h
  | tail _ hstarts ih => exact .tail ih hstarts

/-- A task leads to itself, and to what the tasks that it starts lead to. -/
lemma LeadsTo.eq_or_head {setting : Setting} {depth d : ℕ} {task task' : Task} {s s' : State}
    (h : LeadsTo setting depth task s d task' s') :
    (d = depth ∧ task' = task ∧ s' = s) ∨
      ∃ depth' first t, depth = depth' + 1 ∧ Starts setting depth' task s first t ∧
        LeadsTo setting depth' first t d task' s' := by
  induction h with
  | refl => exact .inl ⟨rfl, rfl, rfl⟩
  | tail _ hstarts ih =>
    rcases ih with ⟨rfl, rfl, rfl⟩ | ⟨depth', first, t, rfl, hfirst, hleads⟩
    · exact .inr ⟨_, _, _, rfl, hstarts, .refl⟩
    · exact .inr ⟨depth', first, t, rfl, hfirst, .tail hleads hstarts⟩

/-! ## Parts of what was parsed -/

namespace Grammar

variable {T : Leaf → Prop}

/-- The operands of the constructs other than calls. -/
def operands : Node → List Node
  | .grouping e | .assign _ e | .unary _ e => [e]
  | .logical left _ right | .binary left _ right => [left, right]
  | _ => []

/-- The operands of an expression are expressions. -/
lemma IsExpression.of_operand {e part : Node} (h : IsExpression T e) (hpart : part ∈ operands e) :
    IsExpression T part := by
  cases h with
  | grouping he | unary _ _ he | assign _ _ he =>
    obtain rfl := List.mem_singleton.mp hpart
    exact he
  | @operator level left right operator hlevel _ _ hleft _ hright _ =>
    have hparts : part = left ∨ part = right := by
      rcases build_eq hlevel with hb | hb <;> simpa [hb, operands] using hpart
    rcases hparts with rfl | rfl
    · exact hleft
    · exact hright
  | _ => cases hpart

/-- A call has an expression to call, a parenthesis and a list of arguments. -/
lemma IsExpression.of_call {callee paren arguments : Node}
    (h : IsExpression T (.call callee paren arguments)) :
    IsExpression T callee ∧ (∃ t : Leaf, paren = .token t) ∧
      ∃ items, arguments = .list items ∧ ∀ e ∈ items, IsExpression T e := by
  generalize he : Node.call callee paren arguments = e at h
  cases h with
  | call hcallee _ _ _ hitems =>
    injection he with hc hp ha
    exact ⟨hc ▸ hcallee, ⟨_, hp⟩, _, ha, hitems⟩
  | operator hlevel => rcases build_eq hlevel with hb | hb <;> simp [hb] at he
  | _ => cases he

end Grammar

/-! ## Tasks that make sense -/

section Sound

variable {setting : Setting} {depth : ℕ}

/-- A computation that keeps the state sound gives a result as it should be, and a sound state. -/
lemma Exec.Keeps.ok {α : Type} {act : Exec α} {post : α → Prop} {s t : State} {a : α}
    (h : Keeps s.callDepth act post) (hs : s.IsSound) (hrun : act s = .ok a t) :
    post a ∧ t.IsSound := by
  have hact := h s hs rfl
  rw [hrun] at hact
  exact ⟨hact.1, hact.2.1⟩

/-- Testing the condition of a loop keeps the state sound. -/
lemma keeps_whileTest {active : ℕ} {condition : Node} (h : IsExpression Leaf.IsScanned condition) :
    Keeps active (whileTest setting depth condition) fun _ => True := by
  refine .bind (keeps_evaluate setting depth h) fun value hvalue => ?_
  exact .bind (keeps_record (by simpa [Event.values] using hvalue)) fun _ _ => .pure trivial

/-- The turns of a loop lead from sound states to sound states. -/
lemma isSound_of_turns {condition body : Node} {s t : State}
    (hcondition : IsExpression Leaf.IsScanned condition) (hbody : IsStatement Leaf.IsScanned body)
    (hs : s.IsSound) (h : Relation.ReflTransGen (WhileTurn setting depth condition body) s t) :
    t.IsSound := by
  induction h with
  | refl => exact hs
  | tail _ hturn ih =>
    obtain ⟨m, htest, hrun⟩ := hturn
    have hm := ((keeps_whileTest hcondition).ok ih htest).2
    exact ((keeps_execute setting depth hbody).ok hm hrun).2

/-- A task that makes sense starts such tasks only, and in sound states. -/
theorem Starts.isSound {task task' : Task} {s s' : State} (h : Starts setting depth task s task' s')
    (htask : task.IsSound) (hs : s.IsSound) : task'.IsSound ∧ s'.IsSound := by
  have hshown : ∀ {value : Value}, value.IsSound → ∀ v ∈ Event.values (.ifCondition value), v.IsSound :=
    fun h => List.forall_mem_singleton.mpr h
  have hvalue : ∀ {e : Node} {value : Value} {s t : State}, IsExpression Leaf.IsScanned e →
      s.IsSound → evaluate setting depth e s = .ok value t → value.IsSound ∧ t.IsSound :=
    fun he hs hrun => (keeps_evaluate setting depth he).ok hs hrun
  cases h with
  | grouping | assigned | operand | logicalLeft | binaryLeft =>
    exact ⟨htask.of_operand (by simp [Grammar.operands]), hs⟩
  | logicalRight hrun _ | binaryRight hrun =>
    have hleft := htask.of_operand (List.mem_cons_self ..)
    exact ⟨htask.of_operand (by simp [Grammar.operands]), (hvalue hleft hs hrun).2⟩
  | callee => exact ⟨htask.of_call.1, hs⟩
  | argument hitems hf hvalues =>
    obtain ⟨hcallee, -, items, rfl, hargs⟩ := Grammar.IsExpression.of_call htask
    obtain rfl := Except.ok.inj hitems
    have ht := (hvalue hcallee hs hf).2
    refine ⟨hargs _ (by simp), ?_⟩
    exact ((keeps_mapM fun e he => keeps_evaluate setting depth (hargs e (by simp [he]))).ok ht hvalues).2
  | call hitems hf hvalues =>
    obtain ⟨hcallee, hparen, items, rfl, hargs⟩ := Grammar.IsExpression.of_call htask
    obtain rfl := Except.ok.inj hitems
    obtain ⟨hfunction, ht⟩ := hvalue hcallee hs hf
    obtain ⟨hall, hu⟩ :=
      (keeps_mapM fun e he => keeps_evaluate setting depth (hargs e he)).ok ht hvalues
    exact ⟨⟨hfunction, hall, hparen⟩, hu⟩
  | @body _ _ _ _ _ before _ _ _ _ hparams hbody harity hrun =>
    obtain ⟨hf, hargs, t, rfl⟩ := htask
    cases hf with
    | function id name hsorted hstatements =>
      obtain rfl := Except.ok.inj hparams
      obtain rfl := Except.ok.inj hbody
      have ht := ((keeps_checkArity (.function id name hsorted hstatements) _ _ t).ok hs harity).2
      refine ⟨hstatements _ (by simp), ?_⟩
      have hbefore : ∀ active, Keeps active (before.forM (execute setting depth)) fun _ => True :=
        fun _ => keeps_forM fun s hs => keeps_execute setting depth (hstatements s (by simp [hs]))
      exact (((keeps_declareAll hsorted hargs).bind fun _ _ => hbefore _).ok (ht.fresh _) hrun).2
  | exprStmt | printStmt =>
    cases htask with
    | _ he => exact ⟨he, hs⟩
  | initializer hnull =>
    cases htask with
    | varDecl => exact absurd rfl hnull
    | varInit _ _ he => exact ⟨he, hs⟩
  | block hitems hrun =>
    cases htask with
    | block hbody =>
      obtain rfl := Except.ok.inj hitems
      refine ⟨hbody _ (by simp), ?_⟩
      exact ((keeps_forM fun s hs => keeps_execute setting depth (hbody s (by simp [hs]))).ok
        (hs.fresh _) hrun).2
  | ifCondition =>
    cases htask with
    | ifStmt he | ifElse he => exact ⟨he, hs⟩
  | thenBranch hrun _ =>
    cases htask with
    | ifStmt he hthen | ifElse he hthen =>
      obtain ⟨hv, ht⟩ := hvalue he hs hrun
      exact ⟨hthen, ht.record (hshown hv)⟩
  | elseBranch hrun _ hnull =>
    cases htask with
    | ifStmt => exact absurd rfl hnull
    | ifElse he _ _ _ _ helse =>
      obtain ⟨hv, ht⟩ := hvalue he hs hrun
      exact ⟨helse, ht.record (hshown hv)⟩
  | whileCondition hturns =>
    cases htask with
    | whileStmt he hbody => exact ⟨he, isSound_of_turns he hbody hs hturns⟩
  | whileBody hturns htest =>
    cases htask with
    | whileStmt he hbody =>
      have ht := isSound_of_turns he hbody hs hturns
      exact ⟨hbody, ((keeps_whileTest he).ok ht htest).2⟩
  | returned _ hnull =>
    cases htask with
    | returnStmt => exact absurd rfl hnull
    | returnValue _ _ he => exact ⟨he, hs⟩

/-- Every task that a run comes to start makes sense and is started in a sound state. -/
theorem Reached.isSound {statements : List Node} {start s : State} {task : Task}
    (h : Reached setting statements start depth task s)
    (hstatements : ∀ s ∈ statements, IsStatement Leaf.IsScanned s) (hstart : start.IsSound) :
    task.IsSound ∧ s.IsSound := by
  induction h with
  | @statement before after stmt s hsplit hrun =>
    subst hsplit
    refine ⟨hstatements stmt (by simp), ?_⟩
    have hbefore : ∀ active, Keeps active (before.forM (execute setting setting.depth)) fun _ => True :=
      fun _ => keeps_forM fun s hs => keeps_execute setting _ (hstatements s (by simp [hs]))
    have hfirst : Keeps start.callDepth (record .runStart) fun _ => True :=
      keeps_record (by simp [Event.values])
    exact ((hfirst.bind fun _ _ => hbefore _).ok hstart hrun).2
  | task _ hstarts ih => exact hstarts.isSound ih.1 ih.2

/-- A task that makes sense ends well, and what it comes to is a sound value. -/
theorem Task.IsSound.keeps {task : Task} (h : task.IsSound) (setting : Setting) (depth active : ℕ) :
    Keeps active (task.perform setting depth) fun value? => ∀ value ∈ value?, value.IsSound := by
  cases task with
  | evaluate e =>
    refine (keeps_evaluate setting depth h).bind fun value hv => .pure ?_
    simpa using hv
  | call callee args paren =>
    obtain ⟨hcallee, hargs, t, rfl⟩ := h
    refine (keeps_call setting depth t hcallee hargs).bind fun value hv => .pure ?_
    simpa using hv
  | execute s => exact (keeps_execute setting depth h).bind fun _ _ => .pure (by simp)

end Sound

end Scriptlet
