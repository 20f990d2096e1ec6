import Scriptlet.Proofs.SessionSteps

/-!
# Running while being watched

A run records everything that may be shown, and what is shown is chosen afterwards.  A debugger does it the
other way round: at each step it is asked for, it puts a line together and writes it, in the middle of the
evaluation.  Here is the evaluator with a *hook* in each of these places.  The hook may do anything: write
nothing, change the state, or stop the run, as a line that cannot be put together does.

With the hook that records every step, the evaluator is the one that runs (`executeWith_record`).
-/

namespace Scriptlet

/-- The line that shows an event, or the fault that is met when it is put together. -/
def Event.line? : Event → Except Fault String
  | statement node =>
    match node.print with
    | .ok (.str text) => .ok text
    | .ok _ => .error .noText
    | .error fault => .error fault
  | event => .ok event.text

namespace Exec

variable (hook : Event → Exec Unit) (setting : Setting)

/-- Checks the number of arguments, and lets the hook see the call. -/
def checkArityWith (callee : Value) (expected got : ℕ) (paren : Node) : Exec Unit := do
  if got ≠ expected then failAt (.arity callee.text expected got) paren
  else hook (.called callee got)

mutual

/-- The value of an expression, evaluated under a hook. -/
def evaluateWith : (depth : ℕ) → Node → Exec Value
  | 0, _ => throw .tooDeep
  | depth + 1, node =>
    match node with
    | .literal value => return .ofNode value
    | .grouping e => evaluateWith depth e
    | .ident name => do
      lookUp (← part name.leaf?)
    | .assign name e => do
      let value ← evaluateWith depth e
      assign (← part name.leaf?) value
      return value
    | .unary operator e => do
      let a ← evaluateWith depth e
      applyUnary (← part operator.leaf?) a
    | .logical left operator right => do
      let value ← evaluateWith depth left
      let t ← part operator.leaf?
      if value.truthy == (t.kind == .orWord) then return value
      else evaluateWith depth right
    | .binary left operator right => do
      let a ← evaluateWith depth left
      let b ← evaluateWith depth right
      applyBinary (← part operator.leaf?) a b
    | .call callee paren arguments => do
      let f ← evaluateWith depth callee
      let args ← (← part arguments.items?).mapM (evaluateWith depth)
      callWith depth f args paren
    | other => throw (.fault (.noExpression other))

/-- The value of a call, made under a hook. -/
def callWith : (depth : ℕ) → Value → List Value → (paren : Node) → Exec Value
  | 0, _, _, _ => throw .tooDeep
  | depth + 1, callee, args, paren =>
    match callee with
    | .function f => do
      let params ← part f.params.items?
      checkArityWith hook callee params.length args.length paren
      asCall paren (inFreshScope do
        declareAll params args
        (← part f.body.items?).forM (executeWith depth))
    | .clock => do
      checkArityWith hook callee 0 args.length paren
      readClock setting.clock
    | other => failAt (.notCallable other.type) paren

/-- Executes a statement under a hook.  What is printed is no matter of the hook. -/
def executeWith : (depth : ℕ) → Node → Exec Unit
  | 0, _ => throw .tooDeep
  | depth + 1, node =>
    match node with
    | .exprStmt e => do
      let _ ← evaluateWith depth e
    | .printStmt e => do
      record (.printed (← evaluateWith depth e))
    | .varDecl name initializer => do
      let value ←
        match initializer with
        | .null => pure .nil
        | e => evaluateWith depth e
      let t ← part name.leaf?
      declare t value
      hook (.declared t.lexeme.inText value)
    | .block statements =>
      inFreshScope do (← part statements.items?).forM (executeWith depth)
    | .ifStmt condition thenBranch elseBranch => do
      let value ← evaluateWith depth condition
      hook (.ifCondition value)
      if value.truthy then executeWith depth thenBranch
      else
        match elseBranch with
        | .null => return
        | e => executeWith depth e
    | .whileStmt condition body =>
      repeatWhile
        (do
          let value ← evaluateWith depth condition
          hook (.whileCondition value)
          return value.truthy)
        (executeWith depth body) setting.turns
    | .funDecl name params body => do
      let t ← part name.leaf?
      declare t (← makeFunction t.lexeme.inText params body)
      hook (.defined t.lexeme.inText)
    | .returnStmt keyword e => do
      if (← get).callDepth = 0 then failAt .returnOutside keyword
      else
        let value ←
          match e with
          | .null => pure .nil
          | e => evaluateWith depth e
        throw (.returned value)
    | other => throw (.fault (.noStatement other))

end

/-- Runs the statements of a program under a hook. -/
def runWith (statements : List Node) : Exec Unit := do
  hook .runStart
  outermost (statements.forM (executeWith hook setting setting.depth))
  hook .runEnd

/-! ## Optional parts -/

/-- The value of an expression that may be left out. -/
def evaluateWith? (depth : ℕ) : Node → Exec Value
  | .null => pure .nil
  | e => evaluateWith hook setting depth e

/-- Executes a statement that may be left out. -/
def executeWith? (depth : ℕ) : Node → Exec Unit
  | .null => pure ()
  | s => executeWith hook setting depth s

variable {hook setting} {depth : ℕ}

/-- A part that is there is executed. -/
lemma executeWith?_of_ne_null {s : Node} (h : s ≠ .null) :
    executeWith? hook setting depth s = executeWith hook setting depth s := by
  cases s with
  | null => exact absurd rfl h
  | _ => rfl

/-- A declaration evaluates its initializer, declares the name and tells the hook. -/
lemma executeWith_varDecl (name initializer : Node) :
    executeWith hook setting (depth + 1) (.varDecl name initializer) = (do
      let value ← evaluateWith? hook setting depth initializer
      let t ← part name.leaf?
      declare t value
      hook (.declared t.lexeme.inText value)) := by
  cases initializer <;> rfl

/-- A conditional tells the hook what its condition is before it takes a branch. -/
lemma executeWith_ifStmt (condition thenBranch elseBranch : Node) :
    executeWith hook setting (depth + 1) (.ifStmt condition thenBranch elseBranch) = (do
      let value ← evaluateWith hook setting depth condition
      hook (.ifCondition value)
      if value.truthy then executeWith hook setting depth thenBranch
      else executeWith? hook setting depth elseBranch) := by
  cases elseBranch <;> rfl

/-- A return statement outside calls fails before its value is evaluated. -/
lemma executeWith_returnStmt (keyword e : Node) (s : State) :
    executeWith hook setting (depth + 1) (.returnStmt keyword e) s =
      if s.callDepth = 0 then failAt .returnOutside keyword s
      else (do throw (.returned (← evaluateWith? hook setting depth e)) : Exec Unit) s := by
  have hget : executeWith hook setting (depth + 1) (.returnStmt keyword e) = (do
      if (← get).callDepth = 0 then failAt .returnOutside keyword
      else throw (.returned (← evaluateWith? hook setting depth e))) := by
    cases e <;> rfl
  rw [hget, get_bind]
  split <;> rfl

/-! ## Recording every step -/

variable (setting)

/-- Under the hook that records every step, expressions, calls and statements run as they do without a
hook. -/
theorem evaluateWith_callWith_executeWith_record (depth : ℕ) :
    evaluateWith record setting depth = evaluate setting depth ∧
      callWith record setting depth = call setting depth ∧
      executeWith record setting depth = execute setting depth := by
  induction depth with
  | zero => exact ⟨rfl, rfl, rfl⟩
  | succ depth ih =>
    obtain ⟨hevaluate, hcall, hexecute⟩ := ih
    refine ⟨funext fun e => ?_, funext fun callee => ?_, funext fun s => ?_⟩
    · cases e <;> simp only [evaluateWith, evaluate, hevaluate, hcall]
    · cases callee <;> simp only [callWith, call, checkArityWith, checkArity, hexecute]
    · cases s with
      | varDecl name initializer =>
        cases initializer <;> simp only [executeWith, execute, hevaluate]
      | ifStmt condition thenBranch elseBranch =>
        cases elseBranch <;> simp only [executeWith, execute, hevaluate, hexecute]
      | returnStmt keyword e => cases e <;> simp only [executeWith, execute, hevaluate]
      | _ => simp only [executeWith, execute, hevaluate, hexecute]

/-- With a hook that records every event, executing a statement this way is executing it. -/
lemma executeWith_record (depth : ℕ) : executeWith record setting depth = execute setting depth :=
  (evaluateWith_callWith_executeWith_record setting depth).2.2

/-- With a hook that records every event, running a program this way is running it. -/
lemma runWith_record (statements : List Node) : runWith record setting statements = run setting statements := by
  unfold runWith run
  rw [executeWith_record]

end Exec

end Scriptlet
