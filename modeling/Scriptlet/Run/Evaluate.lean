import Scriptlet.Run.Operator
import Scriptlet.Run.State

/-!
# Running trees

Expressions are evaluated and statements executed, each by recursion on the number of constructs and
calls that may still be nested.  A part of a tree is only looked at when its turn comes.

A function runs in a fresh scope inside the scope of its *caller*, so it sees and may change the
caller's variables, but not those of the place where it was declared.
-/

namespace Scriptlet.Exec

/-- The result of an operator, or the error that it raises at its token. -/
def result (operator : Leaf) : Except RuntimeCause Value → Exec Value
  | .ok value => pure value
  | .error cause => fail cause operator

/-- The result of a binary operator. -/
def applyBinary (operator : Leaf) (a b : Value) : Exec Value :=
  result operator (Operator.binary operator.kind operator.lexeme.inText a b)

/-- The result of a unary operator. -/
def applyUnary (operator : Leaf) (a : Value) : Exec Value :=
  result operator (Operator.unary operator.kind operator.lexeme.inText a)

/-- Checks that a function is called with as many arguments as it takes, and records the call. -/
def checkArity (callee : Value) (expected got : Nat) (paren : Node) : Exec Unit := do
  if got ≠ expected then failAt (.arity callee.text expected got) paren
  else record (.called callee got)

/-- Declares each parameter with its argument. -/
def declareAll (params : List Node) (arguments : List Value) : Exec Unit :=
  (params.zip arguments).forM fun p => do declare (← part p.1.leaf?) p.2

mutual

/-- The value of an expression. -/
def evaluate (setting : Setting) : (depth : Nat) → Node → Exec Value
  | 0, _ => throw .tooDeep
  | depth + 1, node =>
    match node with
    | .literal value => return .ofNode value
    | .grouping e => evaluate setting depth e
    | .ident name => do
      lookUp (← part name.leaf?)
    | .assign name e => do
      let value ← evaluate setting depth e
      assign (← part name.leaf?) value
      return value
    | .unary operator e => do
      let a ← evaluate setting depth e
      applyUnary (← part operator.leaf?) a
    | .logical left operator right => do
      let value ← evaluate setting depth left
      let t ← part operator.leaf?
      if value.truthy == (t.kind == .orWord) then return value
      else evaluate setting depth right
    | .binary left operator right => do
      let a ← evaluate setting depth left
      let b ← evaluate setting depth right
      applyBinary (← part operator.leaf?) a b
    | .call callee paren arguments => do
      let f ← evaluate setting depth callee
      let args ← (← part arguments.items?).mapM (evaluate setting depth)
      call setting depth f args paren
    | other => throw (.fault (.noExpression other))

/-- The value of a call; an error of the call itself is reported at `paren`. -/
def call (setting : Setting) : (depth : Nat) → Value → List Value → (paren : Node) → Exec Value
  | 0, _, _, _ => throw .tooDeep
  | depth + 1, callee, args, paren =>
    match callee with
    | .function f => do
      let params ← part f.params.items?
      checkArity callee params.length args.length paren
      asCall paren (inFreshScope do
        declareAll params args
        (← part f.body.items?).forM (execute setting depth))
    | .clock => do
      checkArity callee 0 args.length paren
      readClock setting.clock
    | other => failAt (.notCallable other.type) paren

/-- Executes a statement. -/
def execute (setting : Setting) : (depth : Nat) → Node → Exec Unit
  | 0, _ => throw .tooDeep
  | depth + 1, node =>
    match node with
    | .exprStmt e => do
      let _ ← evaluate setting depth e
    | .printStmt e => do
      record (.printed (← evaluate setting depth e))
    | .varDecl name initializer => do
      let value ←
        match initializer with
        | .null => pure .nil
        | e => evaluate setting depth e
      let t ← part name.leaf?
      declare t value
      record (.declared t.lexeme.inText value)
    | .block statements =>
      inFreshScope do (← part statements.items?).forM (execute setting depth)
    | .ifStmt condition thenBranch elseBranch => do
      let value ← evaluate setting depth condition
      record (.ifCondition value)
      if value.truthy then execute setting depth thenBranch
      else
        match elseBranch with
        | .null => return
        | e => execute setting depth e
    | .whileStmt condition body =>
      repeatWhile
        (do
          let value ← evaluate setting depth condition
          record (.whileCondition value)
          return value.truthy)
        (execute setting depth body) setting.turns
    | .funDecl name params body => do
      let t ← part name.leaf?
      declare t (← makeFunction t.lexeme.inText params body)
      record (.defined t.lexeme.inText)
    | .returnStmt keyword e => do
      if (← get).callDepth = 0 then failAt .returnOutside keyword
      else
        let value ←
          match e with
          | .null => pure .nil
          | e => evaluate setting depth e
        throw (.returned value)
    | other => throw (.fault (.noStatement other))

end

/-- Runs a computation that is no part of a call: reaching the nesting limit is an error without a
place. -/
def outermost (act : Exec Unit) : Exec Unit := fun s =>
  match act s with
  | .error .tooDeep s => .error (.failed ⟨.programTooDeep, none⟩) s
  | r => r

/-- Runs the statements of a program. -/
def run (setting : Setting) (statements : List Node) : Exec Unit := do
  record .runStart
  outermost (statements.forM (execute setting setting.depth))
  record .runEnd

end Scriptlet.Exec
