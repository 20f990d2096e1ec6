import Scriptlet.Decimal.Read
import Scriptlet.Grammar.Parse

/-!
# Expressions

From the loosest to the tightest, the constructs of an expression are assignment, the binary operators
on six levels, the unary operators, calls and primaries.  A binary operator takes its operands from the
next level and associates to the left, so a chain of operators needs no nesting; assignment associates
to the right and takes only a name for its target.
-/

namespace Scriptlet.Grammar

/-- A level of binary operators. -/
structure Level where
  /-- The kinds of its operators. -/
  operators : List Kind
  /-- The tree of an operator and its operands. -/
  build : (left operator right : Node) → Node

/-- The levels of binary operators, the loosest first. -/
def levels : List Level :=
  [⟨[.orWord], .logical⟩,
   ⟨[.andWord], .logical⟩,
   ⟨[.bangEqual, .equalEqual], .binary⟩,
   ⟨[.greater, .greaterEqual, .less, .lessEqual], .binary⟩,
   ⟨[.minus, .plus], .binary⟩,
   ⟨[.slash, .star], .binary⟩]

/-- Operands with operators of one level between them, gathered to the left. -/
def Level.chain (level : Level) (operand : Parse Node) : Parse Node := do
  loop (fun left => do
    match ← accept? level.operators.contains with
    | none => return none
    | some operator => return some (level.build left (.token operator) (← operand))) (← operand)

/-- Expressions of the given levels whose innermost operands are parsed by `operand`. -/
def binaries (levels : List Level) (operand : Parse Node) : Parse Node :=
  levels.foldr Level.chain operand

/-- The number that the literal of a number token converts to. -/
def number? : Json → Option Float
  | .str s => Decimal.read? s
  | .float x => some x
  | .int i => Decimal.ofInt? i
  | .bool b => some (if b then 1 else 0)
  | _ => none

/-- The literal that a number token denotes. -/
def numberOf (t : Leaf) : Parse Node :=
  match number? t.literal with
  | some x => pure (.literal (.float x))
  | none => throw (.badNumber t.literal)

/-- The literal that a string token denotes. -/
def textOf (t : Leaf) : Node :=
  .literal (.ofData t.literal)

/-- A primary: a literal, a name, or an expression in parentheses. -/
def primary (expression : Parse Node) : Parse Node := fun tokens =>
  match tokens with
  | [] => .error (.expectedExpression none)
  | t :: rest =>
    match t.kind with
    | .falseWord => .ok (.literal (.bool false), rest)
    | .trueWord => .ok (.literal (.bool true), rest)
    | .nilWord => .ok (.literal .null, rest)
    | .number => numberOf t rest
    | .string => .ok (textOf t, rest)
    | .identifier => .ok (.ident (.token t), rest)
    | .leftParen =>
      (do
        let inner ← expression
        let _ ← expect .rightParen
        return .grouping inner : Parse Node) rest
    | _ => .error (.expectedExpression (some t))

/-- The arguments of a call behind its opening parenthesis, and the closing one. -/
def arguments (expression : Parse Node) : Parse (List Node × Leaf) := do
  let args ← if ← isNext .rightParen then pure [] else separated .comma expression
  return (args, ← expect .rightParen)

/-- A primary and the lists of arguments that it is called with, one after the other. -/
def call (expression : Parse Node) : Parse Node := do
  loop (fun callee => do
    match ← accept? (· = .leftParen) with
    | none => return none
    | some _ =>
      let (args, paren) ← arguments expression
      return some (.call callee (.token paren) (.list args))) (← primary expression)

/-- Whether a kind is that of a unary operator. -/
def isUnaryOperator (kind : Kind) : Bool :=
  kind = .bang || kind = .minus

/-- Whatever may stand on the left of an equal sign, if it is a name. -/
def assignTo (target : Node) (equals : Leaf) (value : Node) : Parse Node :=
  match target with
  | .ident name => pure (.assign name value)
  | _ => throw (.invalidTarget equals)

mutual

/-- An expression, nested at most `limit` deep. -/
def expression : (limit : Nat) → Parse Node
  | 0 => beyondLimit
  | limit + 1 => do
    let target ← binaries levels (unary limit)
    match ← accept? (· = .equal) with
    | none => return target
    | some equals => assignTo target equals (← expression limit)

/-- Unary operators and their operand, nested at most `limit` deep. -/
def unary : (limit : Nat) → Parse Node
  | 0 => beyondLimit
  | limit + 1 => do
    match ← accept? isUnaryOperator with
    | none => call (expression limit)
    | some operator => return .unary (.token operator) (← unary limit)

end

end Scriptlet.Grammar
