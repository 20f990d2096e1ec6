import Scriptlet.Place
import Scriptlet.Value

/-!
# Runtime errors

A run fails for one of the causes below.  Each cause has a wording and belongs to a kind, whose name
stands before the wording.  Names and operators are kept as the texts that the wording shows.
-/

namespace Scriptlet

/-- Why a run fails. -/
inductive RuntimeCause where
  /-- A name is read that no scope binds. -/
  | unknownIdentifier (name : String)
  /-- A name is assigned to that no scope binds. -/
  | unknownVariable (name : String)
  /-- A name is declared that the innermost scope binds already. -/
  | redeclaration (name : String)
  /-- Two values are added that are neither numbers nor texts. -/
  | unsupportedPlus (left right : ValueType)
  /-- An operator on numbers meets something else. -/
  | expectsNumbers (operator : String) (operands : List ValueType)
  /-- A token stands for a binary operator and is none. -/
  | unknownOperator (operator : String)
  /-- A token stands for a unary operator and is none. -/
  | unsupportedUnary (operator : String)
  /-- A value is called that is no function. -/
  | notCallable (type : ValueType)
  /-- A function is called with the wrong number of arguments. -/
  | arity (function : String) (expected got : Nat)
  /-- A number is divided by zero. -/
  | divisionByZero
  /-- A return statement is executed while no function is active. -/
  | returnOutside
  /-- Calls are nested beyond the limit. -/
  | callsTooDeep
  /-- The constructs of a program are nested beyond the limit. -/
  | programTooDeep
deriving DecidableEq, Repr

namespace RuntimeCause

/-- The name of the kind that a cause belongs to. -/
def kind : RuntimeCause → String
  | unknownIdentifier _ | unknownVariable _ => "NameError"
  | redeclaration _ => "RedeclarationError"
  | unsupportedPlus _ _ | expectsNumbers _ _ | unknownOperator _ | unsupportedUnary _
  | notCallable _ => "TypeError"
  | arity _ _ _ => "ArityError"
  | divisionByZero => "ZeroDivisionError"
  | returnOutside => "ReturnError"
  | callsTooDeep | programTooDeep => "StackOverflowError"

/-- The wording of a cause. -/
def wording : RuntimeCause → String
  | unknownIdentifier name => "unknown identifier " ++ name
  | unknownVariable name => "unknown variable " ++ name
  | redeclaration name => "redeclaration of var " ++ name
  | unsupportedPlus left right => s!"unsupported + for {left.name} and {right.name}"
  | expectsNumbers operator operands =>
    "operator " ++ operator ++ " expects numbers, got "
      ++ " and ".intercalate (operands.map ValueType.name)
  | unknownOperator operator => "unknown operator " ++ operator
  | unsupportedUnary operator => "unsupported unary operator " ++ operator
  | notCallable type => "can only call functions, got " ++ type.name
  | arity function expected got => s!"{function} expects {expected} arguments, got {got}"
  | divisionByZero => "division by zero"
  | returnOutside => "return outside function"
  | callsTooDeep => "maximum call depth exceeded"
  | programTooDeep => "program nested too deeply"

/-- The kind and the wording of a cause. -/
def message (cause : RuntimeCause) : String :=
  cause.kind ++ ": " ++ cause.wording

end RuntimeCause

/-- A cause and the place it is reported at. -/
structure RuntimeError where
  /-- Why the run failed. -/
  cause : RuntimeCause
  /-- The place of the token that is to blame, if there is one. -/
  place? : Option Place

/-- The error as it is reported. -/
def RuntimeError.text (error : RuntimeError) : String :=
  located error.cause.message error.place?

end Scriptlet
