import Scriptlet.RuntimeError

/-!
# Operators

Addition joins texts as well as adding numbers, and equality is defined for any two values.  The other
operators are for numbers alone.
-/

namespace Scriptlet.Operator

/-- An operator that compares two numbers. -/
def comparison? : Kind → Option (Float → Float → Bool)
  | .greater => some fun x y => y < x
  | .greaterEqual => some fun x y => y ≤ x
  | .less => some fun x y => x < y
  | .lessEqual => some fun x y => x ≤ y
  | _ => none

/-- An operator on two numbers; `lexeme` is its text. -/
def onNumbers (kind : Kind) (lexeme : String) (x y : Float) : Except RuntimeCause Value :=
  match kind with
  | .minus => .ok (.number (x - y))
  | .star => .ok (.number (x * y))
  | .slash => if y == 0 then .error .divisionByZero else .ok (.number (x / y))
  | _ =>
    match comparison? kind with
    | some compare => .ok (.bool (compare x y))
    | none => .error (.unknownOperator lexeme)

/-- A binary operator, whose text is `lexeme`. -/
def binary (kind : Kind) (lexeme : String) (a b : Value) : Except RuntimeCause Value :=
  match kind with
  | .plus =>
    match a, b with
    | .number x, .number y => .ok (.number (x + y))
    | .string s, .string t => .ok (.string (s ++ t))
    | _, _ => .error (.unsupportedPlus a.type b.type)
  | .equalEqual => .ok (.bool (a.equal b))
  | .bangEqual => .ok (.bool (!a.equal b))
  | _ =>
    match a, b with
    | .number x, .number y => onNumbers kind lexeme x y
    | _, _ => .error (.expectsNumbers lexeme [a.type, b.type])

/-- A unary operator, whose text is `lexeme`. -/
def unary (kind : Kind) (lexeme : String) (a : Value) : Except RuntimeCause Value :=
  match kind with
  | .bang => .ok (.bool (!a.truthy))
  | .minus =>
    match a with
    | .number x => .ok (.number (-x))
    | _ => .error (.expectsNumbers lexeme [a.type])
  | _ => .error (.unsupportedUnary lexeme)

/-! ## Operands that are no numbers -/

/-- An operator that was given numbers does not ask for numbers. -/
theorem onNumbers_ne_expectsNumbers (kind : Kind) (lexeme operator : String) (x y : Float)
    (operands : List ValueType) : onNumbers kind lexeme x y ≠ .error (.expectsNumbers operator operands) := by
  unfold onNumbers
  split
  · nofun
  · nofun
  · split <;> nofun
  · split <;> nofun

/-- Operators but for addition and equality reject their operands exactly if one of them is no number. -/
theorem binary_eq_expectsNumbers_iff {kind : Kind} (h : kind ∉ [.plus, .equalEqual, .bangEqual])
    (lexeme : String) (a b : Value) :
    binary kind lexeme a b = .error (.expectsNumbers lexeme [a.type, b.type]) ↔
      (a.isNumber && b.isNumber) = false := by
  have hother : binary kind lexeme a b =
      match a, b with
      | .number x, .number y => onNumbers kind lexeme x y
      | _, _ => .error (.expectsNumbers lexeme [a.type, b.type]) := by
    unfold binary
    split <;> simp_all
  rw [hother]
  cases a <;> cases b <;> simp [Value.isNumber, onNumbers_ne_expectsNumbers]

/-- Negation rejects its operand exactly if that is no number. -/
theorem unary_eq_expectsNumbers_iff (lexeme : String) (a : Value) :
    unary .minus lexeme a = .error (.expectsNumbers lexeme [a.type]) ↔ a.isNumber = false := by
  cases a <;> simp [unary, Value.isNumber]

end Scriptlet.Operator
