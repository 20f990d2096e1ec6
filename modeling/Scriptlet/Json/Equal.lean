import Scriptlet.Decimal.Layout
import Scriptlet.Json

/-!
# Equality of JSON values

Bare values are compared by what they stand for: an integer, a fraction of the same value and a truth
value counted as one or zero are equal, and texts differ from all of them.  What a bare value stands for
is its *key*, so two bare values are equal exactly when they have one key.  Lists are compared item by
item, and objects member by member, whatever the order of their members is.
-/

namespace Scriptlet

/-- What a bare value stands for. -/
inductive Key where
  | nothing
  | text (s : String)
  | integer (i : Int)
  /-- A number that is no integer. -/
  | fraction (x : Decimal.Double)
deriving DecidableEq, Repr

namespace Key

/-- The integer `± m * 2 ^ q`, if it is one. -/
def integer? (negative : Bool) (m : Nat) (q : Int) : Option Int :=
  (Decimal.natural? m q).map fun n => if negative then -(n : Int) else n

/-- What a double stands for; the two zeros are one number. -/
def ofDouble : Decimal.Double → Key
  | .finite negative m q =>
    match integer? negative m q with
    | some i => integer i
    | none => fraction (.finite negative m q)
  | x => fraction x

end Key

namespace Json

/-- What a value stands for, if it is bare: neither a list nor an object. -/
def key? : Json → Option Key
  | null => some .nothing
  | bool b => some (.integer (if b then 1 else 0))
  | int i => some (.integer i)
  | float x => some (.ofDouble (.of x))
  | str s => some (.text s)
  | list _ => none
  | object _ => none

mutual

/-- Equality of two values. -/
def equal : Json → Json → Bool
  | list xs, list ys => equalItems xs ys
  | object xs, object ys => xs.length = ys.length && equalMembers xs ys
  | a, b =>
    match a.key?, b.key? with
    | some k, some l => k = l
    | _, _ => false

/-- Equality of two lists, item by item. -/
def equalItems : List Json → List Json → Bool
  | [], [] => true
  | x :: xs, y :: ys => equal x y && equalItems xs ys
  | _, _ => false

/-- Whether an object has members equal to the given ones. -/
def equalMembers : List (String × Json) → (others : List (String × Json)) → Bool
  | [], _ => true
  | (key, value) :: rest, others =>
    match others.lookup key with
    | some other => equal value other && equalMembers rest others
    | none => false

end

end Json

/-! ## Which bare values are equal -/

example : (Json.int 1).equal (.float 1) ∧ (Json.bool true).equal (.int 1) := by decide +kernel

example : ¬ (Json.str "1").equal (.int 1) ∧ ¬ Json.null.equal (.int 0) := by decide +kernel

end Scriptlet
