import Scriptlet.Tree.Display
import Scriptlet.Tree.Equal

/-!
# Values

A script computes with nothing, truth values, numbers, texts and functions.  A function is the one
execution of its declaration that made it, so two functions are equal only if they are one.  It carries
no scope: when it is called, it sees the variables of its caller.

A literal in a tree read from a file may hold something else, a list or a tree.  Such a value can be
passed around and printed; it counts as a function that cannot be called.
-/

namespace Scriptlet

/-- A function that a script declared. -/
structure UserFunction where
  /-- The number of the execution that made it. -/
  id : Nat
  /-- The name it was declared under, as it is shown. -/
  name : String
  /-- Its parameters. -/
  params : Node
  /-- Its statements. -/
  body : Node

/-- A value of a script. -/
inductive Value where
  | nil
  | bool (b : Bool)
  | number (x : Float)
  | string (s : String)
  /-- A function that a script declared. -/
  | function (f : UserFunction)
  /-- The function that reads the clock, which every root scope holds. -/
  | clock
  /-- What a literal of a tree read from a file may hold besides. -/
  | tree (node : Node)
deriving Inhabited

/-- The types that messages tell apart. -/
inductive ValueType where
  | nil | boolean | number | string | function
deriving DecidableEq, Repr

/-- The name of a type. -/
def ValueType.name : ValueType → String
  | nil => "nil"
  | boolean => "boolean"
  | number => "number"
  | string => "string"
  | function => "function"

namespace Value

/-- The value of a literal. -/
def ofNode : Node → Value
  | .null => nil
  | .bool b => bool b
  | .float x => number x
  | .str s => string s
  | node => tree node

/-- The type of a value. -/
def type : Value → ValueType
  | nil => .nil
  | bool _ => .boolean
  | number _ => .number
  | string _ => .string
  | function _ | clock | tree _ => .function

/-- The text that a script prints for a value. -/
def text : Value → String
  | nil => "nil"
  | bool b => if b then "true" else "false"
  | number x => Decimal.printed x
  | string s => s
  | function f => "<fn " ++ f.name ++ ">"
  | clock => "<builtin fn clock>"
  | tree node => node.inText

/-- Whether a condition of this value holds: all values but nothing and false do. -/
def truthy : Value → Bool
  | nil => false
  | bool b => b
  | _ => true

/-- Whether a value is a number. -/
def isNumber : Value → Bool
  | number _ => true
  | _ => false

/-- Equality, which is defined for any two values: values of different types differ, and functions are
equal only to themselves. -/
def equal : Value → Value → Bool
  | nil, nil => true
  | bool a, bool b => a = b
  | number x, number y => x == y
  | string s, string t => s = t
  | function f, function g => f.id = g.id
  | clock, clock => true
  | tree a, tree b => a.className = b.className && a.equal b
  | _, _ => false

end Value

end Scriptlet
