import Scriptlet.Json.Display
import Scriptlet.Tree

/-!
# Trees as JSON

A tree is stored as an object that names its class and holds its fields, a token as an object that
names its kind.  Loading checks that the classes and kinds exist and that no declared field is missing.
It does not look at what a field holds beyond converting it, it does not look at all into the fields of
tokens, and it ignores fields that are not declared.  The one thing that is not read back as it was
written is an integer as the value of a literal: it becomes the nearest double.
-/

namespace Scriptlet

/-- Why a JSON value is no tree. -/
inductive LoadError where
  /-- An object names a class that does not exist, or none. -/
  | unknownClass (name : Json)
  /-- A class is named by a value that can be no name at all. -/
  | unusableName
  /-- A token names a kind that does not exist. -/
  | unknownKind (name : Json)
  /-- A declared field is missing. -/
  | missingField (name : String)
  /-- The integer value of a literal is beyond the range of doubles. -/
  | integerTooLarge
  /-- A program is no list. -/
  | noProgram

/-- The wording of a load error. -/
def LoadError.message : LoadError → String
  | unknownClass name => "unknown AST node " ++ name.display
  | unusableName => "unusable name of an AST node"
  | unknownKind name => name.display ++ " is not a valid TokenType"
  | missingField name => name
  | integerTooLarge => "int too large to convert to float"
  | noProgram => "AST JSON must be a list of statements"

/-- The object of a token. -/
def Leaf.toJson (t : Leaf) : Json :=
  .object [("__token__", .str t.kind.name), ("lexeme", t.lexeme), ("literal", t.literal),
    ("line", t.line), ("start", t.start), ("end", t.stop)]

namespace Node

/-- The object of a class with the given fields. -/
def classToJson (name : String) (fields : List (String × Json)) : Json :=
  .object (("__node__", .str name) :: fields)

mutual

/-- The JSON value of a tree. -/
def toJson : Node → Json
  | null => .null
  | bool b => .bool b
  | int i => .int i
  | float x => .float x
  | str s => .str s
  | list items => .list (listToJson items)
  | object members => .object members
  | token t => t.toJson
  | literal value => classToJson "Literal" [("value", value.toJson)]
  | grouping e => classToJson "Grouping" [("expression", e.toJson)]
  | unary op e => classToJson "UnaryOp" [("operator", op.toJson), ("operand", e.toJson)]
  | binary l op r =>
    classToJson "BinaryOp" [("left", l.toJson), ("operator", op.toJson), ("right", r.toJson)]
  | logical l op r =>
    classToJson "Logical" [("left", l.toJson), ("operator", op.toJson), ("right", r.toJson)]
  | ident name => classToJson "Ident" [("name", name.toJson)]
  | assign name value => classToJson "Assign" [("name", name.toJson), ("value", value.toJson)]
  | call f paren args =>
    classToJson "Call" [("callee", f.toJson), ("paren", paren.toJson), ("arguments", args.toJson)]
  | exprStmt e => classToJson "ExprStmt" [("expression", e.toJson)]
  | printStmt e => classToJson "PrintStmt" [("expression", e.toJson)]
  | varDecl name init => classToJson "VarDecl" [("name", name.toJson), ("initializer", init.toJson)]
  | block body => classToJson "Block" [("statements", body.toJson)]
  | ifStmt c t e =>
    classToJson "IfStmt"
      [("condition", c.toJson), ("then_branch", t.toJson), ("else_branch", e.toJson)]
  | whileStmt c body => classToJson "WhileStmt" [("condition", c.toJson), ("body", body.toJson)]
  | funDecl name params body =>
    classToJson "FuncDecl"
      [("name", name.toJson), ("params", params.toJson), ("body", body.toJson)]
  | returnStmt keyword value =>
    classToJson "ReturnStmt" [("keyword", keyword.toJson), ("value", value.toJson)]

/-- The JSON values of some trees. -/
def listToJson : List Node → List Json
  | [] => []
  | node :: rest => toJson node :: listToJson rest

end

/-- A field of a token, as it stands. -/
def rawField (members : List (String × Json)) (name : String) : Except LoadError Json :=
  match members.lookup name with
  | some value => .ok value
  | none => .error (.missingField name)

/-- The token of an object whose kind is named by `name`. -/
def leafOfMembers (name : Json) (members : List (String × Json)) : Except LoadError Leaf := do
  let some kind := (match name with
    | .str text => Kind.ofName? text
    | _ => none) | throw (.unknownKind name)
  let lexeme ← rawField members "lexeme"
  let literal := (members.lookup "literal").getD .null
  let line ← rawField members "line"
  let start ← rawField members "start"
  let stop ← rawField members "end"
  return ⟨kind, lexeme, literal, line, start, stop⟩

/-- A field of a class, converted. -/
def field (fields : List (String × Except LoadError Node)) (name : String) : Except LoadError Node :=
  match fields.lookup name with
  | some result => result
  | none => .error (.missingField name)

/-- A literal of the given value; an integer becomes the nearest double. -/
def literalOf : Node → Except LoadError Node
  | int i =>
    match Decimal.ofInt? i with
    | some x => .ok (literal (float x))
    | none => .error .integerTooLarge
  | value => .ok (literal value)

/-- The tree of the class that `name` names, its fields taken from `fields` in the order in which the
class declares them. -/
def classOfFields (name : Json) (fields : List (String × Except LoadError Node)) :
    Except LoadError Node :=
  let get := field fields
  match name with
  | .str "Literal" => do literalOf (← get "value")
  | .str "Grouping" => return grouping (← get "expression")
  | .str "UnaryOp" => return unary (← get "operator") (← get "operand")
  | .str "BinaryOp" => return binary (← get "left") (← get "operator") (← get "right")
  | .str "Logical" => return logical (← get "left") (← get "operator") (← get "right")
  | .str "Ident" => return ident (← get "name")
  | .str "Assign" => return assign (← get "name") (← get "value")
  | .str "Call" => return call (← get "callee") (← get "paren") (← get "arguments")
  | .str "ExprStmt" => return exprStmt (← get "expression")
  | .str "PrintStmt" => return printStmt (← get "expression")
  | .str "VarDecl" => return varDecl (← get "name") (← get "initializer")
  | .str "Block" => return block (← get "statements")
  | .str "IfStmt" => return ifStmt (← get "condition") (← get "then_branch") (← get "else_branch")
  | .str "WhileStmt" => return whileStmt (← get "condition") (← get "body")
  | .str "FuncDecl" => return funDecl (← get "name") (← get "params") (← get "body")
  | .str "ReturnStmt" => return returnStmt (← get "keyword") (← get "value")
  | .list _ | .object _ => throw .unusableName
  | _ => throw (.unknownClass name)

mutual

/-- The tree that a JSON value stores. -/
def ofJson : Json → Except LoadError Node
  | .null => .ok null
  | .bool b => .ok (bool b)
  | .int i => .ok (int i)
  | .float x => .ok (float x)
  | .str s => .ok (str s)
  | .list items => return list (← listOfJson items)
  | .object members =>
    match members.lookup "__token__" with
    | some name => return token (← leafOfMembers name members)
    | none => classOfFields ((members.lookup "__node__").getD .null) (fieldsOfJson members)

/-- The trees that some JSON values store; the first that stores none decides the error. -/
def listOfJson : List Json → Except LoadError (List Node)
  | [] => .ok []
  | item :: rest => do
    let node ← ofJson item
    return node :: (← listOfJson rest)

/-- What each member of an object stores. -/
def fieldsOfJson : List (String × Json) → List (String × Except LoadError Node)
  | [] => []
  | (name, value) :: rest => (name, ofJson value) :: fieldsOfJson rest

end

/-- The statements that a JSON value stores.  That they are a list is only asked at the end. -/
def programOfJson (json : Json) : Except LoadError (List Node) := do
  match ← ofJson json with
  | list statements => return statements
  | _ => throw .noProgram

end Node

end Scriptlet
