import Scriptlet.Name
import Scriptlet.Token.Leaf

/-!
# Syntax trees

A program is a list of trees.  The parser only builds trees in which every part is of the right sort,
but trees are also read from files, and reading does not ask for sorts: any part may be any tree, a
bare value, a list or a token.  So there is one type of trees for all of them, and a part of the wrong
sort is noticed when it is used.
-/

namespace Scriptlet

/-- A syntax tree, or whatever stands in the place of one. -/
inductive Node where
  | null
  | bool (b : Bool)
  | int (i : Int)
  | float (x : Float)
  | str (s : String)
  | list (items : List Node)
  /-- An object, which only the literal of a token can hold. -/
  | object (members : List (String × Json))
  | token (t : Leaf)
  | literal (value : Node)
  | grouping (expression : Node)
  | unary (operator operand : Node)
  | binary (left operator right : Node)
  | logical (left operator right : Node)
  | ident (name : Node)
  | assign (name value : Node)
  | call (callee paren arguments : Node)
  | exprStmt (expression : Node)
  | printStmt (expression : Node)
  | varDecl (name initializer : Node)
  | block (statements : Node)
  | ifStmt (condition thenBranch elseBranch : Node)
  | whileStmt (condition body : Node)
  | funDecl (name params body : Node)
  | returnStmt (keyword value : Node)
deriving Inhabited

/-- What keeps a tree of the wrong sort from being used. -/
inductive Fault where
  /-- The tree stands for a statement and is none. -/
  | noStatement (node : Node)
  /-- The tree stands for an expression and is none. -/
  | noExpression (node : Node)
  /-- The tree stands for a token and has not its fields. -/
  | noToken
  /-- The tree stands for a list and is none. -/
  | noList
  /-- A text is needed, and a token holds something else. -/
  | noText
  /-- A name is needed, and a token holds a list or an object. -/
  | noName

namespace Node

/-- The name of the class that a tree belongs to. -/
def className : Node → String
  | null => "NoneType"
  | bool _ => "bool"
  | int _ => "int"
  | float _ => "float"
  | str _ => "str"
  | list _ => "list"
  | object _ => "dict"
  | token _ => "Token"
  | literal _ => "Literal"
  | grouping _ => "Grouping"
  | unary _ _ => "UnaryOp"
  | binary _ _ _ => "BinaryOp"
  | logical _ _ _ => "Logical"
  | ident _ => "Ident"
  | assign _ _ => "Assign"
  | call _ _ _ => "Call"
  | exprStmt _ => "ExprStmt"
  | printStmt _ => "PrintStmt"
  | varDecl _ _ => "VarDecl"
  | block _ => "Block"
  | ifStmt _ _ _ => "IfStmt"
  | whileStmt _ _ => "WhileStmt"
  | funDecl _ _ _ => "FuncDecl"
  | returnStmt _ _ => "ReturnStmt"

/-- The class of a tree with the module that defines it, as faults name it. -/
def qualifiedName (node : Node) : String :=
  match node with
  | null | bool _ | int _ | float _ | str _ | list _ | object _ => node.className
  | token _ => "glox.tokens." ++ node.className
  | _ => "glox.ast." ++ node.className

/-- The token that a tree is. -/
def leaf? : Node → Except Fault Leaf
  | token t => .ok t
  | _ => .error .noToken

/-- The parts of a tree that stands for a list; a text is a list of its characters. -/
def items? : Node → Except Fault (List Node)
  | list items => .ok items
  | str s => .ok (s.toList.map fun c => str c.toString)
  | _ => .error .noList

mutual

/-- A plain value as a tree. -/
def ofData : Json → Node
  | .null => null
  | .bool b => bool b
  | .int i => int i
  | .float x => float x
  | .str s => str s
  | .list items => list (ofDataItems items)
  | .object members => object members

/-- Plain values as trees. -/
def ofDataItems : List Json → List Node
  | [] => []
  | item :: rest => ofData item :: ofDataItems rest

end

end Node

namespace Leaf

/-- The text of a token, where nothing else will do. -/
def text? (t : Leaf) : Except Fault String :=
  match t.lexeme with
  | .str s => .ok s
  | _ => .error .noText

/-- The variable that a token names. -/
def name? (t : Leaf) : Except Fault Name :=
  match Name.ofJson? t.lexeme with
  | some name => .ok name
  | none => .error .noName

end Leaf

/-- A scanned token names the variable that its text names. -/
theorem Token.name?_leaf (t : Token) : t.leaf.name? = .ok (.ofText t.lexeme) := rfl

/-- The wording of a fault, for those that have one. -/
def Fault.message? : Fault → Option String
  | noStatement node => some s!"execute: unexpected node type <class '{node.qualifiedName}'>"
  | noExpression node => some s!"evaluate: unexpected node type <class '{node.qualifiedName}'>"
  | noToken => none
  | noList => none
  | noText => none
  | noName => none

end Scriptlet
