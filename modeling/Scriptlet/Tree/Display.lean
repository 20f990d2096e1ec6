import Scriptlet.Json.Display
import Scriptlet.Tree

/-!
# Showing trees as values

The value of a literal is usually a number, a text, a truth value or nothing.  In a tree read from a
file it may be a list, a token or another tree.  A script can still print it: it is shown as the
expression that builds it, each part after the name of its field.
-/

namespace Scriptlet

/-- The name of a kind as a constant. -/
def Kind.constant : Kind → String
  | .leftParen => "LEFT_PAREN"
  | .rightParen => "RIGHT_PAREN"
  | .leftBrace => "LEFT_BRACE"
  | .rightBrace => "RIGHT_BRACE"
  | .bangEqual => "BANG_EQUAL"
  | .equalEqual => "EQUAL_EQUAL"
  | .greaterEqual => "GREATER_EQUAL"
  | .lessEqual => "LESS_EQUAL"
  | kind => kind.name.toUpper

/-- A kind as the expression that denotes it. -/
def Kind.display (kind : Kind) : String :=
  "<TokenType." ++ kind.constant ++ ": " ++ Text.quoted kind.name ++ ">"

/-- A token as the expression that builds it. -/
def Leaf.display (t : Leaf) : String :=
  "Token(type=" ++ t.kind.display ++ ", lexeme=" ++ t.lexeme.display ++ ", literal="
    ++ t.literal.display ++ ", pos=Position(line=" ++ t.line.display ++ ", start=" ++ t.start.display
    ++ ", end=" ++ t.stop.display ++ "))"

namespace Node

/-- A class applied to its fields. -/
def displayClass (name : String) (fields : List (String × String)) : String :=
  name ++ "(" ++ ", ".intercalate (fields.map fun f => f.1 ++ "=" ++ f.2) ++ ")"

mutual

/-- A tree as the expression that builds it. -/
def display : Node → String
  | null => Json.null.display
  | bool b => Json.showBool b
  | int i => toString i
  | float x => Decimal.canonical x
  | str s => Text.quoted s
  | list items => "[" ++ ", ".intercalate (displayItems items) ++ "]"
  | object members => (Json.object members).display
  | token t => t.display
  | literal value => displayClass "Literal" [("value", value.display)]
  | grouping e => displayClass "Grouping" [("expression", e.display)]
  | unary op e => displayClass "UnaryOp" [("operator", op.display), ("operand", e.display)]
  | binary l op r =>
    displayClass "BinaryOp" [("left", l.display), ("operator", op.display), ("right", r.display)]
  | logical l op r =>
    displayClass "Logical" [("left", l.display), ("operator", op.display), ("right", r.display)]
  | ident name => displayClass "Ident" [("name", name.display)]
  | assign name value => displayClass "Assign" [("name", name.display), ("value", value.display)]
  | call f paren args =>
    displayClass "Call"
      [("callee", f.display), ("paren", paren.display), ("arguments", args.display)]
  | exprStmt e => displayClass "ExprStmt" [("expression", e.display)]
  | printStmt e => displayClass "PrintStmt" [("expression", e.display)]
  | varDecl name init => displayClass "VarDecl" [("name", name.display), ("initializer", init.display)]
  | block body => displayClass "Block" [("statements", body.display)]
  | ifStmt c t e =>
    displayClass "IfStmt"
      [("condition", c.display), ("then_branch", t.display), ("else_branch", e.display)]
  | whileStmt c body => displayClass "WhileStmt" [("condition", c.display), ("body", body.display)]
  | funDecl name params body =>
    displayClass "FuncDecl"
      [("name", name.display), ("params", params.display), ("body", body.display)]
  | returnStmt keyword value =>
    displayClass "ReturnStmt" [("keyword", keyword.display), ("value", value.display)]

/-- The items of a list, each as the expression that builds it. -/
def displayItems : List Node → List String
  | [] => []
  | item :: rest => display item :: displayItems rest

end

/-- A tree as it is put into a line of text: a text stands for itself, a token is described, and
anything else is displayed. -/
def inText : Node → String
  | str s => s
  | token t => t.describe
  | node => node.display

/-- The text that a script prints for the value of a literal. -/
def valueText : Node → String
  | null => "nil"
  | bool b => if b then "true" else "false"
  | float x => Decimal.printed x
  | node => node.inText

end Node

end Scriptlet
