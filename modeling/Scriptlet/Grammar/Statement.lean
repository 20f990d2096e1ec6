import Scriptlet.Grammar.Expression

/-!
# Statements and programs

A declaration is a variable, a function or any other statement.  A `for` statement has no tree of its
own: it stands for a block that holds its initializer and a `while` statement, whose body is a block
that ends with the increment.
-/

namespace Scriptlet.Grammar

/-- A variable declaration behind its word. -/
def varDeclaration (expression : Parse Node) : Parse Node := do
  let name ← expect .identifier
  let initializer ←
    match ← accept? (· = .equal) with
    | none => pure .null
    | some _ => expression
  let _ ← expect .semicolon
  return .varDecl (.token name) initializer

/-- The statements of a block behind its opening brace, and the closing one. -/
def block (declaration : Parse Node) : Parse (List Node) := do
  let body ← itemsUntil .rightBrace declaration
  let _ ← expect .rightBrace
  return body

/-- The parameters of a function behind the opening parenthesis, and the closing one. -/
def parameters : Parse (List Leaf) := do
  let params ← if ← isNext .rightParen then pure [] else separated .comma (expect .identifier)
  let _ ← expect .rightParen
  return params

/-- A function declaration behind its word. -/
def funDeclaration (declaration : Parse Node) : Parse Node := do
  let name ← expect .identifier
  let _ ← expect .leftParen
  let params ← parameters
  let _ ← expect .leftBrace
  let body ← block declaration
  return .funDecl (.token name) (.list (params.map Node.token)) (.list body)

/-- An expression as a statement. -/
def expressionStatement (expression : Parse Node) : Parse Node := do
  let e ← expression
  let _ ← expect .semicolon
  return .exprStmt e

/-- A print statement behind its word. -/
def printStatement (expression : Parse Node) : Parse Node := do
  let e ← expression
  let _ ← expect .semicolon
  return .printStmt e

/-- An `if` statement behind its word. -/
def ifStatement (expression statement : Parse Node) : Parse Node := do
  let condition ← expression
  let thenBranch ← statement
  match ← accept? (· = .elseWord) with
  | none => return .ifStmt condition thenBranch .null
  | some _ => return .ifStmt condition thenBranch (← statement)

/-- A `while` statement behind its word. -/
def whileStatement (expression statement : Parse Node) : Parse Node := do
  let condition ← expression
  return .whileStmt condition (← statement)

/-- A `return` statement behind its word, which is `keyword`. -/
def returnStatement (expression : Parse Node) (keyword : Leaf) : Parse Node := do
  let value ← if ← isNext .semicolon then pure .null else expression
  let _ ← expect .semicolon
  return .returnStmt (.token keyword) value

/-- The loop that a `for` statement stands for. -/
def forLoop (initializer? : Option Node) (condition : Node) (increment? : Option Node) (body : Node) :
    Node :=
  let turn := Node.block (.list (body :: (increment?.map Node.exprStmt).toList))
  .block (.list (initializer?.toList ++ [.whileStmt condition turn]))

/-- The initializer of a `for` statement, with its semicolon. -/
def forInitializer (expression : Parse Node) : Parse (Option Node) := do
  match ← accept? (· = .semicolon) with
  | some _ => return none
  | none =>
    match ← accept? (· = .varWord) with
    | some _ => return some (← varDeclaration expression)
    | none => return some (← expressionStatement expression)

/-- A `for` statement behind its word. -/
def forStatement (expression statement : Parse Node) : Parse Node := do
  let _ ← expect .leftParen
  let initializer? ← forInitializer expression
  let condition ← if ← isNext .semicolon then pure (.literal (.bool true)) else expression
  let _ ← expect .semicolon
  let increment? ← if ← isNext .rightParen then pure none else some <$> expression
  let _ ← expect .rightParen
  return forLoop initializer? condition increment? (← statement)

mutual

/-- A declaration, nested at most `limit` deep. -/
def declaration : (limit : Nat) → Parse Node
  | 0 => beyondLimit
  | limit + 1 => fun tokens =>
    match tokens with
    | [] => statement limit []
    | t :: rest =>
      match t.kind with
      | .varWord => varDeclaration (expression limit) rest
      | .funWord => funDeclaration (declaration limit) rest
      | _ => statement limit (t :: rest)

/-- A statement that is no declaration, nested at most `limit` deep. -/
def statement : (limit : Nat) → Parse Node
  | 0 => beyondLimit
  | limit + 1 => fun tokens =>
    match tokens with
    | [] => expressionStatement (expression limit) []
    | t :: rest =>
      match t.kind with
      | .ifWord => ifStatement (expression limit) (statement limit) rest
      | .printWord => printStatement (expression limit) rest
      | .leftBrace => ((Node.block ∘ Node.list) <$> block (declaration limit)) rest
      | .whileWord => whileStatement (expression limit) (statement limit) rest
      | .forWord => forStatement (expression limit) (statement limit) rest
      | .returnWord => returnStatement (expression limit) t rest
      | _ => expressionStatement (expression limit) (t :: rest)

end

/-- The statements up to the end of the program. -/
def program (limit : Nat) : Parse (List Node) :=
  itemsUntil .eof (declaration limit)

end Scriptlet.Grammar
