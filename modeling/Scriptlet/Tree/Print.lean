import Scriptlet.Tree.Display

/-!
# Trees as text

A tree is written in parentheses, its operator or statement word first and its parts after it.  The form
is meant for reading, and for parsed programs whose numbers are finite it still determines the tree up
to the places of its tokens.  What is no tree at all is shown by the name of its class.

A name is printed as what its token holds.  That is a text unless the tree was read from a file; anything
else can be printed alone, but not among other parts, which is noticed when they are put together.
-/

namespace Scriptlet.Node

/-- The texts of some printed parts, with one blank between any two.  Each of them must be a text. -/
def join (parts : List Json) : Except Fault String :=
  " ".intercalate <$> parts.mapM fun part =>
    match part with
    | .str s => .ok s
    | _ => .error .noText

/-- A head and the parts behind it, in parentheses. -/
def parenthesize (head : Json) (parts : List Json) : Except Fault Json :=
  (fun inner => .str ("(" ++ inner ++ ")")) <$> join (head :: parts)

/-- What the tokens of a list of parameters hold for their texts. -/
def paramNames (params : Node) : Except Fault (List Json) := do
  (← params.items?).mapM fun param => Leaf.lexeme <$> param.leaf?

mutual

/-- The text of a tree, or what a bare name holds instead of one.  A part that should be a token or a
list and is none is a fault. -/
def print : Node → Except Fault Json
  | null => .ok (.str "nil")
  | list items => do
    return .str (← join (← printAll items))
  | literal value =>
    match value with
    | str s => .ok (.str ("\"" ++ s ++ "\""))
    | value => .ok (.str value.valueText)
  | grouping e => do
    parenthesize (.str "group") [← print e]
  | unary operator operand => do
    let t ← operator.leaf?
    parenthesize t.lexeme [← print operand]
  | binary left operator right => do
    let t ← operator.leaf?
    let l ← print left
    parenthesize t.lexeme [l, ← print right]
  | logical left operator right => do
    let t ← operator.leaf?
    let l ← print left
    parenthesize t.lexeme [l, ← print right]
  | ident name => do
    return (← name.leaf?).lexeme
  | assign name value => do
    let x ← (← name.leaf?).text?
    parenthesize (.str ("= " ++ x)) [← print value]
  | call callee _ arguments => do
    let _ ← arguments.items?
    let f ← print callee
    parenthesize (.str "call") (f :: (← printParts arguments))
  | exprStmt e => do
    parenthesize (.str "expr") [← print e]
  | printStmt e => do
    parenthesize (.str "print") [← print e]
  | varDecl name initializer => do
    let t ← name.leaf?
    match initializer with
    | null => return .str ("(var " ++ t.lexeme.inText ++ ")")
    | e => do
      let x ← t.text?
      parenthesize (.str ("var " ++ x)) [← print e]
  | block statements => do
    parenthesize (.str "block") (← printParts statements)
  | ifStmt condition thenBranch elseBranch => do
    let c ← print condition
    let t ← print thenBranch
    match elseBranch with
    | null => parenthesize (.str "if") [c, t]
    | e => do
      parenthesize (.str "if") [c, t, ← print e]
  | whileStmt condition body => do
    let c ← print condition
    parenthesize (.str "while") [c, ← print body]
  | funDecl name params body => do
    let names ← join (← params.paramNames)
    let t ← name.leaf?
    let head := "fun " ++ t.lexeme.inText ++ " (" ++ names ++ ")"
    parenthesize (.str head) (← printParts body)
  | returnStmt _ value =>
    match value with
    | null => .ok (.str "(return)")
    | e => do
      parenthesize (.str "return") [← print e]
  | node => .ok (.str ("<unknown node " ++ node.className ++ ">"))

/-- The texts of some trees. -/
def printAll : List Node → Except Fault (List Json)
  | [] => .ok []
  | node :: rest => do
    let text ← print node
    return text :: (← printAll rest)

/-- The texts of the parts of a tree that stands for a list. -/
def printParts : Node → Except Fault (List Json)
  | list items => printAll items
  | str s => .ok (s.toList.map fun _ => .str "<unknown node str>")
  | _ => .error .noList

end

/-! ## Lists of parts -/

/-- Texts can be put together. -/
theorem join_texts (texts : List String) : join (texts.map .str) = .ok (" ".intercalate texts) := by
  have hmap : ∀ {f : Json → Except Fault String}, (∀ text, f (.str text) = .ok text) →
      (texts.map Json.str).mapM f = .ok texts := by
    intro f hf
    induction texts with
    | nil => rfl
    | cons text rest ih =>
      rw [List.map_cons, List.mapM_cons, hf, ih]
      rfl
  unfold join
  rw [hmap fun _ => rfl]
  rfl

/-- Parameters that are tokens have names. -/
theorem paramNames_tokens (params : List Leaf) :
    paramNames (list (params.map token)) = .ok (params.map Leaf.lexeme) := by
  change (params.map token).mapM (fun param => Leaf.lexeme <$> param.leaf?) = _
  induction params with
  | nil => rfl
  | cons t params ih =>
    rw [List.map_cons, List.mapM_cons, ih]
    rfl

/-! ## Optional parts -/

/-- A declaration with an initializer. -/
theorem print_varInit {name e : Node} (he : e ≠ null) : print (varDecl name e) = (do
    let t ← name.leaf?
    let x ← t.text?
    parenthesize (.str ("var " ++ x)) [← print e]) := by
  cases e <;> first | rfl | exact absurd rfl he

/-- A conditional with both of its branches. -/
theorem print_ifElse {condition thenBranch elseBranch : Node} (he : elseBranch ≠ null) :
    print (ifStmt condition thenBranch elseBranch) = (do
      let c ← print condition
      let t ← print thenBranch
      parenthesize (.str "if") [c, t, ← print elseBranch]) := by
  cases elseBranch <;> first | rfl | exact absurd rfl he

/-- A return statement with a value. -/
theorem print_returnValue {keyword e : Node} (he : e ≠ null) : print (returnStmt keyword e) = (do
    parenthesize (.str "return") [← print e]) := by
  cases e <;> first | rfl | exact absurd rfl he

end Scriptlet.Node
