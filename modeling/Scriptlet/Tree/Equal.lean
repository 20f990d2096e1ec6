import Scriptlet.Tree

/-!
# Equality of trees

Two trees are equal when they are of one class and their parts are equal.  Bare values and the fields of
tokens are compared as values, so that numbers are equal when they stand for one number.
-/

namespace Scriptlet

/-- Equality of two tokens, field by field. -/
def Leaf.equal (t u : Leaf) : Bool :=
  t.kind = u.kind && t.lexeme.equal u.lexeme && t.literal.equal u.literal && t.line.equal u.line
    && t.start.equal u.start && t.stop.equal u.stop

namespace Node

/-- The value that a tree is, if it is a bare one or an object. -/
def plain? : Node → Option Json
  | null => some .null
  | bool b => some (.bool b)
  | int i => some (.int i)
  | float x => some (.float x)
  | str s => some (.str s)
  | object members => some (.object members)
  | _ => none

/-- Equality of two trees that have no trees for their parts. -/
def equalLeaf : Node → Node → Bool
  | token t, token u => t.equal u
  | a, b =>
    match a.plain?, b.plain? with
    | some x, some y => x.equal y
    | _, _ => false

mutual

/-- Equality of two trees. -/
def equal : Node → Node → Bool
  | list xs, list ys => equalAll xs ys
  | literal a, literal b => equal a b
  | grouping a, grouping b => equal a b
  | unary a b, unary a' b' => equal a a' && equal b b'
  | binary a b c, binary a' b' c' => equal a a' && equal b b' && equal c c'
  | logical a b c, logical a' b' c' => equal a a' && equal b b' && equal c c'
  | ident a, ident b => equal a b
  | assign a b, assign a' b' => equal a a' && equal b b'
  | call a b c, call a' b' c' => equal a a' && equal b b' && equal c c'
  | exprStmt a, exprStmt b => equal a b
  | printStmt a, printStmt b => equal a b
  | varDecl a b, varDecl a' b' => equal a a' && equal b b'
  | block a, block b => equal a b
  | ifStmt a b c, ifStmt a' b' c' => equal a a' && equal b b' && equal c c'
  | whileStmt a b, whileStmt a' b' => equal a a' && equal b b'
  | funDecl a b c, funDecl a' b' c' => equal a a' && equal b b' && equal c c'
  | returnStmt a b, returnStmt a' b' => equal a a' && equal b b'
  | a, b => equalLeaf a b

/-- Equality of two lists of trees. -/
def equalAll : List Node → List Node → Bool
  | [], [] => true
  | a :: as, b :: bs => equal a b && equalAll as bs
  | _, _ => false

end

end Node

end Scriptlet
