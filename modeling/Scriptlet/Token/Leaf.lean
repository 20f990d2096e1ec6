import Scriptlet.Place

/-!
# Tokens as leaves

A token that was scanned has a text, perhaps a literal, and a span of numbers.  A token that was read from
a file has the same fields, but any of them may hold anything.  A *leaf* is a token of either origin; the
scanned ones are among the leaves, and programs are parsed from leaves and have leaves in their trees.
-/

namespace Scriptlet

/-- A token with whatever its fields hold. -/
structure Leaf where
  /-- What it is. -/
  kind : Kind
  /-- What stands for its text. -/
  lexeme : Json
  /-- What stands for the text it denotes. -/
  literal : Json
  /-- What stands for its line. -/
  line : Json
  /-- What stands for the column of its first byte. -/
  start : Json
  /-- What stands for the column behind its last byte. -/
  stop : Json
deriving Inhabited

namespace Leaf

/-- The place that messages about a leaf show. -/
def place (t : Leaf) : Place :=
  ⟨t.line, t.start⟩

/-- The end mark on a given line. -/
def endMark (line : Json) : Leaf :=
  ⟨.eof, .str "", .null, line, .int 0, .int 0⟩

/-- One line that describes a leaf. -/
def describe (t : Leaf) : String :=
  "Line " ++ t.line.inText ++ " [" ++ t.start.inText ++ ":" ++ t.stop.inText ++ "] Type "
    ++ t.kind.name ++ " '" ++ t.lexeme.inText ++ "' " ++ t.literal.inText

end Leaf

namespace Token

/-- The leaf that a scanned token is. -/
def leaf (t : Token) : Leaf :=
  ⟨t.kind, .str t.lexeme, (t.literal.map Json.str).getD .null, .int t.span.line, .int t.span.start,
   .int t.span.stop⟩

/-- Different tokens are different leaves. -/
theorem leaf_inj {t u : Token} : t.leaf = u.leaf ↔ t = u := by
  obtain ⟨_, _, literal, ⟨_, _, _⟩⟩ := t
  obtain ⟨_, _, literal', ⟨_, _, _⟩⟩ := u
  cases literal <;> cases literal' <;> simp [leaf]

/-- A scanned token is placed at its position. -/
theorem place_leaf (t : Token) : t.leaf.place = t.position.place := rfl

/-- One line that describes a token. -/
def describe (t : Token) : String :=
  t.leaf.describe

end Token

end Scriptlet
