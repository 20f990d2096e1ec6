import Scriptlet.Grammar.Statement

/-!
# Programs from tokens

A list of tokens is a program up to its first end mark.  Comments do not count.  A list that does not
end with an end mark is treated as if one followed on the line after its last token; that line is a
number unless the token was read from a file.
-/

namespace Scriptlet.Grammar

/-- What the parser sees of a list of tokens. -/
structure Input where
  /-- The tokens of the program. -/
  tokens : List Leaf
  /-- The mark that ends it. -/
  stop : Leaf

/-- The tokens up to the first end mark, and that mark or else `missing`. -/
def Input.cut (missing : Leaf) : List Leaf → Input
  | [] => ⟨[], missing⟩
  | t :: rest =>
    if t.kind = .eof then ⟨[], t⟩
    else
      let later := cut missing rest
      ⟨t :: later.tokens, later.stop⟩

/-- The line after a given one, if that is a number. -/
def lineAfter? : Json → Option Json
  | .int i => some (.int (i + 1))
  | .float x => some (.float (x + 1))
  | .bool b => some (.int (if b then 2 else 1))
  | _ => none

/-- The mark that ends a list of tokens: its last token if that is one, and otherwise a mark on the line
after it, if there is such a line. -/
def endMark? (tokens : List Leaf) : Option Leaf :=
  match tokens.getLast? with
  | none => some (.endMark (.int 1))
  | some t => if t.kind = .eof then some t else (lineAfter? t.line).map .endMark

/-- What the parser sees of a list of tokens, if the list ends. -/
def Input.ofTokens? (tokens : List Leaf) : Option Input :=
  let tokens := tokens.filter (·.kind ≠ .comment)
  (endMark? tokens).map fun mark => .cut mark tokens

/-- A syntax error with the mark that ends the program. -/
structure ParseError where
  /-- What is wrong. -/
  cause : SyntaxError
  /-- The mark that ends the program. -/
  stop : Leaf

namespace ParseError

/-- The kind that is reported as found. -/
def gotName (got : Option Leaf) : String :=
  ((got.map Leaf.kind).getD Kind.eof).name

/-- The wording of a syntax error. -/
def message (error : ParseError) : String :=
  match error.cause with
  | .expected wanted got => "expected " ++ wanted.name ++ ", got " ++ gotName got
  | .expectedExpression got => "expected expression, got " ++ gotName got
  | .invalidTarget _ => "invalid assignment target"
  | .tooDeep => "expression nested too deeply"
  | .badNumber (.int _) => "int too large to convert to float"
  | .badNumber literal => "could not convert string to float: " ++ literal.display
  | .noEnd => "no line for the end of the program"

/-- The token that a syntax error is about, if it is about one. -/
def token? (error : ParseError) : Option Leaf :=
  match error.cause with
  | .expected _ got | .expectedExpression got | @SyntaxError.tooDeep got => some (got.getD error.stop)
  | .invalidTarget equals => some equals
  | .badNumber _ | .noEnd => none

/-- The place that a syntax error shows. -/
def place? (error : ParseError) : Option Place :=
  error.token?.map Leaf.place

/-- The error as it is reported. -/
def text (error : ParseError) : String :=
  located error.message error.place?

end ParseError

/-- The nesting limit of the parser. -/
def nestingLimit : Nat := 1000

/-- The statements of a program, whose constructs are nested at most `limit` deep. -/
def parseWithin (limit : Nat) (tokens : List Leaf) : Except ParseError (List Node) :=
  match Input.ofTokens? tokens with
  | none => .error ⟨.noEnd, .endMark .null⟩
  | some input =>
    match (program limit).run input.tokens with
    | .ok (statements, _) => .ok statements
    | .error cause => .error ⟨cause, input.stop⟩

/-- The statements of a program. -/
def parse (tokens : List Leaf) : Except ParseError (List Node) :=
  parseWithin nestingLimit tokens

end Scriptlet.Grammar
