/-!
# Tokens

A token is a piece of source text with its kind, an optional decoded literal and the place it was cut
from.  Places count lines from one and bytes within a line from zero; they serve diagnostics only.
-/

namespace Scriptlet

/-- The kinds of tokens. -/
inductive Kind where
  | leftParen | rightParen | leftBrace | rightBrace | comma | dot | minus | plus | semicolon | slash | star
  | bang | bangEqual | equal | equalEqual | greater | greaterEqual | less | lessEqual
  | identifier | string | number | comment
  | andWord | classWord | elseWord | falseWord | funWord | forWord | ifWord | nilWord | orWord | printWord
  | returnWord | superWord | thisWord | trueWord | varWord | whileWord
  | eof
deriving DecidableEq, Repr, Inhabited

namespace Kind

/-- The name that a kind is reported under. -/
def name : Kind → String
  | leftParen => "leftparen"
  | rightParen => "rightparen"
  | leftBrace => "leftbrace"
  | rightBrace => "rightbrace"
  | comma => "comma"
  | dot => "dot"
  | minus => "minus"
  | plus => "plus"
  | semicolon => "semicolon"
  | slash => "slash"
  | star => "star"
  | bang => "bang"
  | bangEqual => "bangequal"
  | equal => "equal"
  | equalEqual => "equalequal"
  | greater => "greater"
  | greaterEqual => "greaterequal"
  | less => "less"
  | lessEqual => "lessequal"
  | identifier => "identifier"
  | string => "string"
  | number => "number"
  | comment => "comment"
  | andWord => "and"
  | classWord => "class"
  | elseWord => "else"
  | falseWord => "false"
  | funWord => "fun"
  | forWord => "for"
  | ifWord => "if"
  | nilWord => "nil"
  | orWord => "or"
  | printWord => "print"
  | returnWord => "return"
  | superWord => "super"
  | thisWord => "this"
  | trueWord => "true"
  | varWord => "var"
  | whileWord => "while"
  | eof => "eof"

/-- Every kind. -/
def all : List Kind :=
  [leftParen, rightParen, leftBrace, rightBrace, comma, dot, minus, plus, semicolon, slash,
   star, bang, bangEqual, equal, equalEqual, greater, greaterEqual, less, lessEqual,
   identifier, string, number, comment, andWord, classWord, elseWord, falseWord, funWord,
   forWord, ifWord, nilWord, orWord, printWord, returnWord, superWord, thisWord, trueWord,
   varWord, whileWord, eof]

/-- No kind is missing from the list. -/
theorem mem_all (kind : Kind) : kind ∈ all := by
  cases kind <;> decide

/-- The kind of a given name. -/
def ofName? (text : String) : Option Kind :=
  all.find? fun kind => kind.name = text

/-- Every kind is the kind of its name. -/
theorem ofName?_name (kind : Kind) : ofName? kind.name = some kind := by
  cases kind <;> decide

/-- The reserved words. -/
def words : List Kind :=
  [andWord, classWord, elseWord, falseWord, funWord, forWord, ifWord, nilWord, orWord, printWord,
   returnWord, superWord, thisWord, trueWord, varWord, whileWord]

/-- The kind of a word: its own one if it is reserved, and an identifier otherwise. -/
def ofWord (text : String) : Kind :=
  (words.find? fun kind => kind.name = text).getD identifier

end Kind

/-- A place in the source, for diagnostics. -/
structure Position where
  /-- The line, counted from one. -/
  line : Int
  /-- The byte within the line, counted from zero. -/
  column : Int
deriving DecidableEq, Repr, Inhabited

/-- The bytes of one line that a token was cut from, or for a token over several lines its first line
and its length. -/
structure Span where
  /-- The line of the first byte. -/
  line : Int
  /-- The column of the first byte. -/
  start : Int
  /-- The start plus the number of bytes. -/
  stop : Int
deriving DecidableEq, Repr, Inhabited

/-- The place of the first byte. -/
def Span.position (span : Span) : Position :=
  ⟨span.line, span.start⟩

/-- A piece of the source. -/
structure Token where
  /-- What the piece is. -/
  kind : Kind
  /-- Its text. -/
  lexeme : String
  /-- The text it denotes, for strings, numbers and comments. -/
  literal : Option String
  /-- Where it stands. -/
  span : Span
deriving DecidableEq, Repr, Inhabited

namespace Token

/-- The place that diagnostics about a token show. -/
def position (token : Token) : Position :=
  token.span.position

/-- The end of a source whose last line is the one before `line`. -/
def endOfSource (line : Int) : Token :=
  ⟨.eof, "", none, ⟨line, 0, 0⟩⟩

end Token

end Scriptlet
