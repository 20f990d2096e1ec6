import Scriptlet.Text.Utf8
import Scriptlet.Token

/-!
# Cutting a source into chunks

A source is a list of bytes.  It is cut from left to right into chunks: a chunk is one byte of white
space, one token, or one lexical error.  What the next chunk is depends on the bytes from there on
only, never on the place in the source, so places can be counted afterwards.

Outside strings and comments only ASCII has a meaning; everywhere else a character beyond it, or a byte
that is no character, is an error of its own.
-/

namespace Scriptlet

/-- Why a chunk is no token. -/
inductive LexicalCause where
  /-- A character that begins no token. -/
  | unexpectedChar (c : Char)
  /-- A byte that belongs to no character. -/
  | unexpectedByte (b : UInt8)
  /-- A string without its closing quote. -/
  | unterminatedString
  /-- A string whose bytes are no text. -/
  | invalidString
deriving DecidableEq, Repr

/-- The two hexadecimal digits of a byte. -/
def hexByte (b : UInt8) : String :=
  String.ofList [Nat.digitChar (b.toNat / 16), Nat.digitChar (b.toNat % 16)]

/-- The wording of a lexical error. -/
def LexicalCause.message : LexicalCause → String
  | unexpectedChar c => "unexpected character: " ++ c.toString
  | unexpectedByte b => "unexpected character: \\x" ++ hexByte b
  | unterminatedString => "unterminated string"
  | invalidString => "invalid UTF-8 in string"

/-- What a chunk is. -/
inductive Content where
  /-- White space. -/
  | blank
  /-- A token of the given kind and literal. -/
  | token (kind : Kind) (literal : Option String)
  /-- A lexical error. -/
  | error (cause : LexicalCause)
deriving DecidableEq, Repr

/-- A piece of the source. -/
structure Chunk where
  /-- What it is. -/
  content : Content
  /-- Its bytes. -/
  bytes : List UInt8
deriving DecidableEq, Repr

namespace Chunk

/-- A byte as a character; bytes from 0x80 on give characters that no rule mentions. -/
def char (b : UInt8) : Char :=
  Char.ofNat b.toNat

/-- Whether a byte is the given ASCII character. -/
def is (c : Char) (b : UInt8) : Bool :=
  char b = c

/-- Whether a byte is a decimal digit. -/
def isDigit (b : UInt8) : Bool :=
  '0' ≤ char b && char b ≤ '9'

/-- Whether a byte may begin a word. -/
def isAlpha (b : UInt8) : Bool :=
  ('a' ≤ char b && char b ≤ 'z') || ('A' ≤ char b && char b ≤ 'Z') || char b = '_'

/-- Whether a byte may continue a word. -/
def isWordByte (b : UInt8) : Bool :=
  isAlpha b || isDigit b

/-- The kind of a token that consists of this one character alone. -/
def single? : Char → Option Kind
  | '(' => some .leftParen
  | ')' => some .rightParen
  | '\x7b' => some .leftBrace
  | '\x7d' => some .rightBrace
  | ',' => some .comma
  | '.' => some .dot
  | '-' => some .minus
  | '+' => some .plus
  | ';' => some .semicolon
  | '*' => some .star
  | _ => none

/-- The kinds of a character alone and with an equal sign behind it. -/
def double? : Char → Option (Kind × Kind)
  | '!' => some (.bang, .bangEqual)
  | '=' => some (.equal, .equalEqual)
  | '<' => some (.less, .lessEqual)
  | '>' => some (.greater, .greaterEqual)
  | _ => none

/-- The text of a comment: what follows the two slashes, without carriage returns at the end and
without one space at the front. -/
def commentText (bytes : List UInt8) : String :=
  let cs := (Utf8.decodeLossy (bytes.drop 2)).toList
  let cs := (cs.reverse.dropWhile (· = '\r')).reverse
  String.ofList (if cs.head? = some ' ' then cs.tail else cs)

/-- How many bytes of `rest` belong to a number whose first digit stands before `rest`: further digits,
and a point if digits follow it too. -/
def numberExtent (rest : List UInt8) : Nat :=
  let whole := (rest.takeWhile isDigit).length
  match rest.drop whole with
  | point :: digit :: more =>
    if is '.' point && isDigit digit then whole + 2 + (more.takeWhile isDigit).length else whole
  | _ => whole

/-- The chunk that begins with the byte `first`: what it is, and how many bytes of `rest` belong to it. -/
def measure (first : UInt8) (rest : List UInt8) : Content × Nat :=
  let c := char first
  if c = '\n' || c = ' ' || c = '\r' || c = '\t' then (.blank, 0)
  else if c = '/' then
    if (rest.head?.map (is '/')).getD false then
      let n := (rest.takeWhile fun b => !is '\n' b).length
      (.token .comment (some (commentText (first :: rest.take n))), n)
    else (.token .slash none, 0)
  else if let some kind := single? c then (.token kind none, 0)
  else if let some (alone, withEqual) := double? c then
    if (rest.head?.map (is '=')).getD false then (.token withEqual none, 1) else (.token alone none, 0)
  else if c = '"' then
    let body := rest.takeWhile fun b => !is '"' b
    if body.length = rest.length then (.error .unterminatedString, rest.length)
    else
      match Utf8.decode? body with
      | some text => (.token .string (some text), body.length + 1)
      | none => (.error .invalidString, body.length + 1)
  else if isDigit first then
    let n := numberExtent rest
    (.token .number (some (Utf8.decodeLossy (first :: rest.take n))), n)
  else if isAlpha first then
    let n := (rest.takeWhile isWordByte).length
    (.token (Kind.ofWord (Utf8.decodeLossy (first :: rest.take n))) none, n)
  else
    match Utf8.piece first rest with
    | (some c, n) => (.error (.unexpectedChar c), n)
    | (none, _) => (.error (.unexpectedByte first), 0)

/-- Cuts a source into its chunks. -/
def cut : List UInt8 → List Chunk
  | [] => []
  | first :: rest =>
    let (content, n) := measure first rest
    ⟨content, first :: rest.take n⟩ :: cut (rest.drop n)
termination_by bytes => bytes.length
decreasing_by simp only [List.length_drop, List.length_cons]; omega

/-- The chunks, put together again, are the source. -/
theorem flatMap_bytes_cut (source : List UInt8) : (cut source).flatMap (·.bytes) = source := by
  fun_induction cut source with
  | case1 => rfl
  | case2 first rest content n _ ih => simp [ih]

end Chunk

end Scriptlet
