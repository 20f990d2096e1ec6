import Scriptlet.Place
import Scriptlet.Token.Chunk

/-!
# Scanning

Scanning cuts a source into chunks and counts their places.  Nothing stops it: every lexical error is
collected next to the tokens, so all of them can be reported at once.  The tokens end with one that
marks the end of the source and is placed on a line of its own.
-/

namespace Scriptlet

/-- A lexical error and the place of the chunk it is about. -/
structure LexicalError where
  /-- What is wrong. -/
  cause : LexicalCause
  /-- Where. -/
  position : Position
deriving DecidableEq, Repr

/-- The error as it is reported. -/
def LexicalError.text (error : LexicalError) : String :=
  located error.cause.message (some error.position.place)

/-- What scanning a source finds. -/
structure Scan where
  /-- The tokens, the end of the source included. -/
  tokens : List Token
  /-- The lexical errors. -/
  errors : List LexicalError
deriving DecidableEq, Repr

/-- A place between two bytes of a source. -/
structure Cursor where
  /-- The line, counted from one. -/
  line : Nat
  /-- The number of bytes since the line began. -/
  column : Nat
deriving DecidableEq, Repr

namespace Cursor

/-- The place before the first byte. -/
def start : Cursor := ⟨1, 0⟩

/-- The place behind a byte. -/
def step (place : Cursor) (b : UInt8) : Cursor :=
  if Chunk.is '\n' b then ⟨place.line + 1, 0⟩ else ⟨place.line, place.column + 1⟩

/-- The place behind some bytes. -/
def after (place : Cursor) (bytes : List UInt8) : Cursor :=
  bytes.foldl step place

/-- Places are counted piece by piece. -/
theorem after_append (place : Cursor) (a b : List UInt8) :
    place.after (a ++ b) = (place.after a).after b := by
  simp [after]

/-- The place as diagnostics show it. -/
def position (place : Cursor) : Position :=
  ⟨place.line, place.column⟩

/-- The span of a chunk of `n` bytes that begins here. -/
def span (place : Cursor) (n : Nat) : Span :=
  ⟨place.line, place.column, (place.column + n : Nat)⟩

end Cursor

namespace Scan

/-- Gives the chunks their places, the first of them at `place`. -/
def ofChunks (place : Cursor) : List Chunk → Scan
  | [] => ⟨[.endOfSource (place.line + 1 : Nat)], []⟩
  | chunk :: rest =>
    let later := ofChunks (place.after chunk.bytes) rest
    match chunk.content with
    | .blank => later
    | .token kind literal =>
      let token : Token :=
        ⟨kind, Utf8.decodeLossy chunk.bytes, literal, place.span chunk.bytes.length⟩
      ⟨token :: later.tokens, later.errors⟩
    | .error cause => ⟨later.tokens, ⟨cause, place.position⟩ :: later.errors⟩

/-- The tokens and lexical errors of a source. -/
def ofBytes (source : List UInt8) : Scan :=
  ofChunks .start (Chunk.cut source)

/-- The tokens and lexical errors of a text. -/
def ofText (source : String) : Scan :=
  ofBytes (Utf8.encode source)

/-- The number of opening braces less the number of closing ones. -/
def openBraces (scan : Scan) : Int :=
  scan.tokens.foldl (fun depth token =>
    match token.kind with
    | .leftBrace => depth + 1
    | .rightBrace => depth - 1
    | _ => depth) 0

end Scan

end Scriptlet
