/-!
# UTF-8, well formed or not

Sources arrive as bytes, and bytes need not be text.  Here a list of bytes is cut into pieces: each
piece is one encoded character, or one *maximal ill-formed subpart*, the longest run of bytes that
begins some character without completing it.  The strict reading fails on the first ill-formed piece,
the lossy reading replaces each of them by U+FFFD, one replacement for one piece.
-/

namespace Scriptlet.Utf8

/-- The number of bytes that a lead byte announces, itself included; one for a byte that leads no
longer sequence. -/
def announced (lead : UInt8) : Nat :=
  if 0xC2 ≤ lead ∧ lead ≤ 0xDF then 2
  else if 0xE0 ≤ lead ∧ lead ≤ 0xEF then 3
  else if 0xF0 ≤ lead ∧ lead ≤ 0xF4 then 4
  else 1

/-- The least and greatest byte that may stand second after a lead byte.  The narrow ranges rule out
overlong forms, surrogates and code points above U+10FFFF. -/
def secondRange (lead : UInt8) : UInt8 × UInt8 :=
  if lead = 0xE0 then (0xA0, 0xBF)
  else if lead = 0xED then (0x80, 0x9F)
  else if lead = 0xF0 then (0x90, 0xBF)
  else if lead = 0xF4 then (0x80, 0x8F)
  else (0x80, 0xBF)

/-- The bits of the code point that the lead byte of a sequence of `n` bytes carries. -/
def leadBits (lead : UInt8) (n : Nat) : Nat :=
  lead.toNat % Nat.pow 2 (7 - n)

/-- Reads `need` continuation bytes, the first of them between `lo` and `hi`, on top of the bits in
`code`.  Gives the finished code point, if there is one, and the number of bytes that fitted. -/
def follow : (need : Nat) → (lo hi : UInt8) → (code : Nat) → List UInt8 → Option Nat × Nat
  | 0, _, _, code, _ => (some code, 0)
  | _ + 1, _, _, _, [] => (none, 0)
  | need + 1, lo, hi, code, b :: rest =>
    if lo ≤ b ∧ b ≤ hi then
      let (result, used) := follow need 0x80 0xBF (code * 64 + b.toNat % 64) rest
      (result, used + 1)
    else (none, 0)

/-- The piece that starts with the byte `lead`: its character, or nothing when it is ill formed, and
the number of bytes of `rest` that belong to it. -/
def piece (lead : UInt8) (rest : List UInt8) : Option Char × Nat :=
  if lead < 0x80 then (some (Char.ofNat lead.toNat), 0)
  else
    match announced lead with
    | 0 | 1 => (none, 0)
    | n + 2 =>
      let (lo, hi) := secondRange lead
      let (code, used) := follow (n + 1) lo hi (leadBits lead (n + 2)) rest
      (code.map Char.ofNat, used)

/-- Cuts bytes into characters and maximal ill-formed subparts. -/
def pieces : List UInt8 → List (Option Char)
  | [] => []
  | lead :: rest => (piece lead rest).1 :: pieces (rest.drop (piece lead rest).2)
termination_by bytes => bytes.length
decreasing_by simp only [List.length_drop, List.length_cons]; omega

/-- The text that the bytes encode, if they are well formed. -/
def decode? (bytes : List UInt8) : Option String :=
  ((pieces bytes).mapM id).map String.ofList

/-- The text that the bytes encode, with U+FFFD for each ill-formed piece. -/
def decodeLossy (bytes : List UInt8) : String :=
  String.ofList ((pieces bytes).map (·.getD '\uFFFD'))

/-- The bytes of a text. -/
def encode (text : String) : List UInt8 :=
  text.toUTF8.toList

/-! ## Boundaries of well-formedness -/

/-- Overlong forms, surrogates and code points beyond the last one are ill formed. -/
example : decode? [0xC0, 0x80] = none ∧ decode? [0xE0, 0x80, 0x80] = none ∧
    decode? [0xED, 0xA0, 0x80] = none ∧ decode? [0xF4, 0x90, 0x80, 0x80] = none := by
  decide +kernel

/-- The last code point is well formed. -/
example : pieces [0xF4, 0x8F, 0xBF, 0xBF] = [some (Char.ofNat 0x10FFFF)] := by
  decide +kernel

/-- A sequence that breaks off is one piece, however far it came; bytes that begin nothing are one piece
each. -/
example : pieces [0xE2, 0x82] = [none] ∧ pieces [0xF0, 0x9F, 0x98, 0x41] = [none, some 'A'] ∧
    pieces [0xE0, 0x80, 0x80] = [none, none, none] := by
  decide +kernel

end Scriptlet.Utf8
