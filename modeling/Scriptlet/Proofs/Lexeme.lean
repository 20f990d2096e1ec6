import Scriptlet.Proofs.Utf8
import Scriptlet.Token.Scan

/-!
# Lexemes

A lexeme is the bytes of one token: a fixed operator, a comment, a string, a number or a word.  What a
lexeme is, and what the pieces of a source that are no lexeme can be, is said here about bytes alone.
The bytes that the scanner measures off are lexemes and errors in this sense, and the scanner never
measures off less than a lexeme that the source goes on with.
-/

namespace Scriptlet

/-! ## Bytes with a meaning -/

/-- The bytes of white space: space, tabulator, line feed, carriage return. -/
def blankBytes : List UInt8 := [0x20, 0x09, 0x0A, 0x0D]

/-- The line feed. -/
def newline : UInt8 := 0x0A

/-- The double quote. -/
def quote : UInt8 := 0x22

/-- The slash. -/
def slash : UInt8 := 0x2F

/-- The decimal point. -/
def point : UInt8 := 0x2E

/-- A decimal digit. -/
def IsDigitByte (b : UInt8) : Prop := 0x30 ≤ b ∧ b ≤ 0x39

/-- A letter or an underscore. -/
def IsLetterByte (b : UInt8) : Prop := (0x61 ≤ b ∧ b ≤ 0x7A) ∨ (0x41 ≤ b ∧ b ≤ 0x5A) ∨ b = 0x5F

/-- The fixed operators. -/
def operators : List (String × Kind) :=
  [("(", .leftParen), (")", .rightParen), ("\x7b", .leftBrace), ("\x7d", .rightBrace), (",", .comma),
   (".", .dot), ("-", .minus), ("+", .plus), (";", .semicolon), ("/", .slash), ("*", .star),
   ("!", .bang), ("!=", .bangEqual), ("=", .equal), ("==", .equalEqual), (">", .greater),
   (">=", .greaterEqual), ("<", .less), ("<=", .lessEqual)]

/-! ## Lexemes and errors -/

/-- Digits, and perhaps a point and digits behind it. -/
inductive IsNumber : List UInt8 → Prop
  | whole {digits : List UInt8} :
      digits ≠ [] → (∀ b ∈ digits, IsDigitByte b) → IsNumber digits
  | fraction {whole digits : List UInt8} :
      whole ≠ [] → (∀ b ∈ whole, IsDigitByte b) → digits ≠ [] → (∀ b ∈ digits, IsDigitByte b) →
      IsNumber (whole ++ point :: digits)

/-- A letter, and letters and digits behind it. -/
inductive IsWord : List UInt8 → Prop
  | intro {first : UInt8} {rest : List UInt8} :
      IsLetterByte first → (∀ b ∈ rest, IsLetterByte b ∨ IsDigitByte b) → IsWord (first :: rest)

/-- The kind of a word: reserved words have their own kinds, all others are identifiers. -/
def IsWordKind (kind : Kind) (text : String) : Prop :=
  (kind ∈ Kind.words ∧ kind.name = text) ∨
    (kind = .identifier ∧ ∀ word ∈ Kind.words, word.name ≠ text)

example : Kind.words.map Kind.name =
    ["and", "class", "else", "false", "fun", "for", "if", "nil", "or", "print", "return", "super", "this",
      "true", "var", "while"] := rfl

/-- The bytes of a token, with its kind and literal. -/
inductive IsLexeme : Kind → Option String → List UInt8 → Prop
  | operator {text : String} {kind : Kind} :
      (text, kind) ∈ operators → IsLexeme kind none (Utf8.encode text)
  | comment {body : List UInt8} :
      newline ∉ body →
      IsLexeme .comment (some (Chunk.commentText (slash :: slash :: body))) (slash :: slash :: body)
  | string {text : String} :
      quote ∉ Utf8.encode text → IsLexeme .string (some text) (quote :: Utf8.encode text ++ [quote])
  | number {text : String} : IsNumber (Utf8.encode text) → IsLexeme .number (some text) (Utf8.encode text)
  | word {text : String} {kind : Kind} :
      IsWord (Utf8.encode text) → IsWordKind kind text → IsLexeme kind none (Utf8.encode text)

/-- The bytes that a lexical error is about, with the bytes of the source behind them. -/
inductive IsLexicalError : LexicalCause → List UInt8 → List UInt8 → Prop
  /-- A character that begins neither white space nor a string. -/
  | unexpectedChar {c : Char} {rest : List UInt8} :
      (∀ b ∈ quote :: blankBytes, String.utf8EncodeChar c ≠ [b]) →
      IsLexicalError (.unexpectedChar c) (String.utf8EncodeChar c) rest
  /-- A byte that begins no character. -/
  | unexpectedByte {b : UInt8} {rest : List UInt8} :
      (∀ c, ¬ String.utf8EncodeChar c <+: b :: rest) → IsLexicalError (.unexpectedByte b) [b] rest
  /-- A string up to the end of the source, which has no closing quote. -/
  | unterminatedString {body : List UInt8} :
      quote ∉ body → IsLexicalError .unterminatedString (quote :: body) []
  /-- A string whose bytes are no text. -/
  | invalidString {body rest : List UInt8} :
      quote ∉ body → (∀ text, body ≠ Utf8.encode text) →
      IsLexicalError .invalidString (quote :: body ++ [quote]) rest

namespace Chunk

variable {first : UInt8} {rest : List UInt8}

/-! ## What the tables say, byte by byte -/

/-- A byte that is no white space, no slash, no quote and begins no other operator. -/
def isOther (b : UInt8) : Bool :=
  !(char b = '\n' || char b = ' ' || char b = '\r' || char b = '\t') && char b != '/' &&
    (single? (char b)).isNone && (double? (char b)).isNone && char b != '"'

/-- The classes of bytes that the scanner tells apart. -/
lemma classes (b : UInt8) :
    ((isDigit b = true ↔ IsDigitByte b) ∧ (isAlpha b = true ↔ IsLetterByte b)) ∧
      ((is '\n' b = true ↔ b = newline) ∧ (is '"' b = true ↔ b = quote) ∧ (is '/' b = true ↔ b = slash) ∧
        (is '.' b = true ↔ b = point) ∧ (is '=' b = true ↔ b = 0x3D)) ∧
      (isDigit b = true → isOther b = true) ∧ (isAlpha b = true → isOther b = true ∧ ¬ isDigit b = true) ∧
      (b ∈ blankBytes ∨ b = slash ∨ b = quote ∨ (single? (char b)).isSome ∨ (double? (char b)).isSome ∨
        isOther b = true) := by
  revert b
  unfold IsDigitByte IsLetterByte
  decide +kernel

/-- The operators that begin with a byte, as the scanner and as the grammar have them. -/
lemma operators_of_byte (b : UInt8) :
    ((single? (char b)).isSome = true ∨ (double? (char b)).isSome = true →
      (char b = '\n' || char b = ' ' || char b = '\r' || char b = '\t') = false ∧ char b ≠ '/') ∧
      (∀ kind ∈ single? (char b), ∃ op ∈ operators, op.2 = kind ∧ Utf8.encode op.1 = [b]) ∧
      ∀ kinds ∈ double? (char b), single? (char b) = none ∧
        (∃ op ∈ operators, op.2 = kinds.1 ∧ Utf8.encode op.1 = [b]) ∧
          ∃ op ∈ operators, op.2 = kinds.2 ∧ Utf8.encode op.1 = [b, 0x3D] := by
  revert b
  decide +kernel

/-- The scanner's digits are the digits of the language. -/
lemma isDigit_iff (b : UInt8) : isDigit b = true ↔ IsDigitByte b :=
  (classes b).1.1

/-- The scanner's letters are the letters of the language. -/
lemma isAlpha_iff (b : UInt8) : isAlpha b = true ↔ IsLetterByte b :=
  (classes b).1.2

/-- A word goes on with letters and digits. -/
lemma isWordByte_iff (b : UInt8) : isWordByte b = true ↔ IsLetterByte b ∨ IsDigitByte b := by
  rw [isWordByte, Bool.or_eq_true, isAlpha_iff, isDigit_iff]

/-- A byte is an ASCII character when its number is that of the character. -/
lemma is_iff (b : UInt8) : (is '\n' b = true ↔ b = newline) ∧ (is '"' b = true ↔ b = quote) ∧
    (is '/' b = true ↔ b = slash) ∧ (is '.' b = true ↔ b = point) ∧ (is '=' b = true ↔ b = 0x3D) :=
  (classes b).2.1

/-! ## What is measured off, by the first byte -/

/-- The bytes of white space are measured off one by one. -/
lemma measure_blank (h : first ∈ blankBytes) (rest : List UInt8) : measure first rest = (.blank, 0) := by
  simp only [blankBytes, List.mem_cons, List.not_mem_nil, or_false] at h
  rcases h with rfl | rfl | rfl | rfl <;> rfl

/-- A slash that is not followed by another one stands alone. -/
lemma measure_slash (h : ∀ b ∈ rest.head?, b ≠ slash) :
    measure slash rest = (.token .slash none, 0) := by
  have hhead : (rest.head?.map (is '/')).getD false = false := by
    cases rest with
    | nil => rfl
    | cons b more => exact Bool.eq_false_iff.mpr (mt (is_iff b).2.2.1.mp (h b rfl))
  have hmeasure : measure slash rest =
      if (rest.head?.map (is '/')).getD false then
        (.token .comment (some (commentText (slash :: rest.take (rest.takeWhile fun b => !is '\n' b).length))),
          (rest.takeWhile fun b => !is '\n' b).length)
      else (.token .slash none, 0) := rfl
  rw [hmeasure, hhead]
  rfl

/-- Behind a quote the scanner looks for the next one. -/
lemma measure_quote : measure quote rest =
    if (rest.takeWhile fun b => !is '"' b).length = rest.length then
      (.error .unterminatedString, rest.length)
    else
      match Utf8.decode? (rest.takeWhile fun b => !is '"' b) with
      | some text => (.token .string (some text), (rest.takeWhile fun b => !is '"' b).length + 1)
      | none => (.error .invalidString, (rest.takeWhile fun b => !is '"' b).length + 1) := rfl

/-- At a byte that begins no operator, comment or string the scanner reads a number, a word or one character. -/
lemma measure_other (h : isOther first = true) (rest : List UInt8) : measure first rest =
    if isDigit first then
      (.token .number (some (Utf8.decodeLossy (first :: rest.take (numberExtent rest)))),
        numberExtent rest)
    else if isAlpha first then
      (.token (Kind.ofWord (Utf8.decodeLossy (first :: rest.take (rest.takeWhile isWordByte).length))) none,
        (rest.takeWhile isWordByte).length)
    else
      match Utf8.piece first rest with
      | (some c, n) => (.error (.unexpectedChar c), n)
      | (none, _) => (.error (.unexpectedByte first), 0) := by
  simp only [isOther, Bool.and_eq_true, Bool.not_eq_true', bne_iff_ne, Option.isNone_iff_eq_none] at h
  obtain ⟨⟨⟨⟨h₁, h₂⟩, h₃⟩, h₄⟩, h₅⟩ := h
  rcases hpiece : Utf8.piece first rest with ⟨_ | c, n⟩
  all_goals
    simp only [measure, h₁, Bool.false_eq_true, if_false, if_neg h₂, h₃, h₄, if_neg h₅, hpiece]

/-- At a digit the scanner reads a number. -/
lemma measure_digit (h : IsDigitByte first) (rest : List UInt8) : measure first rest =
    (.token .number (some (Utf8.decodeLossy (first :: rest.take (numberExtent rest)))),
      numberExtent rest) := by
  have hdigit := (isDigit_iff first).mpr h
  have hother := (classes first).2.2.1 hdigit
  rw [measure_other hother, if_pos hdigit]

/-- At a letter the scanner reads a word. -/
lemma measure_letter (h : IsLetterByte first) (rest : List UInt8) : measure first rest =
    (.token (Kind.ofWord (Utf8.decodeLossy (first :: rest.take (rest.takeWhile isWordByte).length))) none,
      (rest.takeWhile isWordByte).length) := by
  have halpha := (isAlpha_iff first).mpr h
  obtain ⟨hother, hdigit⟩ := (classes first).2.2.2.1 halpha
  rw [measure_other hother, if_neg hdigit, if_pos halpha]

/-- The operators of one byte are lexemes. -/
lemma operator_of_single? {kind : Kind} (h : single? (char first) = some kind) (rest : List UInt8) :
    measure first rest = (.token kind none, 0) ∧ IsLexeme kind none [first] := by
  obtain ⟨hclass, htable, -⟩ := operators_of_byte first
  obtain ⟨h₁, h₂⟩ := hclass (.inl (by simp [h]))
  obtain ⟨⟨text, _⟩, hmem, rfl, hbytes⟩ := htable kind h
  refine ⟨?_, hbytes ▸ .operator hmem⟩
  simp only [measure, h₁, Bool.false_eq_true, if_false, if_neg h₂, h]

/-- The operators of one byte that an equal sign may follow are lexemes, with and without it. -/
lemma operator_of_double? {alone withEqual : Kind}
    (h : double? (char first) = some (alone, withEqual)) (rest : List UInt8) :
    measure first rest =
        (if (rest.head?.map (is '=')).getD false then (.token withEqual none, 1)
          else (.token alone none, 0)) ∧
      IsLexeme alone none [first] ∧ IsLexeme withEqual none [first, 0x3D] := by
  obtain ⟨hclass, -, htable⟩ := operators_of_byte first
  obtain ⟨h₁, h₂⟩ := hclass (.inr (by simp [h]))
  obtain ⟨h₃, ⟨⟨_, _⟩, hmem, rfl, hbytes⟩, ⟨_, _⟩, hmem', rfl, hbytes'⟩ := htable _ h
  refine ⟨?_, hbytes ▸ .operator hmem, hbytes' ▸ .operator hmem'⟩
  simp only [measure, h₁, Bool.false_eq_true, if_false, if_neg h₂, h₃, h]

/-! ## Numbers and words -/

/-- The bytes at the front that are in a class, in front of some that are not, are all of them. -/
lemma takeWhile_append {p : UInt8 → Bool} {front back : List UInt8} (hfront : ∀ b ∈ front, p b = true)
    (hback : ∀ b ∈ back.head?, p b = false) : (front ++ back).takeWhile p = front := by
  rw [List.takeWhile_append_of_pos hfront]
  cases back with
  | nil => simp
  | cons b back => simp [hback b rfl]

/-- A list is what is taken of it and some bytes that do not go on. -/
lemma exists_takeWhile (p : UInt8 → Bool) (bytes : List UInt8) :
    ∃ front back, bytes = front ++ back ∧ (∀ b ∈ front, p b = true) ∧ ∀ b ∈ back.head?, p b = false := by
  refine ⟨bytes.takeWhile p, bytes.dropWhile p, List.takeWhile_append_dropWhile.symm, ?_, ?_⟩
  · exact fun b hb => List.mem_takeWhile_imp hb
  · intro b hb
    have := List.head?_dropWhile_not p bytes
    rw [Option.mem_def.mp hb] at this
    simpa using this

/-- The bytes of a class that excludes only one byte are those before it. -/
lemma takeWhile_not {p : UInt8 → Bool} {stop : UInt8} (hp : ∀ b, p b = true ↔ b = stop)
    {body : List UInt8} (hbody : stop ∉ body) (back : List UInt8) (hback : ∀ b ∈ back.head?, b = stop) :
    (body ++ back).takeWhile (fun b => !p b) = body := by
  refine takeWhile_append (fun b hb => ?_) fun b hb => ?_
  · have hne : b ≠ stop := fun h => hbody (h ▸ hb)
    rw [Bool.not_eq_true', Bool.eq_false_iff]
    exact mt (hp b).mp hne
  · simpa [hp] using hback b hb

/-- A comment is measured off up to the end of its line. -/
lemma measure_comment {body back : List UInt8} (hbody : newline ∉ body)
    (hback : ∀ b ∈ back.head?, b = newline) :
    measure slash (slash :: body ++ back) =
      (.token .comment (some (commentText (slash :: slash :: body))), body.length + 1) := by
  have hslash : newline ∉ slash :: body := by
    intro hmem
    rcases List.mem_cons.mp hmem with h | h
    · cases h
    · exact hbody h
  have hmeasure : measure slash (slash :: body ++ back) =
      (.token .comment (some (commentText (slash :: (slash :: body ++ back).take
        ((slash :: body ++ back).takeWhile fun b => !is '\n' b).length))),
        ((slash :: body ++ back).takeWhile fun b => !is '\n' b).length) := rfl
  rw [hmeasure, takeWhile_not (fun b => (is_iff b).1) hslash back hback, List.take_left]
  rfl

/-- A string without a closing quote is measured off up to the end of the source. -/
lemma measure_unclosed (h : quote ∉ rest) :
    measure quote rest = (.error .unterminatedString, rest.length) := by
  have hbody := takeWhile_not (fun b => (is_iff b).2.1) h [] (by simp)
  rw [List.append_nil] at hbody
  rw [measure_quote, hbody, if_pos rfl]

/-- A string is measured off up to its closing quote. -/
lemma measure_closed {body : List UInt8} (h : quote ∉ body) (more : List UInt8) :
    measure quote (body ++ quote :: more) =
      match Utf8.decode? body with
      | some text => (.token .string (some text), body.length + 1)
      | none => (.error .invalidString, body.length + 1) := by
  have hbody := takeWhile_not (fun b => (is_iff b).2.1) h (quote :: more) (by simp)
  rw [measure_quote, hbody, if_neg (by simp)]

/-- How many bytes belong to a number behind its first digits: a point, if digits follow it, and they. -/
def fractionExtent : List UInt8 → ℕ
  | p :: d :: more => if is '.' p && isDigit d then 2 + (more.takeWhile isDigit).length else 0
  | _ => 0

/-- A number is its first digits, and then a fraction, if there is one. -/
lemma numberExtent_append {digits rest : List UInt8} (hdigits : ∀ b ∈ digits, isDigit b = true)
    (hrest : ∀ b ∈ rest.head?, isDigit b = false) :
    numberExtent (digits ++ rest) = digits.length + fractionExtent rest := by
  unfold numberExtent
  rw [takeWhile_append hdigits hrest]
  dsimp only
  rw [List.drop_left]
  rcases rest with _ | ⟨p, _ | ⟨d, more⟩⟩
  · rfl
  · rfl
  · simp only [fractionExtent]
    split_ifs <;> omega

/-- What is measured off from a digit on is a number. -/
lemma exists_number (h : IsDigitByte first) (rest : List UInt8) :
    ∃ tail more, rest = tail ++ more ∧ numberExtent rest = tail.length ∧ IsNumber (first :: tail) := by
  obtain ⟨digits, back, rfl, hdigits, hback⟩ := exists_takeWhile isDigit rest
  have hwhole : ∀ b ∈ first :: digits, IsDigitByte b := by
    intro b hb
    rcases List.mem_cons.mp hb with rfl | hb
    · exact h
    · exact (isDigit_iff b).mp (hdigits b hb)
  have hextent := numberExtent_append hdigits hback
  by_cases hfraction : fractionExtent back = 0
  · rw [hfraction] at hextent
    exact ⟨digits, back, rfl, hextent, .whole (List.cons_ne_nil _ _) hwhole⟩
  rcases back with _ | ⟨p, _ | ⟨d, more⟩⟩
  · exact absurd rfl hfraction
  · exact absurd rfl hfraction
  · simp only [fractionExtent] at hfraction hextent
    split_ifs at hfraction hextent with hpoint
    · obtain ⟨hp, hd⟩ := Bool.and_eq_true_iff.mp hpoint
      obtain ⟨fraction, more, rfl, hdigits', hmore⟩ := exists_takeWhile isDigit more
      obtain rfl := (is_iff p).2.2.2.1.mp hp
      rw [takeWhile_append hdigits' hmore] at hextent
      refine ⟨digits ++ point :: d :: fraction, more, by simp, ?_, ?_⟩
      · rw [hextent, List.length_append, List.length_cons, List.length_cons]
        omega
      · refine .fraction (List.cons_ne_nil _ _) hwhole (List.cons_ne_nil d fraction) fun b hb => ?_
        rcases List.mem_cons.mp hb with rfl | hb
        · exact (isDigit_iff b).mp hd
        · exact (isDigit_iff b).mp (hdigits' b hb)
    · exact absurd rfl hfraction

/-- What is measured off covers every number that the source goes on with. -/
lemma length_le_numberExtent {tail : List UInt8} (h : IsNumber (first :: tail)) (more : List UInt8) :
    IsDigitByte first ∧ tail.length ≤ numberExtent (tail ++ more) := by
  generalize hbytes : first :: tail = bytes at h
  cases h with
  | whole hne hdigits =>
    subst hbytes
    refine ⟨hdigits first (by simp), ?_⟩
    obtain ⟨digits, rest, rfl, hmore, hrest⟩ := exists_takeWhile isDigit more
    have hall : ∀ b ∈ tail ++ digits, isDigit b = true := by
      intro b hb
      rcases List.mem_append.mp hb with hb | hb
      · exact (isDigit_iff b).mpr (hdigits b (by simp [hb]))
      · exact hmore b hb
    rw [← List.append_assoc, numberExtent_append hall hrest, List.length_append]
    omega
  | @fraction whole digits hne hwhole hne' hdigits =>
    cases whole with
    | nil => exact absurd rfl hne
    | cons b whole =>
      rw [List.cons_append] at hbytes
      obtain ⟨rfl, rfl⟩ := List.cons.inj hbytes
      refine ⟨hwhole first (by simp), ?_⟩
      cases digits with
      | nil => exact absurd rfl hne'
      | cons d digits =>
        have hfront : ∀ b ∈ whole, isDigit b = true :=
          fun b hb => (isDigit_iff b).mpr (hwhole b (by simp [hb]))
        have hpoint : ∀ b ∈ (point :: d :: (digits ++ more)).head?, isDigit b = false := by
          intro b hb
          obtain rfl : point = b := by simpa using hb
          rfl
        have hd : isDigit d = true := (isDigit_iff d).mpr (hdigits d (by simp))
        have hlength : digits.length ≤ ((digits ++ more).takeWhile isDigit).length := by
          rw [List.takeWhile_append_of_pos fun b hb => (isDigit_iff b).mpr (hdigits b (by simp [hb]))]
          simp
        have happend : whole ++ point :: d :: digits ++ more = whole ++ point :: d :: (digits ++ more) := by
          simp
        have his : is '.' point = true := rfl
        rw [happend, numberExtent_append hfront hpoint]
        simp only [fractionExtent, his, hd, Bool.and_self, if_true, List.length_append, List.length_cons]
        omega

/-- The kind of a word is the one that the scanner gives it. -/
lemma isWordKind_iff {kind : Kind} {text : String} : IsWordKind kind text ↔ kind = Kind.ofWord text := by
  have hname : ∀ {k k' : Kind}, k.name = k'.name → k = k' := by
    intro k k' h
    have := congrArg Kind.ofName? h
    rwa [Kind.ofName?_name, Kind.ofName?_name, Option.some.injEq] at this
  unfold IsWordKind Kind.ofWord
  cases hfind : Kind.words.find? fun kind => kind.name = text with
  | none =>
    have hnone : ∀ word ∈ Kind.words, word.name ≠ text := by simpa using hfind
    constructor
    · rintro (⟨hmem, h⟩ | ⟨rfl, -⟩)
      · exact absurd h (hnone kind hmem)
      · rfl
    · rintro rfl
      exact .inr ⟨rfl, hnone⟩
  | some word =>
    have hword : word.name = text := by simpa using List.find?_some hfind
    have hmem := List.mem_of_find?_eq_some hfind
    constructor
    · rintro (⟨-, h⟩ | ⟨-, h⟩)
      · exact hname (h.trans hword.symm)
      · exact absurd hword (h word hmem)
    · rintro rfl
      exact .inl ⟨hmem, hword⟩

lemma lt_of_isDigitByte {b : UInt8} (h : IsDigitByte b) : b < 0x80 :=
  UInt8.lt_of_le_of_lt h.2 (by decide)

lemma lt_of_isLetterByte {b : UInt8} (h : IsLetterByte b) : b < 0x80 := by
  rcases h with ⟨-, h⟩ | ⟨-, h⟩ | rfl
  · exact UInt8.lt_of_le_of_lt h (by decide)
  · exact UInt8.lt_of_le_of_lt h (by decide)
  · decide

lemma lt_of_isNumber {bytes : List UInt8} (h : IsNumber bytes) : ∀ b ∈ bytes, b < 0x80 := by
  cases h with
  | whole _ hdigits => exact fun b hb => lt_of_isDigitByte (hdigits b hb)
  | fraction _ hwhole _ hdigits =>
    intro b hb
    rcases List.mem_append.mp hb with hb | hb
    · exact lt_of_isDigitByte (hwhole b hb)
    · rcases List.mem_cons.mp hb with rfl | hb
      · decide
      · exact lt_of_isDigitByte (hdigits b hb)

lemma lt_of_isWord {bytes : List UInt8} (h : IsWord bytes) : ∀ b ∈ bytes, b < 0x80 := by
  obtain ⟨hfirst, hrest⟩ := h
  intro b hb
  rcases List.mem_cons.mp hb with rfl | hb
  · exact lt_of_isLetterByte hfirst
  · exact (hrest b hb).elim lt_of_isLetterByte lt_of_isDigitByte

/-- The bytes of a number are a lexeme. -/
lemma isLexeme_number {bytes : List UInt8} (h : IsNumber bytes) :
    IsLexeme .number (some (Utf8.decodeLossy bytes)) bytes := by
  have hbytes := Utf8.encode_decodeLossy (lt_of_isNumber h)
  have hnumber : IsNumber (Utf8.encode (Utf8.decodeLossy bytes)) := by rwa [hbytes]
  have hlexeme := IsLexeme.number hnumber
  rwa [hbytes] at hlexeme

/-- The bytes of a word are a lexeme. -/
lemma isLexeme_word {bytes : List UInt8} (h : IsWord bytes) :
    IsLexeme (Kind.ofWord (Utf8.decodeLossy bytes)) none bytes := by
  have hbytes := Utf8.encode_decodeLossy (lt_of_isWord h)
  have hword : IsWord (Utf8.encode (Utf8.decodeLossy bytes)) := by rwa [hbytes]
  have hlexeme := IsLexeme.word hword (isWordKind_iff.mpr rfl)
  rwa [hbytes] at hlexeme

/-! ## What is measured off -/

/-- What some bytes are, in front of others. -/
def Describes (content : Content) (bytes rest : List UInt8) : Prop :=
  match content with
  | .blank => ∃ b ∈ blankBytes, bytes = [b]
  | .token kind literal => IsLexeme kind literal bytes
  | .error cause => IsLexicalError cause bytes rest

/-- The bytes that are measured off are at the front, and are what they are said to be. -/
def MeasuresPiece (first : UInt8) (rest : List UInt8) : Prop :=
  ∃ content tail more, rest = tail ++ more ∧ measure first rest = (content, tail.length) ∧
    Describes content (first :: tail) more

/-- At a slash the scanner finds a comment or the operator. -/
lemma measuresPiece_slash (rest : List UInt8) : MeasuresPiece slash rest := by
  by_cases hnext : ∀ b ∈ rest.head?, b ≠ slash
  · have hbytes : Utf8.encode "/" = [slash] := by decide +kernel
    have hlexeme : IsLexeme .slash none (Utf8.encode "/") := .operator (by simp [operators])
    rw [hbytes] at hlexeme
    exact ⟨_, [], rest, rfl, measure_slash hnext, hlexeme⟩
  · obtain ⟨more, rfl⟩ : ∃ more, rest = slash :: more := by
      cases rest with
      | nil => simp at hnext
      | cons b more => exact ⟨more, by simpa using hnext⟩
    obtain ⟨body, back, rfl, hbody, hback⟩ := exists_takeWhile (fun b => !is '\n' b) more
    have hline : newline ∉ body := fun hmem => by cases hbody newline hmem
    have hend : ∀ b ∈ back.head?, b = newline := by
      intro b hb
      exact (is_iff b).1.mp (by simpa using hback b hb)
    exact ⟨_, slash :: body, back, rfl, measure_comment hline hend, .comment hline⟩

/-- At a quote the scanner finds a string, or an error if the string does not end or is no text. -/
lemma measuresPiece_quote (rest : List UInt8) : MeasuresPiece quote rest := by
  by_cases hmem : quote ∈ rest
  · obtain ⟨body, more, rfl, hbody⟩ := List.eq_append_cons_of_mem hmem
    have hmeasure := measure_closed hbody more
    have hlength : body.length + 1 = (body ++ [quote]).length := by simp
    rw [hlength] at hmeasure
    cases hdecode : Utf8.decode? body with
    | none =>
      rw [hdecode] at hmeasure
      refine ⟨_, body ++ [quote], more, by simp, hmeasure, .invalidString hbody fun text htext => ?_⟩
      rw [Utf8.decode?_eq_some.mpr htext] at hdecode
      cases hdecode
    | some text =>
      obtain rfl := Utf8.decode?_eq_some.mp hdecode
      rw [hdecode] at hmeasure
      exact ⟨_, Utf8.encode text ++ [quote], more, by simp, hmeasure, .string hbody⟩
  · exact ⟨_, rest, [], by simp, measure_unclosed hmem, .unterminatedString hmem⟩

/-- At the first byte of some operators the scanner finds the longer one, if an equal sign follows. -/
lemma measuresPiece_double {alone withEqual : Kind} (h : double? (char first) = some (alone, withEqual))
    (rest : List UInt8) : MeasuresPiece first rest := by
  obtain ⟨hmeasure, halone, hequal⟩ := operator_of_double? h rest
  split_ifs at hmeasure with hnext
  · cases rest with
    | nil => cases hnext
    | cons b more =>
      obtain rfl := (is_iff b).2.2.2.2.mp hnext
      exact ⟨_, [0x3D], more, rfl, hmeasure, hequal⟩
  · exact ⟨_, [], rest, rfl, hmeasure, halone⟩

/-- At any other byte the scanner finds a number, a word or an error. -/
lemma measuresPiece_other (h : isOther first = true) (rest : List UInt8) : MeasuresPiece first rest := by
  by_cases hdigit : IsDigitByte first
  · obtain ⟨tail, more, rfl, hextent, hnumber⟩ := exists_number hdigit rest
    have hmeasure := measure_digit hdigit (tail ++ more)
    rw [hextent, List.take_left] at hmeasure
    exact ⟨_, tail, more, rfl, hmeasure, isLexeme_number hnumber⟩
  by_cases hletter : IsLetterByte first
  · obtain ⟨word, back, rfl, hword, hback⟩ := exists_takeWhile isWordByte rest
    have hmeasure := measure_letter hletter (word ++ back)
    rw [takeWhile_append hword hback, List.take_left] at hmeasure
    refine ⟨_, word, back, rfl, hmeasure, isLexeme_word ⟨hletter, fun b hb => ?_⟩⟩
    exact (isWordByte_iff b).mp (hword b hb)
  have hmeasure := measure_other h rest
  rw [if_neg (mt (isDigit_iff first).mp hdigit), if_neg (mt (isAlpha_iff first).mp hletter)] at hmeasure
  cases hpiece : Utf8.piece first rest with
  | mk c? n =>
    rw [hpiece] at hmeasure
    cases c? with
    | none =>
      have hnone := Utf8.piece_eq_none_iff.mp (congrArg Prod.fst hpiece)
      exact ⟨_, [], rest, rfl, hmeasure, .unexpectedByte hnone⟩
    | some c =>
      obtain ⟨tail, more, rfl, rfl, hc⟩ := Utf8.encode_of_piece hpiece
      refine ⟨_, tail, more, rfl, hmeasure, ?_⟩
      rw [← hc]
      refine .unexpectedChar fun b hb hbytes => ?_
      obtain ⟨rfl, -⟩ := List.cons.inj (hc.symm.trans hbytes)
      have hclass : ∀ b ∈ quote :: blankBytes, isOther b = false := by decide +kernel
      rw [hclass first hb] at h
      cases h

/-- What is measured off is white space, a lexeme or an error. -/
theorem measuresPiece (first : UInt8) (rest : List UInt8) : MeasuresPiece first rest := by
  rcases (classes first).2.2.2.2 with h | rfl | rfl | h | h | h
  · exact ⟨_, [], rest, rfl, measure_blank h rest, first, h, rfl⟩
  · exact measuresPiece_slash rest
  · exact measuresPiece_quote rest
  · obtain ⟨kind, hkind⟩ := Option.isSome_iff_exists.mp h
    obtain ⟨hmeasure, hlexeme⟩ := operator_of_single? hkind rest
    exact ⟨_, [], rest, rfl, hmeasure, hlexeme⟩
  · obtain ⟨⟨alone, withEqual⟩, hkinds⟩ := Option.isSome_iff_exists.mp h
    exact measuresPiece_double hkinds rest
  · exact measuresPiece_other h rest

/-- Whether the scanner's tables have the bytes for the operator of a kind. -/
def hasOperator (kind : Kind) : List UInt8 → Bool
  | [b] =>
    decide (single? (char b) = some kind ∨ (b = slash ∧ kind = .slash) ∨
      (double? (char b)).map Prod.fst = some kind)
  | [b, e] => decide (e = 0x3D ∧ (double? (char b)).map Prod.snd = some kind)
  | _ => false

/-- The tables have all operators of the language. -/
lemma hasOperator_operators : ∀ op ∈ operators, hasOperator op.2 (Utf8.encode op.1) = true := by
  decide +kernel

/-- A token of the source covers a lexeme that the source begins with: either it is longer, or it is that
very lexeme. -/
def Covers (measured : Content × ℕ) (kind : Kind) (literal : Option String) (n : ℕ) : Prop :=
  ∃ kind' literal' m, measured = (.token kind' literal', m) ∧
    (n < m ∨ m = n ∧ kind' = kind ∧ literal' = literal)

/-- A comment is found where there is one, and may only be longer. -/
lemma covers_comment {body : List UInt8} (h : newline ∉ body) (more : List UInt8) :
    Covers (measure slash (slash :: body ++ more)) .comment
      (some (commentText (slash :: slash :: body))) (body.length + 1) := by
  obtain ⟨front, back, rfl, hfront, hback⟩ := exists_takeWhile (fun b => !is '\n' b) more
  have hline : newline ∉ body ++ front := by
    intro hmem
    rcases List.mem_append.mp hmem with hmem | hmem
    · exact h hmem
    · cases hfront newline hmem
  have hend : ∀ b ∈ back.head?, b = newline := by
    intro b hb
    exact (is_iff b).1.mp (by simpa using hback b hb)
  have hmeasure := measure_comment hline hend
  rw [List.cons_append, ← List.append_assoc, ← List.cons_append]
  refine ⟨_, _, _, hmeasure, ?_⟩
  cases front with
  | nil => exact .inr ⟨by simp, rfl, by simp⟩
  | cons b front =>
    left
    simp

/-- An operator is found where there is one, and may only be longer. -/
lemma covers_operator {text : String} {kind : Kind} {tail : List UInt8} (h : (text, kind) ∈ operators)
    (hbytes : Utf8.encode text = first :: tail) (more : List UInt8) :
    Covers (measure first (tail ++ more)) kind none tail.length := by
  have htable := hasOperator_operators _ h
  rw [hbytes] at htable
  rcases tail with _ | ⟨e, _ | ⟨_, _⟩⟩
  · rcases of_decide_eq_true htable with hsingle | ⟨rfl, rfl⟩ | hdouble
    · exact ⟨kind, none, 0, (operator_of_single? hsingle _).1, .inr ⟨rfl, rfl, rfl⟩⟩
    · by_cases hnext : ∀ b ∈ more.head?, b ≠ slash
      · exact ⟨.slash, none, 0, measure_slash hnext, .inr ⟨rfl, rfl, rfl⟩⟩
      · obtain ⟨after, rfl⟩ : ∃ after, more = slash :: after := by
          cases more with
          | nil => simp at hnext
          | cons b after => exact ⟨after, by simpa using hnext⟩
        obtain ⟨kind, literal, m, hmeasure, hm⟩ := covers_comment List.not_mem_nil after
        refine ⟨kind, literal, m, hmeasure, .inl ?_⟩
        rw [List.length_nil] at hm ⊢
        omega
    · obtain ⟨⟨alone, withEqual⟩, hkinds, rfl⟩ := Option.map_eq_some_iff.mp hdouble
      have hmeasure := (operator_of_double? hkinds more).1
      rw [List.nil_append]
      split_ifs at hmeasure with hnext
      · exact ⟨withEqual, none, 1, hmeasure, .inl Nat.zero_lt_one⟩
      · exact ⟨alone, none, 0, hmeasure, .inr ⟨rfl, rfl, rfl⟩⟩
  · obtain ⟨rfl, hdouble⟩ := of_decide_eq_true htable
    obtain ⟨⟨alone, withEqual⟩, hkinds, rfl⟩ := Option.map_eq_some_iff.mp hdouble
    exact ⟨withEqual, none, 1, (operator_of_double? hkinds _).1, .inr ⟨rfl, rfl, rfl⟩⟩
  · cases htable

/-- A string is found where there is one, and ends with its quote. -/
lemma covers_string {text : String} (h : quote ∉ Utf8.encode text) (more : List UInt8) :
    Covers (measure quote (Utf8.encode text ++ [quote] ++ more)) .string (some text)
      (Utf8.encode text ++ [quote]).length := by
  have hmeasure := measure_closed h more
  rw [Utf8.decode?_eq_some.mpr rfl] at hmeasure
  rw [List.append_assoc]
  exact ⟨_, _, _, hmeasure, .inr ⟨by simp, rfl, rfl⟩⟩

/-- A number is found where there is one, and may only be longer. -/
lemma covers_number {text : String} {tail : List UInt8} (h : IsNumber (first :: tail))
    (hbytes : Utf8.encode text = first :: tail) (more : List UInt8) :
    Covers (measure first (tail ++ more)) .number (some text) tail.length := by
  obtain ⟨hdigit, hle⟩ := length_le_numberExtent h more
  refine ⟨_, _, _, measure_digit hdigit _, ?_⟩
  rcases Nat.lt_or_eq_of_le hle with hlt | heq
  · exact .inl hlt
  · refine .inr ⟨heq.symm, rfl, ?_⟩
    rw [← heq, List.take_left, ← hbytes, Utf8.decodeLossy_encode]

/-- A word is found where there is one, and may only be longer. -/
lemma covers_word {text : String} {kind : Kind} {tail : List UInt8} (h : IsWord (first :: tail))
    (hkind : IsWordKind kind text) (hbytes : Utf8.encode text = first :: tail) (more : List UInt8) :
    Covers (measure first (tail ++ more)) kind none tail.length := by
  obtain ⟨hletter, htail⟩ := h
  have hle : tail.length ≤ ((tail ++ more).takeWhile isWordByte).length := by
    rw [List.takeWhile_append_of_pos fun b hb => (isWordByte_iff b).mpr (htail b hb)]
    simp
  refine ⟨_, _, _, measure_letter hletter _, ?_⟩
  rcases Nat.lt_or_eq_of_le hle with hlt | heq
  · exact .inl hlt
  · refine .inr ⟨heq.symm, ?_, rfl⟩
    rw [← heq, List.take_left, ← hbytes, Utf8.decodeLossy_encode, isWordKind_iff.mp hkind]

/-- What is measured off covers every lexeme that the source begins with. -/
theorem covers_measure {kind : Kind} {literal : Option String} {tail : List UInt8}
    (h : IsLexeme kind literal (first :: tail)) (more : List UInt8) :
    Covers (measure first (tail ++ more)) kind literal tail.length := by
  generalize hbytes : first :: tail = bytes at h
  cases h with
  | operator hmem => exact covers_operator hmem hbytes.symm more
  | comment hbody =>
    obtain ⟨rfl, rfl⟩ := List.cons.inj hbytes
    exact covers_comment hbody more
  | string hbody =>
    rw [List.cons_append] at hbytes
    obtain ⟨rfl, rfl⟩ := List.cons.inj hbytes
    exact covers_string hbody more
  | number hnumber =>
    rw [← hbytes] at hnumber
    exact covers_number hnumber hbytes.symm more
  | word hword hkind =>
    rw [← hbytes] at hword
    exact covers_word hword hkind hbytes.symm more

lemma ne_nil_of_isNumber {bytes : List UInt8} (h : IsNumber bytes) : bytes ≠ [] := by
  cases h with
  | whole hne _ => exact hne
  | fraction _ _ _ _ => simp

lemma ne_nil_of_isWord {bytes : List UInt8} (h : IsWord bytes) : bytes ≠ [] := by
  cases h
  simp

/-- A lexical error has bytes. -/
lemma ne_nil_of_isLexicalError {cause : LexicalCause} {bytes rest : List UInt8}
    (h : IsLexicalError cause bytes rest) : bytes ≠ [] := by
  cases h with
  | unexpectedChar _ => exact String.utf8EncodeChar_ne_nil
  | _ => simp

/-- A lexeme has bytes. -/
lemma ne_nil_of_isLexeme {kind : Kind} {literal : Option String} {bytes : List UInt8}
    (h : IsLexeme kind literal bytes) : bytes ≠ [] := by
  cases h with
  | operator hmem =>
    have hne : ∀ op ∈ operators, Utf8.encode op.1 ≠ [] := by decide +kernel
    exact hne _ hmem
  | comment _ | string _ => simp
  | number hnumber => exact ne_nil_of_isNumber hnumber
  | word hword => exact ne_nil_of_isWord hword

end Chunk

end Scriptlet
