import Scriptlet.Proofs.Accepted
import Scriptlet.Proofs.Positions

/-!
# Tokens and their spellings

The kind of a token says how the token is spelled, unless it is a name, a text, a number or a comment, and the
spelling says what the kind is.  The spelling of a name says that it is a name.  So except for texts, numbers and
comments a token of a source is determined by its spelling, but for its position.
-/

namespace Scriptlet

/-! ## Lexemes -/

/-- A lexeme of a text is quoted, and holds no quote. -/
lemma IsLexeme.of_string {literal : Option String} {bytes : List UInt8} (h : IsLexeme .string literal bytes) :
    ∃ text, literal = some text ∧ '"' ∉ text.toList := by
  cases h with
  | @string text hquote =>
    refine ⟨text, rfl, fun hmem => hquote ?_⟩
    have hbyte : quote ∈ String.utf8EncodeChar '"' := by decide
    rw [Utf8.encode_eq]
    exact List.mem_flatMap.mpr ⟨'"', hmem, hbyte⟩
  | operator hmem =>
    have hnone : ∀ op ∈ operators, op.2 ≠ .string := by decide
    exact absurd rfl (hnone _ hmem)
  | word _ hword =>
    rcases hword with ⟨hmem, -⟩ | ⟨hidentifier, -⟩
    · exact absurd hmem (by decide)
    · cases hidentifier

/-- A lexeme of a name is a word that is none of the words with a kind of their own. -/
lemma IsLexeme.of_identifier {literal : Option String} {bytes : List UInt8}
    (h : IsLexeme .identifier literal bytes) : literal = none ∧
      ∃ text, bytes = Utf8.encode text ∧ IsWord (Utf8.encode text) ∧ ∀ kind ∈ Kind.words, kind.name ≠ text := by
  cases h with
  | word hword hkind =>
    rcases hkind with ⟨hmem, -⟩ | ⟨-, hname⟩
    · exact absurd hmem (by decide)
    · exact ⟨rfl, _, rfl, hword, hname⟩
  | operator hmem =>
    have hnone : ∀ op ∈ operators, op.2 ≠ .identifier := by decide
    exact absurd rfl (hnone _ hmem)

/-! ## Spellings -/

/-- The text of a token whose kind says all about it. -/
def Kind.spelling (kind : Kind) : String :=
  ((operators.find? fun op => op.2 = kind).map Prod.fst).getD kind.name

/-- Whether the kind of a token says all about it. -/
def Kind.isFixed (kind : Kind) : Bool :=
  (operators.map Prod.snd ++ Kind.words).contains kind

/-- The kind of the token that is spelled so. -/
def Kind.ofSpelling (text : String) : Kind :=
  ((operators.find? fun op => op.1 = text).map Prod.snd).getD (Kind.ofWord text)

/-- A token that is spelled so, somewhere. -/
def Leaf.ofSpelling (text : String) : Leaf :=
  ⟨Kind.ofSpelling text, .str text, .null, .null, .null, .null⟩

/-- A lexeme whose kind says all about it is spelled as its kind, and denotes nothing. -/
lemma IsLexeme.eq_spelling {kind : Kind} {literal : Option String} {bytes : List UInt8}
    (h : IsLexeme kind literal bytes) (hfixed : kind.isFixed = true) :
    Utf8.decodeLossy bytes = kind.spelling ∧ literal = none := by
  cases h with
  | operator hmem =>
    have hspelling : ∀ op ∈ operators, op.2.spelling = op.1 := by decide
    exact ⟨(Utf8.decodeLossy_encode _).trans (hspelling _ hmem).symm, rfl⟩
  | word _ hword =>
    rcases hword with ⟨hmem, rfl⟩ | ⟨rfl, -⟩
    · have hspelling : ∀ kind ∈ Kind.words, kind.spelling = kind.name := by decide
      exact ⟨(Utf8.decodeLossy_encode _).trans (hspelling _ hmem).symm, rfl⟩
    · exact absurd hfixed (by decide)
  | comment _ | string _ | number _ => exact absurd hfixed (by decide)

/-- The characters of a name are letters, and digits but for the first. -/
lemma toList_of_isWord {text : String} (h : IsWord (Utf8.encode text)) :
    ∃ b bytes, text.toList = (b :: bytes).map (fun b => Char.ofNat b.toNat) ∧ IsLetterByte b ∧
      ∀ d ∈ bytes, IsLetterByte d ∨ IsDigitByte d := by
  rw [Utf8.toList_of_ascii (Chunk.lt_of_isWord h)]
  generalize Utf8.encode text = bytes at h
  obtain ⟨hletter, hrest⟩ := h
  exact ⟨_, _, rfl, hletter, hrest⟩

/-- A name is not spelled like an operator, nor like a word with a kind of its own. -/
lemma Kind.ofSpelling_of_isWord {text : String} (h : IsWord (Utf8.encode text))
    (hname : ∀ kind ∈ words, kind.name ≠ text) : ofSpelling text = .identifier := by
  have hhead : ∀ b : UInt8, IsLetterByte b →
      ∀ op ∈ operators, op.1.toList.head? ≠ some (Char.ofNat b.toNat) := by
    unfold IsLetterByte
    decide +kernel
  obtain ⟨b, bytes, htext, hletter, -⟩ := toList_of_isWord h
  have hnone : operators.find? (fun op => op.1 = text) = none := by
    refine List.find?_eq_none.mpr fun op hop heq => hhead b hletter op hop ?_
    rw [of_decide_eq_true heq, htext]
    rfl
  unfold ofSpelling
  rw [hnone]
  exact (Chunk.isWordKind_iff.mp (.inr ⟨rfl, hname⟩)).symm

/-! ## Tokens of a source -/

/-- A finite double. -/
def Decimal.IsFinite (x : Float) : Prop :=
  ∃ negative m q, Double.of x = .finite negative m q

/-- A token of a source without infinite numbers: it is a lexeme, and not an infinite number. -/
structure Token.IsLexed (token : Token) : Prop where
  lexeme : ∃ bytes, IsLexeme token.kind token.literal bytes ∧ token.lexeme = Utf8.decodeLossy bytes
  finite : ∀ x, token.kind = .number → Grammar.number? token.leaf.literal = some x → Decimal.IsFinite x

/-- A leaf that is a token of a source without infinite numbers, or the end of the source. -/
def Leaf.IsLexed (t : Leaf) : Prop :=
  ∃ token : Token, t = token.leaf ∧ (token.kind ≠ .eof → token.IsLexed)

namespace Leaf.IsLexed

variable {t : Leaf}

/-- A token whose kind says all about it is determined by its spelling, up to its position. -/
lemma of_fixed {kind : Kind} (h : t.IsLexed) (hkind : t.kind = kind) (hfixed : kind.isFixed = true) :
    t.lexeme = .str kind.spelling ∧ t.Alike (.ofSpelling kind.spelling) := by
  obtain ⟨token, rfl, hlexed⟩ := h
  obtain rfl : token.kind = kind := hkind
  have heof : token.kind ≠ .eof := by
    intro heof
    rw [heof] at hfixed
    exact absurd hfixed (by decide)
  obtain ⟨bytes, hlexeme, htext⟩ := (hlexed heof).lexeme
  obtain ⟨hspelling, hliteral⟩ := hlexeme.eq_spelling hfixed
  have hlexeme : token.leaf.lexeme = .str token.kind.spelling := congrArg Json.str (htext.trans hspelling)
  have hspelled : ∀ kind ∈ Kind.all, kind.isFixed = true → Kind.ofSpelling kind.spelling = kind := by decide
  refine ⟨hlexeme, (hspelled _ (Kind.mem_all _) hfixed).symm, hlexeme, ?_⟩
  unfold Token.leaf
  rw [hliteral]
  rfl

/-- A name is determined by its spelling, up to its position. -/
lemma of_identifier (h : t.IsLexed) (hkind : t.kind = .identifier) :
    ∃ text, t.lexeme = .str text ∧ t.Alike (.ofSpelling text) ∧ IsWord (Utf8.encode text) ∧
      ∀ kind ∈ Kind.words, kind.name ≠ text := by
  obtain ⟨⟨kind, lexeme, literal, span⟩, rfl, hlexed⟩ := h
  obtain rfl : kind = .identifier := hkind
  obtain ⟨⟨bytes, hlexeme, htext⟩, -⟩ := hlexed nofun
  dsimp only at hlexeme htext
  obtain ⟨rfl, text, rfl, hword, hname⟩ := hlexeme.of_identifier
  rw [Utf8.decodeLossy_encode] at htext
  subst htext
  exact ⟨_, rfl, ⟨(Kind.ofSpelling_of_isWord hword hname).symm, rfl, rfl⟩, hword, hname⟩

/-- What a literal denotes: nothing, a truth value, a finite double or a text without quotes. -/
lemma cases_of_denoted {v : Node} (h : t.IsLexed) (hv : t.denoted? = some v) :
    v = .null ∨ (∃ b, v = .bool b) ∨ (∃ x, v = .float x ∧ Decimal.IsFinite x) ∨
      ∃ s, v = .str s ∧ '"' ∉ s.toList := by
  obtain ⟨⟨kind, lexeme, literal, span⟩, rfl, hlexed⟩ := h
  unfold Leaf.denoted? at hv
  split at hv
  next => exact .inr (.inl ⟨false, (Option.some.inj hv).symm⟩)
  next => exact .inr (.inl ⟨true, (Option.some.inj hv).symm⟩)
  next => exact .inl (Option.some.inj hv).symm
  next hkind =>
    obtain rfl : kind = .number := hkind
    obtain ⟨x, hx, rfl⟩ := Option.map_eq_some_iff.mp hv
    exact .inr (.inr (.inl ⟨x, rfl, (hlexed nofun).finite x rfl hx⟩))
  next hkind =>
    obtain rfl : kind = .string := hkind
    obtain ⟨⟨bytes, hlexeme, -⟩, -⟩ := hlexed nofun
    obtain ⟨text, htext, hquote⟩ := hlexeme.of_string
    obtain rfl : literal = some text := htext
    exact .inr (.inr (.inr ⟨text, (Option.some.inj hv).symm, hquote⟩))
  next => cases hv

end Leaf.IsLexed

end Scriptlet
