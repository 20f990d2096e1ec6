import Scriptlet.Proofs.CorrespondingPrograms
import Scriptlet.Proofs.Numerals
import Scriptlet.Proofs.Scanning
import Scriptlet.Session

/-!
# Programs from sources

The parser takes any tokens, and some of them it cannot cope with: number tokens without a number, and
tokens without an end.  A source never gives such tokens.  What the scanner takes for a number is
decimal digits with perhaps a point among them, and that can always be read as a number, so a source is
rejected for its lexical errors or for a syntax error that is reported at a token or at its end, or else
it is a list of statements whose tokens all come from sources.
-/

namespace Scriptlet

/-! ## Tokens of a source -/

/-- What the scanner takes for a number spells a numeral. -/
lemma spells_of_isNumber {text : String} (h : IsNumber (Utf8.encode text)) :
    ∃ n, Decimal.Spells text.toList n := by
  have hdigit : ∀ b, IsDigitByte b → Char.ofNat b.toNat ∈ Decimal.digits := by
    unfold IsDigitByte
    decide +kernel
  have hdigits : ∀ {bytes : List UInt8}, (∀ b ∈ bytes, IsDigitByte b) →
      ∀ c ∈ bytes.map fun b => Char.ofNat b.toNat, c ∈ Decimal.digits := by
    intro bytes hbytes c hc
    obtain ⟨b, hb, rfl⟩ := List.mem_map.mp hc
    exact hdigit b (hbytes b hb)
  rw [Utf8.toList_of_ascii (Chunk.lt_of_isNumber h)]
  generalize Utf8.encode text = bytes at h
  cases h with
  | whole hne hwhole =>
    have hspells := Decimal.Spells.mk (by simpa using hne) (hdigits hwhole) .none .none
    exact ⟨_, by simpa using hspells⟩
  | fraction hne hwhole _ hfraction =>
    have hspells := Decimal.Spells.mk (by simpa using hne) (hdigits hwhole) (.some (hdigits hfraction)) .none
    rw [List.append_nil] at hspells
    rw [List.map_append]
    exact ⟨_, hspells⟩

/-- What the scanner takes for a number can be read as one. -/
lemma exists_number_of_isNumber {text : String} (h : IsNumber (Utf8.encode text)) :
    ∃ x, Decimal.read? text = some x := by
  obtain ⟨n, hn⟩ := spells_of_isNumber h
  exact ⟨_, (congrArg Decimal.read? String.ofList_toList.symm).trans (hn.read false)⟩

/-- A lexeme of a number is a number. -/
lemma IsLexeme.of_number {literal : Option String} {bytes : List UInt8}
    (h : IsLexeme .number literal bytes) : ∃ text, literal = some text ∧ IsNumber (Utf8.encode text) := by
  generalize hkind : Kind.number = kind at h
  cases h with
  | number hnumber => exact ⟨_, rfl, hnumber⟩
  | operator hmem =>
    subst hkind
    have hnone : ∀ op ∈ operators, op.2 ≠ .number := by decide
    exact absurd rfl (hnone _ hmem)
  | word _ hword =>
    subst hkind
    rcases hword with ⟨hmem, -⟩ | ⟨hidentifier, -⟩
    · exact absurd hmem (by decide)
    · cases hidentifier
  | comment _ => cases hkind
  | string _ => cases hkind

/-- A token that can stand for a number if it is a number token. -/
def Leaf.Converts (t : Leaf) : Prop :=
  t.kind = .number → ∃ x, Grammar.number? t.literal = some x

/-- The number tokens of a source denote numbers. -/
theorem converts_of_scans {before source : List UInt8} {tokens : List Token}
    {errors : List LexicalError} (h : Scans before source tokens errors) :
    ∀ token ∈ tokens, token.leaf.Converts := by
  intro token htoken hkind
  obtain ⟨kind, lexeme, literal, span⟩ := token
  obtain rfl : kind = .number := hkind
  obtain ⟨bytes, hlexeme, -⟩ := isLexeme_of_scans h _ htoken nofun
  obtain ⟨text, htext, hnumber⟩ := hlexeme.of_number
  obtain rfl : literal = some text := htext
  exact exists_number_of_isNumber hnumber

/-- The last token of a source marks its end. -/
lemma exists_end_of_scans {before source : List UInt8} {tokens : List Token}
    {errors : List LexicalError} (h : Scans before source tokens errors) :
    ∃ front line, tokens = front ++ [.endOfSource line] := by
  induction h with
  | stop => exact ⟨[], _, rfl⟩
  | blank _ _ ih => exact ih
  | token _ _ _ ih =>
    obtain ⟨front, line, rfl⟩ := ih
    exact ⟨_ :: front, line, rfl⟩
  | error _ _ _ ih => exact ih

/-- A token that comes from some source. -/
def Leaf.IsScanned (t : Leaf) : Prop :=
  ∃ token : Token, t = token.leaf

/-- A token that comes from a source denotes nothing, a truth value, a double or a text. -/
lemma Leaf.IsScanned.cases_of_denoted {t : Leaf} {v : Node} (ht : t.IsScanned) (h : t.denoted? = some v) :
    v = .null ∨ (∃ b, v = .bool b) ∨ (∃ x, v = .float x) ∨ ∃ s, v = .str s := by
  obtain ⟨token, rfl⟩ := ht
  unfold Leaf.denoted? at h
  split at h
  · exact .inr (.inl ⟨false, (Option.some.inj h).symm⟩)
  · exact .inr (.inl ⟨true, (Option.some.inj h).symm⟩)
  · exact .inl (Option.some.inj h).symm
  · obtain ⟨x, -, rfl⟩ := Option.map_eq_some_iff.mp h
    exact .inr (.inr (.inl ⟨x, rfl⟩))
  · obtain rfl := Option.some.inj h
    obtain ⟨kind, lexeme, literal, span⟩ := token
    cases literal with
    | none => exact .inl rfl
    | some text => exact .inr (.inr (.inr ⟨text, rfl⟩))
  · cases h

namespace Grammar

/-! ## Errors of parsing -/

/-- An error that is found in tokens that can stand for what they are is a plain one. -/
lemma SyntaxError.Corresponds.isPlain {e e' : SyntaxError}
    (h : e.Corresponds (fun t u => t = u ∧ t.Converts) e') : e.IsPlain := by
  cases h with
  | badNumber ht hkind hnone =>
    obtain ⟨x, hx⟩ := ht.2 hkind
    rw [hnone] at hx
    cases hx
  | _ => trivial

/-- Tokens that can stand for what they are either are a program or are rejected for a plain reason. -/
lemma isPlain_of_program {limit : ℕ} {ts : List Leaf} (hts : ∀ t ∈ ts, t.Converts) {cause : SyntaxError}
    (h : program limit ts = .error cause) : cause.IsPlain := by
  have hsame : ParsesSame fun t u : Leaf => t = u ∧ t.Converts :=
    ⟨fun h => h.1 ▸ rfl, fun h => h.1 ▸ rfl⟩
  have halike := program_parsesAlike hsame limit (List.forall₂_same.mpr fun t ht => ⟨rfl, hts t ht⟩)
  rw [h] at halike
  cases halike with
  | error he => exact he.isPlain

/-- An end mark behind all other tokens is the one that ends the program. -/
lemma endMark?_append {front : List Leaf} {stop : Leaf} (hstop : stop.kind = .eof) :
    endMark? ((front ++ [stop]).filter (·.kind ≠ .comment)) = some stop := by
  simp [endMark?, List.filter_append, hstop]

/-- Tokens with an end that can stand for what they are either are a program or are rejected for a plain
reason. -/
theorem isPlain_of_parseWithin {limit : ℕ} {front : List Leaf} {stop : Leaf} {error : ParseError}
    (hstop : stop.kind = .eof) (hfront : ∀ t ∈ front, t.Converts)
    (h : parseWithin limit (front ++ [stop]) = .error error) : error.cause.IsPlain := by
  have htokens : ∀ t ∈ programTokens (front ++ [stop]), t.Converts := by
    intro t ht
    obtain ⟨hmem, hkind⟩ := kind_of_mem_programTokens ht
    rcases List.mem_append.mp hmem with hmem | hmem
    · exact hfront t hmem
    · obtain rfl := List.mem_singleton.mp hmem
      exact absurd hstop hkind
  rw [parseWithin_apply, endMark?_append hstop] at h
  dsimp only at h
  split at h
  · cases h
  next hprogram =>
    cases h
    exact isPlain_of_program htokens hprogram

end Grammar

/-! ## Sources -/

/-- A source has statements if it has no lexical errors and its tokens are parsed to them. -/
lemma Scan.statements_ok_iff {scan : Scan} {statements : List Node} :
    scan.statements = .ok statements ↔
      scan.errors = [] ∧ Grammar.parse (scan.tokens.map Token.leaf) = .ok statements := by
  unfold Scan.statements
  rw [← List.isEmpty_iff]
  split_ifs with hclean
  · cases Grammar.parse (scan.tokens.map Token.leaf) with
    | ok parsed => simp [Except.mapError, hclean]
    | error error => simp [Except.mapError]
  · exact iff_of_false nofun fun h => hclean h.1

/-- The reasons for which a source is rejected. -/
def Failure.IsRejection : Failure → Prop
  | scan _ => True
  | parse error => error.cause.IsPlain
  | load _ | run _ => False

/-- A source is rejected for lexical errors or a plain syntax error, or else it is a list of
statements. -/
theorem statements_of_source (source : List UInt8) :
    match (Scan.ofBytes source).statements with
    | .ok statements => ∀ s ∈ statements, Grammar.IsStatement Leaf.IsScanned s
    | .error failure => failure.IsRejection := by
  have hscans := scans_ofBytes source
  obtain ⟨front, line, htokens⟩ := exists_end_of_scans hscans
  have hconverts := converts_of_scans hscans
  rw [htokens] at hconverts
  unfold Scan.statements
  rw [htokens]
  split_ifs
  · unfold Grammar.parse
    cases h : Grammar.parseWithin Grammar.nestingLimit
        ((front ++ [Token.endOfSource line]).map Token.leaf) with
    | ok statements =>
      refine (Grammar.reads_program (fun t ht => ?_) h).1
      obtain ⟨token, -, rfl⟩ := List.mem_map.mp ht
      exact ⟨token, rfl⟩
    | error error =>
      rw [List.map_append] at h
      have hstop : (Token.endOfSource line).leaf.kind = .eof := rfl
      refine Grammar.isPlain_of_parseWithin hstop ?_ h
      intro t ht
      obtain ⟨token, htoken, rfl⟩ := List.mem_map.mp ht
      exact hconverts token (List.mem_append_left _ htoken)
  · trivial

end Scriptlet
