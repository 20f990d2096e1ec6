import Scriptlet.Proofs.Scanning

/-!
# Line breaks

A source is scanned line by line, if no string is left open at the end of a line: what is found in front of a
line feed does not depend on what is behind it, and behind it scanning begins anew, at column zero of the next
line.  For no piece of a source goes on across a line feed but a string, and a piece that is no open string
has reached its closing quote.  That the end of the source and a line feed are the same to all other pieces
holds of characters too: no character goes on across a line feed, so one that is cut off at the end of the
source stays cut off.
-/

namespace Scriptlet

/-! ## Lexemes with line feeds, quotes and spaces -/

/-- The space. -/
def space : UInt8 := 0x20

/-- Only strings and comments hold line feeds, quotes and spaces. -/
lemma IsLexeme.isString_or_isComment {kind : Kind} {literal : Option String} {lexeme : List UInt8} {b : UInt8}
    (h : IsLexeme kind literal lexeme) (hb : b ∈ [newline, quote, space]) (hmem : b ∈ lexeme) :
    (∃ body, quote ∉ body ∧ lexeme = quote :: body ++ [quote]) ∨
      ∃ body, newline ∉ body ∧ lexeme = slash :: slash :: body := by
  have hplain : ∀ op ∈ operators, ∀ b ∈ [newline, quote, space], b ∉ Utf8.encode op.1 := by
    decide +kernel
  have hother : ∀ {c : UInt8}, (IsLetterByte c ∨ IsDigitByte c) ∨ c = point → c ≠ b := by
    have hclass : ∀ c ∈ [newline, quote, space], ¬ ((IsLetterByte c ∨ IsDigitByte c) ∨ c = point) := by
      unfold IsLetterByte IsDigitByte
      decide +kernel
    rintro c hc rfl
    exact hclass c hb hc
  cases h with
  | operator hop => exact absurd hmem (hplain _ hop b hb)
  | comment hbody => exact .inr ⟨_, hbody, rfl⟩
  | @string text htext => exact .inl ⟨Utf8.encode text, htext, rfl⟩
  | number hnumber =>
    generalize Utf8.encode _ = bytes at hnumber hmem
    refine absurd rfl (hother ?_)
    cases hnumber with
    | whole _ hdigits => exact .inl (.inr (hdigits b hmem))
    | fraction _ hwhole _ hdigits =>
      rcases List.mem_append.mp hmem with hmem | hmem
      · exact .inl (.inr (hwhole b hmem))
      · rcases List.mem_cons.mp hmem with rfl | hmem
        · exact .inr rfl
        · exact .inl (.inr (hdigits b hmem))
  | word hword hkind =>
    generalize Utf8.encode _ = bytes at hword hmem
    refine absurd rfl (hother (.inl ?_))
    cases hword with
    | intro hfirst hrest =>
      rcases List.mem_cons.mp hmem with rfl | hmem
      · exact .inl hfirst
      · exact hrest b hmem

/-- A lexeme that begins with a quote or holds a line feed is a string. -/
lemma IsLexeme.isString {kind : Kind} {literal : Option String} {lexeme : List UInt8}
    (h : IsLexeme kind literal lexeme) (hbytes : newline ∈ lexeme ∨ lexeme.head? = some quote) :
    ∃ body, quote ∉ body ∧ lexeme = quote :: body ++ [quote] := by
  have hslash : newline ≠ slash ∧ slash ≠ quote := by decide
  have hclass : (∃ body, quote ∉ body ∧ lexeme = quote :: body ++ [quote]) ∨
      ∃ body, newline ∉ body ∧ lexeme = slash :: slash :: body := by
    rcases hbytes with hmem | hhead
    · exact h.isString_or_isComment (by decide) hmem
    · exact h.isString_or_isComment (by decide) (List.mem_of_mem_head? hhead)
  refine hclass.resolve_right ?_
  rintro ⟨body, hbody, rfl⟩
  rcases hbytes with hmem | hhead
  · simp [hslash.1, hbody] at hmem
  · exact hslash.2 (Option.some.inj hhead)

/-! ## Pieces in front of a line feed -/

/-- A front piece of bytes either ends before one of them or takes it. -/
lemma prefix_or_takes {piece front more : List UInt8} {b : UInt8} (h : piece <+: front ++ b :: more) :
    piece <+: front ∨ ∃ tail, piece = front ++ b :: tail := by
  rcases List.prefix_or_prefix_of_prefix h (List.prefix_append front (b :: more)) with hshort | hlong
  · exact .inl hshort
  · obtain ⟨tail, rfl⟩ := hlong
    cases tail with
    | nil => exact .inl ⟨[], by simp⟩
    | cons c tail =>
      have htail : c :: tail <+: b :: more := (List.prefix_append_right_inj front).mp h
      obtain ⟨rfl, -⟩ := List.cons_prefix_cons.mp htail
      exact .inr ⟨tail, rfl⟩

/-- Bytes that are no open string: if they begin with a quote, then another one closes them. -/
def IsClosed (bytes : List UInt8) : Prop :=
  bytes.head? = some quote → ∃ body, bytes = quote :: body ++ [quote]

/-- A lexeme does not end inside a string. -/
lemma IsLexeme.isClosed {kind : Kind} {literal : Option String} {lexeme : List UInt8}
    (h : IsLexeme kind literal lexeme) : IsClosed lexeme := by
  intro hhead
  obtain ⟨body, -, hbody⟩ := h.isString (.inr hhead)
  exact ⟨body, hbody⟩

/-- The only error that leaves a string open is the one that says so. -/
lemma IsLexicalError.isClosed {cause : LexicalCause} {bytes rest : List UInt8}
    (h : IsLexicalError cause bytes rest) (hcause : cause ≠ .unterminatedString) : IsClosed bytes := by
  have hquote : quote < 0x80 := by decide
  intro hhead
  cases h with
  | unexpectedChar hc =>
    have hbytes := Utf8.encode_eq_of_mem hquote (List.mem_of_mem_head? hhead)
    exact absurd hbytes (hc quote (by simp))
  | unexpectedByte hb =>
    obtain rfl := Option.some.inj hhead
    refine absurd ?_ (hb (Char.ofNat quote.toNat))
    rw [Utf8.encode_ascii hquote]
    exact List.prefix_append [quote] _
  | unterminatedString => exact absurd rfl hcause
  | invalidString => exact ⟨_, rfl⟩

/-- No string begins with a piece that is closed and goes on behind it: it would have a quote inside. -/
lemma IsClosed.append_ne_string {bytes rest body : List UInt8} (hclosed : IsClosed bytes) (hne : bytes ≠ [])
    (hrest : rest ≠ []) (hbody : quote ∉ body) : bytes ++ rest ≠ quote :: body ++ [quote] := by
  intro hsame
  have hhead : bytes.head? = some quote := by
    obtain ⟨b, front, rfl⟩ := List.exists_cons_of_ne_nil hne
    exact congrArg List.head? hsame
  obtain ⟨inner, rfl⟩ := hclosed hhead
  rw [← List.dropLast_append_getLast hrest, ← List.append_assoc] at hsame
  have hfront : quote :: inner ++ [quote] ++ rest.dropLast = quote :: body := List.append_inj_left' hsame rfl
  have hinner : inner ++ [quote] ++ rest.dropLast = body := (List.cons.inj hfront).2
  exact hbody (by simp [← hinner])

/-- Behind the first piece of a source, if that is closed, no lexeme goes on across a line feed. -/
lemma IsLexeme.prefix_of_isClosed {kind : Kind} {literal : Option String} {lexeme bytes rest more : List UInt8}
    (h : IsLexeme kind literal lexeme) (hne : bytes ≠ []) (hclosed : IsClosed bytes)
    (hbegins : lexeme <+: bytes ++ rest ++ newline :: more) : lexeme <+: bytes ++ rest := by
  refine (prefix_or_takes hbegins).resolve_right ?_
  rintro ⟨tail, htakes⟩
  obtain ⟨body, hbody, hstring⟩ := h.isString (.inl (by simp [htakes]))
  rw [htakes, List.append_assoc] at hstring
  exact hclosed.append_ne_string hne (by simp) hbody hstring

/-- An error stays what it is if more follows the source, unless it is about an open string; what follows
must not continue a character. -/
lemma IsLexicalError.append {cause : LexicalCause} {bytes rest : List UInt8} {b : UInt8}
    (h : IsLexicalError cause bytes rest) (hcause : cause ≠ .unterminatedString) (hb : b < 0x80)
    (more : List UInt8) : IsLexicalError cause bytes (rest ++ b :: more) := by
  cases h with
  | unexpectedChar hc => exact .unexpectedChar hc
  | unexpectedByte hnone =>
    refine .unexpectedByte fun c hbegins => ?_
    rw [← List.cons_append] at hbegins
    rcases prefix_or_takes hbegins with hshort | ⟨tail, htakes⟩
    · exact hnone c hshort
    · -- A character that takes an ASCII byte is that byte.
      have hsingle := Utf8.encode_eq_of_mem hb (c := c) (by simp [htakes])
      rw [htakes] at hsingle
      simp at hsingle
  | unterminatedString => exact absurd rfl hcause
  | invalidString hbody htext => exact .invalidString hbody htext

/-! ## Places behind a line feed -/

/-- A span some lines further down. -/
def Span.movedDown (n : ℕ) (span : Span) : Span :=
  { span with line := span.line + n }

/-- A place some lines further down. -/
def Position.movedDown (n : ℕ) (position : Position) : Position :=
  { position with line := position.line + n }

/-- A token some lines further down. -/
def Token.movedDown (n : ℕ) (token : Token) : Token :=
  { token with span := token.span.movedDown n }

/-- A lexical error some lines further down. -/
def LexicalError.movedDown (n : ℕ) (error : LexicalError) : LexicalError :=
  { error with position := error.position.movedDown n }

/-- Behind a finished line, lines are counted from there. -/
lemma lineAfter_behind_line (front before : List UInt8) :
    lineAfter (front ++ newline :: before) = lineAfter before + (front.count newline + 1) := by
  unfold lineAfter
  rw [List.count_append, List.count_cons_self]
  omega

/-- Behind a finished line, columns are counted as if the line were not there. -/
lemma columnAfter_behind_line (front before : List UInt8) :
    columnAfter (front ++ newline :: before) = columnAfter before := by
  unfold columnAfter
  rw [List.reverse_append, List.reverse_cons, List.append_assoc, List.takeWhile_append]
  split_ifs with hall
  · simpa using hall.symm
  · rfl

/-! ## Scanning -/

namespace Scans

/-- Behind a line feed, a source has the tokens and errors that it has alone, further down. -/
lemma behind_line (front : List UInt8) {before source : List UInt8} {tokens : List Token}
    {errors : List LexicalError} (h : Scans before source tokens errors) :
    Scans (front ++ newline :: before) source (tokens.map (Token.movedDown (front.count newline + 1)))
      (errors.map (LexicalError.movedDown (front.count newline + 1))) := by
  have hassoc : ∀ before bytes : List UInt8,
      front ++ newline :: (before ++ bytes) = front ++ newline :: before ++ bytes := by
    simp
  have hline : ∀ before : List UInt8, ((lineAfter (front ++ newline :: before) : ℕ) : ℤ) =
      lineAfter before + (front.count newline + 1 : ℕ) := by
    intro before
    rw [lineAfter_behind_line]
    exact Nat.cast_add _ _
  induction h with
  | @stop before =>
    have hstop := @Scans.stop (front ++ newline :: before)
    have hend : Token.endOfSource (lineAfter (front ++ newline :: before) + 1 : ℕ) =
        (Token.endOfSource (lineAfter before + 1 : ℕ)).movedDown (front.count newline + 1) := by
      unfold Token.endOfSource Token.movedDown Span.movedDown
      rw [Nat.cast_succ, Nat.cast_succ, hline, add_right_comm]
    rw [hend] at hstop
    exact hstop
  | @blank before _ b _ _ hb _ ih =>
    rw [hassoc] at ih
    exact .blank hb ih
  | @token before lexeme _ _ _ _ _ hlexeme hlongest _ ih =>
    rw [hassoc] at ih
    have htoken := Scans.token hlexeme hlongest ih
    rw [columnAfter_behind_line, hline] at htoken
    exact htoken
  | @error before bytes _ _ _ _ hnext herror _ ih =>
    rw [hassoc] at ih
    have hfound := Scans.error hnext herror ih
    rw [columnAfter_behind_line, hline] at hfound
    exact hfound

/-- In front of a line feed, a source has the tokens and errors that it has alone, if no string is left open,
and behind the line feed scanning begins anew. -/
lemma append_line {before source more : List UInt8} {tokens later : List Token}
    {errors laterErrors : List LexicalError} (h : Scans before source tokens errors)
    (hclosed : ∀ error ∈ errors, error.cause ≠ .unterminatedString)
    (hmore : Scans (before ++ source ++ [newline]) more later laterErrors) :
    ∃ front, tokens = front ++ [.endOfSource (lineAfter (before ++ source) + 1 : ℕ)] ∧
      Scans before (source ++ newline :: more) (front ++ later) (errors ++ laterErrors) := by
  induction h with
  | @stop before =>
    refine ⟨[], by simp, .blank (by decide) ?_⟩
    simpa using hmore
  | @blank before rest b _ _ hb _ ih =>
    obtain ⟨front, htokens, hscans⟩ := ih hclosed (by simpa using hmore)
    exact ⟨front, by simpa using htokens, .blank hb hscans⟩
  | @token before lexeme rest kind literal _ _ hlexeme hlongest _ ih =>
    obtain ⟨front, htokens, hscans⟩ := ih hclosed (by simpa using hmore)
    rw [List.append_assoc] at htokens ⊢
    refine ⟨_ :: front, congrArg (_ :: ·) htokens, ?_⟩
    refine .token hlexeme (fun hlexeme' hbegins => hlongest hlexeme' ?_) hscans
    rw [← List.append_assoc] at hbegins
    exact hlexeme'.prefix_of_isClosed (Chunk.ne_nil_of_isLexeme hlexeme) hlexeme.isClosed hbegins
  | @error before bytes rest cause _ _ hnext herror _ ih =>
    obtain ⟨hcause, hclosed⟩ := List.forall_mem_cons.mp hclosed
    obtain ⟨front, htokens, hscans⟩ := ih hclosed (by simpa using hmore)
    rw [List.append_assoc] at htokens ⊢
    refine ⟨front, htokens, ?_⟩
    refine .error (fun hlexeme => ?_) (herror.append hcause (by decide) more) hscans
    obtain ⟨kind, literal, lexeme, hlexeme, hbegins⟩ := hlexeme
    rw [← List.append_assoc] at hbegins
    have hshort := hlexeme.prefix_of_isClosed (Chunk.ne_nil_of_isLexicalError herror)
      (herror.isClosed hcause) hbegins
    exact hnext ⟨kind, literal, lexeme, hlexeme, hshort⟩

end Scans

/-- Scanning is done line by line.  If no string is left open, then what is found in a source with a line feed
and more behind it is what is found in the source, but for its end mark, and then what is found in the rest
alone, further down by the lines of the source: the same tokens and the same errors, in the same columns. -/
theorem scan_line_by_line (source more : List UInt8)
    (hclosed : ∀ error ∈ (Scan.ofBytes source).errors, error.cause ≠ .unterminatedString) :
    ∃ front, (Scan.ofBytes source).tokens = front ++ [.endOfSource (source.count newline + 2 : ℕ)] ∧
      Scan.ofBytes (source ++ newline :: more) =
        ⟨front ++ (Scan.ofBytes more).tokens.map (Token.movedDown (source.count newline + 1)),
          (Scan.ofBytes source).errors ++
            (Scan.ofBytes more).errors.map (LexicalError.movedDown (source.count newline + 1))⟩ := by
  have hlater := (scans_ofBytes more).behind_line source
  obtain ⟨front, htokens, hscans⟩ := (scans_ofBytes source).append_line hclosed hlater
  exact ⟨front, htokens, ofBytes_of_scans hscans⟩

/-- Two lines, the second of which ends with the first two of the three bytes of a character. -/
def cutSource : List UInt8 :=
  Utf8.encode "a\n=" ++ [0xE2, 0x82]

/-- The character is not completed by the byte that stands on the next line. -/
theorem cutSource_is_not_completed :
    (∀ error ∈ (Scan.ofBytes cutSource).errors, error.cause ≠ .unterminatedString) ∧
      ∃ front, (Scan.ofBytes cutSource).tokens = front ++ [.endOfSource (cutSource.count newline + 2 : ℕ)] ∧
        Scan.ofBytes (cutSource ++ newline :: [0xAC, 0x3D]) =
          ⟨front ++ (Scan.ofBytes [0xAC, 0x3D]).tokens.map (Token.movedDown (cutSource.count newline + 1)),
            (Scan.ofBytes cutSource).errors ++
              (Scan.ofBytes [0xAC, 0x3D]).errors.map
                (LexicalError.movedDown (cutSource.count newline + 1))⟩ := by
  have hclosed : ∀ error ∈ (Scan.ofBytes cutSource).errors, error.cause ≠ .unterminatedString := by
    decide +kernel
  exact ⟨hclosed, scan_line_by_line cutSource [0xAC, 0x3D] hclosed⟩

end Scriptlet
