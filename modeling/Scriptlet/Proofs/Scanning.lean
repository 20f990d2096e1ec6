import Scriptlet.Proofs.Lexeme

/-!
# The lexical grammar

What scanning a source has to find is said without a scanner: the source is cut from left to right, each
piece is one byte of white space, the longest lexeme that comes next or, where no lexeme comes next, one
lexical error, and the place of a piece is counted from the bytes before it.  This determines the tokens
and errors of every source, and they are what the scanner finds.
-/

namespace Scriptlet

/-- The line that some bytes end on. -/
def lineAfter (before : List UInt8) : ℕ :=
  before.count newline + 1

/-- The number of bytes since the last line feed. -/
def columnAfter (before : List UInt8) : ℕ :=
  (before.reverse.takeWhile (· ≠ newline)).length

/-- A lexeme comes next. -/
def LexemeNext (bytes : List UInt8) : Prop :=
  ∃ kind literal lexeme, IsLexeme kind literal lexeme ∧ lexeme <+: bytes

/-- The tokens and errors of a source, behind the bytes `before`. -/
inductive Scans : (before source : List UInt8) → List Token → List LexicalError → Prop
  | stop {before : List UInt8} : Scans before [] [.endOfSource (lineAfter before + 1 : ℕ)] []
  | blank {before rest : List UInt8} {b : UInt8} {tokens : List Token} {errors : List LexicalError} :
      b ∈ blankBytes → Scans (before ++ [b]) rest tokens errors →
      Scans before (b :: rest) tokens errors
  /-- The longest lexeme that comes next is a token. -/
  | token {before lexeme rest : List UInt8} {kind : Kind} {literal : Option String}
      {tokens : List Token} {errors : List LexicalError} :
      IsLexeme kind literal lexeme →
      (∀ {kind' literal' lexeme'}, IsLexeme kind' literal' lexeme' → lexeme' <+: lexeme ++ rest →
        lexeme'.length ≤ lexeme.length) →
      Scans (before ++ lexeme) rest tokens errors →
      Scans before (lexeme ++ rest)
        (⟨kind, Utf8.decodeLossy lexeme, literal,
          ⟨lineAfter before, columnAfter before, (columnAfter before + lexeme.length : ℕ)⟩⟩ :: tokens)
        errors
  /-- Where no lexeme comes next, there is an error. -/
  | error {before bytes rest : List UInt8} {cause : LexicalCause} {tokens : List Token}
      {errors : List LexicalError} :
      ¬ LexemeNext (bytes ++ rest) → IsLexicalError cause bytes rest →
      Scans (before ++ bytes) rest tokens errors →
      Scans before (bytes ++ rest) tokens (⟨cause, ⟨lineAfter before, columnAfter before⟩⟩ :: errors)

/-! ## Places -/

/-- Places are counted as the cursor counts them. -/
lemma Cursor.after_start (before : List UInt8) :
    Cursor.start.after before = ⟨lineAfter before, columnAfter before⟩ := by
  induction before using List.reverseRecOn with
  | nil => rfl
  | append_singleton before b ih =>
    rw [Cursor.after_append, ih]
    by_cases hb : b = newline
    · have his : Chunk.is '\n' b = true := (Chunk.is_iff b).1.mpr hb
      rw [hb] at his ⊢
      simp [Cursor.after, Cursor.step, his, lineAfter, columnAfter]
    · have his : Chunk.is '\n' b = false := Bool.eq_false_iff.mpr (mt (Chunk.is_iff b).1.mp hb)
      simp [Cursor.after, Cursor.step, his, lineAfter, columnAfter, hb]

/-! ## One piece -/

variable {first : UInt8} {rest : List UInt8}

/-- Where a lexeme comes next, a token is measured off. -/
lemma measure_of_lexemeNext (h : LexemeNext (first :: rest)) :
    ∃ kind literal n, Chunk.measure first rest = (.token kind literal, n) := by
  obtain ⟨kind, literal, lexeme, hlexeme, more, hmore⟩ := h
  cases lexeme with
  | nil => exact absurd rfl (Chunk.ne_nil_of_isLexeme hlexeme)
  | cons b tail =>
    rw [List.cons_append] at hmore
    obtain ⟨rfl, rfl⟩ := List.cons.inj hmore
    obtain ⟨kind', literal', n, hmeasure, -⟩ := Chunk.covers_measure hlexeme more
    exact ⟨kind', literal', n, hmeasure⟩

/-- Where no lexeme comes next, the first byte is white space or a quote, or nothing is known of it. -/
lemma class_of_not_lexemeNext (h : ¬ LexemeNext (first :: rest)) :
    first ∈ quote :: blankBytes ∨
      (Chunk.isOther first = true ∧ ¬ Chunk.isDigit first = true ∧ ¬ Chunk.isAlpha first = true) := by
  have hnot : ∀ {kind literal}, ¬ IsLexeme kind literal [first] := by
    intro kind literal hlexeme
    exact h ⟨kind, literal, [first], hlexeme, rest, rfl⟩
  rcases (Chunk.classes first).2.2.2.2 with hc | rfl | rfl | hc | hc | hc
  · exact .inl (by simp [hc])
  · have hbytes : Utf8.encode "/" = [slash] := by decide +kernel
    have hlexeme : IsLexeme .slash none (Utf8.encode "/") := .operator (by simp [operators])
    rw [hbytes] at hlexeme
    exact absurd hlexeme hnot
  · exact .inl (by simp)
  · obtain ⟨kind, hkind⟩ := Option.isSome_iff_exists.mp hc
    exact absurd (Chunk.operator_of_single? hkind rest).2 hnot
  · obtain ⟨⟨alone, withEqual⟩, hkinds⟩ := Option.isSome_iff_exists.mp hc
    exact absurd (Chunk.operator_of_double? hkinds rest).2.1 hnot
  · refine .inr ⟨hc, fun hdigit => ?_, fun hletter => ?_⟩
    · refine hnot (Chunk.isLexeme_number (.whole (List.cons_ne_nil _ _) fun b hb => ?_))
      obtain rfl : b = first := by simpa using hb
      exact (Chunk.isDigit_iff b).mp hdigit
    · exact hnot (Chunk.isLexeme_word ⟨(Chunk.isAlpha_iff first).mp hletter, by simp⟩)

/-- Where no lexeme comes next, the error that comes next is measured off. -/
lemma measure_of_isLexicalError {cause : LexicalCause} {tail : List UInt8}
    (hnext : ¬ LexemeNext (first :: tail ++ rest)) (h : IsLexicalError cause (first :: tail) rest) :
    Chunk.measure first (tail ++ rest) = (.error cause, tail.length) := by
  have hclass := class_of_not_lexemeNext hnext
  have hascii : ∀ b ∈ quote :: blankBytes, b < 0x80 := by decide +kernel
  generalize hbytes : first :: tail = bytes at h
  cases h with
  | @unexpectedChar c _ hc =>
    have hpiece := Utf8.piece_of_encode hbytes.symm rest
    rcases hclass with hmem | ⟨hother, hdigit, hletter⟩
    · rw [Utf8.piece_ascii (hascii first hmem)] at hpiece
      obtain ⟨-, htail⟩ := Prod.mk.inj hpiece.symm
      obtain rfl := List.length_eq_zero_iff.mp htail
      exact absurd hbytes.symm (hc first hmem)
    · rw [Chunk.measure_other hother, if_neg hdigit, if_neg hletter, hpiece]
  | unexpectedByte hb =>
    obtain ⟨rfl, rfl⟩ := List.cons.inj hbytes
    rcases hclass with hmem | ⟨hother, hdigit, hletter⟩
    · exact absurd ⟨rest, by rw [Utf8.encode_ascii (hascii first hmem)]; rfl⟩ (hb _)
    · have hnone := Utf8.piece_eq_none_iff.mpr hb
      rw [Chunk.measure_other hother, if_neg hdigit, if_neg hletter, List.nil_append]
      cases hpiece : Utf8.piece first rest with
      | mk c? n =>
        rw [hpiece] at hnone
        obtain rfl : c? = none := hnone
        rfl
  | unterminatedString hbody =>
    obtain ⟨rfl, rfl⟩ := List.cons.inj hbytes
    rw [List.append_nil, Chunk.measure_unclosed hbody]
  | invalidString hbody htext =>
    rw [List.cons_append] at hbytes
    obtain ⟨rfl, rfl⟩ := List.cons.inj hbytes
    rename_i body
    have hdecode : Utf8.decode? body = none := by
      cases hd : Utf8.decode? body with
      | none => rfl
      | some text => exact absurd (Utf8.decode?_eq_some.mp hd) (htext text)
    rw [List.append_assoc]
    change Chunk.measure quote (body ++ quote :: rest) = _
    rw [Chunk.measure_closed hbody, hdecode]
    simp

/-! ## All pieces -/

/-- The chunk at the front is the one that is measured off. -/
lemma cut_append {tail : List UInt8} {content : Content}
    (h : Chunk.measure first (tail ++ rest) = (content, tail.length)) :
    Chunk.cut (first :: tail ++ rest) = ⟨content, first :: tail⟩ :: Chunk.cut rest := by
  rw [List.cons_append, Chunk.cut, h]
  simp

/-- What is measured off is as long as any lexeme that comes next. -/
lemma length_le_of_measure {tail lexeme : List UInt8} {content : Content} {kind : Kind}
    {literal : Option String} (hmeasure : Chunk.measure first (tail ++ rest) = (content, tail.length))
    (hlexeme : IsLexeme kind literal lexeme) (hbegins : lexeme <+: first :: tail ++ rest) :
    lexeme.length ≤ (first :: tail).length := by
  obtain ⟨more, hmore⟩ := hbegins
  cases lexeme with
  | nil => simp
  | cons b front =>
    rw [List.cons_append, List.cons_append] at hmore
    obtain ⟨rfl, hrest⟩ := List.cons.inj hmore
    obtain ⟨kind', literal', m, hcovers, hm⟩ := Chunk.covers_measure hlexeme more
    rw [hrest] at hcovers
    obtain ⟨-, rfl⟩ := Prod.mk.inj (hmeasure.symm.trans hcovers)
    simp only [List.length_cons]
    omega

/-- The tokens and errors of chunks, the first of them behind the bytes `before`. -/
lemma ofChunks_cons (before : List UInt8) (content : Content) (bytes : List UInt8) (later : List Chunk) :
    Scan.ofChunks (Cursor.start.after before) (⟨content, bytes⟩ :: later) =
      let scan := Scan.ofChunks (Cursor.start.after (before ++ bytes)) later
      match content with
      | .blank => scan
      | .token kind literal =>
        ⟨⟨kind, Utf8.decodeLossy bytes, literal,
          ⟨lineAfter before, columnAfter before, (columnAfter before + bytes.length : ℕ)⟩⟩ :: scan.tokens,
          scan.errors⟩
      | .error cause => ⟨scan.tokens, ⟨cause, ⟨lineAfter before, columnAfter before⟩⟩ :: scan.errors⟩ := by
  rw [Cursor.after_append, Cursor.after_start]
  cases content <;> rfl

/-- The scanner finds what the lexical grammar asks for. -/
lemma scans_ofChunks (before source : List UInt8) :
    Scans before source (Scan.ofChunks (Cursor.start.after before) (Chunk.cut source)).tokens
      (Scan.ofChunks (Cursor.start.after before) (Chunk.cut source)).errors := by
  induction hn : source.length using Nat.strong_induction_on generalizing before source with
  | _ n ih =>
    cases source with
    | nil =>
      rw [Cursor.after_start, Chunk.cut]
      exact .stop
    | cons first rest =>
      obtain ⟨content, tail, more, rfl, hmeasure, hdescribes⟩ := Chunk.measuresPiece first rest
      have hlater := ih more.length (by simp [← hn]) (before ++ first :: tail) more rfl
      rw [← List.cons_append, cut_append hmeasure, ofChunks_cons]
      cases content with
      | blank =>
        obtain ⟨b, hb, hbytes⟩ := hdescribes
        obtain ⟨rfl, rfl⟩ := List.cons.inj hbytes
        exact .blank hb hlater
      | token kind literal =>
        refine .token hdescribes (fun hlexeme hbegins => ?_) hlater
        exact length_le_of_measure hmeasure hlexeme hbegins
      | error cause =>
        refine .error (fun hnext => ?_) hdescribes hlater
        obtain ⟨kind, literal, m, htoken⟩ := measure_of_lexemeNext hnext
        cases hmeasure.symm.trans htoken

/-- The lexical grammar asks for nothing but what the scanner finds. -/
lemma ofChunks_of_scans {before source : List UInt8} {tokens : List Token} {errors : List LexicalError}
    (h : Scans before source tokens errors) :
    Scan.ofChunks (Cursor.start.after before) (Chunk.cut source) = ⟨tokens, errors⟩ := by
  induction h with
  | stop =>
    rw [Cursor.after_start, Chunk.cut]
    rfl
  | @blank before rest b _ _ hb _ ih =>
    have hmeasure : Chunk.measure b ([] ++ rest) = (.blank, ([] : List UInt8).length) :=
      Chunk.measure_blank hb rest
    have hcut := cut_append hmeasure
    rw [List.cons_append, List.nil_append] at hcut
    rw [hcut, ofChunks_cons, ih]
  | @token before lexeme rest kind literal _ _ hlexeme hlongest _ ih =>
    cases lexeme with
    | nil => exact absurd rfl (Chunk.ne_nil_of_isLexeme hlexeme)
    | cons first tail =>
      obtain ⟨kind', literal', m, hcovers, hm⟩ := Chunk.covers_measure hlexeme rest
      obtain ⟨content, piece, more, hsplit, hmeasure, hdescribes⟩ :=
        Chunk.measuresPiece first (tail ++ rest)
      obtain ⟨rfl, rfl⟩ := Prod.mk.inj (hmeasure.symm.trans hcovers)
      -- What is measured off is a lexeme too, so it is no longer than the longest one.
      have hle := hlongest hdescribes ⟨more, by rw [List.cons_append, List.cons_append, hsplit]⟩
      simp only [List.length_cons] at hle
      rcases hm with hlt | ⟨hlength, rfl, rfl⟩
      · omega
      · rw [hlength] at hcovers
        rw [cut_append hcovers, ofChunks_cons, ih]
  | @error before bytes rest cause _ _ hnext herror _ ih =>
    cases bytes with
    | nil => exact absurd rfl (Chunk.ne_nil_of_isLexicalError herror)
    | cons first tail =>
      have hmeasure := measure_of_isLexicalError hnext herror
      rw [cut_append hmeasure, ofChunks_cons, ih]

/-- The tokens of a source, but for the one that marks its end, are lexemes. -/
lemma isLexeme_of_scans {before source : List UInt8} {tokens : List Token} {errors : List LexicalError}
    (h : Scans before source tokens errors) : ∀ token ∈ tokens, token.kind ≠ .eof →
      ∃ bytes, IsLexeme token.kind token.literal bytes ∧ token.lexeme = Utf8.decodeLossy bytes := by
  induction h with
  | stop =>
    intro token htoken hkind
    obtain rfl := List.mem_singleton.mp htoken
    exact absurd rfl hkind
  | blank _ _ ih => exact ih
  | token hlexeme _ _ ih =>
    intro token htoken hkind
    rcases List.mem_cons.mp htoken with rfl | htoken
    · exact ⟨_, hlexeme, rfl⟩
    · exact ih token htoken hkind
  | error _ _ _ ih => exact ih

/-- A source is cut into pieces that have bytes. -/
lemma bytes_ne_nil (source : List UInt8) : ∀ chunk ∈ Chunk.cut source, chunk.bytes ≠ [] := by
  fun_induction Chunk.cut source with
  | case1 => simp
  | case2 first rest content n _ ih =>
    intro chunk hchunk
    rcases List.mem_cons.mp hchunk with rfl | hchunk
    · simp
    · exact ih chunk hchunk

/-- What is found in a source is what the lexical grammar asks for. -/
lemma scans_ofBytes (source : List UInt8) :
    Scans [] source (Scan.ofBytes source).tokens (Scan.ofBytes source).errors :=
  scans_ofChunks [] source

/-- Whatever the lexical grammar says of a source, the scanner gives that. -/
lemma ofBytes_of_scans {source : List UInt8} {tokens : List Token} {errors : List LexicalError}
    (h : Scans [] source tokens errors) : Scan.ofBytes source = ⟨tokens, errors⟩ :=
  ofChunks_of_scans h

/-- The pieces of a source have bytes, and put together they are the source.  The tokens and lexical
errors of the source are exactly the ones that the lexical grammar asks for, in their places. -/
theorem scan_iff_lexical_grammar (source : List UInt8) :
    (Chunk.cut source).flatMap (·.bytes) = source ∧ (∀ chunk ∈ Chunk.cut source, chunk.bytes ≠ []) ∧
      ∀ tokens errors, Scans [] source tokens errors ↔ Scan.ofBytes source = ⟨tokens, errors⟩ := by
  refine ⟨Chunk.flatMap_bytes_cut source, bytes_ne_nil source, fun tokens errors => ?_⟩
  constructor
  · exact ofChunks_of_scans
  · intro h
    have hscans := scans_ofChunks [] source
    change Scans [] source (Scan.ofBytes source).tokens (Scan.ofBytes source).errors at hscans
    rwa [h] at hscans

end Scriptlet
