import Scriptlet.Proofs.Lines

/-!
# Line comments

A comment up to the end of a line, with a space in front of it, is as good as no comment: all other tokens and
all lexical errors stay what they are and where they are, whatever the comment holds.  Hence a program stays
the same program, or is rejected for the same reason.

What has to be shown is that no piece of the line goes on into the comment.  A piece in front of it can only
take the space if it is a string or a comment.  A string is closed before, since no string is left open at the
end of the line.  A comment does take the rest of the line, and stays a comment.
-/

namespace Scriptlet

/-- A comment up to the end of the line, with a space in front of it. -/
def lineComment (text : List UInt8) : List UInt8 :=
  space :: slash :: slash :: text

/-- A line comment stays on its line. -/
lemma newline_not_mem_lineComment {text : List UInt8} (h : newline ∉ text) : newline ∉ lineComment text := by
  have hplain : newline ≠ space ∧ newline ≠ slash := by decide
  simp [lineComment, hplain, h]

/-! ## Pieces in front of a comment -/

/-- Two slashes begin a comment and no other lexeme. -/
lemma IsLexeme.kind_eq_comment {kind : Kind} {literal : Option String} {body : List UInt8}
    (h : IsLexeme kind literal (slash :: slash :: body)) : kind = .comment := by
  have hoperators : ∀ op ∈ operators, ¬ [slash, slash] <+: Utf8.encode op.1 := by decide +kernel
  have hquote : slash ≠ quote := by decide
  have hclass : ¬ (IsLetterByte slash ∨ IsDigitByte slash) := by
    unfold IsLetterByte IsDigitByte
    decide +kernel
  generalize hbytes : slash :: slash :: body = bytes at h
  cases h with
  | operator hmem => exact absurd (hbytes ▸ List.prefix_append [slash, slash] body) (hoperators _ hmem)
  | comment => rfl
  | string => exact absurd (List.cons.inj hbytes).1 hquote
  | number hnumber =>
    rw [← hbytes] at hnumber
    exact absurd (.inr (Chunk.length_le_numberExtent hnumber []).1) hclass
  | word hword =>
    rw [← hbytes] at hword
    cases hword with
    | intro hfirst _ => exact absurd (.inl hfirst) hclass

/-- A lexeme that begins with a closed piece and takes the space in front of a comment is a comment, and so is
what is in front of the space. -/
lemma IsLexeme.exists_comment {kind : Kind} {literal : Option String} {bytes rest lexeme : List UInt8}
    (h : IsLexeme kind literal lexeme) (hne : bytes ≠ []) (hclosed : IsClosed bytes)
    (htakes : ∃ tail, lexeme = bytes ++ rest ++ space :: tail) :
    ∃ body, newline ∉ body ∧ bytes ++ rest = slash :: slash :: body := by
  obtain ⟨tail, rfl⟩ := htakes
  have hspace : slash ≠ space := by decide
  rcases h.isString_or_isComment (by decide) (List.mem_append_right _ List.mem_cons_self) with
    ⟨body, hbody, hstring⟩ | ⟨body, hbody, hcomment⟩
  · rw [List.append_assoc] at hstring
    exact absurd hstring (hclosed.append_ne_string hne (by simp) hbody)
  · generalize hfront : bytes ++ rest = front at hcomment
    rcases front with _ | ⟨b, _ | ⟨c, front⟩⟩
    · exact absurd (List.append_eq_nil_iff.mp hfront).1 hne
    · exact absurd (List.cons.inj (List.cons.inj hcomment).2).1.symm hspace
    · obtain ⟨hb, hrest⟩ := List.cons.inj hcomment
      obtain ⟨hc, rfl⟩ := List.cons.inj hrest
      rw [hb, hc]
      exact ⟨front, fun hmem => hbody (List.mem_append_left _ hmem), rfl⟩

/-! ## Scanning -/

/-- The tokens but for the comments. -/
def withoutComments (tokens : List Token) : List Token :=
  tokens.filter (·.kind ≠ .comment)

/-- Comments are dropped token by token. -/
lemma withoutComments_cons (token : Token) (tokens : List Token) :
    withoutComments (token :: tokens) = withoutComments [token] ++ withoutComments tokens :=
  List.filter_append [token] tokens

/-- A text without line breaks stays on its line. -/
lemma lineAfter_append_of_not_mem {before text : List UInt8} (h : newline ∉ text) :
    lineAfter (before ++ text) = lineAfter before := by
  unfold lineAfter
  rw [List.count_append, List.count_eq_zero.mpr h, Nat.add_zero]

namespace Scans

variable {text : List UInt8}

/-- A comment up to the end of the source is one token. -/
lemma comment (before : List UInt8) {body : List UInt8} (h : newline ∉ body) :
    ∃ token : Token, token.kind = .comment ∧ Scans before (slash :: slash :: body)
      [token, .endOfSource (lineAfter before + 1 : ℕ)] [] := by
  have hslash : newline ≠ slash := by decide
  have hbody : newline ∉ slash :: slash :: body := by simp [hslash, h]
  have hstop := @Scans.stop (before ++ slash :: slash :: body)
  rw [lineAfter_append_of_not_mem hbody] at hstop
  have htoken := Scans.token (.comment h) (fun _ hbegins => ?_) hstop
  · rw [List.append_nil] at htoken
    exact ⟨_, rfl, htoken⟩
  · rw [List.append_nil] at hbegins
    exact hbegins.length_le

/-- Behind a source that leaves no string open, a comment changes neither the errors nor the tokens but for the
comments. -/
lemma append_comment {before source : List UInt8} {tokens : List Token} {errors : List LexicalError}
    (h : Scans before source tokens errors) (hclosed : ∀ error ∈ errors, error.cause ≠ .unterminatedString)
    (htext : newline ∉ text) :
    ∃ tokens', withoutComments tokens' = withoutComments tokens ∧
      Scans before (source ++ lineComment text) tokens' errors := by
  induction h with
  | @stop before =>
    -- Behind a source that ends outside of strings and comments the comment is a token of its own.
    obtain ⟨token, hkind, hscans⟩ := comment (before ++ [space]) htext
    rw [lineAfter_append_of_not_mem (by decide)] at hscans
    refine ⟨_, ?_, .blank (by decide) hscans⟩
    rw [withoutComments_cons, withoutComments, List.filter_cons_of_neg (by simpa using hkind)]
    rfl
  | @blank before rest b _ _ hb _ ih =>
    obtain ⟨tokens', htokens, hscans⟩ := ih hclosed
    exact ⟨tokens', htokens, .blank hb hscans⟩
  | @token before lexeme rest kind literal tokens errors hlexeme hlongest hrest ih =>
    have hne := Chunk.ne_nil_of_isLexeme hlexeme
    by_cases hcomment : ∃ body, newline ∉ body ∧ lexeme ++ rest = slash :: slash :: body
    · -- The source ends with a comment, which takes the other one.
      obtain ⟨body, hbody, hwhole⟩ := hcomment
      have hlength := hlongest (.comment hbody) (hwhole ▸ List.prefix_rfl)
      rw [← hwhole, List.length_append] at hlength
      obtain rfl : rest = [] := List.length_eq_zero_iff.mp (by omega)
      rw [List.append_nil] at hwhole ⊢
      subst hwhole
      obtain rfl := hlexeme.kind_eq_comment
      obtain ⟨rfl, rfl⟩ := hrest.of_nil
      have hlonger : newline ∉ body ++ lineComment text := by
        simp [hbody, newline_not_mem_lineComment htext]
      obtain ⟨token, hkind, hscans⟩ := comment before hlonger
      refine ⟨_, ?_, hscans⟩
      have hline : newline ∉ slash :: slash :: body := by
        have hslash : newline ≠ slash := by decide
        simp [hslash, hbody]
      rw [withoutComments_cons, withoutComments_cons _ [_], lineAfter_append_of_not_mem hline]
      simp [withoutComments, hkind]
    · -- A lexeme that is no comment at the end of the source is still the longest one, with a comment behind.
      obtain ⟨tokens', htokens, hscans⟩ := ih hclosed
      rw [List.append_assoc]
      refine ⟨_ :: tokens', ?_, .token hlexeme (fun hlexeme' hbegins => ?_) hscans⟩
      · rw [withoutComments_cons, htokens, ← withoutComments_cons]
      · rw [← List.append_assoc] at hbegins
        rcases prefix_or_takes hbegins with hshort | htakes
        · exact hlongest hlexeme' hshort
        · exact absurd (hlexeme'.exists_comment hne hlexeme.isClosed htakes) hcomment
  | @error before bytes rest cause tokens errors hnext herror _ ih =>
    obtain ⟨hcause, hclosed⟩ := List.forall_mem_cons.mp hclosed
    obtain ⟨tokens', htokens, hscans⟩ := ih hclosed
    rw [List.append_assoc]
    refine ⟨tokens', htokens, .error (fun hlexeme => ?_) (herror.append hcause (by decide) _) hscans⟩
    obtain ⟨kind, literal, lexeme, hlexeme, hbegins⟩ := hlexeme
    rw [← List.append_assoc] at hbegins
    rcases prefix_or_takes hbegins with hshort | htakes
    · exact hnext ⟨kind, literal, lexeme, hlexeme, hshort⟩
    · -- A comment would come next.
      obtain ⟨body, hbody, hwhole⟩ := hlexeme.exists_comment (Chunk.ne_nil_of_isLexicalError herror)
        (herror.isClosed hcause) htakes
      exact hnext ⟨_, _, _, .comment hbody, hwhole ▸ List.prefix_rfl⟩

end Scans

/-! ## Programs -/

/-- The parser does not see comments. -/
lemma Grammar.parseWithin_congr {limit : ℕ} {tokens tokens' : List Leaf}
    (h : tokens.filter (·.kind ≠ .comment) = tokens'.filter (·.kind ≠ .comment)) :
    parseWithin limit tokens = parseWithin limit tokens' := by
  unfold parseWithin Input.ofTokens?
  rw [h]

/-- What is parsed depends on the errors and on the tokens that are not comments. -/
lemma Scan.statements_congr {scan scan' : Scan} (htokens : withoutComments scan.tokens = withoutComments scan'.tokens)
    (herrors : scan.errors = scan'.errors) : scan.statements = scan'.statements := by
  have hfilter : ∀ tokens : List Token, (tokens.map Token.leaf).filter (·.kind ≠ .comment) =
      (withoutComments tokens).map Token.leaf := fun tokens => List.filter_map
  have hparse : Grammar.parse (scan.tokens.map Token.leaf) = Grammar.parse (scan'.tokens.map Token.leaf) :=
    Grammar.parseWithin_congr (by rw [hfilter, hfilter, htokens])
  unfold Scan.statements
  rw [herrors, hparse]

/-- A comment up to the end of a line is invisible.  If no string is left open in front of it, then the tokens but for
the comments and the lexical errors of a source are the same with it and without it, their places included,
and so are the statements of the source or the reason for which it is rejected.  This holds whatever the
comment holds and whatever is in front of it, be it another comment, a slash or a part of a character. -/
theorem line_comments_are_invisible (source text more : List UInt8)
    (hclosed : ∀ error ∈ (Scan.ofBytes source).errors, error.cause ≠ .unterminatedString)
    (htext : newline ∉ text) :
    let plain := Scan.ofBytes (source ++ newline :: more)
    let commented := Scan.ofBytes (source ++ Utf8.encode " //" ++ text ++ newline :: more)
    commented.tokens.filter (·.kind ≠ .comment) = plain.tokens.filter (·.kind ≠ .comment) ∧
      commented.errors = plain.errors ∧ commented.statements = plain.statements := by
  intro plain commented
  have hscan := scans_ofBytes source
  obtain ⟨tokens', hsame, hscan'⟩ := hscan.append_comment hclosed htext
  obtain ⟨front, hfront, hplain⟩ := hscan.append_line hclosed ((scans_ofBytes more).behind_line source)
  obtain ⟨front', hfront', hcommented⟩ := hscan'.append_line hclosed
    ((scans_ofBytes more).behind_line (source ++ lineComment text))
  have hline : newline ∉ lineComment text := newline_not_mem_lineComment htext
  have hcount : (source ++ lineComment text).count newline = source.count newline := by
    rw [List.count_append, List.count_eq_zero.mpr hline, Nat.add_zero]
  rw [hcount] at hcommented
  have hfronts : withoutComments front' = withoutComments front := by
    rw [hfront, hfront'] at hsame
    simp only [withoutComments, List.filter_append] at hsame
    exact List.append_inj_left' hsame rfl
  have hwhole : source ++ Utf8.encode " //" ++ text ++ newline :: more =
      source ++ lineComment text ++ newline :: more := by
    have hbytes : Utf8.encode " //" = [space, slash, slash] := by decide +kernel
    simp [hbytes, lineComment]
  have hplain' : plain = _ := ofBytes_of_scans hplain
  have hcommented' : commented = _ := (congrArg Scan.ofBytes hwhole).trans (ofBytes_of_scans hcommented)
  have htokens : withoutComments commented.tokens = withoutComments plain.tokens := by
    rw [hplain', hcommented']
    simp only [withoutComments, List.filter_append] at hfronts ⊢
    rw [hfronts]
  have herrors : commented.errors = plain.errors := by
    rw [hplain', hcommented']
  exact ⟨htokens, herrors, Scan.statements_congr htokens herrors⟩

/-- A line that ends with a slash and the first two of the three bytes of a character. -/
def brokenLine : List UInt8 :=
  Utf8.encode "x /" ++ [0xE2, 0x82]

/-- A comment with a quote, a brace, a carriage return and a byte that belongs to no character. -/
def wildText : List UInt8 :=
  Utf8.encode "\"\x7b\r" ++ [0xFF]

/-- The wild comment is invisible behind the broken line. -/
theorem wildText_is_invisible :
    (∀ error ∈ (Scan.ofBytes (brokenLine)).errors, error.cause ≠ .unterminatedString) ∧
      newline ∉ wildText ∧
      (Scan.ofBytes (brokenLine ++ Utf8.encode " //" ++ wildText ++ newline :: [0xAC])).errors =
        (Scan.ofBytes (brokenLine ++ newline :: [0xAC])).errors ∧
      (Scan.ofBytes (brokenLine ++ Utf8.encode " //" ++ wildText ++ newline :: [0xAC])).statements =
        (Scan.ofBytes (brokenLine ++ newline :: [0xAC])).statements := by
  have hclosed : ∀ error ∈ (Scan.ofBytes (brokenLine)).errors,
      error.cause ≠ .unterminatedString := by
    decide +kernel
  have htext : newline ∉ wildText := by decide +kernel
  exact ⟨hclosed, htext, (line_comments_are_invisible _ _ _ hclosed htext).2⟩

end Scriptlet
