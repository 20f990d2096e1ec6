import Scriptlet.Proofs.Joining
import Scriptlet.Proofs.LineBreaks
import Scriptlet.Proofs.Positions

/-!
# Sources that end with a line

A source without lexical errors that ends with a line feed is scanned apart from what is behind it
(`Scans.append_line`).  So the tokens of two such sources, one behind the other, are the tokens of the first
and the tokens of the second, at other positions (`programOf_append`); and tokens at other positions are a
program of the same form.  A line feed at the very end makes no difference but to the position of the end.
-/

namespace Scriptlet

/-- A source that is empty or ends with a line feed. -/
def EndsLine (source : List UInt8) : Prop :=
  ∀ b ∈ source.getLast?, b = newline

/-- Bytes with a line break at their end finish a line. -/
lemma endsLine_append (front : List UInt8) : EndsLine (front ++ [newline]) := by
  intro b hb
  rw [List.getLast?_concat] at hb
  exact (Option.some.inj hb).symm

/-! ## Scanning -/

namespace Scans

lemma of_nil {before : List UInt8} {tokens : List Token} {errors : List LexicalError}
    (h : Scans before [] tokens errors) :
    tokens = [.endOfSource (lineAfter before + 1 : ℕ)] ∧ errors = [] := by
  have hscan := ofChunks_of_scans h
  rw [Cursor.after_start, Chunk.cut] at hscan
  exact ⟨(congrArg Scan.tokens hscan).symm, (congrArg Scan.errors hscan).symm⟩

/-- Without the line feed at its end, a source has the same tokens. -/
lemma of_line {before source : List UInt8} {tokens : List Token}
    (h : Scans before (source ++ [newline]) tokens []) :
    ∃ front line line', tokens = front ++ [.endOfSource line] ∧
      Scans before source (front ++ [.endOfSource line']) [] := by
  generalize hclean : ([] : List LexicalError) = errors, hwhole : source ++ [newline] = whole at h
  induction h generalizing source with
  | stop => simp at hwhole
  | @blank before rest b tokens errors hb hrest ih =>
    cases source with
    | nil =>
      obtain ⟨-, rfl⟩ := List.cons.inj hwhole
      subst hclean
      exact ⟨[], _, _, hrest.of_nil.1, .stop⟩
    | cons c source =>
      obtain ⟨rfl, hsource⟩ := List.cons.inj hwhole
      obtain ⟨front, line, line', htokens, hscans⟩ := ih hclean hsource
      exact ⟨front, line, line', htokens, .blank hb (hclean ▸ hscans)⟩
  | @token before lexeme rest kind literal tokens errors hlexeme hlongest hrest ih =>
    -- The line feed is not part of the lexeme, since it is no quote.
    have hsplit : ∃ inner, rest = inner ++ [newline] ∧ source = lexeme ++ inner := by
      rcases List.eq_nil_or_concat rest with rfl | ⟨inner, b, rfl⟩
      · rw [List.append_nil] at hwhole
        obtain ⟨body, -, hstring⟩ := hlexeme.isString (.inl (by simp [← hwhole]))
        rw [← hwhole] at hstring
        exact absurd (List.append_inj_right' hstring rfl) (by decide)
      · rw [List.concat_eq_append, ← List.append_assoc] at hwhole
        obtain rfl : newline = b := List.singleton_injective (List.append_inj_right' hwhole rfl)
        exact ⟨inner, List.concat_eq_append, List.append_inj_left' hwhole rfl⟩
    obtain ⟨inner, rfl, rfl⟩ := hsplit
    obtain ⟨front, line, line', rfl, hscans⟩ := ih hclean rfl
    refine ⟨_ :: front, line, line', rfl, .token hlexeme (fun hlexeme' hbegins => ?_) hscans⟩
    refine hlongest hlexeme' (hbegins.trans ?_)
    rw [← List.append_assoc]
    exact List.prefix_append _ _
  | error => cases hclean

/-- Only the last token of a source marks its end. -/
lemma kind_ne_eof {before source : List UInt8} {front : List Token} {line : ℤ} {errors : List LexicalError}
    (h : Scans before source (front ++ [.endOfSource line]) errors) : ∀ token ∈ front, token.kind ≠ .eof := by
  have hlexeme : ∀ {kind literal lexeme}, IsLexeme kind literal lexeme → kind ≠ .eof := by
    have hoperators : ∀ op ∈ operators, op.2 ≠ .eof := by decide
    have hwords : Kind.eof ∉ Kind.words := by decide
    intro kind literal lexeme h
    cases h with
    | operator hmem => exact hoperators _ hmem
    | word _ hword =>
      rintro rfl
      rcases hword with ⟨hword, -⟩ | ⟨hword, -⟩
      · exact hwords hword
      · cases hword
    | _ => decide
  generalize htokens : front ++ [.endOfSource line] = tokens at h
  induction h generalizing front with
  | stop =>
    obtain rfl : front = [] := List.length_eq_zero_iff.mp (by simpa using congrArg List.length htokens)
    exact List.forall_mem_nil _
  | blank _ _ ih => exact ih htokens
  | token hnext _ _ ih =>
    cases front with
    | nil => simp
    | cons token front =>
      obtain ⟨rfl, hlater⟩ := List.cons.inj htokens
      exact List.forall_mem_cons.mpr ⟨hlexeme hnext, ih hlater⟩
  | error _ _ _ ih => exact ih htokens

end Scans

/-! ## Programs -/

lemma Leaf.alike_refl (tokens : List Leaf) : List.Forall₂ Leaf.Alike tokens tokens :=
  List.forall₂_same.mpr fun _ _ => ⟨rfl, rfl, rfl⟩

/-- Lists of tokens that are alike to others are alike to what those are alike to. -/
lemma Leaf.alike_trans {ts us vs : List Leaf} (h : List.Forall₂ Leaf.Alike ts us)
    (h' : List.Forall₂ Leaf.Alike us vs) : List.Forall₂ Leaf.Alike ts vs := by
  induction h generalizing vs with
  | nil => exact h'
  | cons ht _ ih =>
    cases h' with
    | cons hu hus =>
      exact .cons ⟨ht.kind.trans hu.kind, ht.lexeme.trans hu.lexeme, ht.literal.trans hu.literal⟩ (ih hus)

/-- Tokens that are moved down are the same tokens at other positions. -/
lemma alike_movedDown (n : ℕ) (tokens : List Token) :
    List.Forall₂ Leaf.Alike (tokens.map Token.leaf) ((tokens.map (Token.movedDown n)).map Token.leaf) := by
  rw [List.map_map, List.forall₂_map_left_iff, List.forall₂_map_right_iff]
  exact List.forall₂_same.mpr fun _ _ => ⟨rfl, rfl, rfl⟩

/-- The tokens that make up the program of a source. -/
def programOf (source : List UInt8) : List Leaf :=
  Grammar.programTokens ((Scan.ofBytes source).tokens.map Token.leaf)

/-- The end mark alone is no token of a program. -/
lemma programTokens_endOfSource (line : ℤ) :
    Grammar.programTokens [(Token.endOfSource line).leaf] = [] :=
  rfl

/-- A source without lexical errors has tokens and an end mark. -/
lemma exists_scans {source : List UInt8} (h : (Scan.ofBytes source).errors = []) :
    ∃ front line, Scans [] source (front ++ [.endOfSource line]) [] := by
  have hscans := scans_ofBytes source
  obtain ⟨front, line, htokens⟩ := exists_end_of_scans hscans
  rw [h, htokens] at hscans
  exact ⟨front, line, hscans⟩

/-- All tokens in front of the end mark belong to the program, but for the comments. -/
lemma programOf_of_scans {source : List UInt8} {front : List Token} {line : ℤ}
    (h : Scans [] source (front ++ [.endOfSource line]) []) :
    programOf source = (front.map Token.leaf).filter (·.kind ≠ .comment) := by
  have hends : ∀ t ∈ front.map Token.leaf, t.kind ≠ .eof := by
    simpa [Token.leaf] using h.kind_ne_eof
  unfold programOf
  rw [ofBytes_of_scans h, List.map_append, Grammar.programTokens_append hends]
  simp [programTokens_endOfSource]

/-- Without the line feed at its end, a source has the same program. -/
theorem programOf_line {source : List UInt8} (h : (Scan.ofBytes (source ++ [newline])).errors = []) :
    (Scan.ofBytes source).errors = [] ∧ programOf source = programOf (source ++ [newline]) := by
  obtain ⟨front, line, hscans⟩ := exists_scans h
  obtain ⟨front', line', line'', htokens, hshort⟩ := hscans.of_line
  obtain rfl : front = front' := List.append_inj_left' htokens rfl
  rw [programOf_of_scans hscans, programOf_of_scans hshort]
  exact ⟨congrArg Scan.errors (ofBytes_of_scans hshort), rfl⟩

/-- The tokens of a program behind another one are the tokens of both, at other positions. -/
theorem programOf_append {source more : List UInt8} (hsource : (Scan.ofBytes source).errors = [])
    (hline : EndsLine source) (hmore : (Scan.ofBytes more).errors = []) :
    (Scan.ofBytes (source ++ more)).errors = [] ∧
      List.Forall₂ Leaf.Alike (programOf source ++ programOf more) (programOf (source ++ more)) := by
  rcases List.eq_nil_or_concat source with rfl | ⟨front, b, rfl⟩
  · have hnil : programOf [] = [] := by
      rw [programOf, ofBytes_of_scans .stop]
      rfl
    rw [hnil]
    exact ⟨hmore, Leaf.alike_refl _⟩
  · rw [List.concat_eq_append] at hsource hline ⊢
    obtain rfl : b = newline := hline b List.getLast?_concat
    obtain ⟨hclean, hprogram⟩ := programOf_line hsource
    obtain ⟨tokens, line, hscans⟩ := exists_scans hclean
    have hlater := (scans_ofBytes more).behind_line front
    rw [hmore, List.map_nil] at hlater
    obtain ⟨tokens', htokens, hwhole⟩ := hscans.append_line (List.forall_mem_nil _) hlater
    obtain rfl : tokens = tokens' := List.append_inj_left' htokens rfl
    have hboth := ofBytes_of_scans hwhole
    have hends : ∀ t ∈ tokens.map Token.leaf, t.kind ≠ .eof := by
      simpa [Token.leaf] using hscans.kind_ne_eof
    have hprograms : programOf (front ++ newline :: more) = programOf front ++ Grammar.programTokens
        (((Scan.ofBytes more).tokens.map (Token.movedDown (front.count newline + 1))).map Token.leaf) := by
      rw [programOf_of_scans hscans, ← Grammar.programTokens_append hends, ← List.map_append]
      exact congrArg (fun scan => Grammar.programTokens (scan.tokens.map Token.leaf)) hboth
    rw [List.append_assoc, List.singleton_append, ← hprogram, hprograms]
    refine ⟨congrArg Scan.errors hboth, List.rel_append (Leaf.alike_refl _) ?_⟩
    exact Grammar.forall₂_takeWhile Grammar.parsesSame_alike
      (Grammar.forall₂_filter Grammar.parsesSame_alike (alike_movedDown _ _))

/-- Tokens that are gathered to statements, up to their end. -/
def IsProgram (tokens : List Leaf) (statements : List Node) : Prop :=
  Grammar.Gathers (Grammar.nextUntil .eof (Grammar.declaration Grammar.nestingLimit)) tokens statements []

/-- Tokens at other positions are a program as well, which differs only in positions. -/
lemma IsProgram.alike {tokens tokens' : List Leaf} {statements : List Node} (h : IsProgram tokens statements)
    (htokens : List.Forall₂ Leaf.Alike tokens tokens') :
    ∃ statements', IsProgram tokens' statements' ∧ List.Forall₂ Node.Alike statements statements' := by
  have htakes := Grammar.takes_declaration Grammar.nestingLimit
  have hparse : Grammar.program Grammar.nestingLimit tokens = .ok (statements, []) :=
    (Grammar.itemsUntil_eq_ok htakes).mpr h
  have halike := Grammar.program_parsesAlike Grammar.parsesSame_alike Grammar.nestingLimit htokens
  rw [hparse] at halike
  generalize hparse' : Grammar.program Grammar.nestingLimit tokens' = outcome at halike
  cases halike with
  | @ok _ r hleftover =>
    obtain ⟨statements', rest⟩ := r
    obtain ⟨htrees, hrest⟩ := hleftover
    cases hrest
    refine ⟨statements', (Grammar.itemsUntil_eq_ok htakes).mp hparse', ?_⟩
    exact htrees.imp fun _ _ htree => htree.mono fun hleaf => hleaf.1

/-- A source is a program if it has no lexical errors and its tokens are a program. -/
lemma statements_eq_ok {source : List UInt8} {statements : List Node} :
    (Scan.ofBytes source).statements = .ok statements ↔
      (Scan.ofBytes source).errors = [] ∧ IsProgram (programOf source) statements := by
  have hparse : Grammar.parse ((Scan.ofBytes source).tokens.map Token.leaf) = .ok statements ↔
      (∃ mark, Grammar.endMark? (((Scan.ofBytes source).tokens.map Token.leaf).filter (·.kind ≠ .comment)) =
        some mark) ∧ IsProgram (programOf source) statements :=
    Grammar.parseWithin_eq_ok
  rw [Scan.statements_ok_iff, hparse]
  refine and_congr_right fun hclean => and_iff_right ?_
  obtain ⟨front, line, hscans⟩ := exists_scans hclean
  have htokens : (Scan.ofBytes source).tokens.map Token.leaf =
      front.map Token.leaf ++ [(Token.endOfSource line).leaf] := by
    rw [ofBytes_of_scans hscans, List.map_append]
    rfl
  exact ⟨_, htokens ▸ Grammar.endMark?_append rfl⟩

end Scriptlet
