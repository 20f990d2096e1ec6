import Scriptlet.Proofs.Sessions
import Scriptlet.Proofs.Simulation
import Scriptlet.Proofs.Spellings

/-!
# Errors point at culprits

The place that an error of a script shows is the place of a token of the source, and it is the token that the
message is about: the name that is unknown or declared twice, the operator that does not take its operands, the
parenthesis that closes a call which goes wrong.  Between the scanner that counts places and the evaluator that
reports them stands the parser, which keeps some of the tokens in the tree; so the claim is carried through all
three.  It is the reading of correspondence in which a token corresponds to itself alone, and only if it is one
of the source: programs and runs correspond to themselves, and so every token that is blamed is one of the
source.
-/

namespace Scriptlet

/-- A token is the one that a cause is to be blamed on: the name or the operator that the message shows, or the
token that goes with a cause whose message shows none. -/
def Token.IsCulprit (token : Token) : RuntimeCause → Prop
  | .unknownIdentifier x | .unknownVariable x | .redeclaration x =>
    token.kind = .identifier ∧ token.lexeme = x
  | .unsupportedPlus _ _ => token.kind = .plus ∧ token.lexeme = "+"
  | .expectsNumbers x _ => token.kind ∈ Operator.numberKinds ∧ token.lexeme = x
  | .divisionByZero => token.kind = .slash
  | .notCallable _ | .arity _ _ _ | .callsTooDeep => token.kind = .rightParen
  | .returnOutside => token.kind = .returnWord
  | .unknownOperator _ | .unsupportedUnary _ | .programTooDeep => False

/-- A token is the one that a syntax error is about: the one that was found instead of something else, or the
equal sign behind what cannot be assigned to. -/
def Grammar.ParseError.IsAbout (error : ParseError) (kind : Kind) : Prop :=
  (∃ wanted, error.message = "expected " ++ Kind.name wanted ++ ", got " ++ kind.name) ∨
    error.message = "expected expression, got " ++ kind.name ∨
    error.message = "invalid assignment target" ∧ kind = .equal

/-- A failure shows the place of the culprit among the tokens of the source.  If constructs are nested too deeply,
then there is none: a run shows no place, and the parser the place of the token that it stands at. -/
def Failure.PointsAtCulprit (tokens : List Token) : Failure → Prop
  | run (.failed error) =>
    error = ⟨.programTooDeep, none⟩ ∨
      ∃ token ∈ tokens, error.place? = some token.position.place ∧ token.IsCulprit error.cause
  | parse error =>
    ∃ token ∈ tokens, error.place? = some token.position.place ∧
      (error.cause.IsTooDeep ∨ error.IsAbout token.kind)
  | _ => True

/-! ## Operators in sources -/

/-- A token of an operator has the text of the operator. -/
lemma lexeme_of_scans {before source : List UInt8} {tokens : List Token} {errors : List LexicalError}
    (h : Scans before source tokens errors) {text : String} {kind : Kind} (hmem : (text, kind) ∈ operators) :
    ∀ token ∈ tokens, token.kind = kind → token.lexeme = text := by
  rintro token htoken rfl
  have hspelling : ∀ op ∈ operators, op.2 ≠ .eof ∧ op.2.isFixed = true ∧ op.2.spelling = op.1 := by decide
  obtain ⟨heof, hfixed, hspelled⟩ := hspelling _ hmem
  obtain ⟨bytes, hlexeme, htext⟩ := isLexeme_of_scans h token htoken heof
  rw [htext, (hlexeme.eq_spelling hfixed).1, hspelled]

/-! ## Tokens of one source -/

/-- A token of the source corresponds to itself, and to no other one. -/
def Leaf.IsOf (tokens : List Token) (t u : Leaf) : Prop :=
  t = u ∧ ∃ token ∈ tokens, t = token.leaf

/-- A token of the source is parsed like itself. -/
lemma parsesSame_isOf (tokens : List Token) : Grammar.ParsesSame (Leaf.IsOf tokens) :=
  ⟨fun h => h.1 ▸ rfl, fun h => h.1 ▸ rfl⟩

/-- Each token of the source that serves its purpose corresponds to itself alone, and so does each function. -/
def likenessOf (tokens : List Token) : Likeness :=
  ⟨Grammar.Fitting (Leaf.IsOf tokens), Eq⟩

/-- A token of the source means the same as itself when it is run. -/
lemma meansSame_likenessOf (tokens : List Token) : (likenessOf tokens).MeansSame :=
  ⟨fun h => h.1.1 ▸ rfl, fun h => h.1.1 ▸ rfl, fun hi hj => by rw [hi, hj]⟩

/-- The operators of binary expressions are binary operators. -/
lemma mem_binaryKinds_of_fits {kind : Kind} (h : Role.binary.Fits kind) : kind ∈ Operator.binaryKinds := by
  obtain ⟨level, hlevel, hbuild, hkind⟩ := h
  rcases Exec.build_logical_or_binary hlevel hkind with hb | ⟨-, hbinary⟩
  · have hnulls := congrFun (congrFun (congrFun (hbuild.symm.trans hb) .null) .null) .null
    cases hnulls
  · exact hbinary

/-- What a cause is blamed on, if it fits the purpose that it serves, is the culprit. -/
lemma isCulprit_of_blames {source : List UInt8} {token : Token} (htoken : token ∈ (Scan.ofBytes source).tokens)
    {cause : RuntimeCause} {r : Role} (hfits : r.Fits token.kind) (h : cause.Blames r token.leaf) :
    token.IsCulprit cause := by
  have hscans := scans_ofBytes source
  have hbinary := fun hr : r = .binary => mem_binaryKinds_of_fits (hr ▸ hfits)
  cases cause with
  | unknownIdentifier x | unknownVariable x | redeclaration x =>
    cases r with
    | name => exact ⟨hfits, h⟩
    | _ => exact h.elim
  | unsupportedPlus left right =>
    cases r with
    | binary => exact ⟨h, lexeme_of_scans hscans (by simp [operators]) token htoken h⟩
    | _ => exact h.elim
  | expectsNumbers x operands =>
    cases r with
    | binary =>
      obtain ⟨hlexeme, hother⟩ := h
      have hmem := hbinary rfl
      simp only [Operator.binaryKinds, List.mem_cons] at hmem
      simp only [List.mem_cons, List.not_mem_nil, or_false, not_or] at hother
      exact ⟨((hmem.resolve_left hother.1).resolve_left hother.2.1).resolve_left hother.2.2, hlexeme⟩
    | unary =>
      obtain ⟨hlexeme, hminus⟩ := h
      have hkind : token.kind = .minus := hminus
      exact ⟨by simp [hkind, Operator.numberKinds], hlexeme⟩
    | _ => exact h.elim
  | unknownOperator x =>
    cases r with
    | binary => exact absurd (hbinary rfl) h.2
    | _ => exact h.elim
  | unsupportedUnary x =>
    cases r with
    | unary => exact absurd (hfits.symm.trans h.2) (by decide)
    | _ => exact h.elim
  | divisionByZero =>
    cases r with
    | binary => exact h
    | _ => exact h.elim
  | notCallable _ | arity _ _ _ | callsTooDeep =>
    cases r with
    | closing => exact hfits
    | _ => exact h.elim
  | returnOutside =>
    cases r with
    | keyword => exact hfits
    | _ => exact h.elim
  | programTooDeep => cases r <;> exact h.elim

/-! ## Parsing -/

namespace Grammar

variable {tokens : List Token} {line : ℤ}

/-- The kind of what was found instead of something else. -/
lemma gotName_eq {got : Option Leaf} {stop : Leaf} (hstop : stop.kind = .eof) :
    ParseError.gotName got = (got.getD stop).kind.name := by
  cases got with
  | none => simp [ParseError.gotName, hstop]
  | some t => rfl

/-- An error that corresponds to itself alone is about a token of the source. -/
lemma pointsAtCulprit_of_corresponds {error : ParseError}
    (h : error.Corresponds (Leaf.IsOf tokens) error) (hstop : error.stop.kind = .eof)
    (hplain : error.cause.IsPlain) : Failure.PointsAtCulprit tokens (.parse error) := by
  obtain ⟨cause, stop⟩ := error
  have hplace : ∀ {t : Leaf}, ParseError.token? ⟨cause, stop⟩ = some t →
      ∃ token ∈ tokens, t = token.leaf ∧
        ParseError.place? ⟨cause, stop⟩ = some token.position.place := by
    intro t ht
    have hself := h.token
    rw [ht] at hself
    cases hself with
    | some hself =>
      obtain ⟨-, token, htoken, rfl⟩ := hself
      exact ⟨token, htoken, rfl, by simp [ParseError.place?, ht, Token.place_leaf]⟩
  cases cause with
  | expected wanted got =>
    obtain ⟨token, htoken, hleaf, hat⟩ := hplace rfl
    refine ⟨token, htoken, hat, .inr (.inl ⟨wanted, ?_⟩)⟩
    change _ ++ ParseError.gotName got = _
    rw [gotName_eq hstop, hleaf]
    rfl
  | expectedExpression got =>
    obtain ⟨token, htoken, hleaf, hat⟩ := hplace rfl
    refine ⟨token, htoken, hat, .inr (.inr (.inl ?_))⟩
    change _ ++ ParseError.gotName got = _
    rw [gotName_eq hstop, hleaf]
    rfl
  | invalidTarget equals =>
    obtain ⟨token, htoken, rfl, hat⟩ := hplace rfl
    refine ⟨token, htoken, hat, .inr (.inr (.inr ⟨rfl, ?_⟩))⟩
    rcases h.cause with ⟨hcause, -⟩ | hcause
    · cases hcause
    · cases hcause with
      | invalidTarget _ hkind => exact hkind
  | tooDeep =>
    obtain ⟨token, htoken, -, hat⟩ := hplace rfl
    exact ⟨token, htoken, hat, .inl trivial⟩
  | badNumber => exact hplain.elim
  | noEnd => exact hplain.elim

/-- Tokens with an end are parsed to a program with no other tokens, or rejected at one of them. -/
lemma parse_isOf {front : List Token} (htokens : tokens = front ++ [.endOfSource line]) :
    match parse (tokens.map Token.leaf) with
    | .ok statements => List.Forall₂ (SameTree (Leaf.IsOf tokens)) statements statements
    | .error error => error.cause.IsPlain → Failure.PointsAtCulprit tokens (.parse error) := by
  have hself : List.Forall₂ (Leaf.IsOf tokens) (tokens.map Token.leaf) (tokens.map Token.leaf) := by
    refine List.forall₂_same.mpr fun t ht => ⟨rfl, ?_⟩
    obtain ⟨token, htoken, rfl⟩ := List.mem_map.mp ht
    exact ⟨token, htoken, rfl⟩
  have hstop : (Token.endOfSource line).leaf.kind = .eof := rfl
  have hmark : endMark? ((tokens.map Token.leaf).filter (·.kind ≠ .comment)) =
      some (Token.endOfSource line).leaf := by
    rw [htokens, List.map_append]
    exact endMark?_append hstop
  have hmarked : Option.Rel (Leaf.IsOf tokens)
      (endMark? ((tokens.map Token.leaf).filter (·.kind ≠ .comment)))
      (endMark? ((tokens.map Token.leaf).filter (·.kind ≠ .comment))) := by
    rw [hmark]
    exact .some ⟨rfl, _, by simp [htokens], rfl⟩
  have hparse := parseWithin_corresponds (parsesSame_isOf tokens) nestingLimit hself hmarked
  change Matched _ _ (parse (tokens.map Token.leaf)) (parse (tokens.map Token.leaf)) at hparse
  cases hresult : parse (tokens.map Token.leaf) with
  | ok statements =>
    rw [hresult] at hparse
    cases hparse with
    | ok h => exact h
  | error error =>
    rw [hresult] at hparse
    intro hplain
    -- An error that is found at the end is reported at the end mark.
    have hend : error.stop.kind = .eof := by
      unfold parse at hresult
      rw [parseWithin_apply, hmark] at hresult
      generalize itemsUntil .eof (declaration nestingLimit) (programTokens (tokens.map Token.leaf)) = outcome
        at hresult
      cases outcome with
      | ok _ => cases hresult
      | error cause =>
        cases hresult
        exact kind_stop_cut hstop _
    cases hparse with
    | error h => exact pointsAtCulprit_of_corresponds h hend hplain

end Grammar

/-! ## Runs -/

namespace Exec

variable {tokens : List Token}

/-- What a fresh run of a program of the source blames is a token of the source. -/
lemma agree_run (setting : Setting) {statements : List Node} (level : ℕ)
    (h : List.Forall₂ (Grammar.SameTree (Leaf.IsOf tokens)) statements statements) :
    Agree (likenessOf tokens) (fun _ _ => True) (fun _ _ => True)
      (run setting statements ((Session.start level).state ScopeTree.rootNumber))
      (run setting statements ((Session.start level).state ScopeTree.rootNumber)) := by
  have hroot : Chain.Corresponds (likenessOf tokens) [ScopeTree.builtins]
      [ScopeTree.builtins] :=
    .cons (.cons ⟨rfl, .clock⟩ .nil) .nil
  have hsimulates := simulates_run (meansSame_likenessOf tokens)
    (seeAlike_record (L := fun _ _ => True) fun _ _ => trivial) setting h
  rw [runWith_record] at hsimulates
  exact hsimulates ⟨hroot, trivial, rfl, fun _ => rfl, rfl⟩

end Exec

namespace Session

/-- If a source fails in a fresh session, with an error of the script or a syntax error, then the error shows
the place of a token of the source, which is the one to be blamed; only constructs that are nested too deeply
are reported without a place. -/
theorem failure_points_at_culprit (setting : Setting) (level : ℕ) (source : List UInt8) {failure : Failure}
    (h : ((start level).interpret setting ScopeTree.rootNumber source).1.failure? = some failure) :
    failure.PointsAtCulprit (Scan.ofBytes source).tokens := by
  have hscans := scans_ofBytes source
  obtain ⟨front, line, htokens⟩ := exists_end_of_scans hscans
  have hparse := Grammar.parse_isOf htokens
  have hsource := statements_of_source source
  cases hstatements : (Scan.ofBytes source).statements with
  | error rejection =>
    rw [interpret_of_error hstatements] at h
    obtain rfl : rejection = failure := Option.some.inj h
    rw [hstatements] at hsource
    unfold Scan.statements at hstatements
    split at hstatements
    · generalize Grammar.parse ((Scan.ofBytes source).tokens.map Token.leaf) = outcome at hparse hstatements
      cases outcome with
      | ok _ => cases hstatements
      | error error =>
        cases hstatements
        exact hparse hsource
    · cases hstatements
      trivial
  | ok statements =>
    rw [interpret_of_ok hstatements] at h
    unfold Scan.statements at hstatements
    split at hstatements
    · generalize Grammar.parse ((Scan.ofBytes source).tokens.map Token.leaf) = outcome at hparse hstatements
      cases outcome with
      | error _ => cases hstatements
      | ok program =>
        cases hstatements
        rw [run_fst] at h
        obtain ⟨stop, hstop, rfl⟩ := Option.map_eq_some_iff.mp h
        -- The run is compared with itself, where tokens correspond if they are of the source and of use.
        have hself := (Exec.agree_run setting level hparse).stop?
        obtain ⟨stop', hblamed⟩ : ∃ stop', Stop.Corresponds _ stop stop' := by
          rw [hstop] at hself
          cases hself with
          | some hblamed => exact ⟨stop, hblamed⟩
        cases hblamed with
        | failed ht hblames =>
          obtain ⟨⟨-, token, htoken, rfl⟩, hfits⟩ := ht
          exact .inr ⟨token, htoken, rfl, isCulprit_of_blames htoken hfits hblames⟩
        | programTooDeep => exact .inl rfl
        | _ => trivial
    · cases hstatements

/-- A function that prints what is declared nowhere, and a call of it. -/
def greetingNobody : List UInt8 :=
  Utf8.encode "fun greet() \x7b\n  print name;\n\x7d\ngreet();"

/-- The name that is declared nowhere is blamed where it stands in the function. -/
theorem greetingNobody_points_at_name :
    ((start 0).interpret ⟨10, 10, fun _ => 0⟩ ScopeTree.rootNumber greetingNobody).1.failure? =
        some (.run (.failed ⟨.unknownIdentifier "name", some (Position.place ⟨2, 8⟩)⟩)) ∧
      Failure.PointsAtCulprit (Scan.ofBytes greetingNobody).tokens
        (.run (.failed ⟨.unknownIdentifier "name", some (Position.place ⟨2, 8⟩)⟩)) := by
  have hscan : Scan.ofBytes greetingNobody =
      ⟨[⟨.funWord, "fun", none, ⟨1, 0, 3⟩⟩, ⟨.identifier, "greet", none, ⟨1, 4, 9⟩⟩,
        ⟨.leftParen, "(", none, ⟨1, 9, 10⟩⟩, ⟨.rightParen, ")", none, ⟨1, 10, 11⟩⟩,
        ⟨.leftBrace, "\x7b", none, ⟨1, 12, 13⟩⟩, ⟨.printWord, "print", none, ⟨2, 2, 7⟩⟩,
        ⟨.identifier, "name", none, ⟨2, 8, 12⟩⟩, ⟨.semicolon, ";", none, ⟨2, 12, 13⟩⟩,
        ⟨.rightBrace, "\x7d", none, ⟨3, 0, 1⟩⟩, ⟨.identifier, "greet", none, ⟨4, 0, 5⟩⟩,
        ⟨.leftParen, "(", none, ⟨4, 5, 6⟩⟩, ⟨.rightParen, ")", none, ⟨4, 6, 7⟩⟩,
        ⟨.semicolon, ";", none, ⟨4, 7, 8⟩⟩, .endOfSource 5], []⟩ := by
    decide +kernel
  have hfails : ((start 0).interpret ⟨10, 10, fun _ => 0⟩ ScopeTree.rootNumber greetingNobody).1.failure? =
      some (.run (.failed ⟨.unknownIdentifier "name", some (Position.place ⟨2, 8⟩)⟩)) := by
    unfold interpret
    rw [hscan]
    rfl
  exact ⟨hfails, failure_points_at_culprit ⟨10, 10, fun _ => 0⟩ 0 greetingNobody hfails⟩

end Session

end Scriptlet
