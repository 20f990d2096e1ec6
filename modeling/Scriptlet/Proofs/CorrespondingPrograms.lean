import Scriptlet.Proofs.Congruence
import Scriptlet.Proofs.Soundness

/-!
# Corresponding tokens are parsed alike

What the parser does with a list of tokens is determined by their kinds and literals.  From tokens that
correspond one to one it makes programs whose trees correspond, or it stops with errors of one form that are
reported at corresponding tokens.  The relation between tokens is left open, so this one fact has many
readings: the same tokens at other places give the same program but for the places, and everything that is
known of all tokens is known of the tokens in the program and of the token that an error is reported at.

A parser with a smaller nesting limit does the same as one with a larger limit, unless it finds that
constructs are nested too deeply; this is shown along with the rest, and it is the only case in which the tokens
at which two parsers stop need not correspond.
-/

namespace Scriptlet.Grammar

variable {α β : Type} {T : Leaf → Leaf → Prop} {smaller : Prop} {Q : α → β → Prop}

/-- Results that are related, with tokens left over that are. -/
def Leftover (T : Leaf → Leaf → Prop) (Q : α → β → Prop) (r : α × List Leaf) (r' : β × List Leaf) : Prop :=
  Q r.1 r'.1 ∧ List.Forall₂ T r.2 r'.2

/-- On related tokens both parsers find related results, or both stop with corresponding errors; or else the
first one runs into the nesting limit, if its limit may be smaller. -/
def ParsesAlike (T : Leaf → Leaf → Prop) (smaller : Prop) (Q : α → β → Prop) (p : Parse α) (p' : Parse β) : Prop :=
  ∀ ⦃ts ts'⦄, List.Forall₂ T ts ts' →
    (smaller ∧ ∃ got, p ts = .error (@.tooDeep got)) ∨
      Matched (SyntaxError.Corresponds T) (Leftover T Q) (p ts) (p' ts')

namespace ParsesAlike

variable {γ δ : Type} {p : Parse α} {p' : Parse β}

lemma pure {a : α} {b : β} (h : Q a b) : ParsesAlike T smaller Q (pure a) (pure b) :=
  fun _ _ hts => .inr (.ok ⟨h, hts⟩)

/-- Parsers are alike one behind the other. -/
lemma bind {S : γ → δ → Prop} {q : α → Parse γ} {q' : β → Parse δ} (hp : ParsesAlike T smaller Q p p')
    (hq : ∀ {a b}, Q a b → ParsesAlike T smaller S (q a) (q' b)) : ParsesAlike T smaller S (p >>= q) (p' >>= q') := by
  intro ts ts' hts
  rw [bind_apply, bind_apply]
  rcases hp hts with ⟨hsmaller, got, h⟩ | h
  · rw [h]
    exact .inl ⟨hsmaller, got, rfl⟩
  · generalize p ts = outcome, p' ts' = outcome' at h
    cases h with
    | error he => exact .inr (.error he)
    | ok hr => exact hq hr.1 hr.2

/-- Parsers that are alike remain so behind a token that is skipped. -/
lemma behind (h : ParsesAlike T smaller Q p p') : ParsesAlike T smaller Q (behind p) (behind p') := by
  intro ts ts' hts
  cases hts with
  | nil => exact h .nil
  | cons _ hus => exact h hus

/-- Parsers that the first token chooses are alike if the choices are. -/
lemma byFirst {f : Leaf → Parse α} {f' : Leaf → Parse β} (hp : ParsesAlike T smaller Q p p')
    (hf : ∀ {t u}, T t u → ParsesAlike T smaller Q (f t) (f' u)) :
    ParsesAlike T smaller Q (byFirst p f) (byFirst p' f') := by
  intro ts ts' hts
  cases hts with
  | nil => exact hp .nil
  | cons ht hus => exact hf ht (.cons ht hus)

/-- Both loops make the same turns, as both have as many tokens to begin with. -/
lemma loop {step : α → Parse (Option α)} {step' : β → Parse (Option β)} {a : α} {b : β}
    (hstep : ∀ {a b}, Q a b → ParsesAlike T smaller (Option.Rel Q) (step a) (step' b)) (h : Q a b) :
    ParsesAlike T smaller Q (loop step a) (loop step' b) := by
  have hwithin : ∀ {budget budget' : List Leaf}, List.Forall₂ T budget budget' → ∀ {a b}, Q a b →
      ParsesAlike T smaller Q (repeatWithin step budget a) (repeatWithin step' budget' b) := by
    intro budget budget' hbudget
    induction hbudget with
    | nil => exact fun hab => pure hab
    | cons _ _ ih =>
      refine fun hab => (hstep hab).bind fun ho => ?_
      cases ho with
      | none => exact pure hab
      | some hnext => exact ih hnext
  exact fun ts ts' hts => hwithin hts h hts

end ParsesAlike

/-- Lists that correspond begin with corresponding tokens, or are both empty. -/
lemma rel_head? {ts ts' : List Leaf} (h : List.Forall₂ T ts ts') : Option.Rel T ts.head? ts'.head? := by
  cases h with
  | nil => exact .none
  | cons ht _ => exact .some ht

/-- Parsing alike respects all that constructs are made of. -/
theorem congruence_parsesAlike (hT : ParsesSame T) (smaller : Prop) : Congruence T (ParsesAlike T smaller) where
  tokens := hT
  beyondLimit hts := .inr (.error (.tooDeep (rel_head? hts)))
  pure h := .pure h
  fail wanted? _ _ hts := .inr (.error (SyntaxError.corresponds_needs wanted? (rel_head? hts)))
  throw he _ _ _ _ := .inr (.error he)
  bind hp hq := hp.bind hq
  behind h := h.behind
  byFirst hp hf := hp.byFirst hf
  loop _ hstep h := .loop hstep h

/-- A parser with a smaller limit may run into it whatever the other one does. -/
lemma anyBeyondLimit_parsesAlike : AnyBeyondLimit (ParsesAlike T True) :=
  fun _ _ _ _ => .inl ⟨trivial, _, rfl⟩

/-- From related tokens corresponding programs are made, or corresponding errors are found. -/
theorem program_parsesAlike (hT : ParsesSame T) (limit : ℕ) {ts ts' : List Leaf} (hts : List.Forall₂ T ts ts') :
    Matched (SyntaxError.Corresponds T) (Leftover T (List.Forall₂ (SameTree T)))
      (program limit ts) (program limit ts') :=
  ((congruence_parsesAlike hT False).program le_rfl (absurd rfl) hts).resolve_left And.left

/-! ## Programs with an end -/

/-- Parse errors whose causes correspond and that are reported at related tokens, if at any. -/
structure ParseError.Corresponds (T : Leaf → Leaf → Prop) (error error' : ParseError) : Prop where
  cause : error.cause = .noEnd ∧ error'.cause = .noEnd ∨ error.cause.Corresponds T error'.cause
  token : Option.Rel T error.token? error'.token?

/-- Errors correspond if their causes do and the tokens at which the input stops. -/
lemma ParseError.Corresponds.of_cause {cause cause' : SyntaxError} {stop stop' : Leaf}
    (h : cause.Corresponds T cause') (hstop : T stop stop') :
    ParseError.Corresponds T ⟨cause, stop⟩ ⟨cause', stop'⟩ := by
  refine ⟨.inr h, ?_⟩
  have hgot : ∀ {got got' : Option Leaf}, Option.Rel T got got' →
      Option.Rel T (some (got.getD stop)) (some (got'.getD stop')) := by
    intro got got' h
    cases h with
    | none => exact .some hstop
    | some ht => exact .some ht
  cases h with
  | expected _ h | expectedExpression h | tooDeep h => exact hgot h
  | invalidTarget ht => exact .some ht
  | badNumber => exact .none

/-- The message of an error says nothing about tokens but their kinds. -/
lemma ParseError.Corresponds.message_eq (hT : ParsesSame T) {error error' : ParseError}
    (h : error.Corresponds T error') : error.message = error'.message := by
  have hgot : ∀ {got got' : Option Leaf}, Option.Rel T got got' → gotName got = gotName got' := by
    intro got got' h
    cases h with
    | none => rfl
    | some ht => simp [gotName, hT.kind_eq ht]
  obtain ⟨cause, stop⟩ := error
  obtain ⟨cause', stop'⟩ := error'
  rcases h.cause with ⟨hcause, hcause'⟩ | hcause
  · obtain rfl : cause = .noEnd := hcause
    obtain rfl : cause' = .noEnd := hcause'
    rfl
  · change cause.Corresponds T cause' at hcause
    cases hcause with
    | expected _ hrel | expectedExpression hrel => simp only [ParseError.message, hgot hrel]
    | _ => rfl

section Ends

variable {tokens tokens' : List Leaf}

/-- Lists that correspond do so without their comments. -/
lemma forall₂_filter (hT : ParsesSame T) (h : List.Forall₂ T tokens tokens') :
    List.Forall₂ T (tokens.filter (·.kind ≠ .comment)) (tokens'.filter (·.kind ≠ .comment)) :=
  List.rel_filter (fun _ _ ht => by simp [hT.kind_eq ht]) h

/-- Lists that correspond do so up to the tokens that end the source. -/
lemma forall₂_takeWhile (hT : ParsesSame T) (h : List.Forall₂ T tokens tokens') :
    List.Forall₂ T (tokens.takeWhile (·.kind ≠ .eof)) (tokens'.takeWhile (·.kind ≠ .eof)) := by
  induction h with
  | nil => exact .nil
  | @cons t u _ _ ht _ ih =>
    have hkind := hT.kind_eq ht
    by_cases heof : t.kind = .eof
    · simp [heof, hkind ▸ heof]
    · simpa [heof, hkind ▸ heof, ht] using ih

/-- The tokens at which the inputs stop correspond. -/
lemma stop_cut (hT : ParsesSame T) (h : List.Forall₂ T tokens tokens') {mark mark' : Leaf}
    (hmark : T mark mark') : T (Input.cut mark tokens).stop (Input.cut mark' tokens').stop := by
  induction h with
  | nil => exact hmark
  | @cons t u _ _ ht _ ih =>
    have hkind := hT.kind_eq ht
    by_cases heof : t.kind = .eof
    · simpa [Input.cut, heof, hkind ▸ heof] using ht
    · simpa [Input.cut, heof, hkind ▸ heof] using ih

/-- Lists of related tokens whose end marks are related are parsed to corresponding programs, or rejected
with corresponding errors. -/
theorem parseWithin_corresponds (hT : ParsesSame T) (limit : ℕ) (h : List.Forall₂ T tokens tokens')
    (hmark : Option.Rel T (endMark? (tokens.filter (·.kind ≠ .comment)))
      (endMark? (tokens'.filter (·.kind ≠ .comment)))) :
    Matched (ParseError.Corresponds T) (List.Forall₂ (SameTree T)) (parseWithin limit tokens)
      (parseWithin limit tokens') := by
  have hfilter := forall₂_filter hT h
  have hprogram := program_parsesAlike hT limit (forall₂_takeWhile hT hfilter)
  change Matched _ _ (itemsUntil .eof (declaration limit) (programTokens tokens))
    (itemsUntil .eof (declaration limit) (programTokens tokens')) at hprogram
  rw [parseWithin_apply, parseWithin_apply]
  generalize endMark? (tokens.filter (·.kind ≠ .comment)) = mark?,
    endMark? (tokens'.filter (·.kind ≠ .comment)) = mark?' at hmark
  cases hmark with
  | none => exact .error ⟨.inl ⟨rfl, rfl⟩, .none⟩
  | some hmark =>
    have hstop := stop_cut hT hfilter hmark
    generalize itemsUntil .eof (declaration limit) (programTokens tokens) = outcome,
      itemsUntil .eof (declaration limit) (programTokens tokens') = outcome' at hprogram
    cases hprogram with
    | ok hr => exact .ok hr.1
    | error he => exact .error (.of_cause he hstop)

end Ends

end Scriptlet.Grammar
