import Scriptlet.Proofs.Accepted
import Scriptlet.Proofs.NestingLimit

/-!
# One token of lookahead

The parser decides what to do by the next token alone, and it never passes over the mark that ends its list.  So
lists that agree up to some token are treated alike up to there.  If that token is an end mark, nothing is read
behind it, and the outcome is the same; if an error says that it was found instead of something else, then the
error is the same.

The parser reads a list without comments, behind which it puts an end mark if its last token is none
(`complete?`).  What is said about a token of that list is said about its index, and since an error holds the
token that it is reported at and not the index, the tokens are numbered on the way: the parser does not look at
lines, so it stops at the same token if each line is the index of the token (`numbered`).
-/

namespace Scriptlet.Grammar

variable {α β : Type}

/-! ## Lists with a common front -/

/-- How a parser ends on a list of two parts, as compared with a parser on a list with the same front: within
the front, where the other one ends in the same way, or not before the token behind it. -/
inductive Outcome (front back back' : List Leaf) (Q : α → β → Prop) :
    Except SyntaxError (α × List Leaf) → Except SyntaxError (β × List Leaf) → Prop
  | within {a : α} {b : β} {rest : List Leaf} :
      rest ≠ [] → rest <:+ front → Q a b →
      Outcome front back back' Q (.ok (a, rest ++ back)) (.ok (b, rest ++ back'))
  | stops {e : SyntaxError} : front ≠ [] → Outcome front back back' Q (.error e) (.error e)
  | passes {a : α} {b : β} {rest : List Leaf} (outcome : Except SyntaxError (β × List Leaf)) :
      rest <:+ back → Q a b → Outcome front back back' Q (.ok (a, rest)) outcome
  | blames {e : SyntaxError} (outcome : Except SyntaxError (β × List Leaf)) :
      (∀ got, e.found? = some got → ∀ t ∈ got, t ∈ back) → Outcome front back back' Q (.error e) outcome

/-- A parser does on a list what another one does on any list with the same front, until it has passed the
front. -/
def LooksAhead (Q : α → β → Prop) (p : Parse α) (p' : Parse β) : Prop :=
  ∀ front back back', Outcome front back back' Q (p (front ++ back)) (p' (front ++ back'))

namespace Outcome

variable {front back back' : List Leaf} {Q : α → β → Prop} {outcome : Except SyntaxError (α × List Leaf)}
  {outcome' : Except SyntaxError (β × List Leaf)}

/-- What is done within the rest of a front is done within the front. -/
lemma of_suffix {rest : List Leaf} (h : Outcome rest back back' Q outcome outcome') (hrest : rest <:+ front) :
    Outcome front back back' Q outcome outcome' := by
  have hne : rest ≠ [] → front ≠ [] := by
    rintro hne rfl
    exact hne (List.suffix_nil.mp hrest)
  cases h with
  | within hleft hsuffix hab => exact .within hleft (hsuffix.trans hrest) hab
  | stops h => exact .stops (hne h)
  | passes _ hsuffix hab => exact .passes _ hsuffix hab
  | blames _ hgot => exact .blames _ hgot

/-- Behind the front it does not matter what the other parser does. -/
lemma of_nil {rest rest' : List Leaf} (h : Outcome [] rest rest' Q outcome outcome') (hrest : rest <:+ back)
    (other : Except SyntaxError (β × List Leaf)) : Outcome front back back' Q outcome other := by
  cases h with
  | within hleft hsuffix _ => exact absurd (List.suffix_nil.mp hsuffix) hleft
  | stops h => exact absurd rfl h
  | passes _ hsuffix hab => exact .passes _ (hsuffix.trans hrest) hab
  | blames _ hgot => exact .blames _ fun got hfound t ht => hrest.mem (hgot got hfound t ht)

end Outcome

namespace LooksAhead

variable {γ δ : Type} {Q : α → β → Prop} {p : Parse α} {p' : Parse β}

lemma pure {a : α} {b : β} (h : Q a b) : LooksAhead Q (pure a) (pure b) := by
  intro front back back'
  cases front with
  | nil => exact .passes _ List.suffix_rfl h
  | cons t front => exact .within (by simp) List.suffix_rfl h

/-- A missing token is complained of within the front, or the token that is found is behind it. -/
lemma fail (wanted? : Option Kind) : LooksAhead Q (fail wanted?) (fail wanted?) := by
  intro front back back'
  cases front with
  | nil =>
    refine .blames _ fun got hfound t ht => List.mem_of_mem_head? ?_
    rw [SyntaxError.found?_needs] at hfound
    exact Option.some.inj hfound ▸ ht
  | cons t front => exact .stops (by simp)

/-- The nesting limit is no token that was found instead of another one. -/
lemma beyondLimit (q : Parse β) : LooksAhead Q beyondLimit q :=
  fun _ _ _ => .blames _ nofun

lemma throw {e e' : SyntaxError} (h : e.found? = none) : LooksAhead Q (throw e) (throw e') :=
  fun _ _ _ => .blames _ fun _ hgot => absurd hgot (by simp [h])

/-- A sequence goes on where its first part has left the front, or stops with it. -/
lemma bind {S : γ → δ → Prop} {q : α → Parse γ} {q' : β → Parse δ} (hp : LooksAhead Q p p')
    (hq : ∀ {a b}, Q a b → LooksAhead S (q a) (q' b)) : LooksAhead S (p >>= q) (p' >>= q') := by
  intro front back back'
  rw [bind_apply, bind_apply]
  have h := hp front back back'
  generalize p (front ++ back) = outcome, p' (front ++ back') = outcome' at h
  cases h with
  | @within _ _ rest _ hsuffix hab => exact (hq hab rest back back').of_suffix hsuffix
  | stops h => exact .stops h
  | @passes _ _ rest _ hsuffix hab => exact (hq hab [] rest rest).of_nil hsuffix _
  | blames _ hgot => exact .blames _ hgot

/-- Passing over the first token leaves the rest of the front. -/
lemma behind (h : LooksAhead Q p p') : LooksAhead Q (behind p) (behind p') := by
  intro front back back'
  cases front with
  | nil => exact (h [] back.tail back.tail).of_nil (List.tail_suffix back) _
  | cons t front => exact (h front back back').of_suffix (List.suffix_cons t front)

/-- Behind the front the other parser may be another one, as its list begins with another token. -/
lemma byFirst {f : Leaf → Parse α} {f' : Leaf → Parse β} (hp : LooksAhead Q p p')
    (hf : ∀ {t u}, t = u → LooksAhead Q (f t) (f' u)) : LooksAhead Q (byFirst p f) (byFirst p' f') := by
  intro front back back'
  cases front with
  | nil =>
    cases back with
    | nil => exact (hp [] [] []).of_nil List.suffix_rfl _
    | cons t back => exact (hf (rfl : t = t) [] (t :: back) (t :: back)).of_nil List.suffix_rfl _
  | cons t front => exact hf (rfl : t = t) (t :: front) back back'

section Loops

variable {step : α → Parse (Option α)} {step' : β → Parse (Option β)} (hconsuming : Consuming step)
  (hstep : ∀ {a b}, Q a b → LooksAhead (Option.Rel Q) (step a) (step' b))

include hconsuming hstep

/-- Both loops make the same turns until the front is passed.  Only up to there do the budgets have to be large
enough, as the lists may have different lengths. -/
lemma repeatWithin (budget budget' front back back' : List Leaf) {a : α} {b : β} (h : Q a b)
    (hbudget : (front ++ back).length ≤ budget.length) (hbudget' : front.length ≤ budget'.length) :
    Outcome front back back' Q (repeatWithin step budget a (front ++ back))
      (repeatWithin step' budget' b (front ++ back')) := by
  induction budget generalizing budget' front back back' a b with
  | nil =>
    obtain ⟨rfl, rfl⟩ := List.append_eq_nil_iff.mp (List.length_eq_zero_iff.mp (Nat.le_zero.mp hbudget))
    exact .passes _ List.suffix_rfl h
  | cons c budget ih =>
    -- Within the front there is a turn left for the other loop as well.
    have hturn' : front ≠ [] → ∃ d ds, budget' = d :: ds ∧ front.length ≤ ds.length + 1 := by
      intro hfront
      cases budget' with
      | nil => exact absurd (List.length_eq_zero_iff.mp (Nat.le_zero.mp hbudget')) hfront
      | cons d ds => exact ⟨d, ds, rfl, hbudget'⟩
    have hturn := hstep h front back back'
    change Outcome _ _ _ _ ((step a >>= _) _) _
    rw [bind_apply]
    generalize hone : step a (front ++ back) = outcome, hone' : step' b (front ++ back') = outcome' at hturn
    cases hturn with
    | blames _ hgot => exact .blames _ hgot
    | stops hfront =>
      obtain ⟨d, ds, rfl, -⟩ := hturn' hfront
      change Outcome _ _ _ _ _ ((step' b >>= _) _)
      rw [bind_apply, hone']
      exact .stops hfront
    | @passes _ _ rest _ hsuffix ho =>
      cases ho with
      | none => exact .passes _ hsuffix h
      | some hnext =>
        have hshorter := hconsuming.takes hone
        simp only [List.length_cons] at hbudget
        exact (ih [] [] rest [] hnext (by rw [List.nil_append]; omega) le_rfl).of_nil hsuffix _
    | @within _ _ rest hleft hsuffix ho =>
      have hfront : front ≠ [] := by
        rintro rfl
        exact hleft (List.suffix_nil.mp hsuffix)
      obtain ⟨d, ds, rfl, hds⟩ := hturn' hfront
      change Outcome _ _ _ _ _ ((step' b >>= _) _)
      rw [bind_apply, hone']
      cases ho with
      | none => exact .within hleft hsuffix h
      | some hnext =>
        have hshorter := hconsuming.takes hone
        have hrest : rest.length < front.length := by
          simp only [List.length_append] at hshorter
          omega
        simp only [List.length_cons] at hbudget
        exact (ih ds rest back back' hnext (by omega) (by omega)).of_suffix hsuffix

/-- A loop does the same turns on both lists until one of them passes the front. -/
lemma loop {a : α} {b : β} (h : Q a b) : LooksAhead Q (loop step a) (loop step' b) := by
  intro front back back'
  exact repeatWithin hconsuming hstep _ _ front back back' h le_rfl (by simp)

end Loops

end LooksAhead

/-- Looking at one token ahead respects all that constructs are made of. -/
theorem congruence_looksAhead : Congruence Eq LooksAhead where
  tokens := parsesSame_eq
  beyondLimit := .beyondLimit _
  pure h := .pure h
  fail wanted? := .fail wanted?
  throw _ h := .throw h
  bind hp hq := hp.bind hq
  behind h := h.behind
  byFirst hp hf := hp.byFirst hf
  loop hconsuming hstep h := .loop hconsuming hstep h

/-! ## The list that is read -/

/-- A list with an end mark behind it, unless it ends with one. -/
def endedWith (mark : Leaf) (tokens : List Leaf) : List Leaf :=
  if tokens.getLast?.any (·.kind = .eof) then tokens else tokens ++ [mark]

/-- The tokens that the parser reads, the last of them being an end mark, if there is a line for that. -/
def complete? (tokens : List Leaf) : Option (List Leaf) :=
  let kept := tokens.filter (·.kind ≠ .comment)
  (endMark? kept).map fun mark => endedWith mark kept

/-- What the parser makes of its input. -/
def Input.parse (limit : ℕ) (input : Input) : Except ParseError (List Node) :=
  match program limit input.tokens with
  | .ok (statements, _) => .ok statements
  | .error cause => .error ⟨cause, input.stop⟩

section Cut

variable {ts : List Leaf}

/-- Nothing is read behind an end mark. -/
lemma cut_append_of_eof (h : ∃ t ∈ ts, t.kind = .eof) (missing missing' : Leaf) (rest : List Leaf) :
    Input.cut missing (ts ++ rest) = Input.cut missing' ts := by
  induction ts with
  | nil => simp at h
  | cons t ts ih =>
    by_cases heof : t.kind = .eof
    · simp [Input.cut, heof]
    · have hlater : ∃ u ∈ ts, u.kind = .eof := by simpa [heof] using h
      simp [Input.cut, heof, ih hlater]

/-- Cutting a list gives the same whether an end mark is behind it or is made up. -/
lemma cut_append_mark {missing mark : Leaf} (hmark : mark.kind = .eof) :
    Input.cut missing (ts ++ [mark]) = Input.cut mark ts := by
  induction ts with
  | nil => simp [Input.cut, hmark]
  | cons t ts ih => by_cases heof : t.kind = .eof <;> simp [Input.cut, heof, ih]

/-- If there is an end mark, then the list is cut at one. -/
lemma stop_cut_of_eof (h : ∃ t ∈ ts, t.kind = .eof) (missing : Leaf) :
    (Input.cut missing ts).stop ∈ ts ∧ (Input.cut missing ts).stop.kind = .eof := by
  induction ts with
  | nil => simp at h
  | cons t ts ih =>
    by_cases heof : t.kind = .eof
    · simp [Input.cut, heof]
    · have hlater : ∃ u ∈ ts, u.kind = .eof := by simpa [heof] using h
      simp [Input.cut, heof, ih hlater]

end Cut

/-- A list without comments that ends with an end mark. -/
structure IsComplete (full : List Leaf) : Prop where
  no_comment : ∀ t ∈ full, t.kind ≠ .comment
  ends : ∃ mark, full.getLast? = some mark ∧ mark.kind = .eof

section Complete

variable {tokens full : List Leaf} {limit : ℕ} {mark : Leaf}

/-- A complete list has an end mark. -/
lemma IsComplete.exists_eof (h : IsComplete full) : ∃ t ∈ full, t.kind = .eof := by
  obtain ⟨mark, hlast, hmark⟩ := h.ends
  exact ⟨mark, List.mem_of_getLast? hlast, hmark⟩

/-- A list without comments is complete with an end mark behind it. -/
lemma isComplete_endedWith (hmark : mark.kind = .eof) (htokens : ∀ t ∈ tokens, t.kind ≠ .comment) :
    IsComplete (endedWith mark tokens) := by
  unfold endedWith
  split_ifs with hlast
  · obtain ⟨last, hlast, hkind⟩ := (Option.any_eq_true _ _).mp hlast
    exact ⟨htokens, last, hlast, by simpa using hkind⟩
  · refine ⟨List.forall_mem_append.mpr ⟨htokens, ?_⟩, mark, by simp, hmark⟩
    simp [hmark]

/-- A list with an end mark behind it is cut there, if there is none before. -/
lemma cut_endedWith (hmark : mark.kind = .eof) (missing : Leaf) :
    Input.cut missing (endedWith mark tokens) = Input.cut mark tokens := by
  unfold endedWith
  split_ifs with hlast
  · obtain ⟨last, hlast, hkind⟩ := (Option.any_eq_true _ _).mp hlast
    have heof : ∃ t ∈ tokens, t.kind = .eof := ⟨last, List.mem_of_getLast? hlast, by simpa using hkind⟩
    simpa using cut_append_of_eof heof missing mark []
  · exact cut_append_mark hmark

/-- The tokens that are read are a complete list. -/
lemma isComplete_of_complete? (h : complete? tokens = some full) : IsComplete full := by
  obtain ⟨mark, hmark, rfl⟩ := Option.map_eq_some_iff.mp h
  exact isComplete_endedWith (kind_of_endMark? hmark) fun t ht => by simpa using (List.mem_filter.mp ht).2

/-- What is parsed is the completed list up to its first end mark. -/
lemma parseWithin_eq_parse (h : complete? tokens = some full) (missing : Leaf) :
    parseWithin limit tokens = (Input.cut missing full).parse limit := by
  obtain ⟨mark, hmark, rfl⟩ := Option.map_eq_some_iff.mp h
  have hinput : Input.ofTokens? tokens = some (Input.cut mark (tokens.filter (·.kind ≠ .comment))) :=
    congrArg (Option.map _) hmark
  rw [cut_endedWith (kind_of_endMark? hmark)]
  unfold parseWithin
  rw [hinput]
  rfl

/-- The tokens that are read begin with those of the list that are no comments. -/
lemma prefix_of_complete? (h : complete? tokens = some full) : tokens.filter (·.kind ≠ .comment) <+: full := by
  obtain ⟨mark, -, rfl⟩ := Option.map_eq_some_iff.mp h
  unfold endedWith
  split_ifs
  · exact List.prefix_rfl
  · exact List.prefix_append _ _

/-- In a complete list there is no comment to be left out. -/
lemma IsComplete.filter_eq (h : IsComplete full) : full.filter (·.kind ≠ .comment) = full :=
  List.filter_eq_self.mpr fun t ht => by simpa using h.no_comment t ht

/-- The end mark of a complete list is its last token. -/
lemma IsComplete.endMark?_eq (h : IsComplete full) :
    endMark? (full.filter (·.kind ≠ .comment)) = full.getLast? := by
  obtain ⟨mark, hlast, hmark⟩ := h.ends
  rw [h.filter_eq]
  simp [endMark?, hlast, hmark]

/-- A complete list is read as it is. -/
lemma IsComplete.complete?_eq (h : IsComplete full) : complete? full = some full := by
  obtain ⟨mark, hlast, hmark⟩ := h.ends
  unfold complete?
  dsimp only
  rw [h.endMark?_eq, h.filter_eq, hlast]
  simp [endedWith, hlast, hmark]

/-- Behind an end mark, nothing of a complete list counts. -/
lemma IsComplete.take (h : IsComplete full) {n : ℕ} (hn : full[n]? = some mark) (hmark : mark.kind = .eof)
    (limit : ℕ) :
    IsComplete (full.take (n + 1)) ∧
      parseWithin limit (full.take (n + 1)) = parseWithin limit full := by
  have htake : IsComplete (full.take (n + 1)) := by
    refine ⟨fun t ht => h.no_comment t (List.mem_of_mem_take ht), mark, ?_, hmark⟩
    simp [List.getLast?_take, hn]
  refine ⟨htake, ?_⟩
  rw [parseWithin_eq_parse htake.complete?_eq mark, parseWithin_eq_parse h.complete?_eq mark]
  conv_rhs => rw [← List.take_append_drop (n + 1) full]
  rw [cut_append_of_eof htake.exists_eof mark mark]

end Complete

/-! ## Indices of tokens -/

/-- The tokens with their indices for lines. -/
def numbered (tokens : List Leaf) : List Leaf :=
  tokens.mapIdx fun i t => { t with line := .int i }

/-- Parsing stops at the token with this index, because it is found instead of something else. -/
def StopsAt (limit : ℕ) (full : List Leaf) (i : ℕ) : Prop :=
  ∃ error, parseWithin limit (numbered full) = .error error ∧ error.cause.found?.isSome ∧
    error.token?.map Leaf.line = some (.int i)

/-- A token of a list with the index that it has there, in place of its line. -/
def IsNumbered (full : List Leaf) (t u : Leaf) : Prop :=
  ∃ i : ℕ, full[i]? = some u ∧ t = { u with line := .int i }

section Numbered

variable {full : List Leaf}

/-- The parser does not look at lines. -/
lemma parsesSame_isNumbered (full : List Leaf) : ParsesSame (IsNumbered full) where
  kind_eq := by
    rintro _ _ ⟨i, -, rfl⟩
    rfl
  literal_eq := by
    rintro _ _ ⟨i, -, rfl⟩
    rfl

/-- Each token is numbered by its index. -/
@[simp] lemma getElem?_numbered (full : List Leaf) (i : ℕ) :
    (numbered full)[i]? = full[i]?.map fun t => { t with line := .int i } := by
  simp [numbered]

@[simp] lemma length_numbered (full : List Leaf) : (numbered full).length = full.length := by
  simp [numbered]

/-- A front of the list is numbered as it is in the list. -/
lemma take_numbered (full : List Leaf) (n : ℕ) : (numbered full).take n = numbered (full.take n) := by
  refine List.ext_getElem? fun i => ?_
  by_cases h : i < n <;> simp [h]

/-- Token by token, the numbered list is the list but for the lines. -/
lemma forall₂_numbered (full : List Leaf) : List.Forall₂ (IsNumbered full) (numbered full) full := by
  refine List.forall₂_iff_get.mpr ⟨length_numbered full, fun i h h' => ⟨i, by simp, ?_⟩⟩
  simp [numbered]

/-- The last tokens of a list and of the numbered one are the same but for their lines. -/
lemma rel_getLast?_numbered (full : List Leaf) :
    Option.Rel (IsNumbered full) (numbered full).getLast? full.getLast? := by
  rw [List.getLast?_eq_getElem?, List.getLast?_eq_getElem?, length_numbered, getElem?_numbered]
  cases h : full[full.length - 1]? with
  | none => exact .none
  | some u => exact .some ⟨_, h, rfl⟩

/-- A complete list is complete when it is numbered. -/
lemma isComplete_numbered (h : IsComplete full) : IsComplete (numbered full) where
  no_comment t ht := by
    obtain ⟨i, hi⟩ := List.mem_iff_getElem?.mp ht
    rw [getElem?_numbered] at hi
    obtain ⟨u, hu, rfl⟩ := Option.map_eq_some_iff.mp hi
    exact h.no_comment u (List.mem_of_getElem? hu)
  ends := by
    obtain ⟨mark, hlast, hmark⟩ := h.ends
    have hrel := rel_getLast?_numbered full
    rw [hlast] at hrel
    generalize (numbered full).getLast? = last? at hrel
    cases hrel with
    | some ht => exact ⟨_, rfl, (parsesSame_isNumbered full).kind_eq ht ▸ hmark⟩

/-- The parser does not look at lines, so it does the same with the numbered tokens. -/
lemma parseWithin_numbered (h : IsComplete full) (limit : ℕ) :
    Matched (ParseError.Corresponds (IsNumbered full)) (List.Forall₂ (SameTree (IsNumbered full)))
      (parseWithin limit (numbered full)) (parseWithin limit full) := by
  refine parseWithin_corresponds (parsesSame_isNumbered full) limit (forall₂_numbered full) ?_
  rw [h.endMark?_eq, (isComplete_numbered h).endMark?_eq]
  exact rel_getLast?_numbered full

/-- The line of a token tells where it stands. -/
lemma line_of_mem_drop {n : ℕ} {t : Leaf} (h : t ∈ (numbered full).drop n) :
    ∃ i, n ≤ i ∧ t.line = .int i := by
  obtain ⟨i, hi⟩ := List.mem_iff_getElem?.mp h
  rw [List.getElem?_drop, getElem?_numbered] at hi
  obtain ⟨u, -, rfl⟩ := Option.map_eq_some_iff.mp hi
  exact ⟨n + i, by omega, rfl⟩

/-- An error among numbered tokens shows the index of the token that it is reported at. -/
lemma token?_of_isNumbered {error error' : ParseError} (h : error.Corresponds (IsNumbered full) error')
    {i : ℕ} (hline : error.token?.map Leaf.line = some (.int i)) : error'.token? = full[i]? := by
  have htoken := h.token
  generalize error.token? = found, error'.token? = found' at htoken hline
  cases htoken with
  | none => cases hline
  | some ht =>
    obtain ⟨j, hj, rfl⟩ := ht
    obtain rfl : j = i := by simpa using hline
    exact hj.symm

end Numbered

/-! ## Errors at a token -/

/-- An error that says what was found is reported at that token, or at the end mark. -/
lemma token?_of_found? {error : ParseError} {got : Option Leaf} (h : error.cause.found? = some got) :
    error.token? = some (got.getD error.stop) := by
  obtain ⟨cause, stop⟩ := error
  cases cause with
  | expected _ _ | expectedExpression _ =>
    obtain rfl := Option.some.inj h
    rfl
  | _ => cases h

/-- Of two corresponding errors, both say what was found or neither does. -/
lemma SyntaxError.Corresponds.isSome_found? {T : Leaf → Leaf → Prop} {e e' : SyntaxError}
    (h : e.Corresponds T e') : e.found?.isSome = e'.found?.isSome := by
  cases h <;> rfl

/-- The message of an error depends on its cause alone. -/
lemma message_of_cause {error error' : ParseError} (h : error.cause = error'.cause) :
    error.message = error'.message := by
  unfold ParseError.message
  rw [h]

section Agreeing

variable {full full' : List Leaf} {n limit : ℕ} {missing : Leaf}

/-- If lists agree up to an end mark, then the same is read. -/
lemma cut_eq_of_take (h : full.take n = full'.take n) (heof : ∃ t ∈ full.take n, t.kind = .eof) :
    Input.cut missing full = Input.cut missing full' := by
  rw [← List.take_append_drop n full, ← List.take_append_drop n full', ← h,
    cut_append_of_eof heof missing missing, cut_append_of_eof heof missing missing]

/-- If lists agree up to a token that is found instead of something else, then it is so in both lists. -/
lemma stops_of_take (h : full.take n = full'.take n) (heof : ∃ t ∈ full, t.kind = .eof) {error : ParseError}
    (herror : (Input.cut missing full).parse limit = .error error) (hfound : error.cause.found?.isSome)
    (htoken : ∀ t ∈ full.drop n, error.token? ≠ some t) :
    ∃ error', (Input.cut missing full').parse limit = .error error' ∧ error'.cause = error.cause ∧
      error'.token? = error.token? := by
  by_cases hends : ∃ t ∈ full.take n, t.kind = .eof
  · exact ⟨error, cut_eq_of_take h hends ▸ herror, rfl, rfl⟩
  -- Otherwise both programs begin with the common part of the lists.
  have htokens : ∀ {ts : List Leaf}, ts.take n = full.take n → (Input.cut missing ts).tokens =
      full.take n ++ (ts.drop n).takeWhile (·.kind ≠ .eof) := by
    intro ts hts
    rw [tokens_cut, ← List.takeWhile_append_of_pos, ← hts, List.take_append_drop]
    exact fun t ht => decide_eq_true fun hkind => hends ⟨t, ht, hkind⟩
  have hstop : (Input.cut missing full).stop ∈ full.drop n := by
    obtain ⟨hmem, hkind⟩ := stop_cut_of_eof heof missing
    rw [← List.take_append_drop n full] at hmem
    refine (List.mem_append.mp (?_ : _ ∈ full.take n ++ full.drop n)).resolve_left fun hfront => ?_
    · simpa using hmem
    · exact hends ⟨_, hfront, hkind⟩
  have hlook := congruence_looksAhead.program (le_refl limit) (absurd rfl) (full.take n)
    ((full.drop n).takeWhile (·.kind ≠ .eof)) ((full'.drop n).takeWhile (·.kind ≠ .eof))
  unfold Input.parse at herror ⊢
  rw [htokens rfl] at herror
  rw [htokens h.symm]
  generalize program limit (full.take n ++ (full.drop n).takeWhile (·.kind ≠ .eof)) = outcome,
    program limit (full.take n ++ (full'.drop n).takeWhile (·.kind ≠ .eof)) = outcome' at hlook herror
  obtain ⟨got, hgot⟩ := Option.isSome_iff_exists.mp hfound
  cases hlook with
  | within _ _ _ => cases herror
  | passes _ _ _ => cases herror
  | blames _ hback =>
    obtain rfl := Except.error.inj herror
    refine absurd (token?_of_found? hgot) (htoken _ ?_)
    cases got with
    | none => exact hstop
    | some t => exact (List.takeWhile_sublist _).mem (hback _ hgot t rfl)
  | @stops cause _ =>
    obtain rfl := Except.error.inj herror
    have hgiven := token?_of_found? hgot
    have hgot' : ParseError.token? ⟨cause, (Input.cut missing full').stop⟩ = _ := token?_of_found? hgot
    refine ⟨_, rfl, rfl, ?_⟩
    cases got with
    | none => exact absurd hgiven (htoken _ hstop)
    | some t => exact hgot'.trans hgiven.symm

end Agreeing

/-- An error at a token says at which one it is, and that is none behind the first end mark. -/
lemma exists_stopsAt {full : List Leaf} (h : IsComplete full) {limit e : ℕ} {mark : Leaf}
    (he : full[e]? = some mark) (hmark : mark.kind = .eof) {error : ParseError}
    (herror : parseWithin limit full = .error error) (hfound : error.cause.found?.isSome) :
    ∃ i ≤ e, StopsAt limit full i ∧ full[i]? = error.token? := by
  obtain ⟨htake, hparse⟩ := h.take he hmark limit
  have hnumbered : parseWithin limit (numbered (full.take (e + 1))) = parseWithin limit (numbered full) := by
    have hend : (numbered full)[e]? = some { mark with line := .int e } := by simp [he]
    rw [← take_numbered]
    exact ((isComplete_numbered h).take hend hmark limit).2
  have hmatched := parseWithin_numbered htake limit
  rw [hparse, herror, hnumbered] at hmatched
  generalize hresult : parseWithin limit (numbered full) = outcome at hmatched
  cases hmatched with
  | @error n _ hcorresponds =>
    have hcause : n.cause.Corresponds (IsNumbered (full.take (e + 1))) error.cause := by
      refine hcorresponds.cause.resolve_left fun hnoEnd => ?_
      rw [hnoEnd.2] at hfound
      cases hfound
    obtain ⟨got, hgot⟩ := Option.isSome_iff_exists.mp hfound
    have htoken := hcorresponds.token
    rw [token?_of_found? hgot] at htoken ⊢
    generalize hshown : n.token? = shown at htoken
    cases htoken with
    | some ht =>
      obtain ⟨i, hi, rfl⟩ := ht
      obtain ⟨hlt, hi⟩ : i < e + 1 ∧ full[i]? = some _ := by simpa [List.getElem?_take] using hi
      refine ⟨i, by omega, ⟨n, hresult, hcause.isSome_found? ▸ hfound, ?_⟩, hi⟩
      rw [hshown]
      rfl

/-- An error at a token is the same in all complete lists that agree up to it. -/
lemma error_of_stopsAt {full full' : List Leaf} (hfull : IsComplete full) (hfull' : IsComplete full')
    {limit i : ℕ} (h : full.take (i + 1) = full'.take (i + 1)) {error : ParseError}
    (herror : parseWithin limit full = .error error) (hstops : StopsAt limit full i) :
    ∃ error', parseWithin limit full' = .error error' ∧ error'.message = error.message ∧
      error'.place? = error.place? := by
  obtain ⟨n, hn, hfound, hline⟩ := hstops
  have hnumbered := isComplete_numbered hfull
  have hnumbered' := isComplete_numbered hfull'
  have htake : (numbered full).take (i + 1) = (numbered full').take (i + 1) := by
    rw [take_numbered, take_numbered, h]
  have hdrop : ∀ t ∈ (numbered full).drop (i + 1), n.token? ≠ some t := by
    intro t ht htoken
    obtain ⟨j, hj, hlinej⟩ := line_of_mem_drop ht
    rw [htoken, Option.map_some, hlinej] at hline
    obtain rfl : j = i := by simpa using hline
    omega
  obtain ⟨n', hn', hcause, htoken⟩ : ∃ n', parseWithin limit (numbered full') = .error n' ∧
      n'.cause = n.cause ∧ n'.token? = n.token? := by
    rw [parseWithin_eq_parse hnumbered.complete?_eq (.endMark .null)] at hn
    rw [parseWithin_eq_parse hnumbered'.complete?_eq (.endMark .null)]
    exact stops_of_take htake hnumbered.exists_eof hn hfound hdrop
  have hmatched := parseWithin_numbered hfull limit
  have hmatched' := parseWithin_numbered hfull' limit
  rw [hn, herror] at hmatched
  rw [hn'] at hmatched'
  generalize parseWithin limit full' = outcome' at hmatched'
  cases hmatched with
  | error hcorresponds =>
    cases hmatched' with
    | @error _ error' hcorresponds' =>
      refine ⟨error', rfl, ?_, congrArg (Option.map Leaf.place) ?_⟩
      · rw [← hcorresponds.message_eq (parsesSame_isNumbered full),
          ← hcorresponds'.message_eq (parsesSame_isNumbered full'), message_of_cause hcause]
      · have hi : full[i]? = full'[i]? := by
          rw [← List.getElem?_take_of_lt (Nat.lt_succ_self i), h, List.getElem?_take_of_lt (Nat.lt_succ_self i)]
        rw [token?_of_isNumbered hcorresponds hline, token?_of_isNumbered hcorresponds' (htoken ▸ hline), hi]

/-- Tokens behind an end mark are not read. -/
lemma parseWithin_append_of_eof {front rest full : List Leaf} {mark : Leaf} (hmark : mark.kind = .eof)
    (h : complete? (front ++ mark :: rest) = some full) (limit : ℕ) :
    parseWithin limit (front ++ mark :: rest) = parseWithin limit (front ++ [mark]) := by
  have hkept : ∀ us : List Leaf, (front ++ mark :: us).filter (·.kind ≠ .comment) =
      front.filter (·.kind ≠ .comment) ++ [mark] ++ us.filter (·.kind ≠ .comment) := by
    intro us
    simp [hmark]
  -- Both lists are completed to lists that begin with the tokens up to the mark.
  have hparse : ∀ {us full' : List Leaf}, complete? (front ++ mark :: us) = some full' →
      parseWithin limit (front ++ mark :: us) =
        (Input.cut mark (front.filter (·.kind ≠ .comment) ++ [mark])).parse limit := by
    intro us full' h
    obtain ⟨later, rfl⟩ := (List.prefix_append _ _).trans (hkept us ▸ prefix_of_complete? h)
    rw [parseWithin_eq_parse h mark, cut_append_of_eof ⟨mark, by simp, hmark⟩ mark mark]
  have hmarked : complete? (front ++ [mark]) =
      some (endedWith mark ((front ++ [mark]).filter (·.kind ≠ .comment))) :=
    congrArg (Option.map _) (endMark?_append hmark)
  rw [hparse h, hparse hmarked]

/-- The parser itself never complains of a missing end. -/
lemma program_ne_noEnd (limit : ℕ) (ts : List Leaf) : program limit ts ≠ .error .noEnd := by
  intro h
  have hself := program_parsesAlike parsesSame_eq limit (List.forall₂_same.mpr fun t (_ : t ∈ ts) => rfl)
  rw [h] at hself
  cases hself with
  | error hcause => cases hcause

/-- The first end mark of a complete list. -/
lemma IsComplete.exists_first_eof {full : List Leaf} (h : IsComplete full) :
    ∃ e mark, full[e]? = some mark ∧ mark.kind = .eof ∧ ∀ t ∈ full.take e, t.kind ≠ .eof := by
  have hfind : (full.find? (·.kind = .eof)).isSome := by simpa using h.exists_eof
  obtain ⟨mark, hmark⟩ := Option.isSome_iff_exists.mp hfind
  obtain ⟨hkind, before, behind, rfl, hbefore⟩ := List.find?_eq_some_iff_append.mp hmark
  exact ⟨before.length, mark, by simp, by simpa using hkind, by simpa using hbefore⟩

/-- There is a line for the end behind tokens that stand on lines. -/
lemma exists_complete? {tokens : List Leaf} (h : ∀ t ∈ tokens, ∃ n : ℤ, t.line = .int n) :
    ∃ full, complete? tokens = some full := by
  suffices hmark : ∃ mark, endMark? (tokens.filter (·.kind ≠ .comment)) = some mark by
    obtain ⟨mark, hmark⟩ := hmark
    exact ⟨_, congrArg (Option.map _) hmark⟩
  unfold endMark?
  split
  · exact ⟨_, rfl⟩
  next last hlast =>
    obtain ⟨n, hn⟩ := h last (List.mem_filter.mp (List.mem_of_getLast? hlast)).1
    split_ifs
    · exact ⟨_, rfl⟩
    · exact ⟨.endMark (.int (n + 1)), by rw [hn]; rfl⟩

/-- The statements of a list are those of the list with an end mark behind it. -/
lemma parseWithin_append_eof {tokens full : List Leaf} (h : complete? tokens = some full) {mark : Leaf}
    (hmark : mark.kind = .eof) {limit : ℕ} {statements : List Node} :
    parseWithin limit (tokens ++ [mark]) = .ok statements ↔ parseWithin limit tokens = .ok statements := by
  have hprogram : programTokens (tokens ++ [mark]) = programTokens tokens := by
    have hmarked : [mark].filter (·.kind ≠ .comment) = [mark] := by simp [hmark]
    unfold programTokens
    rw [List.filter_append, hmarked, ← tokens_cut mark, ← tokens_cut mark, cut_append_mark hmark]
  obtain ⟨mark', hmark', -⟩ := Option.map_eq_some_iff.mp h
  rw [parseWithin_eq_ok, parseWithin_eq_ok, hprogram]
  exact ⟨fun h => ⟨⟨mark', hmark'⟩, h.2⟩, fun h => ⟨⟨mark, endMark?_append hmark⟩, h.2⟩⟩

/-- The parser decides by one token at a time, and reads nothing behind the end of its list.

Lists which have the same completed list up to an index are treated alike up to there: the outcome is the same if
that is the index of an end mark, and an error is the same if it is reported at the token with this index, being
found instead of something else.  So tokens behind the first end mark do not matter, and whatever is reported as
found has an index in the list, which is not behind that of the first end mark.  A list gives what the completed
list gives, and the same statements with any end mark behind it.  A list whose tokens stand on lines can be
completed. -/
theorem one_token_of_lookahead (limit : ℕ) :
    (∀ {tokens tokens' full full' : List Leaf} {i : ℕ}, complete? tokens = some full →
        complete? tokens' = some full' → full.take (i + 1) = full'.take (i + 1) →
        (∀ mark, full[i]? = some mark → mark.kind = .eof →
            parseWithin limit tokens' = parseWithin limit tokens) ∧
          ∀ error, parseWithin limit tokens = .error error → StopsAt limit full i →
            ∃ error', parseWithin limit tokens' = .error error' ∧ error'.message = error.message ∧
              error'.place? = error.place?) ∧
      (∀ {front rest full : List Leaf} {mark : Leaf}, mark.kind = .eof →
        complete? (front ++ mark :: rest) = some full →
        parseWithin limit (front ++ mark :: rest) = parseWithin limit (front ++ [mark])) ∧
      (∀ {tokens full : List Leaf}, complete? tokens = some full →
        ∃ e mark, full[e]? = some mark ∧ mark.kind = .eof ∧ (∀ t ∈ full.take e, t.kind ≠ .eof) ∧
          ∀ error, parseWithin limit tokens = .error error → error.cause ≠ .noEnd ∧
            (error.cause.found?.isSome → ∃ i ≤ e, StopsAt limit full i ∧ full[i]? = error.token?)) ∧
      (∀ {tokens full : List Leaf}, complete? tokens = some full →
        parseWithin limit full = parseWithin limit tokens ∧
          ∀ mark, mark.kind = .eof → ∀ statements, parseWithin limit (tokens ++ [mark]) = .ok statements ↔
            parseWithin limit tokens = .ok statements) ∧
      ∀ tokens : List Leaf, (∀ t ∈ tokens, ∃ n : ℤ, t.line = .int n) →
        ∃ full, complete? tokens = some full := by
  -- Completing a list twice is completing it once.
  have hfull : ∀ {tokens full : List Leaf}, complete? tokens = some full →
      parseWithin limit full = parseWithin limit tokens := by
    intro tokens full h
    rw [parseWithin_eq_parse h (.endMark .null),
      parseWithin_eq_parse (isComplete_of_complete? h).complete?_eq (.endMark .null)]
  refine ⟨fun {tokens tokens' full full' i} h h' htake =>
      ⟨fun mark hi hmark => ?_, fun error herror hstops => ?_⟩,
    fun {front rest full mark} hmark h => ?_, fun {tokens full} h => ?_,
    fun h => ⟨hfull h, fun mark hmark statements => parseWithin_append_eof h hmark⟩, fun tokens hlines => ?_⟩
  · -- The lists are cut at their first end marks, which are within the part that they share.
    have heof : ∃ t ∈ full.take (i + 1), t.kind = .eof :=
      ⟨mark, List.mem_of_getElem? ((List.getElem?_take_of_lt (Nat.lt_succ_self i)).trans hi), hmark⟩
    rw [parseWithin_eq_parse h mark, parseWithin_eq_parse h' mark, cut_eq_of_take htake heof]
  · rw [← hfull h] at herror
    rw [← hfull h']
    exact error_of_stopsAt (isComplete_of_complete? h) (isComplete_of_complete? h') htake herror hstops
  · exact parseWithin_append_of_eof hmark h limit
  · have hcomplete := isComplete_of_complete? h
    obtain ⟨e, mark, he, hmark, hbefore⟩ := hcomplete.exists_first_eof
    refine ⟨e, mark, he, hmark, hbefore, fun error herror => ⟨fun hcause => ?_, fun hfound => ?_⟩⟩
    · rw [parseWithin_eq_parse h mark] at herror
      unfold Input.parse at herror
      split at herror
      · cases herror
      next cause hprogram =>
        obtain rfl := Except.error.inj herror
        obtain rfl : cause = .noEnd := hcause
        exact program_ne_noEnd limit _ hprogram
    · exact exists_stopsAt hcomplete he hmark ((hfull h).trans herror) hfound
  · exact exists_complete? hlines

/-- The tokens of `print ;`. -/
def emptyPrintTokens : List Leaf :=
  [textToken .printWord "print", textToken .semicolon ";"]

/-- The semicolon is found instead of an expression, whatever stands behind it. -/
theorem emptyPrint_stops_alike :
    StopsAt 9 (emptyPrintTokens ++ [.endMark (.int 2)]) 1 ∧
      ∃ error, parseWithin 9 (emptyPrintTokens ++ nestedIfTokens) = .error error ∧
        error.message = "expected expression, got semicolon" ∧ error.place? = some ⟨.int 1, .int 0⟩ := by
  have hfull : complete? emptyPrintTokens = some (emptyPrintTokens ++ [.endMark (.int 2)]) := rfl
  have hfull' : complete? (emptyPrintTokens ++ nestedIfTokens) =
      some (emptyPrintTokens ++ nestedIfTokens ++ [.endMark (.int 2)]) := rfl
  have hstops : StopsAt 9 (emptyPrintTokens ++ [.endMark (.int 2)]) 1 := ⟨_, rfl, rfl, rfl⟩
  exact ⟨hstops, ((one_token_of_lookahead 9).1 hfull hfull' rfl).2 _ rfl hstops⟩

end Scriptlet.Grammar
