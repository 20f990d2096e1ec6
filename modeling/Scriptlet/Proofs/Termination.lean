import Scriptlet.Proofs.Lookahead

/-!
# Parsing comes to an end

The parser is bounded by a nesting limit, which is there because the host's stack is.  The grammar itself does
not need it: whatever parses a declaration, a statement or an expression takes a token, every turn of a loop
takes one, and between two tokens only a few constructs can be entered.  So a list of `n` tokens never nests more
than `2 * n + 4` constructs, and from that limit on the outcome does not depend on the limit.

The tokens that are left at a position are those up to the first end mark (`remaining`).  A parser goes from
there to a later position, and to none behind that mark.
-/

namespace Scriptlet.Grammar

variable {α β : Type}

/-! ## Positions -/

/-- The tokens from a position on, up to the first end mark. -/
def remaining (full : List Leaf) (pos : ℕ) : List Leaf :=
  (full.drop pos).takeWhile (·.kind ≠ .eof)

/-- From the position `pos` at least one token has been passed, no end mark has, and `rest` is left. -/
def AdvancesTo (full : List Leaf) (pos : ℕ) (rest : List Leaf) : Prop :=
  ∃ pos', pos < pos' ∧ (∀ i, pos ≤ i → i < pos' → ∃ t, full[i]? = some t ∧ t.kind ≠ .eof) ∧
    rest = remaining full pos'

/-- Wherever a parser succeeds, it has advanced. -/
def Advances (p : Parse α) : Prop :=
  ∀ ⦃full pos a rest⦄, p (remaining full pos) = .ok (a, rest) → AdvancesTo full pos rest

/-- Wherever a step yields something, it has advanced. -/
def AdvancesByTurn (step : Parse (Option α)) : Prop :=
  ∀ ⦃full pos a rest⦄, step (remaining full pos) = .ok (some a, rest) → AdvancesTo full pos rest

/-- The tokens behind the first `k` of those that remain remain at a later position. -/
lemma drop_remaining {full : List Leaf} {pos k : ℕ} (h : k ≤ (remaining full pos).length) :
    (remaining full pos).drop k = remaining full (pos + k) := by
  have hdrop : ∀ (ts : List Leaf) (k : ℕ), k ≤ (ts.takeWhile (·.kind ≠ .eof)).length →
      (ts.takeWhile (·.kind ≠ .eof)).drop k = (ts.drop k).takeWhile (·.kind ≠ .eof) := by
    intro ts
    induction ts with
    | nil => simp
    | cons t ts ih =>
      intro k hk
      cases k with
      | zero => rfl
      | succ k =>
        by_cases heof : t.kind = .eof
        · simp [heof] at hk
        · simpa [heof] using ih k (by simpa [heof] using hk)
  unfold remaining at h ⊢
  rw [hdrop _ k h, List.drop_drop]

/-- A shorter end piece of the tokens that remain is what remains at a later position. -/
lemma advancesTo_of_suffix {full rest : List Leaf} {pos : ℕ} (hsuffix : rest <:+ remaining full pos)
    (hlt : rest.length < (remaining full pos).length) : AdvancesTo full pos rest := by
  obtain ⟨k, hk⟩ : ∃ k, (remaining full pos).length = k + rest.length := ⟨_, (Nat.sub_add_cancel hlt.le).symm⟩
  have hrest : (remaining full pos).drop k = rest := by
    rw [List.suffix_iff_eq_drop.mp hsuffix, hk, Nat.add_sub_cancel]
  refine ⟨pos + k, by omega, fun i hi hi' => ?_, by rw [← hrest, drop_remaining (by omega)]⟩
  have hindex : i - pos < (remaining full pos).length := by omega
  have hget : (remaining full pos)[i - pos]? = full[i]? := by
    obtain ⟨later, hlater⟩ := List.takeWhile_prefix (l := full.drop pos) (·.kind ≠ .eof)
    have hfull : full[i]? = (full.drop pos)[i - pos]? := by rw [List.getElem?_drop, Nat.add_sub_cancel' hi]
    rw [hfull, ← hlater]
    exact (List.getElem?_append_left hindex).symm
  refine ⟨(remaining full pos)[i - pos], hget.symm.trans (List.getElem?_eq_getElem hindex), ?_⟩
  simpa using List.mem_takeWhile_imp (List.getElem_mem hindex)

/-- What takes a token advances from every position. -/
lemma Takes.advances {p : Parse α} (h : Takes p) : Advances p :=
  fun _ _ _ _ hp => advancesTo_of_suffix (h hp).1 (h hp).2

/-- A step of a loop advances if it takes a token whenever it yields something. -/
lemma advancesByTurn {step : Parse (Option α)} (hleaves : Leaves step)
    (htakes : ∀ {a ts rest}, step ts = .ok (some a, rest) → rest.length < ts.length) : AdvancesByTurn step :=
  fun _ _ _ _ h => advancesTo_of_suffix (hleaves h) (htakes h)

/-! ## The turns of the loops -/

/-- One turn of a loop of the grammar, on what has been parsed so far.  These are the steps that lists of
statements (`itemsUntil_def`), of arguments and of parameters (`separated_def`), chains of operators
(`Level.chain_def`) and calls (`call_def`) are made of. -/
inductive IsTurn (limit : ℕ) : {α : Type} → Parse (Option α) → Prop
  /-- The next statement of a block, or of the program. -/
  | statement (stop : Kind) (statements : List Node) :
      IsTurn limit (collect (nextUntil stop (declaration limit)) statements)
  | argument (arguments : List Node) :
      IsTurn limit (collect (nextSeparated .comma (expression limit)) arguments)
  | parameter (params : List Leaf) :
      IsTurn limit (collect (nextSeparated .comma (expect .identifier)) params)
  /-- The next operator of a level, with an operand from the tighter levels. -/
  | operator {level : Level} {tighter : List Level} (left : Node) :
      level :: tighter <:+ levels → IsTurn limit (level.step (binaries tighter (unary limit)) left)
  | call (callee : Node) : IsTurn limit (callStep (expression limit) callee)

/-- All the loops of the grammar advance by each of their turns. -/
lemma IsTurn.advances {limit : ℕ} {step : Parse (Option α)} (h : IsTurn limit step) : AdvancesByTurn step := by
  cases h with
  | statement stop statements =>
    have htakes := takes_declaration limit
    exact advancesByTurn ((htakes.leaves.nextUntil stop).map _) (consuming_nextUntil stop htakes).takes
  | argument arguments =>
    have hleaves := (takes_expression limit).leaves
    exact advancesByTurn ((leaves_stepBy fun _ => hleaves).map _) (consuming_nextSeparated .comma hleaves).takes
  | parameter params =>
    have hleaves := (takes_expect .identifier).leaves
    exact advancesByTurn ((leaves_stepBy fun _ => hleaves).map _) (consuming_nextSeparated .comma hleaves).takes
  | @operator level tighter left _ =>
    have hleaves := (takes_binaries tighter (takes_unary limit)).leaves
    have hconsuming : Consuming (level.step (binaries tighter (unary limit))) :=
      consuming_stepBy fun _ _ => hleaves.map _
    exact advancesByTurn (leaves_stepBy fun _ => hleaves.map _) hconsuming.takes
  | call callee =>
    have hleaves := (takes_arguments (takes_expression limit)).leaves
    have hconsuming : Consuming (callStep (expression limit)) := consuming_stepBy fun _ _ => hleaves.map _
    exact advancesByTurn (leaves_stepBy fun _ => hleaves.map _) hconsuming.takes

/-! ## Parsers that cope with some number of tokens -/

/-- On fewer than `n` tokens the parser does not run into the nesting limit. -/
structure Copes (n : ℕ) (p : Parse α) : Prop where
  leaves : Leaves p
  copes ⦃ts : List Leaf⦄ ⦃got : Option Leaf⦄ : ts.length < n → p ts ≠ .error (@.tooDeep got)

/-- With fewer than `n` tokens behind the first one, the parser does not run into the nesting limit. -/
structure CopesAtToken (n : ℕ) (p : Parse α) : Prop where
  leaves : Leaves p
  copes ⦃t : Leaf⦄ ⦃us : List Leaf⦄ ⦃got : Option Leaf⦄ :
    us.length < n → p (t :: us) ≠ .error (@.tooDeep got)

namespace Copes

variable {n : ℕ} {p : Parse α} {q : α → Parse β}

lemma of_zero (h : Leaves p) : Copes 0 p :=
  ⟨h, fun _ _ hlt => absurd hlt (Nat.not_lt_zero _)⟩

lemma mono {m : ℕ} (h : Copes m p) (hle : n ≤ m) : Copes n p :=
  ⟨h.leaves, fun _ _ hlt => h.copes (hlt.trans_le hle)⟩

lemma pure (a : α) : Copes n (pure a : Parse α) :=
  ⟨.pure a, fun _ _ _ => nofun⟩

lemma throw {e : SyntaxError} (he : ¬ e.IsTooDeep) : Copes n (throw e : Parse α) := by
  refine ⟨(fails_throw e).takes.leaves, fun ts got _ h => ?_⟩
  obtain rfl := Except.error.inj h
  exact he trivial

/-- Needing a token nests nothing. -/
lemma expect (kind : Kind) : Copes n (expect kind) := by
  refine ⟨(takes_expect kind).leaves, fun ts got _ h => ?_⟩
  unfold Grammar.expect at h
  split at h
  · cases h
  · split at h <;> cases h

/-- Taking an optional token nests nothing. -/
lemma accept? (accepted : Kind → Bool) : Copes n (accept? accepted) := by
  refine ⟨leaves_accept? accepted, fun ts got _ h => ?_⟩
  unfold Grammar.accept? at h
  split at h
  · cases h
  · split at h <;> cases h

/-- What follows has fewer tokens if tokens are taken before it. -/
lemma bind_of_length {m : ℕ} (hp : Copes n p) (hq : ∀ a, Copes m (q a))
    (hlength : ∀ {ts a rest}, p ts = .ok (a, rest) → ts.length < n → rest.length < m) :
    Copes n (p >>= q) := by
  refine ⟨hp.leaves.bind fun a => (hq a).leaves, fun ts got hlt h => ?_⟩
  rw [bind_apply] at h
  split at h
  next a rest ha => exact (hq a).copes (hlength ha hlt) h
  next he =>
    obtain rfl := Except.error.inj h
    exact hp.copes hlt he

/-- A sequence copes with the tokens that both of its parts cope with. -/
lemma bind (hp : Copes n p) (hq : ∀ a, Copes n (q a)) : Copes n (p >>= q) :=
  hp.bind_of_length hq fun ha hlt => (hp.leaves ha).length_le.trans_lt hlt

lemma map (hp : Copes n p) (f : α → β) : Copes n (f <$> p) := by
  rw [← bind_pure_comp]
  exact hp.bind fun a => .pure (f a)

/-- A parser copes with the same tokens where a token may stand for its absence. -/
lemma unlessNext (hp : Copes n p) (kind : Kind) (default : α) : Copes n (unlessNext kind default p) := by
  refine ⟨hp.leaves.unlessNext kind default, fun ts got hlt h => ?_⟩
  rw [unlessNext_apply] at h
  split at h
  · cases h
  · exact hp.copes hlt h

/-- Behind an optional token there are fewer tokens. -/
lemma accept?_bind {accepted : Kind → Bool} {q : Option Leaf → Parse β} (hnone : Copes (n + 1) (q none))
    (hsome : ∀ t, Copes n (q (some t))) : Copes (n + 1) (Grammar.accept? accepted >>= q) := by
  refine ⟨(leaves_accept? accepted).bind fun o => ?_, fun ts got hlt h => ?_⟩
  · cases o with
    | none => exact hnone.leaves
    | some t => exact (hsome t).leaves
  · rw [bind_apply] at h
    split at h
    next o rest ho =>
      cases o with
      | none =>
        obtain ⟨-, rfl⟩ := accept?_eq_none.mp ho
        exact hnone.copes hlt h
      | some t =>
        obtain ⟨-, rfl⟩ := accept?_eq_some.mp ho
        exact (hsome t).copes (Nat.lt_of_succ_lt_succ hlt) h
    next he =>
      obtain rfl := Except.error.inj h
      exact (Copes.accept? accepted).copes hlt he

/-- A turn of a loop copes with one token more than what is behind its first token. -/
lemma stepBy {accepted : Kind → Bool} {next : Leaf → Parse α} (h : ∀ t, Copes n (next t)) :
    Copes (n + 1) (stepBy accepted next) :=
  accept?_bind (.pure none) fun t => (h t).map some

/-- A loop does not nest its turns, so it copes with what each of them copes with. -/
lemma loop {step : α → Parse (Option α)} (hstep : ∀ a, Copes n (step a)) (a : α) : Copes n (loop step a) := by
  refine ⟨leaves_loop (fun a => (hstep a).leaves) a, fun ts got hlt => ?_⟩
  have hwithin : Copes n (repeatWithin step ts a) := repeatWithin_of_step (P := Copes n) .pure .bind hstep ts a
  exact hwithin.copes hlt

/-- Items with separators between them do not nest, so together they cope with what each of them copes with. -/
lemma separated {item : Parse α} (h : Copes n item) (separator : Kind) : Copes n (separated separator item) := by
  rw [separated_def]
  have hnext : Copes n (nextSeparated separator item) := by
    cases n with
    | zero => exact of_zero (leaves_stepBy fun _ => h.leaves)
    | succ n => exact stepBy fun _ => h.mono (Nat.le_succ n)
  exact h.bind fun first => (loop (fun items => hnext.map _) [first]).map _

/-- Items up to a closing token do not nest, so together they cope with what each of them copes with. -/
lemma itemsUntil {item : Parse α} (h : Copes n item) (stop : Kind) : Copes n (itemsUntil stop item) := by
  rw [itemsUntil_def]
  have hnext : Copes n (nextUntil stop item) := by
    refine ⟨h.leaves.nextUntil stop, fun ts got hlt hp => ?_⟩
    unfold nextUntil at hp
    split at hp
    · cases hp
    · split at hp
      · cases hp
      · exact (h.map some).copes hlt hp
  exact (loop (fun items => hnext.map _) []).map _

/-- What is done behind the first token. -/
lemma behind (h : Copes n p) : CopesAtToken n (behind p) :=
  ⟨fun ts _ _ hp => (h.leaves hp).trans (List.tail_suffix ts), fun _ _ _ hlt => h.copes hlt⟩

/-- A parser that is not behind the first token has to cope with this token as well. -/
lemma atToken (h : Copes (n + 1) p) : CopesAtToken n p :=
  ⟨h.leaves, fun _ _ _ hlt => h.copes (Nat.succ_lt_succ hlt)⟩

/-- A parser that is chosen by the first token, and may take it. -/
lemma byFirst {atEnd : Parse α} {atToken : Leaf → Parse α} (hend : Copes (n + 1) atEnd)
    (htoken : ∀ t, CopesAtToken n (atToken t)) : Copes (n + 1) (byFirst atEnd atToken) := by
  constructor
  · intro ts a rest h
    cases ts with
    | nil => exact hend.leaves h
    | cons t us => exact (htoken t).leaves h
  · intro ts got hlt
    cases ts with
    | nil => exact hend.copes hlt
    | cons t us => exact (htoken t).copes (Nat.lt_of_succ_lt_succ hlt)

end Copes

/-! ## Expressions -/

section Expressions

variable {n : ℕ} {e : Parse Node}

/-- Chains of operators nest nothing beyond their operands. -/
lemma copes_binaries (h : Copes (n + 1) e) (ls : List Level) : Copes (n + 1) (binaries ls e) := by
  induction ls with
  | nil => exact h
  | cons level ls ih =>
    change Copes (n + 1) (level.chain (binaries ls e))
    rw [level.chain_def]
    refine ih.bind fun left => .loop (fun left => ?_) left
    exact .stepBy fun _ => (ih.mono (Nat.le_succ n)).map _

/-- A primary copes with one token more than the expression in its parentheses. -/
lemma copes_primary (h : Copes n e) : Copes (n + 1) (primary e) := by
  rw [primary_eq_byFirst]
  have hfail : Copes (n + 1) (fail none : Parse Node) :=
    ⟨fun _ _ _ h => (nomatch h), fun _ _ _ => nofun⟩
  refine .byFirst hfail fun t => ?_
  have hnumber : Copes n (numberOf t) := by
    unfold numberOf
    split
    · exact .pure _
    · exact .throw id
  unfold primaryAt
  split
  case h_4 => exact hnumber.behind
  case h_7 => exact (h.bind fun _ => (Copes.expect _).bind fun _ => .pure _).behind
  case h_8 => exact hfail.atToken
  all_goals exact (Copes.pure _).behind

/-- A call copes with one token more than the expressions in it. -/
lemma copes_call (h : Copes n e) : Copes (n + 1) (call e) := by
  have harguments : Copes n (arguments e) := by
    rw [arguments_def]
    exact ((h.separated _).unlessNext _ _).bind fun _ => (Copes.expect _).bind fun _ => .pure _
  rw [call_def]
  exact (copes_primary h).bind fun callee => .loop (fun _ => .stepBy fun _ => harguments.map _) callee

end Expressions

/-- Expressions, and unary operators with their operands, nest at most two constructs for each token. -/
theorem copes_expression_unary (n : ℕ) :
    (∀ limit, 2 * n ≤ limit → Copes n (expression limit)) ∧
      ∀ limit, 2 * n ≤ limit + 1 → Copes n (unary limit) := by
  induction n with
  | zero => exact ⟨fun limit _ => .of_zero (takes_expression limit).leaves,
      fun limit _ => .of_zero (takes_unary limit).leaves⟩
  | succ n ih =>
    obtain ⟨hexpression, hunary⟩ := ih
    have hunary' : ∀ limit, 2 * (n + 1) ≤ limit + 1 → Copes (n + 1) (unary limit) := by
      intro limit hlimit
      obtain ⟨limit, rfl⟩ : ∃ k, limit = k + 1 := ⟨limit - 1, by omega⟩
      unfold unary
      refine .accept?_bind (copes_call (hexpression limit (by omega))) fun t => ?_
      exact (hunary limit (by omega)).bind fun _ => .pure _
    refine ⟨fun limit hlimit => ?_, hunary'⟩
    obtain ⟨limit, rfl⟩ : ∃ k, limit = k + 1 := ⟨limit - 1, by omega⟩
    unfold expression
    refine (copes_binaries (hunary' limit (by omega)) levels).bind fun target => .accept?_bind (.pure _) fun t => ?_
    refine (hexpression limit (by omega)).bind fun value => ?_
    unfold assignTo
    split
    · exact .pure _
    · exact .throw id

/-! ## Statements -/

section Statements

variable {n : ℕ} {e s d : Parse Node}

/-- A variable declaration copes with what its initializer copes with. -/
lemma copes_varDeclaration (h : Copes n e) : Copes n (varDeclaration e) := by
  unfold varDeclaration
  refine (Copes.expect _).bind fun name => (Copes.accept? _).bind fun o => ?_
  cases o with
  | none => exact (Copes.pure _).bind fun _ => (Copes.expect _).bind fun _ => .pure _
  | some _ => exact h.bind fun _ => (Copes.expect _).bind fun _ => .pure _

/-- A block copes with what its declarations cope with. -/
lemma copes_block (h : Copes n d) : Copes n (block d) :=
  (h.itemsUntil _).bind fun _ => (Copes.expect _).bind fun _ => .pure _

/-- A function declaration copes with what the declarations of its body cope with. -/
lemma copes_funDeclaration (h : Copes n d) : Copes n (funDeclaration d) := by
  have hparameters : Copes n parameters := by
    rw [parameters_def]
    exact (((Copes.expect _).separated _).unlessNext _ _).bind fun _ => (Copes.expect _).bind fun _ => .pure _
  exact (Copes.expect _).bind fun _ => (Copes.expect _).bind fun _ => hparameters.bind fun _ =>
    (Copes.expect _).bind fun _ => (copes_block h).bind fun _ => .pure _

/-- An expression statement copes with what its expression copes with. -/
lemma copes_expressionStatement (h : Copes n e) : Copes n (expressionStatement e) :=
  h.bind fun _ => (Copes.expect _).bind fun _ => .pure _

/-- A print statement copes with what its expression copes with. -/
lemma copes_printStatement (h : Copes n e) : Copes n (printStatement e) :=
  h.bind fun _ => (Copes.expect _).bind fun _ => .pure _

/-- An `if` statement copes with what its condition and its branches cope with. -/
lemma copes_ifStatement (h : Copes n e) (hs : Copes n s) : Copes n (ifStatement e s) := by
  unfold ifStatement
  refine h.bind fun _ => hs.bind fun _ => (Copes.accept? _).bind fun o => ?_
  cases o with
  | none => exact .pure _
  | some _ => exact hs.bind fun _ => .pure _

/-- A `while` statement copes with what its condition and its body cope with. -/
lemma copes_whileStatement (h : Copes n e) (hs : Copes n s) : Copes n (whileStatement e s) :=
  h.bind fun _ => hs.bind fun _ => .pure _

/-- A `return` statement copes with what its value copes with. -/
lemma copes_returnStatement (h : Copes n e) (keyword : Leaf) : Copes n (returnStatement e keyword) := by
  rw [returnStatement_def]
  exact (h.unlessNext _ _).bind fun _ => (Copes.expect _).bind fun _ => .pure _

/-- A `for` statement copes with what its expressions and its body cope with. -/
lemma copes_forStatement (h : Copes n e) (hs : Copes n s) : Copes n (forStatement e s) := by
  have hinitializer : Copes n (forInitializer e) := by
    unfold forInitializer
    refine (Copes.accept? _).bind fun o => ?_
    cases o with
    | some _ => exact .pure _
    | none =>
      refine (Copes.accept? _).bind fun o => ?_
      cases o with
      | some _ => exact (copes_varDeclaration h).bind fun _ => .pure _
      | none => exact (copes_expressionStatement h).bind fun _ => .pure _
  rw [forStatement_def]
  refine (Copes.expect _).bind fun _ => hinitializer.bind fun _ => (h.unlessNext _ _).bind fun _ => ?_
  refine (Copes.expect _).bind fun _ => ((h.map some).unlessNext _ _).bind fun _ => ?_
  exact (Copes.expect _).bind fun _ => hs.bind fun _ => .pure _

end Statements

/-- Declarations and statements nest at most two constructs for each token, and two more. -/
theorem copes_declaration_statement (n : ℕ) :
    (∀ limit, 2 * n + 2 ≤ limit → Copes n (declaration limit)) ∧
      ∀ limit, 2 * n + 2 ≤ limit + 1 → Copes n (statement limit) := by
  induction n with
  | zero => exact ⟨fun limit _ => .of_zero (takes_declaration limit).leaves,
      fun limit _ => .of_zero (takes_declaration_statement limit).2.leaves⟩
  | succ n ih =>
    obtain ⟨hdeclaration, hstatement⟩ := ih
    have hstatement' : ∀ limit, 2 * (n + 1) + 2 ≤ limit + 1 → Copes (n + 1) (statement limit) := by
      intro limit hlimit
      obtain ⟨limit, rfl⟩ : ∃ k, limit = k + 1 := ⟨limit - 1, by omega⟩
      have hwhole := (copes_expression_unary (n + 1)).1 limit (by omega)
      have he := hwhole.mono (Nat.le_succ n)
      have hs := hstatement limit (by omega)
      rw [statement_eq_byFirst]
      refine .byFirst (copes_expressionStatement hwhole) fun t => ?_
      unfold statementAt
      split
      · exact (copes_ifStatement he hs).behind
      · exact (copes_printStatement he).behind
      · exact ((copes_block (hdeclaration limit (by omega))).map _).behind
      · exact (copes_whileStatement he hs).behind
      · exact (copes_forStatement he hs).behind
      · exact (copes_returnStatement he t).behind
      · exact (copes_expressionStatement hwhole).atToken
    refine ⟨fun limit hlimit => ?_, hstatement'⟩
    obtain ⟨limit, rfl⟩ : ∃ k, limit = k + 1 := ⟨limit - 1, by omega⟩
    have hs := hstatement' limit (by omega)
    rw [declaration_eq_byFirst]
    refine .byFirst hs fun t => ?_
    unfold declarationAt
    split
    · exact (copes_varDeclaration ((copes_expression_unary n).1 limit (by omega))).behind
    · exact (copes_funDeclaration (hdeclaration limit (by omega))).behind
    · exact hs.atToken

/-! ## Programs -/

/-- The limit that is enough for a number of tokens. -/
def enoughFor (count : ℕ) : ℕ :=
  2 * count + 4

/-- A program does not run into a limit that is enough for its tokens. -/
lemma program_ne_tooDeep {limit : ℕ} {ts : List Leaf} (h : enoughFor ts.length ≤ limit) (got : Option Leaf) :
    program limit ts ≠ .error (@.tooDeep got) := by
  have hdeclaration := (copes_declaration_statement (ts.length + 1)).1 limit (by unfold enoughFor at h; omega)
  exact (hdeclaration.itemsUntil .eof).copes (Nat.lt_succ_self _)

lemma length_programTokens_le (tokens : List Leaf) : (programTokens tokens).length ≤ tokens.length :=
  (List.takeWhile_sublist _).length_le.trans (List.length_filter_le _ _)

/-- A limit that is enough for the tokens of a program is not run into. -/
lemma not_isTooDeep {limit : ℕ} {tokens : List Leaf} (h : enoughFor tokens.length ≤ limit) {error : ParseError}
    (herror : parseWithin limit tokens = .error error) : ¬ error.cause.IsTooDeep := by
  have hle : enoughFor (programTokens tokens).length ≤ limit := by
    have := length_programTokens_le tokens
    unfold enoughFor at h ⊢
    omega
  rw [parseWithin_apply] at herror
  split at herror
  · obtain rfl := Except.error.inj herror
    exact id
  · split at herror
    · cases herror
    next cause hprogram =>
      obtain rfl := Except.error.inj herror
      intro hdeep
      cases cause with
      | tooDeep => exact program_ne_tooDeep hle _ hprogram
      | _ => exact hdeep

/-- All limits that are enough for the tokens give the same outcome. -/
lemma parseWithin_of_enough {limit : ℕ} {tokens : List Leaf} (h : enoughFor tokens.length ≤ limit) :
    parseWithin limit tokens = parseWithin (enoughFor tokens.length) tokens := by
  rcases parseWithin_of_le h tokens with ⟨got, stop, hdeep⟩ | hsame
  · exact absurd trivial (not_isTooDeep le_rfl hdeep)
  · exact hsame.symm

/-- The reasons for which tokens on lines are rejected, if they can stand for what they are, are reported at a
place. -/
lemma isSome_place? {limit : ℕ} {tokens : List Leaf}
    (htokens : ∀ t ∈ tokens, t.Converts ∧ ∃ line : ℤ, t.line = .int line) {error : ParseError}
    (herror : parseWithin limit tokens = .error error) : error.place?.isSome := by
  obtain ⟨full, hfull⟩ := exists_complete? fun t ht => (htokens t ht).2
  obtain ⟨mark, hmark, -⟩ := Option.map_eq_some_iff.mp hfull
  rw [parseWithin_apply, hmark] at herror
  dsimp only at herror
  split at herror
  · cases herror
  next cause hprogram =>
    obtain rfl := Except.error.inj herror
    have hplain : cause.IsPlain :=
      isPlain_of_program (fun t ht => (htokens t (kind_of_mem_programTokens ht).1).1) hprogram
    cases cause with
    | badNumber _ | noEnd => exact hplain.elim
    | _ => rfl

/-- The parser makes progress, and so it comes to an end.

From any position of any list of tokens, a declaration, a statement, an expression, unary operators with their
operand, a call or a primary that is parsed has passed at least one token, and no end mark; so has each turn of a
loop: the next statement of a block or program, the next argument, parameter or operator, and the next arguments
that a callee is called with.

For every list of tokens there is one outcome that all limits give which are enough for its length; it is a
program, or an error other than that constructs are nested too deeply.  If the tokens are on lines and can stand
for what they are, then the error is a syntax error that is reported at a place. -/
theorem parsing_progresses_and_ends :
    (∀ limit, Advances (declaration limit) ∧ Advances (statement limit) ∧ Advances (expression limit) ∧
        Advances (unary limit) ∧ Advances (call (expression limit)) ∧ Advances (primary (expression limit)) ∧
        ∀ {α : Type} {step : Parse (Option α)}, IsTurn limit step → AdvancesByTurn step) ∧
      ∀ tokens : List Leaf, ∃ outcome : Except ParseError (List Node),
        (∀ limit, enoughFor tokens.length ≤ limit → parseWithin limit tokens = outcome) ∧
          ∀ error, outcome = .error error → ¬ error.cause.IsTooDeep ∧
            ((∀ t ∈ tokens, t.Converts ∧ ∃ line : ℤ, t.line = .int line) → error.place?.isSome) := by
  refine ⟨fun limit => ?_, fun tokens => ?_⟩
  · have hexpression := takes_expression limit
    have hstatements := takes_declaration_statement limit
    exact ⟨hstatements.1.advances, hstatements.2.advances, hexpression.advances, (takes_unary limit).advances,
      (takes_call hexpression).advances, (takes_primary hexpression.leaves).advances, IsTurn.advances⟩
  · refine ⟨_, fun limit => parseWithin_of_enough, fun error herror => ?_⟩
    exact ⟨not_isTooDeep le_rfl herror, fun htokens => isSome_place? htokens herror⟩

/-- The tokens of `(-(`. -/
def unclosedTokens : List Leaf :=
  [textToken .leftParen "(", textToken .minus "-", textToken .leftParen "("]

/-- What is never closed is rejected at its end, however deep constructs may be nested. -/
theorem unclosed_is_rejected_at_end :
    IsTurn 9 (collect (nextUntil .eof (declaration 9)) []) ∧ AdvancesTo nestedIfTokens 0 [] ∧
      enoughFor unclosedTokens.length ≤ 10 ^ 100 ∧
      (∀ t ∈ unclosedTokens, t.Converts ∧ ∃ line : ℤ, t.line = .int line) ∧
      parseWithin (10 ^ 100) unclosedTokens = .error ⟨.expectedExpression none, .endMark (.int 2)⟩ ∧
      (ParseError.place? ⟨.expectedExpression none, .endMark (.int 2)⟩).isSome := by
  have hturn : IsTurn 9 (collect (nextUntil .eof (declaration 9)) []) := .statement .eof []
  have hone : collect (nextUntil .eof (declaration 9)) [] (remaining nestedIfTokens 0) = .ok (some [nestedIf], []) :=
    rfl
  have hlimit : enoughFor unclosedTokens.length ≤ 10 ^ 100 := by norm_num [enoughFor, unclosedTokens]
  have htokens : ∀ t ∈ unclosedTokens, t.Converts ∧ ∃ line : ℤ, t.line = .int line := by
    simp [unclosedTokens, textToken, Leaf.Converts]
  obtain ⟨hprogress, hends⟩ := parsing_progresses_and_ends
  obtain ⟨outcome, hsame, herror⟩ := hends unclosedTokens
  have hten : parseWithin 10 unclosedTokens = .error ⟨.expectedExpression none, .endMark (.int 2)⟩ := rfl
  have houtcome := (hsame 10 le_rfl).symm.trans hten
  exact ⟨hturn, (hprogress 9).2.2.2.2.2.2 hturn hone, hlimit, htokens, (hsame _ hlimit).trans houtcome,
    (herror _ houtcome).2 htokens⟩

end Scriptlet.Grammar
