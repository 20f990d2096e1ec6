import Scriptlet.Proofs.Buffering

/-!
# Braces of programs

The shell counts braces without parsing, and parsing takes braces without counting them.  They agree on every
program: the only constructs that take an opening brace are blocks and the bodies of functions, both go on to
the brace that closes it, and nothing else takes a closing brace.  So each construct that is parsed leaves the
number of open braces as it was (`Balances`), and what remains to be said is that a block, which begins behind
its opening brace, leaves one brace less (`ClosesOne`).
-/

namespace Scriptlet

namespace Grammar

variable {α β : Type} {kind : Kind} {kinds : List Kind} {depth : ℕ}

/-! ## Open braces -/

/-- Whether a token is a brace. -/
def isBrace (kind : Kind) : Bool :=
  kind = .leftBrace || kind = .rightBrace

/-- The number of braces that are open behind some tokens if there are `depth` open ones before them.  There is
no such number if a brace is closed that is not open. -/
def depthBehind : (depth : ℕ) → List Kind → Option ℕ
  | depth, [] => some depth
  | depth, kind :: kinds =>
    if kind = .leftBrace then depthBehind (depth + 1) kinds
    else if kind = .rightBrace then
      if depth = 0 then none else depthBehind (depth - 1) kinds
    else depthBehind depth kinds

/-- An opening brace is one more to be closed. -/
lemma depthBehind_leftBrace : depthBehind depth (.leftBrace :: kinds) = depthBehind (depth + 1) kinds :=
  rfl

/-- A closing brace closes one. -/
lemma depthBehind_rightBrace : depthBehind (depth + 1) (.rightBrace :: kinds) = depthBehind depth kinds :=
  rfl

/-- Other tokens do not count. -/
lemma depthBehind_cons_of_not_isBrace (h : isBrace kind = false) :
    depthBehind depth (kind :: kinds) = depthBehind depth kinds := by
  cases kind <;> first | rfl | cases h

/-- Braces are counted piece by piece. -/
lemma depthBehind_append (depth : ℕ) (kinds more : List Kind) :
    depthBehind depth (kinds ++ more) = (depthBehind depth kinds).bind (depthBehind · more) := by
  fun_induction depthBehind depth kinds with
  | case1 depth => rfl
  | case2 depth kinds ih => exact ih
  | case3 => rfl
  | case4 depth kinds hpos _ ih => simpa [depthBehind, hpos] using ih
  | case5 depth kind kinds hleft hright ih => simpa [depthBehind, hleft, hright] using ih

/-- As many braces are open before some tokens or opened in them as are closed in them or open behind them. -/
lemma count_of_depthBehind_eq_some {after : ℕ} (h : depthBehind depth kinds = some after) :
    depth + kinds.count .leftBrace = after + kinds.count .rightBrace := by
  fun_induction depthBehind depth kinds with
  | case1 depth => simpa using h
  | case2 depth kinds ih =>
    have := ih h
    simp
    omega
  | case3 => cases h
  | case4 depth kinds hpos _ ih =>
    have := ih h
    simp
    omega
  | case5 depth kind kinds hleft hright ih => simpa [List.count_cons, hleft, hright] using ih h

/-- Comments do not count. -/
lemma depthBehind_filter (depth : ℕ) (kinds : List Kind) :
    depthBehind depth (kinds.filter (· ≠ .comment)) = depthBehind depth kinds := by
  induction kinds generalizing depth with
  | nil => rfl
  | cons kind kinds ih =>
    by_cases hkind : kind = .comment
    · subst hkind
      exact ih depth
    · rw [List.filter_cons_of_pos (by simpa using hkind)]
      simp only [depthBehind, ih]

/-- No front of the tokens closes more braces than are open before it or opened in it. -/
lemma count_front_le {front : List Kind} {after : ℕ} (h : depthBehind depth kinds = some after)
    (hfront : front <+: kinds) : front.count .rightBrace ≤ depth + front.count .leftBrace := by
  obtain ⟨rest, rfl⟩ := hfront
  rw [depthBehind_append, Option.bind_eq_some_iff] at h
  obtain ⟨middle, hmiddle, -⟩ := h
  have := count_of_depthBehind_eq_some hmiddle
  omega

/-! ## Parsers that balance braces -/

/-- A parser that takes closing braces only together with the braces that they close, and the other way
round. -/
def Balances (p : Parse α) : Prop :=
  ∀ ⦃ts a rest⦄, p ts = .ok (a, rest) → ∀ depth,
    depthBehind depth (ts.map Leaf.kind) = depthBehind depth (rest.map Leaf.kind)

/-- A parser that takes a closing brace more than it takes opening ones. -/
def ClosesOne (p : Parse α) : Prop :=
  ∀ ⦃ts a rest⦄, p ts = .ok (a, rest) → ∀ depth,
    depthBehind (depth + 1) (ts.map Leaf.kind) = depthBehind depth (rest.map Leaf.kind)

variable {p : Parse α} {q : α → Parse β}

lemma Balances.pure (a : α) : Balances (pure a : Parse α) := by
  intro ts b rest h depth
  obtain ⟨-, rfl⟩ := pure_eq_ok.mp h
  rfl

/-- What never succeeds balances braces, as it never takes any. -/
lemma Fails.balances (h : Fails p) : Balances p :=
  fun _ _ _ hp => absurd hp (@h _ _)

/-- A sequence balances braces if both of its parts do. -/
lemma Balances.bind (hp : Balances p) (hq : ∀ a, Balances (q a)) : Balances (p >>= q) := by
  intro ts b rest h depth
  obtain ⟨a, mid, ha, hb⟩ := bind_eq_ok.mp h
  exact (hp ha depth).trans (hq a hb depth)

/-- A sequence closes one brace if its second part does and the first one balances braces. -/
lemma Balances.bind_closesOne (hp : Balances p) (hq : ∀ a, ClosesOne (q a)) : ClosesOne (p >>= q) := by
  intro ts b rest h depth
  obtain ⟨a, mid, ha, hb⟩ := bind_eq_ok.mp h
  exact (hp ha (depth + 1)).trans (hq a hb depth)

/-- A sequence closes one brace if its first part does and the second one balances braces. -/
lemma ClosesOne.bind (hp : ClosesOne p) (hq : ∀ a, Balances (q a)) : ClosesOne (p >>= q) := by
  intro ts b rest h depth
  obtain ⟨a, mid, ha, hb⟩ := bind_eq_ok.mp h
  exact (hp ha depth).trans (hq a hb depth)

lemma Balances.map (hp : Balances p) (f : α → β) : Balances (f <$> p) := by
  intro ts b rest h
  obtain ⟨a, ha, -⟩ := map_eq_ok.mp h
  exact hp ha

lemma ClosesOne.map (hp : ClosesOne p) (f : α → β) : ClosesOne (f <$> p) := by
  intro ts b rest h
  obtain ⟨a, ha, -⟩ := map_eq_ok.mp h
  exact hp ha

/-- A token that is no brace may be needed. -/
lemma balances_expect (h : isBrace kind = false) : Balances (expect kind) := by
  intro ts t rest ht depth
  obtain ⟨rfl, rfl⟩ := expect_eq_ok.mp ht
  exact depthBehind_cons_of_not_isBrace h

/-- Needing a closing brace closes one. -/
lemma closesOne_expect : ClosesOne (expect .rightBrace) := by
  intro ts t rest ht depth
  obtain ⟨hkind, rfl⟩ := expect_eq_ok.mp ht
  rw [List.map_cons, hkind, depthBehind_rightBrace]

/-- An opening brace and what goes on to the closing one. -/
lemma ClosesOne.behind_brace {p : Parse α} (hp : ClosesOne p) : Balances (expect .leftBrace >>= fun _ => p) := by
  intro ts a rest h depth
  obtain ⟨t, mid, ht, ha⟩ := bind_eq_ok.mp h
  obtain ⟨hkind, rfl⟩ := expect_eq_ok.mp ht
  rw [List.map_cons, hkind, depthBehind_leftBrace]
  exact hp ha depth

/-- Tokens that are no braces may be optional. -/
lemma balances_accept? {accepted : Kind → Bool} (h : ∀ kind, accepted kind = true → isBrace kind = false) :
    Balances (accept? accepted) := by
  intro ts o rest ho depth
  cases o with
  | none =>
    obtain ⟨-, rfl⟩ := accept?_eq_none.mp ho
    rfl
  | some t =>
    obtain ⟨hkind, rfl⟩ := accept?_eq_some.mp ho
    exact depthBehind_cons_of_not_isBrace (h _ hkind)

/-- A kind is no brace if it is equal to one that is none. -/
lemma not_isBrace_of_eq (h : isBrace kind = false) :
    ∀ other, decide (other = kind) = true → isBrace other = false :=
  fun _ hother => of_decide_eq_true hother ▸ h

/-- An optional token of a kind that is not that of a brace. -/
lemma balances_accept?_kind (h : isBrace kind = false) : Balances (accept? (· = kind)) :=
  balances_accept? (not_isBrace_of_eq h)

/-- A token that is no brace does not count. -/
lemma Balances.of_cons (hp : Balances p) {t : Leaf} {us rest : List Leaf} {a : α}
    (hkind : isBrace t.kind = false) (h : p us = .ok (a, rest)) (depth : ℕ) :
    depthBehind depth ((t :: us).map Leaf.kind) = depthBehind depth (rest.map Leaf.kind) :=
  (depthBehind_cons_of_not_isBrace hkind).trans (hp h depth)

/-- Looking whether a token comes next takes nothing. -/
lemma Balances.unlessNext (hp : Balances p) (kind : Kind) (default : α) :
    Balances (unlessNext kind default p) := by
  intro ts a rest h depth
  obtain ⟨-, -, rfl⟩ | ⟨-, h⟩ := unlessNext_eq_ok.mp h
  · rfl
  · exact hp h depth

/-- A loop balances braces if every step does. -/
lemma balances_loop {step : α → Parse (Option α)} (hstep : ∀ a, Balances (step a)) (a : α) :
    Balances (loop step a) := by
  intro ts b rest h
  have hwithin : Balances (repeatWithin step ts a) := repeatWithin_of_step .pure .bind hstep ts a
  exact hwithin h

/-- A turn of a loop that begins with no brace balances braces if the rest of it does. -/
lemma balances_stepBy {accepted : Kind → Bool} {next : Leaf → Parse α}
    (h : ∀ kind, accepted kind = true → isBrace kind = false) (hnext : ∀ t, Balances (next t)) :
    Balances (stepBy accepted next) := by
  refine (balances_accept? h).bind fun o => ?_
  cases o with
  | none => exact .pure none
  | some t => exact (hnext t).map some

/-- Items that balance braces do so together, with separators that are no braces. -/
lemma Balances.separated (hp : Balances p) (h : isBrace kind = false) : Balances (separated kind p) := by
  rw [separated_def]
  refine hp.bind fun first => (balances_loop (fun items => ?_) [first]).map List.reverse
  exact (balances_stepBy (not_isBrace_of_eq h) fun _ => hp).map _

/-- Items that balance braces do so together, up to a closing token, which is not taken. -/
lemma Balances.itemsUntil (hp : Balances p) (stop : Kind) : Balances (itemsUntil stop p) := by
  rw [itemsUntil_def]
  refine (balances_loop (fun items => Balances.map ?_ _) []).map List.reverse
  intro ts o rest h depth
  cases o with
  | none =>
    obtain ⟨-, rfl⟩ := nextUntil_eq_none.mp h
    rfl
  | some a => exact hp (nextUntil_eq_some.mp h).2 depth

/-! ## Expressions -/

/-- Binary operators are no braces. -/
lemma balances_binaries {ls : List Level} (h : ∀ level ∈ ls, ∀ kind ∈ level.operators, isBrace kind = false)
    {operand : Parse Node} (hoperand : Balances operand) : Balances (binaries ls operand) := by
  induction ls with
  | nil => exact hoperand
  | cons level ls ih =>
    obtain ⟨hlevel, hlevels⟩ := List.forall_mem_cons.mp h
    change Balances (level.chain (binaries ls operand))
    rw [level.chain_def]
    refine (ih hlevels).bind fun left => balances_loop (fun _ => balances_stepBy (fun kind hkind => ?_) fun _ =>
      (ih hlevels).map _) left
    exact hlevel kind (List.contains_iff_mem.mp hkind)

/-- No operator is a brace. -/
lemma not_isBrace_of_mem_operators : ∀ level ∈ levels, ∀ kind ∈ level.operators, isBrace kind = false := by
  decide

/-- A number is converted without taking a token. -/
lemma balances_numberOf (t : Leaf) : Balances (numberOf t) := by
  unfold numberOf
  cases number? t.literal with
  | none => exact (fails_throw _).balances
  | some x => exact .pure _

/-- A primary holds braces only within the expression in its parentheses. -/
lemma balances_primary {expression : Parse Node} (h : Balances expression) : Balances (primary expression) := by
  intro ts e rest hp depth
  cases ts with
  | nil => cases hp
  | cons t us =>
    unfold primary at hp
    dsimp only at hp
    split at hp
    case h_4 hkind => exact (balances_numberOf t).of_cons (hkind ▸ rfl) hp depth
    case h_7 hkind =>
      exact (h.bind fun e => (balances_expect rfl).bind fun _ => .pure _).of_cons (hkind ▸ rfl) hp depth
    case h_8 => cases hp
    all_goals
      rename_i hkind
      obtain rfl := (Prod.mk.inj (Except.ok.inj hp)).2
      exact depthBehind_cons_of_not_isBrace (hkind ▸ rfl)

/-- A call holds braces only within its callee and its arguments. -/
lemma balances_call {expression : Parse Node} (h : Balances expression) : Balances (call expression) := by
  rw [call_def]
  refine (balances_primary h).bind fun callee => balances_loop (fun _ => ?_) callee
  refine balances_stepBy (not_isBrace_of_eq rfl) fun _ => Balances.map ?_ _
  rw [arguments_def]
  exact ((h.separated rfl).unlessNext _ _).bind fun args => (balances_expect rfl).bind fun _ => .pure _

/-- An expression balances braces: it takes none. -/
theorem balances_expression_unary (limit : ℕ) : Balances (expression limit) ∧ Balances (unary limit) := by
  induction limit with
  | zero => exact ⟨fails_beyondLimit.balances, fails_beyondLimit.balances⟩
  | succ limit ih =>
    obtain ⟨hexpression, hunary⟩ := ih
    constructor
    · unfold expression
      refine (balances_binaries not_isBrace_of_mem_operators hunary).bind fun target => ?_
      refine (balances_accept?_kind rfl).bind fun o => ?_
      cases o with
      | none => exact .pure _
      | some equals =>
        refine hexpression.bind fun value => ?_
        unfold assignTo
        split
        · exact .pure _
        · exact (fails_throw _).balances
    · unfold unary
      refine (balances_accept? fun kind hkind => ?_).bind fun o => ?_
      · cases kind <;> first | rfl | cases hkind
      · cases o with
        | none => exact balances_call hexpression
        | some operator => exact hunary.bind fun _ => .pure _

/-! ## Statements -/

section Statements

variable {expression statement declaration : Parse Node}

/-- A variable declaration holds braces only within its initializer. -/
lemma balances_varDeclaration (h : Balances expression) : Balances (varDeclaration expression) := by
  unfold varDeclaration
  refine (balances_expect rfl).bind fun name => (balances_accept?_kind rfl).bind fun o => ?_
  cases o with
  | none => exact (Balances.pure _).bind fun _ => (balances_expect rfl).bind fun _ => .pure _
  | some _ => exact h.bind fun _ => (balances_expect rfl).bind fun _ => .pure _

/-- A block takes the brace that closes it. -/
lemma closesOne_block (h : Balances declaration) : ClosesOne (block declaration) :=
  (h.itemsUntil _).bind_closesOne fun _ => closesOne_expect.bind fun _ => .pure _

/-- Parameters hold no braces. -/
lemma balances_parameters : Balances parameters := by
  rw [parameters_def]
  refine (((balances_expect rfl).separated rfl).unlessNext _ _).bind fun _ => ?_
  exact (balances_expect rfl).bind fun _ => .pure _

/-- A function declaration opens a brace, and closes it behind the declarations of its body. -/
lemma balances_funDeclaration (h : Balances declaration) : Balances (funDeclaration declaration) :=
  (balances_expect rfl).bind fun _ => (balances_expect rfl).bind fun _ => balances_parameters.bind fun _ =>
    ((closesOne_block h).bind fun _ => .pure _).behind_brace

/-- An expression statement holds braces only within its expression. -/
lemma balances_expressionStatement (h : Balances expression) : Balances (expressionStatement expression) :=
  h.bind fun _ => (balances_expect rfl).bind fun _ => .pure _

/-- A print statement holds braces only within its expression. -/
lemma balances_printStatement (h : Balances expression) : Balances (printStatement expression) :=
  h.bind fun _ => (balances_expect rfl).bind fun _ => .pure _

/-- An `if` statement holds braces only within its condition and its branches. -/
lemma balances_ifStatement (h : Balances expression) (hs : Balances statement) :
    Balances (ifStatement expression statement) := by
  unfold ifStatement
  refine h.bind fun _ => hs.bind fun _ => (balances_accept?_kind rfl).bind fun o => ?_
  cases o with
  | none => exact .pure _
  | some _ => exact hs.bind fun _ => .pure _

/-- A `while` statement holds braces only within its condition and its body. -/
lemma balances_whileStatement (h : Balances expression) (hs : Balances statement) :
    Balances (whileStatement expression statement) :=
  h.bind fun _ => hs.bind fun _ => .pure _

/-- A `return` statement holds braces only within its value. -/
lemma balances_returnStatement (h : Balances expression) (keyword : Leaf) :
    Balances (returnStatement expression keyword) := by
  rw [returnStatement_def]
  exact (h.unlessNext _ _).bind fun _ => (balances_expect rfl).bind fun _ => .pure _

/-- The initializer of a `for` statement holds braces only within its expression. -/
lemma balances_forInitializer (h : Balances expression) : Balances (forInitializer expression) := by
  unfold forInitializer
  refine (balances_accept?_kind rfl).bind fun o => ?_
  cases o with
  | some _ => exact .pure _
  | none =>
    refine (balances_accept?_kind rfl).bind fun o => ?_
    cases o with
    | some _ => exact (balances_varDeclaration h).bind fun _ => .pure _
    | none => exact (balances_expressionStatement h).bind fun _ => .pure _

/-- A `for` statement holds braces only within its expressions and its body. -/
lemma balances_forStatement (h : Balances expression) (hs : Balances statement) :
    Balances (forStatement expression statement) := by
  rw [forStatement_def]
  refine (balances_expect rfl).bind fun _ => (balances_forInitializer h).bind fun _ => ?_
  refine (h.unlessNext _ _).bind fun _ => (balances_expect rfl).bind fun _ => ?_
  refine ((h.map some).unlessNext _ _).bind fun _ => (balances_expect rfl).bind fun _ => ?_
  exact hs.bind fun _ => .pure _

end Statements

/-- Declarations and statements balance braces. -/
theorem balances_declaration_statement (limit : ℕ) :
    Balances (declaration limit) ∧ Balances (statement limit) := by
  induction limit with
  | zero => exact ⟨fails_beyondLimit.balances, fails_beyondLimit.balances⟩
  | succ limit ih =>
    obtain ⟨hdeclaration, hstatement⟩ := ih
    have hexpression := (balances_expression_unary limit).1
    constructor
    · intro ts s rest h depth
      cases ts with
      | nil => exact hstatement h depth
      | cons t us =>
        unfold declaration at h
        dsimp only at h
        split at h
        next hkind => exact (balances_varDeclaration hexpression).of_cons (hkind ▸ rfl) h depth
        next hkind => exact (balances_funDeclaration hdeclaration).of_cons (hkind ▸ rfl) h depth
        next => exact hstatement h depth
    · intro ts s rest h depth
      cases ts with
      | nil => exact balances_expressionStatement hexpression h depth
      | cons t us =>
        unfold statement at h
        dsimp only at h
        split at h
        next hkind => exact (balances_ifStatement hexpression hstatement).of_cons (hkind ▸ rfl) h depth
        next hkind => exact (balances_printStatement hexpression).of_cons (hkind ▸ rfl) h depth
        next hkind =>
          rw [List.map_cons, hkind, depthBehind_leftBrace]
          exact (closesOne_block hdeclaration).map _ h depth
        next hkind => exact (balances_whileStatement hexpression hstatement).of_cons (hkind ▸ rfl) h depth
        next hkind => exact (balances_forStatement hexpression hstatement).of_cons (hkind ▸ rfl) h depth
        next hkind => exact (balances_returnStatement hexpression t).of_cons (hkind ▸ rfl) h depth
        next => exact balances_expressionStatement hexpression h depth

end Grammar

/-! ## Programs -/

/-- A program leaves as many braces open as there were before it. -/
lemma IsProgram.depthBehind_eq {tokens : List Leaf} {statements : List Node} (h : IsProgram tokens statements)
    (depth : ℕ) : Grammar.depthBehind depth (tokens.map Leaf.kind) = some depth := by
  have hparse : Grammar.itemsUntil .eof (Grammar.declaration Grammar.nestingLimit) tokens =
      .ok (statements, []) :=
    (Grammar.itemsUntil_eq_ok (Grammar.takes_declaration Grammar.nestingLimit)).mpr h
  exact (Grammar.balances_declaration_statement Grammar.nestingLimit).1.itemsUntil .eof hparse depth

/-- All tokens of a source that is a program leave as many braces open as there were before, as neither comments nor
the end mark count. -/
lemma depthBehind_tokens {source : List UInt8} {statements : List Node}
    (h : (Scan.ofBytes source).statements = .ok statements) (depth : ℕ) :
    Grammar.depthBehind depth ((Scan.ofBytes source).tokens.map Token.kind) = some depth := by
  obtain ⟨hclean, hprogram⟩ := statements_eq_ok.mp h
  obtain ⟨front, line, hscans⟩ := exists_scans hclean
  have hkinds : ((programOf source).map Leaf.kind) = (front.map Token.kind).filter (· ≠ .comment) := by
    rw [programOf_of_scans hscans, List.filter_map, List.filter_map, List.map_map]
    rfl
  have hfront := hprogram.depthBehind_eq depth
  rw [hkinds, Grammar.depthBehind_filter] at hfront
  rw [ofBytes_of_scans hscans, List.map_append, Grammar.depthBehind_append, hfront]
  rfl

/-- The shell counts the opening braces less the closing ones. -/
lemma Scan.openBraces_eq (scan : Scan) :
    scan.openBraces =
      (scan.tokens.map Token.kind).count .leftBrace - (scan.tokens.map Token.kind).count .rightBrace := by
  -- The induction is over the tokens, with any number of braces that are open before them.
  rw [openBraces, ← zero_add ((_ : ℤ) - _)]
  generalize (0 : ℤ) = depth, scan.tokens = tokens
  induction tokens generalizing depth with
  | nil => simp
  | cons token tokens ih =>
    rw [List.foldl_cons, ih, List.map_cons]
    split
    next hkind =>
      rw [hkind]
      simp
      omega
    next hkind =>
      rw [hkind]
      simp
      omega
    next hleft hright =>
      rw [List.count_cons_of_ne hleft, List.count_cons_of_ne hright]

/-- The braces of a source that is a program are closed, in the right order. -/
theorem braces_of_program {source : List UInt8} {statements : List Node}
    (h : (Scan.ofBytes source).statements = .ok statements) :
    (Scan.ofBytes source).openBraces = 0 ∧ ∀ front, front <+: (Scan.ofBytes source).tokens →
      (front.map Token.kind).count .rightBrace ≤ (front.map Token.kind).count .leftBrace := by
  have hdepth := depthBehind_tokens h 0
  have hcount := Grammar.count_of_depthBehind_eq_some hdepth
  refine ⟨by rw [Scan.openBraces_eq]; omega, fun front hfront => ?_⟩
  have hle := Grammar.count_front_le hdepth (hfront.map Token.kind)
  rwa [Nat.zero_add] at hle

/-- Interpreting a source with more opening than closing braces rejects it and leaves the session as it is. -/
theorem interpret_of_openBraces_pos (setting : Setting) (session : Session) (scope : ℕ) {source : List UInt8}
    (hopen : 0 < (Scan.ofBytes source).openBraces) :
    ∃ failure, (Scan.ofBytes source).statements = .error failure ∧
      session.interpret setting scope source =
        (⟨Session.scanEvents (Scan.ofBytes source), some failure⟩, session) := by
  cases hstatements : (Scan.ofBytes source).statements with
  | error failure => exact ⟨failure, rfl, Session.interpret_of_error hstatements⟩
  | ok statements => exact absurd (braces_of_program hstatements).1 hopen.ne'

/-- The brace counter agrees with the parser.  If a source is a program, then it has as many closing as opening
braces, and no front of its tokens has more closing ones.  So interpreting a source with more opening than
closing braces rejects it; and whenever a shell has taken some lines, what it keeps back is no program. -/
theorem brace_counter_agrees (setting : Setting) (source : List UInt8) (session : Session)
    (lines : List String) :
    (∀ statements, (Scan.ofBytes source).statements = .ok statements →
      (Scan.ofBytes source).openBraces = 0 ∧ ∀ front, front <+: (Scan.ofBytes source).tokens →
        (front.map Token.kind).count .rightBrace ≤ (front.map Token.kind).count .leftBrace) ∧
      (0 < (Scan.ofBytes source).openBraces → ∀ scope, ∃ failure,
        (Scan.ofBytes source).statements = .error failure ∧ session.interpret setting scope source =
          (⟨Session.scanEvents (Scan.ofBytes source), some failure⟩, session)) ∧
      let shell := ((Shell.start session).takeAll setting lines).2
      shell.pending = "" ∨ ∃ failure, (Scan.ofText shell.pending).statements = .error failure := by
  refine ⟨fun _ => braces_of_program,
    fun hopen scope => interpret_of_openBraces_pos setting session scope hopen, ?_⟩
  obtain ⟨-, kept, -, -, -, hkept⟩ := (Shell.keeps_start session).takeAll setting lines
  dsimp only
  by_cases hpending : ((Shell.start session).takeAll setting lines).2.pending = ""
  · exact .inl hpending
  · have hopen := hkept.agree.2.mp (hkept.agree.1.mp hpending)
    change 0 < (Scan.ofBytes (Utf8.encode _)).openBraces at hopen
    obtain ⟨failure, hfailure, -⟩ :=
      interpret_of_openBraces_pos setting session ScopeTree.rootNumber hopen
    exact .inr ⟨failure, hfailure⟩

end Scriptlet
