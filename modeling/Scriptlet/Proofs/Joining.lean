import Scriptlet.Proofs.Begins
import Scriptlet.Proofs.NestingLimit

/-!
# Programs behind one another

What is written behind a program is parsed as if it stood alone, at the same nesting limit: its statements
follow those of the program, and an error in it is the error that it has alone.

A parser that stops before the end of its tokens does not see what is behind them; this holds of the whole
grammar (`congruence_extends`).  At the end of its tokens a parser may have looked for more.  A statement that
ends there with a semicolon or a brace has not, and the only statement that ends in another way, the branch of
an `if`, has looked for an `else` (`seals_declaration_statement`).  No program begins with one, so tokens that
are a program, with tokens behind them that are one as well, are the two programs together.
-/

namespace Scriptlet.Grammar

variable {α β : Type} {us : List Leaf}

/-! ## Stopping before the end -/

/-- The second parser does on the tokens with `us` behind them what the first one does on the tokens alone, if
the first one stops before their end. -/
def Extends (us : List Leaf) (Q : α → β → Prop) (p : Parse α) (p' : Parse β) : Prop :=
  ∀ ⦃ts a rest⦄, p ts = .ok (a, rest) →
    rest <:+ ts ∧ ∃ b, Q a b ∧ (rest ≠ [] → p' (ts ++ us) = .ok (b, rest ++ us))

namespace Extends

variable {γ δ : Type} {Q : α → β → Prop} {p : Parse α} {p' : Parse β}

lemma pure {a : α} {b : β} (h : Q a b) : Extends us Q (pure a) (pure b) := by
  intro ts a' rest hp
  obtain ⟨rfl, rfl⟩ := pure_eq_ok.mp hp
  exact ⟨List.suffix_rfl, b, h, fun _ => rfl⟩

/-- What follows starts before the end of the tokens, if it stops there. -/
lemma bind {S : γ → δ → Prop} {q : α → Parse γ} {q' : β → Parse δ} (hp : Extends us Q p p')
    (hq : ∀ {a b}, Q a b → Extends us S (q a) (q' b)) : Extends us S (p >>= q) (p' >>= q') := by
  intro ts c rest h
  obtain ⟨a, mid, ha, hc⟩ := bind_eq_ok.mp h
  obtain ⟨hmid, b, hab, hp'⟩ := hp ha
  obtain ⟨hrest, d, hcd, hq'⟩ := hq hab hc
  refine ⟨hrest.trans hmid, d, hcd, fun hne => ?_⟩
  have hmidne : mid ≠ [] := by
    rintro rfl
    exact hne (List.suffix_nil.mp hrest)
  exact bind_eq_ok.mpr ⟨b, mid ++ us, hp' hmidne, hq' hne⟩

/-- A parser behind the first token does the same with more tokens if it does so on the others. -/
lemma behind (h : Extends us Q p p') : Extends us Q (behind p) (behind p') := by
  intro ts a rest hp
  obtain ⟨hrest, b, hab, hp'⟩ := h hp
  refine ⟨hrest.trans (List.tail_suffix ts), b, hab, fun hne => ?_⟩
  cases ts with
  | nil => exact absurd (List.suffix_nil.mp hrest) hne
  | cons t ts => exact hp' hne

/-- The first token is the same with more tokens behind it. -/
lemma byFirst {f : Leaf → Parse α} {f' : Leaf → Parse β} (hp : Extends us Q p p')
    (hf : ∀ {t u}, t = u → Extends us Q (f t) (f' u)) : Extends us Q (byFirst p f) (byFirst p' f') := by
  intro ts a rest h
  cases ts with
  | nil =>
    obtain ⟨hrest, b, hab, -⟩ := hp h
    exact ⟨hrest, b, hab, fun hne => absurd (List.suffix_nil.mp hrest) hne⟩
  | cons t ts => exact hf rfl h

/-- A loop may make more turns if there are more tokens, but it makes those that it made. -/
lemma loop {step : α → Parse (Option α)} {step' : β → Parse (Option β)} {a : α} {b : β}
    (hconsuming : Consuming step)
    (hstep : ∀ {a b}, Q a b → Extends us (Option.Rel Q) (step a) (step' b)) (h : Q a b) :
    Extends us Q (loop step a) (loop step' b) := by
  have hwithin : ∀ (budget : List Leaf) {a b ts c rest}, Q a b → ts.length ≤ budget.length →
      repeatWithin step budget a ts = .ok (c, rest) → rest <:+ ts ∧ ∃ d, Q c d ∧
        (rest ≠ [] → repeatWithin step' (budget ++ us) b (ts ++ us) = .ok (d, rest ++ us)) := by
    intro budget
    induction budget with
    | nil =>
      intro a b ts c rest hab hlength hrun
      obtain ⟨rfl, rfl⟩ := pure_eq_ok.mp hrun
      have hnil : ts = [] := List.length_eq_zero_iff.mp (Nat.le_zero.mp hlength)
      exact ⟨List.suffix_rfl, b, hab, fun hne => absurd hnil hne⟩
    | cons _ budget ih =>
      intro a b ts c rest hab hlength hrun
      obtain ⟨o, mid, ho, hrun⟩ := bind_eq_ok.mp hrun
      obtain ⟨hmid, o', hrel, hstep'⟩ := hstep hab ho
      cases hrel with
      | none =>
        obtain ⟨rfl, rfl⟩ := pure_eq_ok.mp hrun
        exact ⟨hmid, b, hab, fun hne => bind_eq_ok.mpr ⟨none, _, hstep' hne, rfl⟩⟩
      | @some a' b' hab' =>
        have hshorter := hconsuming.takes ho
        simp only [List.length_cons] at hlength
        obtain ⟨hrest, d, hcd, hlater⟩ := ih hab' (by omega) hrun
        refine ⟨hrest.trans hmid, d, hcd, fun hne => ?_⟩
        have hmidne : mid ≠ [] := by
          rintro rfl
          exact hne (List.suffix_nil.mp hrest)
        exact bind_eq_ok.mpr ⟨some b', _, hstep' hmidne, hlater hne⟩
  exact fun ts c rest hrun => hwithin ts h le_rfl hrun

end Extends

/-- Not seeing what is behind the tokens respects all that constructs are made of. -/
theorem congruence_extends (us : List Leaf) : Congruence Eq (Extends us) where
  tokens := parsesSame_eq
  beyondLimit h := absurd h (@fails_beyondLimit _ _ _)
  pure h := .pure h
  fail _ _ _ _ h := by cases h
  throw _ _ _ _ _ h := by cases h
  bind hp hq := hp.bind hq
  behind h := h.behind
  byFirst hp hf := hp.byFirst hf
  loop hconsuming hstep h := .loop hconsuming hstep h

/-! ## Parsers that what is behind does not change -/

/-- A parser that does the same with `us` behind its tokens if it stops before their end. -/
structure Stops (us : List Leaf) (p : Parse α) : Prop where
  leaves : Leaves p
  joins ⦃ts : List Leaf⦄ ⦃a : α⦄ ⦃rest : List Leaf⦄ :
    p ts = .ok (a, rest) → rest ≠ [] → p (ts ++ us) = .ok (a, rest ++ us)

/-- A parser that does the same with `us` behind its tokens, wherever it stops. -/
structure Joins (us : List Leaf) (p : Parse α) : Prop where
  leaves : Leaves p
  joins ⦃ts : List Leaf⦄ ⦃a : α⦄ ⦃rest : List Leaf⦄ : p ts = .ok (a, rest) → p (ts ++ us) = .ok (a, rest ++ us)

/-- A parser that does the same with `us` behind its tokens, and needs some token. -/
structure Seals (us : List Leaf) (p : Parse α) : Prop extends Joins us p where
  takes : Takes p

/-- A parser that extends itself does the same with more tokens, if it stops before the end. -/
lemma Extends.stops {Q : α → α → Prop} {p : Parse α} (h : Extends us Q p p) (hQ : ∀ {a b}, Q a b → a = b) :
    Stops us p where
  leaves _ _ _ hp := (h hp).1
  joins ts a rest hp hne := by
    obtain ⟨-, b, hab, hp'⟩ := h hp
    rw [hQ hab]
    exact hp' hne

/-- A parser that does the same with more tokens wherever it stops does so where it stops before the end. -/
lemma Joins.stops {p : Parse α} (h : Joins us p) : Stops us p :=
  ⟨h.leaves, fun _ _ _ hp _ => h.joins hp⟩

lemma Joins.pure (a : α) : Joins us (pure a : Parse α) where
  leaves := .pure a
  joins ts b rest h := by
    obtain ⟨rfl, rfl⟩ := pure_eq_ok.mp h
    rfl

/-- A sequence does the same with more tokens if both of its parts do. -/
lemma Joins.bind {p : Parse α} {q : α → Parse β} (hp : Joins us p) (hq : ∀ a, Joins us (q a)) :
    Joins us (p >>= q) where
  leaves := hp.leaves.bind fun a => (hq a).leaves
  joins ts b rest h := by
    obtain ⟨a, mid, ha, hb⟩ := bind_eq_ok.mp h
    exact bind_eq_ok.mpr ⟨a, mid ++ us, hp.joins ha, (hq a).joins hb⟩

/-- A sequence needs a token if its first part does. -/
lemma Seals.bind {p : Parse α} {q : α → Parse β} (hp : Seals us p) (hq : ∀ a, Joins us (q a)) :
    Seals us (p >>= q) where
  toJoins := hp.toJoins.bind hq
  takes := hp.takes.bind fun a => (hq a).leaves

/-- If some token is needed behind a parser, then the parser has stopped before the end. -/
lemma Stops.bind {p : Parse α} {q : α → Parse β} (hp : Stops us p) (hq : ∀ a, Seals us (q a)) :
    Seals us (p >>= q) where
  leaves := hp.leaves.bind fun a => (hq a).leaves
  joins ts b rest h := by
    obtain ⟨a, mid, ha, hb⟩ := bind_eq_ok.mp h
    have hmid : mid ≠ [] := by
      rintro rfl
      exact absurd ((hq a).takes hb).2 (Nat.not_lt_zero _)
    exact bind_eq_ok.mpr ⟨a, mid ++ us, hp.joins ha hmid, (hq a).joins hb⟩
  takes := hp.leaves.bind_takes fun a => (hq a).takes

lemma Seals.map {p : Parse α} (hp : Seals us p) (f : α → β) : Seals us (f <$> p) := by
  rw [← bind_pure_comp]
  exact hp.bind fun a => .pure (f a)

/-- A parser that needs a token does the same with more tokens behind a first one. -/
lemma Seals.behind {p : Parse α} (hp : Seals us p) : Seals us (behind p) where
  leaves ts a rest h := (hp.leaves h).trans (List.tail_suffix ts)
  joins ts a rest h := by
    cases ts with
    | nil => exact absurd (hp.takes h).2 (Nat.not_lt_zero _)
    | cons t ts => exact hp.joins h
  takes ts a rest h := by
    obtain ⟨hsuffix, hlt⟩ := hp.takes h
    exact ⟨hsuffix.trans (List.tail_suffix ts), hlt.trans_le (List.tail_suffix ts).length_le⟩

/-- Whichever parser the first token chooses, each of them does the same with more tokens. -/
lemma Seals.byFirst {p : Parse α} {f : Leaf → Parse α} (hp : Seals us p) (hf : ∀ t, Seals us (f t)) :
    Seals us (byFirst p f) where
  leaves ts a rest h := by
    cases ts with
    | nil => exact hp.leaves h
    | cons t ts => exact (hf t).leaves h
  joins ts a rest h := by
    cases ts with
    | nil => exact absurd (hp.takes h).2 (Nat.not_lt_zero _)
    | cons t ts => exact (hf t).joins h
  takes ts a rest h := by
    cases ts with
    | nil => exact hp.takes h
    | cons t ts => exact (hf t).takes h

/-- What never succeeds does the same with more tokens wherever it succeeds. -/
lemma Fails.seals {p : Parse α} (h : Fails p) : Seals us p where
  leaves := h.takes.leaves
  joins _ _ _ hp := absurd hp (@h _ _)
  takes := h.takes

/-- A token that is needed is there before more are put behind it. -/
lemma seals_expect (kind : Kind) : Seals us (expect kind) where
  leaves := (takes_expect kind).leaves
  joins ts t rest h := by
    obtain ⟨hkind, rfl⟩ := expect_eq_ok.mp h
    exact expect_eq_ok.mpr ⟨hkind, rfl⟩
  takes := takes_expect kind

/-- The last token of a statement. -/
lemma seals_with (kind : Kind) (a : α) : Seals us (do let _ ← expect kind; return a) :=
  (seals_expect kind).bind fun _ => .pure a

/-- An optional token is taken alike if what is behind does not begin with one. -/
lemma accept?_append {accepted : Kind → Bool} {ts rest : List Leaf} {o : Option Leaf}
    (h : accept? accepted ts = .ok (o, rest)) (hus : ts = [] → NotNext accepted us) :
    accept? accepted (ts ++ us) = .ok (o, rest ++ us) := by
  cases o with
  | none =>
    obtain ⟨hnot, rfl⟩ := accept?_eq_none.mp h
    refine accept?_eq_none.mpr ⟨?_, rfl⟩
    cases ts with
    | nil => exact hus rfl
    | cons t ts => exact notNext_cons.mpr (notNext_cons.mp hnot)
  | some t =>
    obtain ⟨hkind, rfl⟩ := accept?_eq_some.mp h
    exact accept?_eq_some.mpr ⟨hkind, rfl⟩

/-- An optional token is taken alike where some token is left. -/
lemma stops_accept? (accepted : Kind → Bool) : Stops us (accept? accepted) where
  leaves := leaves_accept? accepted
  joins ts o rest h hne := by
    refine accept?_append h fun hts => ?_
    subst hts
    exact absurd (List.suffix_nil.mp (leaves_accept? accepted h)) hne

/-- An optional token that is looked for at the end is not the first of `us`. -/
lemma joins_accept? {accepted : Kind → Bool} (hus : NotNext accepted us) : Joins us (accept? accepted) where
  leaves := leaves_accept? accepted
  joins _ _ _ h := accept?_append h fun _ => hus

/-! ## Statements -/

section Statements

variable {e d s : Parse Node} (he : Extends us (SameTree Eq) e e)

include he

/-- A variable declaration ends with its semicolon. -/
lemma seals_varDeclaration : Seals us (varDeclaration e) := by
  unfold varDeclaration
  refine (seals_expect .identifier).bind fun name => ((stops_accept? _).bind fun o => ?_).toJoins
  cases o with
  | none => exact (Joins.pure _).stops.bind fun value => seals_with .semicolon _
  | some _ => exact (he.stops SameTree.eq).bind fun value => seals_with .semicolon _

/-- An expression statement ends with its semicolon. -/
lemma seals_expressionStatement : Seals us (expressionStatement e) :=
  (he.stops SameTree.eq).bind fun _ => seals_with .semicolon _

/-- A print statement ends with its semicolon. -/
lemma seals_printStatement : Seals us (printStatement e) :=
  (he.stops SameTree.eq).bind fun _ => seals_with .semicolon _

/-- A `return` statement ends with its semicolon. -/
lemma seals_returnStatement (keyword : Leaf) : Seals us (returnStatement e keyword) := by
  rw [returnStatement_def]
  have hvalue := (congruence_extends us).unlessNext he .semicolon (.null : SameTree Eq _ _)
  exact (hvalue.stops SameTree.eq).bind fun value => seals_with .semicolon _

/-- A `while` statement ends where its body ends. -/
lemma seals_whileStatement (hs : Seals us s) : Seals us (whileStatement e s) :=
  (he.stops SameTree.eq).bind fun _ => hs.bind fun _ => .pure _

/-- A `for` statement ends where its body ends. -/
lemma seals_forStatement (hs : Seals us s) : Seals us (forStatement e s) := by
  have hinitializer := (congruence_extends us).forInitializer he
  have hcondition := (congruence_extends us).unlessNext he .semicolon
    (.literal (.bool true) : SameTree Eq (.literal (.bool true)) _)
  have hincrement := (congruence_extends us).unlessNext ((congruence_extends us).map he Option.Rel.some)
    .rightParen .none
  have hoption : ∀ {o o' : Option Node}, Option.Rel (SameTree Eq) o o' → o = o' := by
    intro o o' h
    cases h with
    | none => rfl
    | some h => rw [h.eq]
  rw [forStatement_def]
  refine (seals_expect .leftParen).bind fun _ => ((hinitializer.stops hoption).bind fun _ => ?_).toJoins
  refine (hcondition.stops SameTree.eq).bind fun _ => (seals_expect .semicolon).bind fun _ => ?_
  refine ((hincrement.stops hoption).bind fun _ => (seals_expect .rightParen).bind fun _ => ?_).toJoins
  exact hs.toJoins.bind fun _ => .pure _

/-- An `if` statement without an `else` has looked for one. -/
lemma seals_ifStatement (hus : NotNext (· = .elseWord) us) (hs : Seals us s) :
    Seals us (ifStatement e s) := by
  unfold ifStatement
  refine (he.stops SameTree.eq).bind fun _ => hs.bind fun _ => (joins_accept? hus).bind fun o => ?_
  cases o with
  | none => exact .pure _
  | some _ => exact hs.toJoins.bind fun _ => .pure _

end Statements

/-- A block ends with its brace. -/
lemma seals_block {d : Parse Node} (htakes : Takes d) (hd : Extends us (SameTree Eq) d d) :
    Seals us (block d) :=
  (((congruence_extends us).itemsUntil htakes hd .rightBrace).stops SameTree.list_eq).bind
    fun _ => seals_with .rightBrace _

/-- A function declaration ends with the brace of its body. -/
lemma seals_funDeclaration {d : Parse Node} (htakes : Takes d) (hd : Extends us (SameTree Eq) d d) :
    Seals us (funDeclaration d) := by
  have hparams : ∀ {as bs : List Leaf}, List.Forall₂ (fun t u => t = u ∧ t.kind = .identifier) as bs →
      as = bs := fun h => List.forall₂_eq_eq_eq ▸ h.imp fun _ _ h => h.1
  refine (seals_expect .identifier).bind fun _ => ((seals_expect .leftParen).bind fun _ => ?_).toJoins
  refine (((congruence_extends us).parameters.stops hparams).bind fun _ => ?_).toJoins
  exact (seals_expect .leftBrace).bind fun _ => (seals_block htakes hd).toJoins.bind fun _ => .pure _

/-- Declarations and statements are not changed by what is behind them, unless that begins with `else`. -/
theorem seals_declaration_statement (hus : NotNext (· = .elseWord) us) (limit : ℕ) :
    Seals us (declaration limit) ∧ Seals us (statement limit) := by
  induction limit with
  | zero => exact ⟨fails_beyondLimit.seals, fails_beyondLimit.seals⟩
  | succ limit ih =>
    obtain ⟨-, hstatement⟩ := ih
    have hexpression := ((congruence_extends us).expression_unary (le_refl limit) (absurd rfl)).1
    have hdeclaration := ((congruence_extends us).declaration_statement (le_refl limit) (absurd rfl)).1
    have htakes := takes_declaration limit
    constructor
    · rw [declaration_eq_byFirst]
      refine hstatement.byFirst fun t => ?_
      unfold declarationAt
      split
      · exact (seals_varDeclaration hexpression).behind
      · exact (seals_funDeclaration htakes hdeclaration).behind
      · exact hstatement
    · rw [statement_eq_byFirst]
      refine (seals_expressionStatement hexpression).byFirst fun t => ?_
      unfold statementAt
      split
      · exact (seals_ifStatement hexpression hus hstatement).behind
      · exact (seals_printStatement hexpression).behind
      · exact ((seals_block htakes hdeclaration).map _).behind
      · exact (seals_whileStatement hexpression hstatement).behind
      · exact (seals_forStatement hexpression hstatement).behind
      · exact (seals_returnStatement hexpression t).behind
      · exact seals_expressionStatement hexpression

/-! ## First tokens -/

/-- A parser that does not succeed on tokens that begin with `t`. -/
def FailsAt (t : Leaf) (p : Parse α) : Prop :=
  ∀ ts r, p (t :: ts) ≠ .ok r

/-- A sequence fails at a token if its first part does. -/
lemma FailsAt.bind {t : Leaf} {p : Parse α} (h : FailsAt t p) (q : α → Parse β) : FailsAt t (p >>= q) := by
  rintro ts ⟨b, rest⟩ hp
  obtain ⟨a, mid, ha, -⟩ := bind_eq_ok.mp hp
  exact h ts _ ha

/-- What never succeeds fails at every token. -/
lemma Fails.failsAt {p : Parse α} (h : Fails p) (t : Leaf) : FailsAt t p :=
  fun _ _ => @h _ _

section FirstToken

variable {t : Leaf}

/-- A call fails at a token that begins no expression. -/
lemma failsAt_call (ht : beginsExpression t.kind = false) (e : Parse Node) : FailsAt t (call e) := by
  rw [call_def]
  refine FailsAt.bind (fun ts r h => ?_) _
  unfold primary at h
  dsimp only at h
  split at h
  case h_8 => cases h
  all_goals
    rename_i hkind
    rw [hkind] at ht
    cases ht

/-- Expressions begin with certain tokens only. -/
lemma failsAt_expression (ht : beginsExpression t.kind = false) (limit : ℕ) : FailsAt t (expression limit) := by
  have hunary : ∀ n, FailsAt t (unary n) := by
    intro n
    cases n with
    | zero => exact fails_beyondLimit.failsAt t
    | succ n =>
      rintro ts ⟨e, rest⟩ h
      unfold unary at h
      obtain ⟨o, mid, ho, h⟩ := bind_eq_ok.mp h
      cases o with
      | none =>
        obtain ⟨-, rfl⟩ := accept?_eq_none.mp ho
        exact failsAt_call ht (expression n) ts _ h
      | some u =>
        obtain ⟨hkind, hcons⟩ := accept?_eq_some.mp ho
        obtain ⟨rfl, -⟩ := List.cons.inj hcons
        rcases Bool.or_eq_true _ _ ▸ hkind with hk | hk <;> simp [of_decide_eq_true hk, beginsExpression] at ht
  have hbinaries : ∀ (ls : List Level) n, FailsAt t (binaries ls (unary n)) := by
    intro ls n
    induction ls with
    | nil => exact hunary n
    | cons level ls ih =>
      change FailsAt t (level.chain (binaries ls (unary n)))
      rw [level.chain_def]
      exact ih.bind _
  cases limit with
  | zero => exact fails_beyondLimit.failsAt t
  | succ n =>
    unfold expression
    exact (hbinaries levels n).bind _

/-- Statements begin with certain tokens only, `for` being one of them. -/
lemma failsAt_statement (ht : beginsStatement t.kind = false) (hfor : t.kind ≠ .forWord) (limit : ℕ) :
    FailsAt t (statement limit) := by
  cases limit with
  | zero => exact fails_beyondLimit.failsAt t
  | succ n =>
    intro ts r h
    unfold statement at h
    dsimp only at h
    split at h
    case h_5 hkind => exact hfor hkind
    case h_7 => exact (failsAt_expression (Bool.or_eq_false_iff.mp ht).1 n).bind _ ts r h
    all_goals
      rename_i hkind
      rw [hkind] at ht
      cases ht

/-- Declarations begin with certain tokens only. -/
lemma failsAt_declaration (ht : beginsDeclaration t.kind = false) (hfor : t.kind ≠ .forWord) (limit : ℕ) :
    FailsAt t (declaration limit) := by
  cases limit with
  | zero => exact fails_beyondLimit.failsAt t
  | succ n =>
    intro ts r h
    unfold declaration at h
    dsimp only at h
    split at h
    case h_3 => exact failsAt_statement (Bool.or_eq_false_iff.mp ht).1 hfor n ts r h
    all_goals
      rename_i hkind
      rw [hkind] at ht
      cases ht

end FirstToken

/-! ## Programs -/

/-- Declarations do not begin with `else`, if what follows them does not. -/
lemma notNext_else_of_gathers {limit : ℕ} {stop : Kind} {ts rest : List Leaf} {statements : List Node}
    (h : Gathers (nextUntil stop (declaration limit)) ts statements rest)
    (hrest : NotNext (· = .elseWord) rest) : NotNext (· = .elseWord) ts := by
  cases h with
  | done hdone =>
    obtain ⟨-, rfl⟩ := nextUntil_eq_none.mp hdone
    exact hrest
  | more hmore _ =>
    obtain ⟨⟨t, ht, -⟩, hdeclaration⟩ := nextUntil_eq_some.mp hmore
    cases ts with
    | nil => cases ht
    | cons u ts =>
      refine notNext_cons.mpr (decide_eq_false fun hu => ?_)
      exact failsAt_declaration (hu ▸ rfl) (hu ▸ nofun) limit ts _ hdeclaration

section Behind

variable {limit : ℕ} {ts us : List Leaf} {statements others : List Node}

/-- Behind a program, declarations are read as if the program were not there. -/
lemma itemsUntil_append (h : Gathers (nextUntil .eof (declaration limit)) ts statements [])
    (hus : NotNext (· = .elseWord) us) :
    itemsUntil .eof (declaration limit) (ts ++ us) =
      (itemsUntil .eof (declaration limit) us).map (Prod.map (statements ++ ·) id) := by
  have hseals := (seals_declaration_statement hus limit).1
  generalize hrest : ([] : List Leaf) = rest at h
  induction h with
  | done hdone =>
    obtain ⟨-, rfl⟩ := nextUntil_eq_none.mp hdone
    rw [← hrest, List.nil_append]
    cases itemsUntil .eof (declaration limit) us <;> rfl
  | @more s statements ts mid rest hmore _ ih =>
    obtain ⟨⟨t, ht, hkind⟩, hdeclaration⟩ := nextUntil_eq_some.mp hmore
    have hhead : t ∈ (ts ++ us).head? := by
      simp [List.head?_append, Option.mem_def.mp ht]
    have hnext : nextUntil .eof (declaration limit) (ts ++ us) = .ok (some s, mid ++ us) :=
      nextUntil_eq_some.mpr ⟨⟨t, hhead, hkind⟩, hseals.joins hdeclaration⟩
    rw [itemsUntil_of_next (takes_declaration limit) hnext, ih hrest]
    cases itemsUntil .eof (declaration limit) us <;> rfl

/-- Tokens that are a program, with tokens behind them that are one, are the two programs together. -/
theorem gathers_append (h : Gathers (nextUntil .eof (declaration limit)) ts statements [])
    (hus : Gathers (nextUntil .eof (declaration limit)) us others []) :
    Gathers (nextUntil .eof (declaration limit)) (ts ++ us) (statements ++ others) [] := by
  have htakes := takes_declaration limit
  have hothers : itemsUntil .eof (declaration limit) us = .ok (others, []) :=
    (itemsUntil_eq_ok htakes).mpr hus
  refine (itemsUntil_eq_ok htakes).mp ?_
  rw [itemsUntil_append h (notNext_else_of_gathers hus (notNext_nil _)), hothers]
  rfl

end Behind

/-! ## Parsing what stands behind a program -/

/-- The last token decides where the end of the program is. -/
lemma endMark?_append_of_ne_nil (front : List Leaf) {rest : List Leaf} (h : rest ≠ []) :
    endMark? (front ++ rest) = endMark? rest := by
  have hlast : (front ++ rest).getLast? = rest.getLast? := by
    rw [List.getLast?_append, List.getLast?_eq_getLast_of_ne_nil h]
    rfl
  unfold endMark?
  rw [hlast]

/-- If the first token is none of an accepted kind, then that of the program is none either. -/
lemma notNext_programTokens {accepted : Kind → Bool} {tokens : List Leaf}
    (h : NotNext accepted (tokens.filter (·.kind ≠ .comment))) : NotNext accepted (programTokens tokens) := by
  unfold programTokens
  cases hfilter : tokens.filter (·.kind ≠ .comment) with
  | nil => exact notNext_nil _
  | cons t ts =>
    rw [hfilter] at h
    rw [List.takeWhile_cons]
    split_ifs
    · exact notNext_cons.mpr (notNext_cons.mp h)
    · exact notNext_nil _

/-- What is written behind a program does not change it, and is read as if it stood alone: its statements
follow those of the program, and what is wrong with it is the same syntax error at the same place.  Only an
`else` can be part of the program in front of it. -/
theorem parse_append {front rest : List Leaf} {statements : List Node}
    (hends : ∀ t ∈ front, t.kind ≠ .eof) (hfront : parse front = .ok statements)
    (helse : NotNext (· = .elseWord) (rest.filter (·.kind ≠ .comment))) :
    parse (front ++ rest) = (parse rest).map (statements ++ ·) := by
  unfold parse at hfront ⊢
  obtain ⟨⟨mark, hmark⟩, hprogram⟩ := parseWithin_eq_ok.mp hfront
  have hfilter : ∀ t ∈ front.filter (·.kind ≠ .comment), t.kind ≠ .eof :=
    fun t ht => hends t (List.mem_of_mem_filter ht)
  have hitems := itemsUntil_append hprogram (notNext_programTokens helse)
  rw [programTokens_eq_filter hends, ← programTokens_append hends] at hitems
  rw [parseWithin_apply, parseWithin_apply, hitems, List.filter_append]
  by_cases hnil : rest.filter (·.kind ≠ .comment) = []
  · -- There are only comments behind the program, and its own last token decides on the end.
    have hrest : itemsUntil .eof (declaration nestingLimit) (programTokens rest) = .ok ([], []) := by
      rw [programTokens, hnil]
      exact (itemsUntil_eq_ok (takes_declaration nestingLimit)).mpr (.done rfl)
    rw [hnil, List.append_nil, hmark, hrest]
    rfl
  · rw [endMark?_append_of_ne_nil _ hnil]
    cases endMark? (rest.filter (·.kind ≠ .comment)) with
    | none => rfl
    | some mark =>
      cases itemsUntil .eof (declaration nestingLimit) (programTokens rest) with
      | ok r => rfl
      | error cause =>
        exact congrArg (fun stop => Except.error (ParseError.mk cause stop)) (stop_cut_append hfilter _)

/-- The tokens of `if a if b return;`. -/
def openIfTokens : List Leaf :=
  nestedIfTokens.take 6

/-- The statement that these tokens write. -/
def openIf : Node :=
  .ifStmt (.ident (.token (textToken .identifier "a")))
    (.ifStmt (.ident (.token (textToken .identifier "b")))
      (.returnStmt (.token (textToken .returnWord "return")) .null) .null) .null

/-- Behind two conditions that look for an `else`, a statement and a syntax error are what they are alone. -/
theorem openIf_parses_behind :
    (∀ t ∈ openIfTokens, t.kind ≠ .eof) ∧ parse openIfTokens = .ok [openIf] ∧
      parse (openIfTokens ++ nestedIfTokens.drop 7) =
        (parse (nestedIfTokens.drop 7)).map ([openIf] ++ ·) ∧
      parse (openIfTokens ++ nestedIfTokens.drop 8) =
        (parse (nestedIfTokens.drop 8)).map ([openIf] ++ ·) := by
  have hends : ∀ t ∈ openIfTokens, t.kind ≠ .eof := by decide
  have hparse : parse openIfTokens = .ok [openIf] := rfl
  exact ⟨hends, hparse, parse_append hends hparse (notNext_cons.mpr rfl),
    parse_append hends hparse (notNext_cons.mpr rfl)⟩

/-- With an `else`, the same tokens are one statement. -/
example : parse (openIfTokens ++ nestedIfTokens.drop 6) = .ok [nestedIf] :=
  rfl

end Scriptlet.Grammar
