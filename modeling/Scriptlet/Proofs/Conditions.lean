import Scriptlet.Proofs.Completeness
import Scriptlet.Proofs.Joining

/-!
# Conditions in parentheses

Nothing stands between a condition and the statement behind it: the condition is an expression, and it ends
where the next token does not continue it.  Parentheses around the condition make it a grouping, but they do
not end it, as a grouping can be called and can be an operand.  So what comes of a grouping and a statement
behind it depends on the first token of the statement alone.  A parenthesis opens a list of arguments, and a
minus sign is a binary operator; no other token with which a statement begins continues an expression, and
then the statement is read as it is on its own.
-/

namespace Scriptlet.Grammar

open Filter

variable {α : Type} {T : Leaf → Prop} {n : ℕ} {ts us rest : List Leaf} {t : Leaf} {e s : Node}

/-! ## Parts that were read on their own -/

/-- What a parser does within some limit it does within all large limits. -/
lemma parses_of_ok {p : ℕ → Parse α} (hp : ∀ {n m : ℕ}, n ≤ m → Approximates (p n) (p m)) {a : α}
    (h : p n ts = .ok (a, rest)) : Parses p ts a rest := by
  filter_upwards [eventually_ge_atTop n] with m hle
  rcases hp hle ts with ⟨got, hdeep⟩ | hsame
  · rw [h] at hdeep
    cases hdeep
  · exact hsame.symm.trans h

/-- The tokens of an expression write it, and they are read as the expression wherever it may end. -/
lemma of_expression (h : expression n ts = .ok (e, [])) :
    IsExpression (fun _ => True) e ∧ Writes e.flatten ts ∧ Parsable e ts := by
  obtain ⟨used, hused, hread⟩ := reads_expression n (fun _ _ => trivial) h
  rw [List.append_nil] at hused
  subst hused
  exact ⟨hread.shape, hread.writes, hread.shape.parsable hread.writes⟩

/-- A statement is read alike in front of other tokens, unless these begin with `else`. -/
lemma parses_statement_append (h : statement n ts = .ok (s, [])) (hrest : NotNext (· = .elseWord) rest) :
    Parses statement (ts ++ rest) s rest :=
  parses_of_ok approximates_statement ((seals_declaration_statement hrest n).2.joins h)

/-- A statement begins with one of the tokens that can begin statements. -/
lemma isNext_of_statement (h : statement n ts = .ok (s, rest)) :
    IsNext (fun kind => beginsStatement kind || kind = .forWord) ts := by
  cases ts with
  | nil => exact absurd ((takes_declaration_statement n).2 h).2 (Nat.not_lt_zero _)
  | cons t us =>
    refine ⟨t, us, rfl, ?_⟩
    by_contra hkind
    obtain ⟨hbegins, hfor⟩ := Bool.or_eq_false_iff.mp (Bool.eq_false_of_not_eq_true hkind)
    exact failsAt_statement hbegins (of_decide_eq_false hfor) n us _ h

/-! ## The first token behind a condition -/

/-- Whether a token continues an expression, although it can also begin a statement. -/
def joinsCondition (kind : Kind) : Bool :=
  kind = .leftParen || kind = .minus

/-- A statement that begins with no such token ends a condition in front of it. -/
lemma notNext_continuing_of_statement (h : statement n ts = .ok (s, [])) (hfirst : NotNext joinsCondition ts)
    (rest : List Leaf) : NotNext continuing (ts ++ rest) := by
  obtain ⟨t, us, rfl, hkind⟩ := isNext_of_statement h
  have hnot : t.kind ≠ .leftParen ∧ t.kind ≠ .minus := by
    simpa [joinsCondition] using notNext_cons.mp hfirst
  refine notNext_cons.mpr ?_
  rcases Bool.or_eq_true _ _ ▸ hkind with hbegins | hfor
  · exact not_continuing_of_beginsStatement hbegins hnot
  · rw [of_decide_eq_true hfor]
    rfl

/-- A statement that begins with such a token is an expression that begins with it. -/
lemma continuesCondition_of_statement (h : statement n (t :: us) = .ok (s, rest))
    (ht : joinsCondition t.kind = true) : continuesCondition s := by
  have hkind : t.kind = .leftParen ∨ t.kind = .minus := by simpa [joinsCondition] using ht
  cases n with
  | zero => cases h
  | succ n =>
    have hexpression : statement (n + 1) (t :: us) = expressionStatement (expression n) (t :: us) := by
      rcases hkind with hk | hk <;> simp [statement, hk]
    rw [hexpression] at h
    obtain ⟨e, mid, he, h₁⟩ := bind_eq_ok.mp h
    obtain ⟨semicolon, mid', -, h₂⟩ := bind_eq_ok.mp h₁
    obtain ⟨rfl, -⟩ := pure_eq_ok.mp h₂
    obtain ⟨used, hused, hread⟩ := reads_expression n (fun _ _ => trivial) he
    cases used with
    | nil =>
      obtain rfl : t :: us = mid := hused
      exact absurd (takes_expression n he).2 (lt_irrefl _)
    | cons u used =>
      obtain ⟨rfl, -⟩ := List.cons.inj hused
      obtain ⟨x, xs, hx, -, hflatten⟩ := List.forall₂_cons_right_iff.mp hread.writes
      refine ⟨x, by simp [Node.flatten, hflatten], ?_⟩
      cases hk : x.kind? with
      | none => rcases hkind with hkind | hkind <;> simpa [hkind] using hx.kind_mem hk
      | some kind =>
        obtain rfl := hx.kind_eq hk
        exact hkind.imp (congrArg some) (congrArg some)

/-! ## Statements with a condition in parentheses -/

/-- The branch of a conditional does not continue the condition, as it would have been read with it. -/
lemma IsStatement.not_continuesCondition_of_ifStmt {condition elseBranch : Node}
    (h : IsStatement T (.ifStmt condition s elseBranch)) : ¬ continuesCondition s := by
  cases h <;> assumption

/-- The body of a loop does not continue the condition, as it would have been read with it. -/
lemma IsStatement.not_continuesCondition_of_whileStmt {condition : Node}
    (h : IsStatement T (.whileStmt condition s)) : ¬ continuesCondition s := by
  cases h
  assumption

section Grouping

variable {m : ℕ} {word opening closing : Leaf} {es ss : List Leaf}

/-- In front of a statement that does not continue it, a condition in parentheses is read as a grouping. -/
lemma parses_grouping (he : expression n es = .ok (e, [])) (hs : statement m ss = .ok (s, []))
    (hopening : opening.kind = .leftParen) (hclosing : closing.kind = .rightParen)
    (hfirst : NotNext joinsCondition ss) (rest : List Leaf) :
    Parses expression (opening :: es ++ [closing] ++ (ss ++ rest)) (.grouping e) (ss ++ rest) :=
  (parsable_grouping (of_expression he).2.2 hopening hclosing).asExpression _
    (notNext_continuing_of_statement hs hfirst rest)

/-- A statement that is left intact behind a condition begins with no token that continues the condition. -/
lemma notNext_joinsCondition (hs : statement m ss = .ok (s, [])) (h : ¬ continuesCondition s) :
    NotNext joinsCondition ss := by
  cases ss with
  | nil => exact notNext_nil _
  | cons t us =>
    refine notNext_cons.mpr (Bool.eq_false_of_not_eq_true fun ht => ?_)
    exact h (continuesCondition_of_statement hs ht)

/-- Conditions in parentheses.  Behind `if` or `while`, an expression in parentheses and a statement are read as
the condition, which is a grouping, and the branch or the loop body, if the statement begins with neither a
parenthesis nor a minus sign; and otherwise they are not, whatever the limit on nesting is. -/
theorem grouped_condition_iff (he : expression n es = .ok (e, [])) (hs : statement m ss = .ok (s, []))
    (hopening : opening.kind = .leftParen) (hclosing : closing.kind = .rightParen)
    (hrest : NotNext (· = .elseWord) rest) :
    (word.kind = .ifWord →
      ((∃ depth, ∃ got : ℕ → Option Leaf, ∀ limit,
          statement limit (word :: (opening :: es ++ [closing]) ++ ss ++ rest) =
            if depth ≤ limit then .ok (.ifStmt (.grouping e) s .null, rest) else .error (@.tooDeep (got limit))) ↔
        NotNext joinsCondition ss)) ∧
      (word.kind = .whileWord →
        ((∃ depth, ∃ got : ℕ → Option Leaf, ∀ limit,
            statement limit (word :: (opening :: es ++ [closing]) ++ ss ++ rest) =
              if depth ≤ limit then .ok (.whileStmt (.grouping e) s, rest) else .error (@.tooDeep (got limit))) ↔
          NotNext joinsCondition ss)) := by
  have hbranch := parses_statement_append hs hrest
  have hcondition := fun hfirst => parses_grouping he hs hopening hclosing hfirst rest
  -- What is read has the shape of the grammar, so its branch does not continue its condition.
  have hshape : ∀ {depth tree} {got : ℕ → Option Leaf},
      (∀ limit, statement limit (word :: (opening :: es ++ [closing]) ++ ss ++ rest) =
        if depth ≤ limit then .ok (tree, rest) else .error (@.tooDeep (got limit))) →
      IsStatement (fun _ => True) tree := by
    intro depth tree got h
    obtain ⟨_, -, hread⟩ :=
      (reads_declaration_statement depth).2 (fun _ _ => trivial) ((h depth).trans (if_pos le_rfl))
    exact hread.shape
  constructor
  · intro hword
    refine ⟨fun ⟨depth, got, h⟩ => notNext_joinsCondition hs (hshape h).not_continuesCondition_of_ifStmt,
      fun hfirst => ?_⟩
    obtain ⟨limit, h⟩ := (parses_ifStmt hword (hcondition hfirst) hbranch hrest).exists
    exact exists_depth approximates_statement h
  · intro hword
    refine ⟨fun ⟨depth, got, h⟩ => notNext_joinsCondition hs (hshape h).not_continuesCondition_of_whileStmt,
      fun hfirst => ?_⟩
    obtain ⟨limit, h⟩ := (parses_whileStmt hword (hcondition hfirst) hbranch).exists
    exact exists_depth approximates_statement h

end Grouping

/-- The name that is the condition in the examples. -/
def conditionName : Leaf :=
  textToken .identifier "a"

/-- The tokens of a word and of `(a)` behind it. -/
def inFront (word : Leaf) : List Leaf :=
  word :: (textToken .leftParen "(" :: [conditionName] ++ [textToken .rightParen ")"])

/-- The tokens of the statement `f(-b);`. -/
def callTokens : List Leaf :=
  [textToken .identifier "f", textToken .leftParen "(", textToken .minus "-", textToken .identifier "b",
    textToken .rightParen ")", textToken .semicolon ";"]

/-- The tree of these tokens. -/
def callStatement : Node :=
  .exprStmt (.call (.ident (.token (textToken .identifier "f"))) (.token (textToken .rightParen ")"))
    (.list [.unary (.token (textToken .minus "-")) (.ident (.token (textToken .identifier "b")))]))

/-- Behind `(a)`, the statement is left intact, as it begins with a name. -/
theorem groupedName_in_front_of_call :
    expression 9 [conditionName] = .ok (.ident (.token conditionName), []) ∧
      statement 9 callTokens = .ok (callStatement, []) ∧ NotNext joinsCondition callTokens ∧
      (∃ depth, ∃ got : ℕ → Option Leaf, ∀ limit,
        statement limit (inFront (textToken .ifWord "if") ++ callTokens ++ []) =
          if depth ≤ limit then .ok (.ifStmt (.grouping (.ident (.token conditionName))) callStatement .null, [])
          else .error (@.tooDeep (got limit))) ∧
      ∃ depth, ∃ got : ℕ → Option Leaf, ∀ limit,
        statement limit (inFront (textToken .whileWord "while") ++ callTokens ++ []) =
          if depth ≤ limit then .ok (.whileStmt (.grouping (.ident (.token conditionName))) callStatement, [])
          else .error (@.tooDeep (got limit)) := by
  have he : expression 9 [conditionName] = .ok (.ident (.token conditionName), []) := rfl
  have hs : statement 9 callTokens = .ok (callStatement, []) := rfl
  have hfirst : NotNext joinsCondition callTokens := notNext_cons.mpr rfl
  have hopening : (textToken .leftParen "(").kind = .leftParen := rfl
  have hclosing : (textToken .rightParen ")").kind = .rightParen := rfl
  refine ⟨he, hs, hfirst, ?_, ?_⟩
  · exact ((grouped_condition_iff he hs hopening hclosing (notNext_nil _)).1 rfl).mpr hfirst
  · exact ((grouped_condition_iff he hs hopening hclosing (notNext_nil _)).2 rfl).mpr hfirst

/-- The tokens of the statement `-b;`. -/
def negationTokens : List Leaf :=
  [textToken .minus "-", textToken .identifier "b", textToken .semicolon ";"]

/-- The tree of these tokens. -/
def negation : Node :=
  .exprStmt (.unary (.token (textToken .minus "-")) (.ident (.token (textToken .identifier "b"))))

/-- Behind `(a)`, the minus sign of this statement is taken for a binary operator, and what is left of the
statement is no branch. -/
theorem groupedName_in_front_of_negation :
    expression 9 [conditionName] = .ok (.ident (.token conditionName), []) ∧
      statement 9 negationTokens = .ok (negation, []) ∧ isDeclaration negation = false ∧
      (∀ limit, statement limit (inFront (textToken .ifWord "if") ++ negationTokens) ≠
        .ok (.ifStmt (.grouping (.ident (.token conditionName))) negation .null, [])) ∧
      parse (inFront (textToken .ifWord "if") ++ negationTokens) =
        .error ⟨.expectedExpression (some (textToken .semicolon ";")), .endMark (.int 2)⟩ := by
  refine ⟨rfl, rfl, rfl, fun limit h => ?_, rfl⟩
  obtain ⟨_, -, hread⟩ := (reads_declaration_statement limit).2 (fun _ _ => trivial) h
  exact hread.shape.not_continuesCondition_of_ifStmt ⟨.exact (textToken .minus "-"), rfl, .inr rfl⟩

end Scriptlet.Grammar
