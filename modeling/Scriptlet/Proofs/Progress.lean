import Scriptlet.Proofs.Parsing

/-!
# Every construct takes a token

The parsers of the grammar are written down once more in terms of optional parts and loops, which is the
form that the lemmas about repetition speak about.  From there it follows, by induction on the nesting
limit, that a parser which succeeds leaves an end piece of its tokens, and that expressions, statements
and declarations take at least one token.
-/

namespace Scriptlet.Grammar

variable {ts rest : List Leaf}

/-! ## Constructs as optional parts and loops -/

/-- One more operator of a level and its right operand, behind the operand `left`. -/
def Level.step (level : Level) (operand : Parse Node) (left : Node) : Parse (Option Node) :=
  stepBy level.operators.contains fun operator => level.build left (.token operator) <$> operand

/-- A chain of operands is one operand, and then a loop over operators. -/
lemma Level.chain_def (level : Level) (operand : Parse Node) :
    level.chain operand = operand >>= loop (level.step operand) := by
  unfold Level.chain
  refine bind_congr fun left => congrArg (fun step => loop step left) (funext fun left => ?_)
  unfold Level.step stepBy
  refine bind_congr fun o => ?_
  cases o with
  | none => rfl
  | some operator => simp only [map_eq_pure_bind, bind_assoc, pure_bind]

/-- Arguments are expressions with commas between them, unless there are none. -/
lemma arguments_def (expression : Parse Node) :
    arguments expression = (do
      let args ← unlessNext .rightParen [] (separated .comma expression)
      return (args, ← expect .rightParen)) := by
  simp only [arguments, unlessNext, bind_assoc]
  congr 1
  funext b
  cases b <;> rfl

/-- One more list of arguments, behind the callee `callee`. -/
def callStep (expression : Parse Node) (callee : Node) : Parse (Option Node) :=
  stepBy (· = .leftParen) fun _ =>
    (fun args => .call callee (.token args.2) (.list args.1)) <$> arguments expression

/-- A call is a primary, and then a loop over lists of arguments. -/
lemma call_def (expression : Parse Node) :
    call expression = primary expression >>= loop (callStep expression) := by
  unfold call
  refine bind_congr fun callee => congrArg (fun step => loop step callee) (funext fun callee => ?_)
  unfold callStep stepBy
  refine bind_congr fun o => ?_
  cases o with
  | none => rfl
  | some _ => simp only [map_eq_pure_bind, bind_assoc, pure_bind]

/-- Parameters are names with commas between them, unless there are none. -/
lemma parameters_def :
    parameters = (do
      let params ← unlessNext .rightParen [] (separated .comma (expect .identifier))
      let _ ← expect .rightParen
      return params) := by
  simp only [parameters, unlessNext, bind_assoc]
  congr 1
  funext b
  cases b <;> rfl

/-- The value of a `return` statement is there unless a semicolon comes at once. -/
lemma returnStatement_def (expression : Parse Node) (keyword : Leaf) :
    returnStatement expression keyword = (do
      let value ← unlessNext .semicolon .null expression
      let _ ← expect .semicolon
      return .returnStmt (.token keyword) value) := by
  simp only [returnStatement, unlessNext, bind_assoc]
  congr 1
  funext b
  cases b <;> rfl

/-- The condition and the increment of a `for` statement are there unless what ends them comes at once. -/
lemma forStatement_def (expression statement : Parse Node) :
    forStatement expression statement = (do
      let _ ← expect .leftParen
      let initializer? ← forInitializer expression
      let condition ← unlessNext .semicolon (.literal (.bool true)) expression
      let _ ← expect .semicolon
      let increment? ← unlessNext .rightParen none (some <$> expression)
      let _ ← expect .rightParen
      return forLoop initializer? condition increment? (← statement)) := by
  simp only [forStatement, unlessNext, bind_assoc]
  congr 1; funext _
  congr 1; funext _
  congr 1; funext b
  cases b
  all_goals
    simp only [Bool.false_eq_true, if_false, if_true]
    congr 1; funext _
    congr 1; funext _
    congr 1; funext b
    cases b <;> rfl

/-! ## Expressions -/

/-- A chain takes a token because its first operand does. -/
lemma Level.takes_chain (level : Level) {operand : Parse Node} (h : Takes operand) :
    Takes (level.chain operand) := by
  rw [level.chain_def]
  exact h.bind fun left => leaves_loop (fun _ => leaves_stepBy fun _ => h.leaves.map _) left

/-- The chains of all levels together take a token, because the tightest operand does. -/
lemma takes_binaries (levels : List Level) {operand : Parse Node} (h : Takes operand) :
    Takes (binaries levels operand) := by
  induction levels with
  | nil => exact h
  | cons level levels ih => exact level.takes_chain ih

/-- A number that is converted leaves all tokens, since its own has been taken before. -/
lemma leaves_numberOf (t : Leaf) : Leaves (numberOf t) := by
  unfold numberOf
  cases number? t.literal with
  | none => exact (fails_throw _).takes.leaves
  | some x => exact .pure _

/-- A token on its own, or in parentheses whatever an expression is. -/
lemma takes_primary {expression : Parse Node} (h : Leaves expression) :
    Takes (primary expression) := by
  intro ts e rest hp
  cases ts with
  | nil => simp [primary] at hp
  | cons t us =>
    suffices hsuffix : rest <:+ us from
      ⟨hsuffix.trans (List.suffix_cons t us), Nat.lt_succ_of_le hsuffix.length_le⟩
    unfold primary at hp
    dsimp only at hp
    split at hp
    case h_4 => exact leaves_numberOf t hp
    case h_7 => exact h.bind (fun e => (takes_expect .rightParen).leaves.bind fun _ => .pure _) hp
    case h_8 => cases hp
    all_goals
      obtain rfl := (Prod.mk.inj (Except.ok.inj hp)).2
      exact List.suffix_rfl

/-- Arguments take at least the closing parenthesis. -/
lemma takes_arguments {expression : Parse Node} (h : Takes expression) :
    Takes (arguments expression) := by
  rw [arguments_def]
  refine ((h.separated .comma).leaves.unlessNext _ _).bind_takes fun args => ?_
  exact (takes_expect .rightParen).bind fun _ => .pure _

/-- A call takes a token because its callee does. -/
lemma takes_call {expression : Parse Node} (h : Takes expression) : Takes (call expression) := by
  rw [call_def]
  refine (takes_primary h.leaves).bind fun callee => leaves_loop (fun _ => ?_) callee
  exact leaves_stepBy fun _ => (takes_arguments h).leaves.map _

/-- An expression takes a token, and so do unary operators with their operand. -/
theorem takes_expression_unary (limit : Nat) : Takes (expression limit) ∧ Takes (unary limit) := by
  induction limit with
  | zero => exact ⟨fails_beyondLimit.takes, fails_beyondLimit.takes⟩
  | succ limit ih =>
    obtain ⟨hexpression, hunary⟩ := ih
    constructor
    · unfold expression
      refine (takes_binaries levels hunary).bind fun target => (leaves_accept? _).bind fun o => ?_
      cases o with
      | none => exact .pure _
      | some equals =>
        refine hexpression.leaves.bind fun value => ?_
        unfold assignTo
        split
        · exact .pure _
        · exact (fails_throw _).takes.leaves
    · unfold unary
      refine (leaves_accept? _).bind_takes fun o => ?_
      cases o with
      | none => exact takes_call hexpression
      | some operator => exact hunary.bind fun _ => .pure _

/-- An expression takes a token. -/
lemma takes_expression (limit : Nat) : Takes (expression limit) :=
  (takes_expression_unary limit).1

/-- Unary operators with their operand take a token. -/
lemma takes_unary (limit : Nat) : Takes (unary limit) :=
  (takes_expression_unary limit).2

/-! ## Statements -/

section Statements

variable {expression statement declaration : Parse Node}

/-- A variable declaration takes at least its name. -/
lemma takes_varDeclaration (h : Leaves expression) : Takes (varDeclaration expression) := by
  unfold varDeclaration
  refine (takes_expect _).bind fun name => (leaves_accept? _).bind fun o => ?_
  cases o with
  | none => exact (Leaves.pure _).bind fun _ => (takes_expect _).leaves.bind fun _ => .pure _
  | some _ => exact h.bind fun _ => (takes_expect _).leaves.bind fun _ => .pure _

/-- A block leaves an end of the tokens. -/
lemma leaves_block (h : Leaves declaration) : Leaves (block declaration) :=
  (h.itemsUntil _).bind fun _ => (takes_expect _).leaves.bind fun _ => .pure _

/-- Parameters leave an end of the tokens. -/
lemma leaves_parameters : Leaves parameters := by
  rw [parameters_def]
  refine (((takes_expect _).separated _).leaves.unlessNext _ _).bind fun _ => ?_
  exact (takes_expect _).leaves.bind fun _ => .pure _

/-- A function declaration takes at least its name. -/
lemma takes_funDeclaration (h : Leaves declaration) : Takes (funDeclaration declaration) :=
  (takes_expect _).bind fun _ => (takes_expect _).leaves.bind fun _ => leaves_parameters.bind fun _ =>
    (takes_expect _).leaves.bind fun _ => (leaves_block h).bind fun _ => .pure _

/-- An expression statement takes at least its expression. -/
lemma takes_expressionStatement (h : Takes expression) : Takes (expressionStatement expression) :=
  h.bind fun _ => (takes_expect _).leaves.bind fun _ => .pure _

/-- A print statement takes at least its expression. -/
lemma takes_printStatement (h : Takes expression) : Takes (printStatement expression) :=
  h.bind fun _ => (takes_expect _).leaves.bind fun _ => .pure _

/-- An `if` statement takes at least its condition. -/
lemma takes_ifStatement (h : Takes expression) (hs : Leaves statement) :
    Takes (ifStatement expression statement) := by
  unfold ifStatement
  refine h.bind fun _ => hs.bind fun _ => (leaves_accept? _).bind fun o => ?_
  cases o with
  | none => exact .pure _
  | some _ => exact hs.bind fun _ => .pure _

/-- A `while` statement takes at least its condition. -/
lemma takes_whileStatement (h : Takes expression) (hs : Leaves statement) :
    Takes (whileStatement expression statement) :=
  h.bind fun _ => hs.bind fun _ => .pure _

/-- A `return` statement leaves an end of the tokens behind its word. -/
lemma leaves_returnStatement (h : Leaves expression) (keyword : Leaf) :
    Leaves (returnStatement expression keyword) := by
  rw [returnStatement_def]
  exact (h.unlessNext _ _).bind fun _ => (takes_expect _).leaves.bind fun _ => .pure _

/-- The initializer of a `for` statement leaves an end of the tokens, be it there or not. -/
lemma leaves_forInitializer (h : Takes expression) : Leaves (forInitializer expression) := by
  unfold forInitializer
  refine (leaves_accept? _).bind fun o => ?_
  cases o with
  | some _ => exact .pure _
  | none =>
    refine (leaves_accept? _).bind fun o => ?_
    cases o with
    | some _ => exact (takes_varDeclaration h.leaves).leaves.bind fun _ => .pure _
    | none => exact (takes_expressionStatement h).leaves.bind fun _ => .pure _

/-- A `for` statement takes at least its opening parenthesis. -/
lemma takes_forStatement (h : Takes expression) (hs : Leaves statement) :
    Takes (forStatement expression statement) := by
  rw [forStatement_def]
  refine (takes_expect _).bind fun _ => (leaves_forInitializer h).bind fun _ => ?_
  refine (h.leaves.unlessNext _ _).bind fun _ => (takes_expect _).leaves.bind fun _ => ?_
  refine ((h.leaves.map some).unlessNext _ _).bind fun _ => (takes_expect _).leaves.bind fun _ => ?_
  exact hs.bind fun _ => .pure _

end Statements

/-- What follows a first token is an end piece of all tokens, and a shorter one. -/
lemma Leaves.of_cons {α : Type} {p : Parse α} (hp : Leaves p) {t : Leaf} {us : List Leaf} {a : α}
    (h : p us = .ok (a, rest)) : rest <:+ t :: us ∧ rest.length < (t :: us).length :=
  ⟨(hp h).trans (List.suffix_cons t us), Nat.lt_succ_of_le (hp h).length_le⟩

/-- A declaration takes a token, and so does a statement. -/
theorem takes_declaration_statement (limit : Nat) :
    Takes (declaration limit) ∧ Takes (statement limit) := by
  induction limit with
  | zero => exact ⟨fails_beyondLimit.takes, fails_beyondLimit.takes⟩
  | succ limit ih =>
    obtain ⟨hdeclaration, hstatement⟩ := ih
    have hexpression := takes_expression limit
    constructor
    · intro ts s rest h
      cases ts with
      | nil => exact hstatement h
      | cons t us =>
        unfold declaration at h
        dsimp only at h
        split at h
        · exact (takes_varDeclaration hexpression.leaves).leaves.of_cons h
        · exact (takes_funDeclaration hdeclaration.leaves).leaves.of_cons h
        · exact hstatement h
    · intro ts s rest h
      cases ts with
      | nil => exact takes_expressionStatement hexpression h
      | cons t us =>
        unfold statement at h
        dsimp only at h
        split at h
        · exact (takes_ifStatement hexpression hstatement.leaves).leaves.of_cons h
        · exact (takes_printStatement hexpression).leaves.of_cons h
        · exact ((leaves_block hdeclaration.leaves).map _).of_cons h
        · exact (takes_whileStatement hexpression hstatement.leaves).leaves.of_cons h
        · exact (takes_forStatement hexpression hstatement.leaves).leaves.of_cons h
        · exact (leaves_returnStatement hexpression.leaves t).of_cons h
        · exact takes_expressionStatement hexpression h

/-- A declaration takes a token. -/
lemma takes_declaration (limit : Nat) : Takes (declaration limit) :=
  (takes_declaration_statement limit).1

end Scriptlet.Grammar
