import Scriptlet.Proofs.Correspondence
import Scriptlet.Proofs.Progress
import Scriptlet.Proofs.Shape

/-!
# Relations that the grammar respects

Parsers are compared construct by construct: with parsers of another nesting limit, with themselves on other
tokens, or with what is promised about them.  Such a comparison is a relation between parsers, which depends
on how their results are related.  All that it needs to hold of the whole grammar is that it respects the few
means that every construct is made of: results, failing at the first token, other errors, sequences, passing
over the first token, choosing by the first token, and loops.  If it does not matter what the other parser does
where the first one runs into the nesting limit, then the other one may have a larger limit.
-/

namespace Scriptlet.Grammar

variable {α β : Type}

/-- The errors that any tokens may cause. -/
def SyntaxError.IsPlain : SyntaxError → Prop
  | .badNumber _ | .noEnd => False
  | _ => True

/-- Constructs are nested too deeply, at whatever token. -/
def SyntaxError.IsTooDeep : SyntaxError → Prop
  | .tooDeep => True
  | _ => False

/-- What an error says was found where something else was needed: a token, or else the end of the program. -/
def SyntaxError.found? : SyntaxError → Option (Option Leaf)
  | .expected _ got | .expectedExpression got => some got
  | _ => none

/-! ## Tokens and errors that correspond -/

/-- Relations that tokens stand in only if a parser cannot tell them apart. -/
structure ParsesSame (T : Leaf → Leaf → Prop) : Prop where
  kind_eq {t u : Leaf} : T t u → t.kind = u.kind
  literal_eq {t u : Leaf} : T t u → t.literal = u.literal

/-- Tokens are related and fit the purpose that they serve. -/
def Fitting (T : Leaf → Leaf → Prop) (r : Role) (t u : Leaf) : Prop :=
  T t u ∧ r.Fits t.kind

/-- Trees that the parser may make of related tokens. -/
abbrev SameTree (T : Leaf → Leaf → Prop) : Node → Node → Prop :=
  Node.Corresponds (Fitting T) .stray

/-- Errors of one form that are reported at related tokens, or because of them. -/
inductive SyntaxError.Corresponds (T : Leaf → Leaf → Prop) : SyntaxError → SyntaxError → Prop
  | expected (wanted : Kind) {got got' : Option Leaf} :
      Option.Rel T got got' → Corresponds T (.expected wanted got) (.expected wanted got')
  | expectedExpression {got got' : Option Leaf} :
      Option.Rel T got got' → Corresponds T (.expectedExpression got) (.expectedExpression got')
  | invalidTarget {t u : Leaf} :
      T t u → t.kind = .equal → Corresponds T (.invalidTarget t) (.invalidTarget u)
  | tooDeep {got got' : Option Leaf} :
      Option.Rel T got got' → Corresponds T (@tooDeep got) (@tooDeep got')
  | badNumber {t u : Leaf} :
      T t u → t.kind = .number → number? t.literal = none →
      Corresponds T (.badNumber t.literal) (.badNumber t.literal)

section SameTree

variable {T : Leaf → Leaf → Prop}

/-- An operator between operands, for the purpose of its level. -/
lemma sameTree_build {level : Level} {left left' right right' : Node} {t u : Leaf} (h : level ∈ levels)
    (hleft : SameTree T left left') (ht : T t u) (hkind : t.kind ∈ level.operators)
    (hright : SameTree T right right') :
    SameTree T (level.build left (.token t) right) (level.build left' (.token u) right') := by
  rcases build_eq h with hb | hb
  · rw [hb]
    exact .logical hleft (.token ⟨ht, level, h, hb, hkind⟩) hright
  · rw [hb]
    exact .binary hleft (.token ⟨ht, level, h, hb, hkind⟩) hright

/-- Related parts make related `for` loops. -/
lemma sameTree_forLoop {initializer? initializer?' increment? increment?' : Option Node}
    {condition condition' body body' : Node} (hinitializer : Option.Rel (SameTree T) initializer? initializer?')
    (hcondition : SameTree T condition condition')
    (hincrement : Option.Rel (SameTree T) increment? increment?') (hbody : SameTree T body body') :
    SameTree T (forLoop initializer? condition increment? body)
      (forLoop initializer?' condition' increment?' body') := by
  have hturn : SameTree T (.list (body :: (increment?.map Node.exprStmt).toList))
      (.list (body' :: (increment?'.map Node.exprStmt).toList)) := by
    cases hincrement with
    | none => exact .cons hbody .nil
    | some he => exact .cons hbody (.cons (.exprStmt he) .nil)
  have hloop : SameTree T (.whileStmt condition (.block (.list (body :: (increment?.map Node.exprStmt).toList))))
      (.whileStmt condition' (.block (.list (body' :: (increment?'.map Node.exprStmt).toList)))) :=
    .whileStmt hcondition (.block hturn)
  cases hinitializer with
  | none => exact .block (.cons hloop .nil)
  | some hs => exact .block (.cons hs (.cons hloop .nil))

end SameTree

/-! ## Looking at the first token -/

/-- What a parser does behind the first token. -/
def behind (p : Parse α) : Parse α :=
  fun ts => p ts.tail

/-- The error where a token of one kind is needed, or an expression. -/
def SyntaxError.needs : Option Kind → Option Leaf → SyntaxError
  | some wanted => .expected wanted
  | none => .expectedExpression

/-- The error of a missing token or expression says what was found instead. -/
lemma SyntaxError.found?_needs (wanted? : Option Kind) (got : Option Leaf) :
    (needs wanted? got).found? = some got := by
  cases wanted? <;> rfl

/-- What is needed is missed alike where related tokens stand, or at the ends. -/
lemma SyntaxError.corresponds_needs {T : Leaf → Leaf → Prop} (wanted? : Option Kind) {got got' : Option Leaf}
    (h : Option.Rel T got got') : (needs wanted? got).Corresponds T (needs wanted? got') := by
  cases wanted? with
  | none => exact .expectedExpression h
  | some wanted => exact .expected wanted h

/-- Fails because the first token is not what is needed. -/
def fail (wanted? : Option Kind) : Parse α :=
  fun ts => .error (.needs wanted? ts.head?)

/-- A parser that is chosen by the first token, which it may still take. -/
def byFirst (atEnd : Parse α) (atToken : Leaf → Parse α) : Parse α := fun ts =>
  match ts with
  | [] => atEnd []
  | t :: _ => atToken t ts

/-- A token of one kind is taken by looking at the first token alone. -/
lemma expect_eq_byFirst (wanted : Kind) :
    expect wanted = byFirst (fail (some wanted)) fun t =>
      if t.kind = wanted then behind (pure t) else fail (some wanted) := by
  funext ts
  cases ts with
  | nil => rfl
  | cons t us => by_cases h : t.kind = wanted <;> simp [expect, byFirst, behind, fail, SyntaxError.needs, h]

/-- A token that may be missing is taken by looking at the first token alone. -/
lemma accept?_eq_byFirst (accepted : Kind → Bool) :
    accept? accepted = byFirst (pure none) fun t =>
      if accepted t.kind then behind (pure (some t)) else pure none := by
  funext ts
  cases ts with
  | nil => rfl
  | cons t us => cases h : accepted t.kind <;> simp [accept?, byFirst, behind, h]

/-- What comes next is the first token. -/
lemma isNext_eq_byFirst (kind : Kind) :
    isNext kind = byFirst (pure false) fun t => pure (decide (t.kind = kind)) := by
  funext ts
  cases ts <;> rfl

/-- Whether there is one more item depends on the first token alone. -/
lemma nextUntil_eq_byFirst (stop : Kind) (item : Parse α) :
    nextUntil stop item = byFirst (pure none) fun t =>
      if t.kind = stop then pure none else some <$> item := by
  funext ts
  cases ts with
  | nil => rfl
  | cons t us => by_cases h : t.kind = stop <;> simp [nextUntil, byFirst, h]

/-- A primary, by its first token. -/
def primaryAt (expression : Parse Node) (t : Leaf) : Parse Node :=
  match t.kind with
  | .falseWord => behind (pure (.literal (.bool false)))
  | .trueWord => behind (pure (.literal (.bool true)))
  | .nilWord => behind (pure (.literal .null))
  | .number => behind (numberOf t)
  | .string => behind (pure (textOf t))
  | .identifier => behind (pure (.ident (.token t)))
  | .leftParen => behind do
      let inner ← expression
      let _ ← expect .rightParen
      return .grouping inner
  | _ => fail none

/-- The first token tells which primary is there. -/
lemma primary_eq_byFirst (expression : Parse Node) :
    primary expression = byFirst (fail none) (primaryAt expression) := by
  funext ts
  cases ts with
  | nil => rfl
  | cons t us =>
    unfold primary byFirst primaryAt
    dsimp only
    generalize t.kind = kind
    cases kind <;> rfl

/-- A declaration, by its first token. -/
def declarationAt (expression declaration statement : Parse Node) (t : Leaf) : Parse Node :=
  match t.kind with
  | .varWord => behind (varDeclaration expression)
  | .funWord => behind (funDeclaration declaration)
  | _ => statement

/-- The first token tells which declaration is there. -/
lemma declaration_eq_byFirst (limit : ℕ) :
    declaration (limit + 1) = byFirst (statement limit)
      (declarationAt (expression limit) (declaration limit) (statement limit)) := by
  funext ts
  cases ts with
  | nil => rfl
  | cons t us =>
    conv_lhs => unfold declaration
    unfold byFirst declarationAt
    dsimp only
    generalize t.kind = kind
    cases kind <;> rfl

/-- A statement, by its first token. -/
def statementAt (expression declaration statement : Parse Node) (t : Leaf) : Parse Node :=
  match t.kind with
  | .ifWord => behind (ifStatement expression statement)
  | .printWord => behind (printStatement expression)
  | .leftBrace => behind ((Node.block ∘ Node.list) <$> block declaration)
  | .whileWord => behind (whileStatement expression statement)
  | .forWord => behind (forStatement expression statement)
  | .returnWord => behind (returnStatement expression t)
  | _ => expressionStatement expression

/-- The first token tells which statement is there. -/
lemma statement_eq_byFirst (limit : ℕ) :
    statement (limit + 1) = byFirst (expressionStatement (expression limit))
      (statementAt (expression limit) (declaration limit) (statement limit)) := by
  funext ts
  cases ts with
  | nil => rfl
  | cons t us =>
    conv_lhs => unfold statement
    unfold byFirst statementAt
    dsimp only
    generalize t.kind = kind
    cases kind <;> rfl

/-! ## Congruences -/

/-- A relation between parsers, for each relation between their results, that respects how the grammar puts
parsers together, on tokens that are related. -/
structure Congruence (T : Leaf → Leaf → Prop)
    (R : {α β : Type} → (α → β → Prop) → Parse α → Parse β → Prop) : Prop where
  tokens : ParsesSame T
  beyondLimit {α β : Type} {Q : α → β → Prop} : R Q beyondLimit beyondLimit
  pure {α β : Type} {Q : α → β → Prop} {a : α} {b : β} : Q a b → R Q (pure a) (pure b)
  fail {α β : Type} {Q : α → β → Prop} (wanted? : Option Kind) : R Q (fail wanted?) (fail wanted?)
  throw {α β : Type} {Q : α → β → Prop} {e e' : SyntaxError} :
    e.Corresponds T e' → e.found? = none → R Q (throw e) (throw e')
  bind {α α' β β' : Type} {P : α → α' → Prop} {Q : β → β' → Prop} {p : Parse α} {p' : Parse α'}
    {q : α → Parse β} {q' : α' → Parse β'} :
    R P p p' → (∀ {a b}, P a b → R Q (q a) (q' b)) → R Q (p >>= q) (p' >>= q')
  behind {α β : Type} {Q : α → β → Prop} {p : Parse α} {p' : Parse β} :
    R Q p p' → R Q (behind p) (behind p')
  byFirst {α β : Type} {Q : α → β → Prop} {p : Parse α} {p' : Parse β} {f : Leaf → Parse α}
    {f' : Leaf → Parse β} :
    R Q p p' → (∀ {t u}, T t u → R Q (f t) (f' u)) → R Q (byFirst p f) (byFirst p' f')
  loop {α β : Type} {Q : α → β → Prop} {step : α → Parse (Option α)} {step' : β → Parse (Option β)}
    {a : α} {b : β} :
    Consuming step → (∀ {a b}, Q a b → R (Option.Rel Q) (step a) (step' b)) → Q a b →
    R Q (loop step a) (loop step' b)

/-- The parser that runs into the nesting limit is related to every other one. -/
def AnyBeyondLimit (R : {α β : Type} → (α → β → Prop) → Parse α → Parse β → Prop) : Prop :=
  ∀ {α β : Type} {Q : α → β → Prop} (q : Parse β), R Q beyondLimit q

namespace Congruence

variable {α α' β β' : Type} {T : Leaf → Leaf → Prop}
  {R : {α β : Type} → (α → β → Prop) → Parse α → Parse β → Prop} (C : Congruence T R)
  {P : α → α' → Prop} {Q : β → β' → Prop}

include C

lemma map {p : Parse α} {p' : Parse α'} {f : α → β} {f' : α' → β'} (h : R P p p')
    (hf : ∀ {a a'}, P a a' → Q (f a) (f' a')) : R Q (f <$> p) (f' <$> p') := by
  rw [← bind_pure_comp, ← bind_pure_comp]
  exact C.bind h fun ha => C.pure (hf ha)

/-- A token of one kind is taken from both lists. -/
lemma expect (wanted : Kind) :
    R (fun t u => T t u ∧ t.kind = wanted) (expect wanted) (expect wanted) := by
  rw [expect_eq_byFirst]
  refine C.byFirst (C.fail _) fun {t u} ht => ?_
  rw [← C.tokens.kind_eq ht]
  split
  next hkind => exact C.behind (C.pure ⟨ht, hkind⟩)
  next => exact C.fail _

/-- An optional token is taken from both lists or from neither. -/
lemma accept? (accepted : Kind → Bool) :
    R (Option.Rel fun t u => T t u ∧ accepted t.kind = true) (accept? accepted) (accept? accepted) := by
  rw [accept?_eq_byFirst]
  refine C.byFirst (C.pure .none) fun {t u} ht => ?_
  rw [← C.tokens.kind_eq ht]
  split
  next hkind => exact C.behind (C.pure (.some ⟨ht, hkind⟩))
  next => exact C.pure .none

/-- Both lists go on with a token of the kind, or neither does. -/
lemma isNext (kind : Kind) : R Eq (isNext kind) (isNext kind) := by
  rw [isNext_eq_byFirst]
  refine C.byFirst (C.pure rfl) fun {t u} ht => ?_
  rw [← C.tokens.kind_eq ht]
  exact C.pure rfl

/-- Related parsers stay related where a token may stand for their absence. -/
lemma unlessNext {p : Parse α} {p' : Parse α'} {default : α} {default' : α'} (h : R P p p') (kind : Kind)
    (hdefault : P default default') : R P (unlessNext kind default p) (unlessNext kind default' p') := by
  refine C.bind (C.isNext kind) fun {b b'} hb => ?_
  obtain rfl : b = b' := hb
  cases b with
  | true => exact C.pure hdefault
  | false => exact h

/-- One turn of a loop, which begins with a token, is related if what follows that token is. -/
lemma stepBy {accepted : Kind → Bool} {f : Leaf → Parse α} {f' : Leaf → Parse α'}
    (h : ∀ {t u}, T t u → accepted t.kind = true → R P (f t) (f' u)) :
    R (Option.Rel P) (stepBy accepted f) (stepBy accepted f') := by
  refine C.bind (C.accept? accepted) fun ho => ?_
  cases ho with
  | none => exact C.pure .none
  | some ht => exact C.map (h ht.1 ht.2) .some

/-- One more item is put in front of related ones. -/
lemma collect {one : Parse (Option α)} {one' : Parse (Option α')} {items : List α} {items' : List α'}
    (h : R (Option.Rel P) one one') (hitems : List.Forall₂ P items items') :
    R (Option.Rel (List.Forall₂ P)) (collect one items) (collect one' items') := by
  refine C.map h fun ho => ?_
  cases ho with
  | none => exact .none
  | some ha => exact .some (.cons ha hitems)

/-- Items with separators between them are related one by one. -/
lemma separated {item : Parse α} {item' : Parse α'} (hleaves : Leaves item) (h : R P item item')
    (separator : Kind) :
    R (List.Forall₂ P) (separated separator item) (separated separator item') := by
  have hnext : R (Option.Rel P) (nextSeparated separator item) (nextSeparated separator item') :=
    C.stepBy fun _ _ => h
  have hloop : ∀ {first first'}, P first first' → R (List.Forall₂ P)
      (Grammar.loop (Grammar.collect (nextSeparated separator item)) [first])
      (Grammar.loop (Grammar.collect (nextSeparated separator item')) [first']) := fun hfirst =>
    C.loop (consuming_nextSeparated separator hleaves) (fun hitems => C.collect hnext hitems) (.cons hfirst .nil)
  rw [separated_def, separated_def]
  exact C.bind h fun hfirst => C.map (hloop hfirst) fun hitems => List.rel_reverse hitems

/-- Items up to a closing token are related one by one. -/
lemma itemsUntil {item : Parse α} {item' : Parse α'} (htakes : Takes item) (h : R P item item')
    (stop : Kind) : R (List.Forall₂ P) (itemsUntil stop item) (itemsUntil stop item') := by
  have hnext : R (Option.Rel P) (nextUntil stop item) (nextUntil stop item') := by
    rw [nextUntil_eq_byFirst, nextUntil_eq_byFirst]
    refine C.byFirst (C.pure .none) fun {t u} ht => ?_
    rw [← C.tokens.kind_eq ht]
    split
    · exact C.pure .none
    · exact C.map h .some
  have hloop : R (List.Forall₂ P) (Grammar.loop (Grammar.collect (nextUntil stop item)) [])
      (Grammar.loop (Grammar.collect (nextUntil stop item')) []) :=
    C.loop (consuming_nextUntil stop htakes) (fun hitems => C.collect hnext hitems) .nil
  rw [itemsUntil_def, itemsUntil_def]
  exact C.map hloop fun hitems => List.rel_reverse hitems

/-! ## Expressions -/

/-- Number tokens denote the same number or none, as their literals are the same. -/
lemma numberOf {t u : Leaf} (ht : T t u) (hkind : t.kind = .number) :
    R (SameTree T) (numberOf t) (numberOf u) := by
  unfold Grammar.numberOf
  rw [← C.tokens.literal_eq ht]
  cases hnumber : number? t.literal with
  | some x => exact C.pure (.literal _)
  | none => exact C.throw (.badNumber ht hkind hnumber) rfl

/-- What can be assigned to on one side can be assigned to on the other. -/
lemma assignTo {target target' value value' : Node} {t u : Leaf} (htarget : SameTree T target target')
    (ht : T t u) (hkind : t.kind = .equal) (hvalue : SameTree T value value') :
    R (SameTree T) (assignTo target t value) (assignTo target' u value') := by
  cases htarget with
  | ident hname => exact C.pure (.assign hname hvalue)
  | _ => exact C.throw (.invalidTarget ht hkind) rfl

section Expressions

variable {e e' : Parse Node} (htakes : Takes e) (he : R (SameTree T) e e')

include htakes he

/-- All levels of binary operators are related if the operands of the tightest are. -/
lemma binaries {ls : List Level} (hls : ∀ level ∈ ls, level ∈ levels) :
    R (SameTree T) (binaries ls e) (binaries ls e') := by
  induction ls with
  | nil => exact he
  | cons level ls ih =>
    obtain ⟨hlevel, hls⟩ := List.forall_mem_cons.mp hls
    have hoperand := ih hls
    have hleaves : Leaves (Grammar.binaries ls e) := (takes_binaries ls htakes).leaves
    have hstep : ∀ {left left'}, SameTree T left left' →
        R (Option.Rel (SameTree T)) (level.step (Grammar.binaries ls e) left)
          (level.step (Grammar.binaries ls e') left') := by
      intro left left' hleft
      refine C.stepBy fun ht hkind => C.map hoperand fun hright => ?_
      exact sameTree_build hlevel hleft ht (List.contains_iff_mem.mp hkind) hright
    change R (SameTree T) (level.chain (Grammar.binaries ls e)) (level.chain (Grammar.binaries ls e'))
    rw [level.chain_def, level.chain_def]
    refine C.bind hoperand fun hleft => C.loop ?_ hstep hleft
    exact consuming_stepBy fun _ _ => hleaves.map _

omit htakes in
/-- Primaries are related if the expressions in them are. -/
lemma primary : R (SameTree T) (primary e) (primary e') := by
  rw [primary_eq_byFirst, primary_eq_byFirst]
  refine C.byFirst (C.fail _) fun {t u} ht => ?_
  have hgroup : R (SameTree T) (do let inner ← e; let _ ← Grammar.expect .rightParen; return .grouping inner)
      (do let inner ← e'; let _ ← Grammar.expect .rightParen; return .grouping inner) :=
    C.bind he fun hinner => C.bind (C.expect .rightParen) fun _ => C.pure (.grouping hinner)
  have hkind := C.tokens.kind_eq ht
  have htext : SameTree T (textOf t) (textOf u) := by
    unfold textOf
    rw [C.tokens.literal_eq ht]
    exact .literal _
  unfold primaryAt
  rw [← hkind]
  split
  case h_4 h => exact C.behind (C.numberOf ht h)
  case h_5 => exact C.behind (C.pure htext)
  case h_6 h => exact C.behind (C.pure (.ident (.token ⟨ht, h⟩)))
  case h_7 => exact C.behind hgroup
  case h_8 => exact C.fail _
  all_goals exact C.behind (C.pure (.literal _))

/-- Arguments are related one by one, and so is the parenthesis that closes them. -/
lemma arguments :
    R (fun a a' => List.Forall₂ (SameTree T) a.1 a'.1 ∧ T a.2 a'.2 ∧ a.2.kind = .rightParen)
      (arguments e) (arguments e') := by
  rw [arguments_def, arguments_def]
  refine C.bind (C.unlessNext (C.separated htakes.leaves he .comma) .rightParen .nil) fun hargs => ?_
  exact C.bind (C.expect .rightParen) fun hclose => C.pure ⟨hargs, hclose⟩

/-- Calls are related, however many lists of arguments follow one another. -/
lemma call : R (SameTree T) (call e) (call e') := by
  have hstep : ∀ {callee callee'}, SameTree T callee callee' →
      R (Option.Rel (SameTree T)) (callStep e callee) (callStep e' callee') := by
    intro callee callee' hcallee
    refine C.stepBy fun _ _ => C.map (C.arguments htakes he) ?_
    rintro ⟨args, paren⟩ ⟨args', paren'⟩ ⟨hargs, hparen⟩
    exact .call hcallee (.token hparen) (Node.corresponds_list.mpr hargs)
  rw [call_def, call_def]
  refine C.bind (C.primary he) fun hcallee => C.loop ?_ hstep hcallee
  exact consuming_stepBy fun _ _ => (takes_arguments htakes).leaves.map _

end Expressions

/-- Expressions and unary operators with their operands are related to those with the same nesting limit, or
with a larger one. -/
theorem expression_unary {n m : ℕ} (h : n ≤ m) (hlarger : n ≠ m → AnyBeyondLimit R) :
    R (SameTree T) (expression n) (expression m) ∧ R (SameTree T) (unary n) (unary m) := by
  induction n generalizing m with
  | zero =>
    cases m with
    | zero => exact ⟨C.beyondLimit, C.beyondLimit⟩
    | succ m => exact ⟨hlarger m.succ_ne_zero.symm _, hlarger m.succ_ne_zero.symm _⟩
  | succ n ih =>
    obtain ⟨m, rfl⟩ : ∃ k, m = k + 1 := ⟨m - 1, by omega⟩
    obtain ⟨hexpression, hunary⟩ := ih (Nat.le_of_succ_le_succ h) fun hne => hlarger (by omega)
    constructor
    · unfold expression
      refine C.bind (C.binaries (takes_unary n) hunary fun _ hl => hl) fun htarget => ?_
      refine C.bind (C.accept? _) fun ho => ?_
      cases ho with
      | none => exact C.pure htarget
      | some ht =>
        exact C.bind hexpression fun hvalue => C.assignTo htarget ht.1 (by simpa using ht.2) hvalue
    · unfold unary
      refine C.bind (C.accept? _) fun ho => ?_
      cases ho with
      | none => exact C.call (takes_expression n) hexpression
      | some ht => exact C.bind hunary fun he => C.pure (.unary (.token ht) he)

/-! ## Statements -/

section Statements

variable {e e' d d' s s' : Parse Node}

/-- A variable declaration is related if its initializer is. -/
lemma varDeclaration (he : R (SameTree T) e e') :
    R (SameTree T) (varDeclaration e) (varDeclaration e') := by
  unfold Grammar.varDeclaration
  refine C.bind (C.expect .identifier) fun hname => C.bind (C.accept? _) fun ho => ?_
  have hclose : ∀ {value value'}, SameTree T value value' → ∀ {t u : Leaf}, T t u ∧ t.kind = .identifier →
      R (SameTree T) (do let _ ← Grammar.expect .semicolon; return .varDecl (.token t) value)
        (do let _ ← Grammar.expect .semicolon; return .varDecl (.token u) value') :=
    fun hvalue _ _ hname => C.bind (C.expect .semicolon) fun _ => C.pure (.varDecl (.token hname) hvalue)
  cases ho with
  | none => exact C.bind (C.pure Node.Corresponds.null) fun hvalue => hclose hvalue hname
  | some _ => exact C.bind he fun hvalue => hclose hvalue hname

/-- A block is related if its declarations are. -/
lemma block (htakes : Takes d) (hd : R (SameTree T) d d') :
    R (List.Forall₂ (SameTree T)) (block d) (block d') :=
  C.bind (C.itemsUntil htakes hd .rightBrace) fun hbody => C.bind (C.expect .rightBrace) fun _ => C.pure hbody

/-- Parameters are related names. -/
lemma parameters :
    R (List.Forall₂ fun t u => T t u ∧ t.kind = .identifier) parameters parameters := by
  rw [parameters_def]
  have hnames := C.separated (takes_expect .identifier).leaves (C.expect .identifier) .comma
  refine C.bind (C.unlessNext hnames .rightParen .nil) fun hparams => ?_
  exact C.bind (C.expect .rightParen) fun _ => C.pure hparams

/-- A function declaration is related if the declarations of its body are. -/
lemma funDeclaration (htakes : Takes d) (hd : R (SameTree T) d d') :
    R (SameTree T) (funDeclaration d) (funDeclaration d') :=
  C.bind (C.expect .identifier) fun hname => C.bind (C.expect .leftParen) fun _ =>
    C.bind C.parameters fun hparams => C.bind (C.expect .leftBrace) fun _ =>
      C.bind (C.block htakes hd) fun hbody => C.pure
        (.funDecl (.token hname) (Node.corresponds_params hparams) (Node.corresponds_list.mpr hbody))

/-- An expression statement is related if its expression is. -/
lemma expressionStatement (he : R (SameTree T) e e') :
    R (SameTree T) (expressionStatement e) (expressionStatement e') :=
  C.bind he fun he => C.bind (C.expect .semicolon) fun _ => C.pure (.exprStmt he)

/-- A print statement is related if its expression is. -/
lemma printStatement (he : R (SameTree T) e e') :
    R (SameTree T) (printStatement e) (printStatement e') :=
  C.bind he fun he => C.bind (C.expect .semicolon) fun _ => C.pure (.printStmt he)

/-- An `if` statement is related if its condition and its branches are. -/
lemma ifStatement (he : R (SameTree T) e e') (hs : R (SameTree T) s s') :
    R (SameTree T) (ifStatement e s) (ifStatement e' s') := by
  unfold Grammar.ifStatement
  refine C.bind he fun hcondition => C.bind hs fun hthen => C.bind (C.accept? _) fun ho => ?_
  cases ho with
  | none => exact C.pure (.ifStmt hcondition hthen .null)
  | some _ => exact C.bind hs fun helse => C.pure (.ifStmt hcondition hthen helse)

/-- A `while` statement is related if its condition and its body are. -/
lemma whileStatement (he : R (SameTree T) e e') (hs : R (SameTree T) s s') :
    R (SameTree T) (whileStatement e s) (whileStatement e' s') :=
  C.bind he fun hcondition => C.bind hs fun hbody => C.pure (.whileStmt hcondition hbody)

/-- A `return` statement is related if its word and its value are. -/
lemma returnStatement (he : R (SameTree T) e e') {t u : Leaf} (ht : T t u) (hkind : t.kind = .returnWord) :
    R (SameTree T) (returnStatement e t) (returnStatement e' u) := by
  rw [returnStatement_def, returnStatement_def]
  refine C.bind (C.unlessNext he .semicolon .null) fun hvalue => ?_
  exact C.bind (C.expect .semicolon) fun _ => C.pure (.returnStmt (.token ⟨ht, hkind⟩) hvalue)

/-- The initializers of `for` statements are related, or both are missing. -/
lemma forInitializer (he : R (SameTree T) e e') :
    R (Option.Rel (SameTree T)) (forInitializer e) (forInitializer e') := by
  unfold Grammar.forInitializer
  refine C.bind (C.accept? _) fun ho => ?_
  cases ho with
  | some _ => exact C.pure .none
  | none =>
    refine C.bind (C.accept? _) fun ho => ?_
    cases ho with
    | some _ => exact C.bind (C.varDeclaration he) fun hdeclaration => C.pure (.some hdeclaration)
    | none => exact C.bind (C.expressionStatement he) fun hs => C.pure (.some hs)

/-- A `for` statement is related if its expressions and its body are. -/
lemma forStatement (he : R (SameTree T) e e') (hs : R (SameTree T) s s') :
    R (SameTree T) (forStatement e s) (forStatement e' s') := by
  rw [forStatement_def, forStatement_def]
  refine C.bind (C.expect .leftParen) fun _ => C.bind (C.forInitializer he) fun hinitializer => ?_
  refine C.bind (C.unlessNext he .semicolon (.literal _)) fun hcondition => ?_
  refine C.bind (C.expect .semicolon) fun _ => ?_
  refine C.bind (C.unlessNext (C.map he Option.Rel.some) .rightParen .none) fun hincrement => ?_
  refine C.bind (C.expect .rightParen) fun _ => C.bind hs fun hbody => ?_
  exact C.pure (sameTree_forLoop hinitializer hcondition hincrement hbody)

end Statements

/-- Declarations and statements are related to those with the same nesting limit, or with a larger one. -/
theorem declaration_statement {n m : ℕ} (h : n ≤ m) (hlarger : n ≠ m → AnyBeyondLimit R) :
    R (SameTree T) (declaration n) (declaration m) ∧ R (SameTree T) (statement n) (statement m) := by
  induction n generalizing m with
  | zero =>
    cases m with
    | zero => exact ⟨C.beyondLimit, C.beyondLimit⟩
    | succ m => exact ⟨hlarger m.succ_ne_zero.symm _, hlarger m.succ_ne_zero.symm _⟩
  | succ n ih =>
    obtain ⟨m, rfl⟩ : ∃ k, m = k + 1 := ⟨m - 1, by omega⟩
    have hle := Nat.le_of_succ_le_succ h
    have hlarger' : n ≠ m → AnyBeyondLimit R := fun hne => hlarger (by omega)
    obtain ⟨hdeclaration, hstatement⟩ := ih hle hlarger'
    have hexpression := (C.expression_unary hle hlarger').1
    have htakes := takes_declaration n
    constructor
    · rw [declaration_eq_byFirst, declaration_eq_byFirst]
      refine C.byFirst hstatement fun {t u} ht => ?_
      unfold declarationAt
      rw [← C.tokens.kind_eq ht]
      split
      · exact C.behind (C.varDeclaration hexpression)
      · exact C.behind (C.funDeclaration htakes hdeclaration)
      · exact hstatement
    · rw [statement_eq_byFirst, statement_eq_byFirst]
      refine C.byFirst (C.expressionStatement hexpression) fun {t u} ht => ?_
      unfold statementAt
      rw [← C.tokens.kind_eq ht]
      split
      · exact C.behind (C.ifStatement hexpression hstatement)
      · exact C.behind (C.printStatement hexpression)
      · exact C.behind (C.map (C.block htakes hdeclaration) fun hbody =>
          .block (Node.corresponds_list.mpr hbody))
      · exact C.behind (C.whileStatement hexpression hstatement)
      · exact C.behind (C.forStatement hexpression hstatement)
      next hkind => exact C.behind (C.returnStatement hexpression ht hkind)
      · exact C.expressionStatement hexpression

/-- The statements of a program are related to those with the same nesting limit, or with a larger one. -/
theorem program {n m : ℕ} (h : n ≤ m) (hlarger : n ≠ m → AnyBeyondLimit R) :
    R (List.Forall₂ (SameTree T)) (program n) (program m) :=
  C.itemsUntil (takes_declaration n) (C.declaration_statement h hlarger).1 .eof

end Congruence

end Scriptlet.Grammar
