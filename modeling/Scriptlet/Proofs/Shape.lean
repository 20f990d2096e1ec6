import Mathlib
import Scriptlet.Grammar.Program

/-!
# The shape of programs

A tree is *written* by a list of tokens when the tokens are the tree's own ones, from left to right,
with keywords, parentheses and punctuation where the grammar has them.  What a tree asks of the tokens
is its flattening, a list of terminals; a terminal is a token of the tree itself, any token of one kind,
or any token that denotes the value of a literal.

Not every tree can be the result of parsing.  `IsExpression` and `IsStatement` describe those that can,
without mentioning the parser: operands bind tightly enough for the place where they stand, and whatever
could swallow a following token is not followed by it.  Both predicates are relative to the tokens that
the tree may hold.
-/

namespace Scriptlet

/-- The value of the literal that a token denotes. -/
def Leaf.denoted? (t : Leaf) : Option Node :=
  match t.kind with
  | .falseWord => some (.bool false)
  | .trueWord => some (.bool true)
  | .nilWord => some .null
  | .number => (Grammar.number? t.literal).map .float
  | .string => some (.ofData t.literal)
  | _ => none

/-- What a tree asks of one token. -/
inductive Terminal where
  /-- The token is this one. -/
  | exact (t : Leaf)
  /-- The token is of this kind. -/
  | mark (kind : Kind)
  /-- The token denotes this value. -/
  | value (v : Node)

namespace Terminal

/-- Whether a token is as asked. -/
def Matches : Terminal → Leaf → Prop
  | exact t, u => u = t
  | mark kind, u => u.kind = kind
  | value v, u => u.denoted? = some v

/-- A terminal that asks for one token is matched by no other. -/
@[simp] lemma matches_exact {t u : Leaf} : (exact t).Matches u ↔ u = t := Iff.rfl

/-- A terminal that asks for a kind is matched by each token of it. -/
@[simp] lemma matches_mark {kind : Kind} {u : Leaf} : (mark kind).Matches u ↔ u.kind = kind := Iff.rfl

/-- A terminal that asks for a value is matched by each token that denotes it. -/
@[simp] lemma matches_value {v : Node} {u : Leaf} : (value v).Matches u ↔ u.denoted? = some v :=
  Iff.rfl

/-- The kind of the token, where the terminal determines it. -/
def kind? : Terminal → Option Kind
  | exact t => some t.kind
  | mark kind => some kind
  | value _ => none

end Terminal

/-- The tokens are, one by one, as the terminals ask. -/
def Writes (terminals : List Terminal) (ts : List Leaf) : Prop :=
  List.Forall₂ Terminal.Matches terminals ts

@[simp] lemma writes_nil {ts : List Leaf} : Writes [] ts ↔ ts = [] :=
  List.forall₂_nil_left_iff

/-- The first terminal is written by the first token. -/
lemma writes_cons {x : Terminal} {xs : List Terminal} {ts : List Leaf} :
    Writes (x :: xs) ts ↔ ∃ t us, x.Matches t ∧ Writes xs us ∧ ts = t :: us :=
  List.forall₂_cons_left_iff

/-- One terminal is written by one token. -/
@[simp] lemma writes_singleton {x : Terminal} {ts : List Leaf} :
    Writes [x] ts ↔ ∃ t, x.Matches t ∧ ts = [t] := by
  simp [writes_cons]

/-- Tokens are written by nothing but themselves. -/
lemma writes_exact {ts us : List Leaf} : Writes (ts.map .exact) us ↔ us = ts := by
  induction ts generalizing us with
  | nil => exact writes_nil
  | cons t ts ih => simp [writes_cons, ih]

/-- Two runs of terminals are written one behind the other. -/
lemma writes_append {xs ys : List Terminal} {ts : List Leaf} :
    Writes (xs ++ ys) ts ↔ ∃ us vs, ts = us ++ vs ∧ Writes xs us ∧ Writes ys vs := by
  induction xs generalizing ts with
  | nil => simp
  | cons x xs ih =>
    rw [List.cons_append, writes_cons]
    constructor
    · rintro ⟨t, us, hx, hrest, rfl⟩
      obtain ⟨us, vs, rfl, hxs, hys⟩ := ih.mp hrest
      exact ⟨t :: us, vs, rfl, writes_cons.mpr ⟨t, us, hx, hxs, rfl⟩, hys⟩
    · rintro ⟨us, vs, rfl, hfront, hys⟩
      obtain ⟨t, us, hx, hxs, rfl⟩ := writes_cons.mp hfront
      exact ⟨t, us ++ vs, hx, ih.mpr ⟨us, vs, rfl, hxs, hys⟩, rfl⟩

/-- A token goes in front of tokens. -/
lemma Writes.cons {x : Terminal} {xs : List Terminal} {t : Leaf} {ts : List Leaf}
    (hx : x.Matches t) (h : Writes xs ts) : Writes (x :: xs) (t :: ts) :=
  List.Forall₂.cons hx h

/-- Tokens are put behind tokens. -/
lemma Writes.append {xs ys : List Terminal} {us vs : List Leaf} (hxs : Writes xs us)
    (hys : Writes ys vs) : Writes (xs ++ ys) (us ++ vs) :=
  writes_append.mpr ⟨us, vs, rfl, hxs, hys⟩

/-- The first token is as the first terminal asks. -/
lemma Writes.head {x : Terminal} {xs : List Terminal} {ts : List Leaf} (h : Writes xs ts)
    (hx : x ∈ xs.head?) : ∃ t ∈ ts.head?, x.Matches t := by
  cases h with
  | nil => simp at hx
  | cons hmatch _ =>
    obtain rfl : _ = x := by simpa using hx
    exact ⟨_, rfl, hmatch⟩

/-- A terminal that has a kind is matched by tokens of this kind only. -/
lemma Terminal.Matches.kind_eq {x : Terminal} {t : Leaf} {kind : Kind} (h : x.Matches t)
    (hx : x.kind? = some kind) : t.kind = kind := by
  cases x with
  | exact u =>
    obtain rfl : t = u := h
    exact Option.some.inj hx
  | mark k =>
    obtain rfl : k = kind := Option.some.inj hx
    exact h
  | value v => cases hx

/-- The pieces with a comma between any two. -/
def commas (pieces : List (List Terminal)) : List Terminal :=
  [Terminal.mark .comma].intercalate pieces

@[simp] lemma commas_nil : commas [] = [] := rfl

/-- Behind the first piece every piece has its comma in front. -/
lemma commas_cons (piece : List Terminal) (pieces : List (List Terminal)) :
    commas (piece :: pieces) = piece ++ pieces.flatMap (Terminal.mark .comma :: ·) := by
  induction pieces generalizing piece with
  | nil => simp [commas, List.intercalate]
  | cons next pieces ih =>
    have h : commas (piece :: next :: pieces) = piece ++ .mark .comma :: commas (next :: pieces) := by
      simp [commas, List.intercalate]
    rw [h, ih]
    simp

namespace Node

mutual

/-- What a tree asks of the tokens that it is written by. -/
def flatten : Node → List Terminal
  | token t => [.exact t]
  | literal v => [.value v]
  | grouping e => .mark .leftParen :: flatten e ++ [.mark .rightParen]
  | unary operator e => flatten operator ++ flatten e
  | binary left operator right => flatten left ++ flatten operator ++ flatten right
  | logical left operator right => flatten left ++ flatten operator ++ flatten right
  | ident name => flatten name
  | assign name value => flatten name ++ .mark .equal :: flatten value
  | call callee paren arguments =>
    flatten callee ++ .mark .leftParen :: commas (flattenParts arguments) ++ flatten paren
  | exprStmt e => flatten e ++ [.mark .semicolon]
  | printStmt e => .mark .printWord :: flatten e ++ [.mark .semicolon]
  | varDecl name initializer =>
    match initializer with
    | null => .mark .varWord :: flatten name ++ [.mark .semicolon]
    | e => .mark .varWord :: flatten name ++ .mark .equal :: flatten e ++ [.mark .semicolon]
  | block statements =>
    .mark .leftBrace :: (flattenParts statements).flatten ++ [.mark .rightBrace]
  | ifStmt condition thenBranch elseBranch =>
    match elseBranch with
    | null => .mark .ifWord :: flatten condition ++ flatten thenBranch
    | e => .mark .ifWord :: flatten condition ++ flatten thenBranch ++ .mark .elseWord :: flatten e
  | whileStmt condition body => .mark .whileWord :: flatten condition ++ flatten body
  | funDecl name params body =>
    .mark .funWord :: flatten name ++ .mark .leftParen :: commas (flattenParts params)
      ++ .mark .rightParen :: .mark .leftBrace :: (flattenParts body).flatten ++ [.mark .rightBrace]
  | returnStmt keyword value => flatten keyword ++ flatten value ++ [.mark .semicolon]
  | _ => []

/-- What each of some trees asks of the tokens. -/
def flattenAll : List Node → List (List Terminal)
  | [] => []
  | node :: rest => flatten node :: flattenAll rest

/-- What each part of a tree that stands for a list asks of the tokens. -/
def flattenParts : Node → List (List Terminal)
  | list items => flattenAll items
  | _ => []

end

/-- What the statements of a program ask of its tokens. -/
def flattenProgram (statements : List Node) : List Terminal :=
  statements.flatMap flatten

/-- The parts of a list are its items. -/
@[simp] lemma flattenParts_list (items : List Node) :
    flattenParts (.list items) = items.map flatten := by
  unfold flattenParts
  induction items with
  | nil => rfl
  | cons node rest ih => simp [flattenAll, ih]

/-- A declaration with an initializer writes it behind an equals sign. -/
lemma flatten_varInit {name e : Node} (he : e ≠ null) :
    (varDecl name e).flatten =
      .mark .varWord :: name.flatten ++ .mark .equal :: e.flatten ++ [.mark .semicolon] := by
  cases e <;> first | rfl | exact absurd rfl he

/-- A conditional with an else branch writes it behind the word `else`. -/
lemma flatten_ifElse {condition thenBranch elseBranch : Node} (he : elseBranch ≠ null) :
    (ifStmt condition thenBranch elseBranch).flatten =
      .mark .ifWord :: condition.flatten ++ thenBranch.flatten
        ++ .mark .elseWord :: elseBranch.flatten := by
  cases elseBranch <;> first | rfl | exact absurd rfl he

end Node

namespace Grammar

/-- The tokens that make up a program: those before the first end mark, without the comments. -/
def programTokens (tokens : List Leaf) : List Leaf :=
  (tokens.filter (·.kind ≠ .comment)).takeWhile (·.kind ≠ .eof)

/-- A program's tokens are tokens of the source, and none of them ends it. -/
lemma kind_of_mem_programTokens {tokens : List Leaf} {t : Leaf} (h : t ∈ programTokens tokens) :
    t ∈ tokens ∧ t.kind ≠ .eof := by
  have hmem := (List.takeWhile_sublist _).mem h
  exact ⟨(List.mem_filter.mp hmem).1, by simpa using List.mem_takeWhile_imp h⟩

/-- Without an end mark, all tokens belong to the program. -/
lemma programTokens_eq_filter {tokens : List Leaf} (h : ∀ t ∈ tokens, t.kind ≠ .eof) :
    programTokens tokens = tokens.filter (·.kind ≠ .comment) := by
  refine List.takeWhile_eq_self_iff.mpr fun t ht => ?_
  exact decide_eq_true (h t (List.mem_of_mem_filter ht))

/-- Tokens in front of which there is no end mark belong to the program. -/
lemma programTokens_append {front rest : List Leaf} (h : ∀ t ∈ front, t.kind ≠ .eof) :
    programTokens (front ++ rest) = front.filter (·.kind ≠ .comment) ++ programTokens rest := by
  unfold programTokens
  rw [List.filter_append, List.takeWhile_append_of_pos]
  intro t ht
  exact decide_eq_true (h t (List.mem_of_mem_filter ht))

/-! ## The ladder -/

/-- The place of an operator's level among the levels, counted from one. -/
def rank (kind : Kind) : Nat :=
  levels.findIdx (·.operators.contains kind) + 1

/-- How tightly the outermost construct of an expression binds: assignment least, then the operators by
their levels, then unary operators, calls and primaries. -/
def tightness : Node → Nat
  | .assign _ _ => 0
  | .logical _ (.token operator) _ | .binary _ (.token operator) _ => rank operator.kind
  | .unary _ _ => levels.length + 1
  | .call _ _ _ => levels.length + 2
  | _ => levels.length + 3

/-- Levels that follow one another up to the tightest, the first of them of rank `r`. -/
def Ladder : Nat → List Level → Prop
  | r, [] => r = levels.length + 1
  | r, level :: rest =>
    level ∈ levels ∧ (∀ kind ∈ level.operators, rank kind = r) ∧ Ladder (r + 1) rest

/-- The levels of binary operators are a ladder. -/
lemma ladder_levels : Ladder 1 levels := by
  simp [Ladder, levels, rank, List.findIdx_cons]

/-- There are as many ranks as levels, and one more, for the operands of the tightest. -/
lemma Ladder.le {r : Nat} {ls : List Level} (h : Ladder r ls) : r ≤ levels.length + 1 := by
  induction ls generalizing r with
  | nil => exact Nat.le_of_eq h
  | cons level ls ih => exact Nat.le_of_succ_le (ih h.2.2)

/-- A level builds either logical or plain binary expressions. -/
lemma build_eq {level : Level} (h : level ∈ levels) :
    level.build = .logical ∨ level.build = .binary := by
  simp only [levels, List.mem_cons, List.not_mem_nil, or_false] at h
  rcases h with rfl | rfl | rfl | rfl | rfl | rfl <;> simp

/-- A tree built on a level binds as tightly as its operator. -/
@[simp] lemma tightness_build {level : Level} (h : level ∈ levels) (left right : Node)
    (operator : Leaf) :
    tightness (level.build left (.token operator) right) = rank operator.kind := by
  rcases build_eq h with hb | hb <;> simp [hb, tightness]

/-- A tree built on a level writes its operator between its operands. -/
lemma flatten_build {level : Level} (h : level ∈ levels) (left right : Node) (operator : Leaf) :
    (level.build left (.token operator) right).flatten =
      left.flatten ++ .exact operator :: right.flatten := by
  rcases build_eq h with hb | hb <;> simp [hb, Node.flatten]

/-- The trees that expressions have, with tokens from `T`. -/
inductive IsExpression (T : Leaf → Prop) : Node → Prop
  | literal {t : Leaf} {v : Node} : T t → t.denoted? = some v → IsExpression T (.literal v)
  /-- The condition of a loop that is written without one. -/
  | always : IsExpression T (.literal (.bool true))
  | grouping {e : Node} : IsExpression T e → IsExpression T (.grouping e)
  | ident {name : Leaf} : T name → name.kind = .identifier → IsExpression T (.ident (.token name))
  | call {callee : Node} {paren : Leaf} {arguments : List Node} :
      IsExpression T callee → levels.length + 2 ≤ tightness callee →
      T paren → paren.kind = .rightParen → (∀ e ∈ arguments, IsExpression T e) →
      IsExpression T (.call callee (.token paren) (.list arguments))
  | unary {operator : Leaf} {e : Node} :
      T operator → isUnaryOperator operator.kind = true →
      IsExpression T e → levels.length + 1 ≤ tightness e →
      IsExpression T (.unary (.token operator) e)
  | operator {level : Level} {left right : Node} {operator : Leaf} :
      level ∈ levels → T operator → operator.kind ∈ level.operators →
      IsExpression T left → rank operator.kind ≤ tightness left →
      IsExpression T right → rank operator.kind < tightness right →
      IsExpression T (level.build left (.token operator) right)
  | assign {name : Leaf} {value : Node} :
      T name → name.kind = .identifier → IsExpression T value →
      IsExpression T (.assign (.token name) value)

/-- Every name in an expression is a token. -/
lemma IsExpression.of_ident {T : Leaf → Prop} {name : Node} (h : IsExpression T (.ident name)) :
    ∃ t, name = .token t ∧ T t ∧ t.kind = .identifier := by
  generalize he : Node.ident name = e at h
  cases h with
  | ident ht hk =>
    injection he with he
    exact ⟨_, he, ht, hk⟩
  | operator hlevel => rcases build_eq hlevel with hb | hb <;> simp [hb] at he
  | _ => cases he

/-- An expression is a node, not the empty place of a missing part. -/
lemma IsExpression.ne_null {T : Leaf → Prop} {e : Node} (h : IsExpression T e) : e ≠ .null := by
  cases h with
  | operator hlevel => rcases build_eq hlevel with hb | hb <;> simp [hb]
  | _ => simp

/-! ## Statements -/

/-- Whether a statement is a declaration. -/
def isDeclaration : Node → Bool
  | .varDecl _ _ | .funDecl _ _ _ => true
  | _ => false

/-- Whether a statement ends in an `if` without an `else`. -/
def endsOpen : Node → Bool
  | .ifStmt _ _ .null => true
  | .ifStmt _ _ elseBranch => endsOpen elseBranch
  | .whileStmt _ body => endsOpen body
  | _ => false

/-- A conditional with an else branch takes a further `else` if that branch takes it. -/
lemma endsOpen_ifElse {condition thenBranch elseBranch : Node} (he : elseBranch ≠ .null) :
    endsOpen (.ifStmt condition thenBranch elseBranch) = endsOpen elseBranch := by
  cases elseBranch <;> first | rfl | exact absurd rfl he

/-- Whether a statement, behind a condition, begins with a token that would continue the condition. -/
def continuesCondition (s : Node) : Prop :=
  ∃ x ∈ s.flatten.head?, x.kind? = some .leftParen ∨ x.kind? = some .minus

/-- The trees that statements have, declarations included, with tokens from `T`. -/
inductive IsStatement (T : Leaf → Prop) : Node → Prop
  | exprStmt {e : Node} : IsExpression T e → IsStatement T (.exprStmt e)
  | printStmt {e : Node} : IsExpression T e → IsStatement T (.printStmt e)
  | varDecl {name : Leaf} :
      T name → name.kind = .identifier → IsStatement T (.varDecl (.token name) .null)
  | varInit {name : Leaf} {e : Node} :
      T name → name.kind = .identifier → IsExpression T e → IsStatement T (.varDecl (.token name) e)
  | block {body : List Node} :
      (∀ s ∈ body, IsStatement T s) → IsStatement T (.block (.list body))
  | ifStmt {condition thenBranch : Node} :
      IsExpression T condition →
      IsStatement T thenBranch → isDeclaration thenBranch = false →
      ¬ continuesCondition thenBranch →
      IsStatement T (.ifStmt condition thenBranch .null)
  | ifElse {condition thenBranch elseBranch : Node} :
      IsExpression T condition →
      IsStatement T thenBranch → isDeclaration thenBranch = false →
      ¬ continuesCondition thenBranch → endsOpen thenBranch = false →
      IsStatement T elseBranch → isDeclaration elseBranch = false →
      IsStatement T (.ifStmt condition thenBranch elseBranch)
  | whileStmt {condition body : Node} :
      IsExpression T condition →
      IsStatement T body → isDeclaration body = false → ¬ continuesCondition body →
      IsStatement T (.whileStmt condition body)
  | funDecl {name : Leaf} {params : List Leaf} {body : List Node} :
      T name → name.kind = .identifier →
      (∀ t ∈ params, T t ∧ t.kind = .identifier) → (∀ s ∈ body, IsStatement T s) →
      IsStatement T (.funDecl (.token name) (.list (params.map .token)) (.list body))
  | returnStmt {keyword : Leaf} :
      T keyword → keyword.kind = .returnWord → IsStatement T (.returnStmt (.token keyword) .null)
  | returnValue {keyword : Leaf} {e : Node} :
      T keyword → keyword.kind = .returnWord → IsExpression T e →
      IsStatement T (.returnStmt (.token keyword) e)

/-- A statement is not the empty place of a missing part. -/
lemma IsStatement.ne_null {T : Leaf → Prop} {s : Node} (h : IsStatement T s) : s ≠ .null := by
  cases h <;> simp

end Grammar

end Scriptlet
