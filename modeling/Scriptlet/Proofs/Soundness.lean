import Scriptlet.Proofs.Progress
import Scriptlet.Proofs.Shape

/-!
# What the parser reads

A parser that succeeds has read a front piece of its tokens.  That piece writes the tree which the parser
gives, the tree has the shape of the grammar, and the parser has not stopped too early: the next token
does not continue what was read.  The last fact is what keeps a construct from taking operands that are
too loose, and an `else` from going to the wrong `if`.

A `for` statement is read as the loop it stands for, which has a good shape but is not written by the
tokens that were read.
-/

namespace Scriptlet.Grammar

variable {T : Leaf → Prop} {α : Type} {ts rest : List Leaf}

/-- No token of either sort comes next if none of both sorts does. -/
lemma notNext_or {f g : Kind → Bool} :
    NotNext (fun kind => f kind || g kind) ts ↔ NotNext f ts ∧ NotNext g ts := by
  cases ts with
  | nil => simp
  | cons t us => simp

/-- A parser reads a front piece of the tokens, and its result, that piece and the rest are related. -/
def Reads (T : Leaf → Prop) (p : Parse α) (R : α → List Leaf → List Leaf → Prop) : Prop :=
  ∀ ⦃ts a rest⦄, (∀ t ∈ ts, T t) → p ts = .ok (a, rest) → ∃ used, ts = used ++ rest ∧ R a used rest

/-! ## Expressions -/

/-- What holds of an expression that was read: it binds at least as tightly as `least`, and the kinds
`more`, which would continue it, do not come next. -/
structure ExpressionRead (T : Leaf → Prop) (least : Nat) (more : Kind → Bool) (e : Node)
    (used rest : List Leaf) : Prop where
  /-- The tokens write the expression. -/
  writes : Writes e.flatten used
  /-- The expression has the shape of the grammar. -/
  shape : IsExpression T e
  /-- It binds tightly enough. -/
  tight : least ≤ tightness e
  /-- It was read to its end. -/
  stops : NotNext more rest

/-- The kinds of the operators on some levels, and those that continue an operand. -/
def operatorOr (ls : List Level) (more : Kind → Bool) (kind : Kind) : Bool :=
  ls.any (·.operators.contains kind) || more kind

/-- What continues an operand on some levels continues it on the first of them or on the others. -/
lemma operatorOr_cons (level : Level) (ls : List Level) (more : Kind → Bool) :
    operatorOr (level :: ls) more = fun kind => level.operators.contains kind || operatorOr ls more kind := by
  funext kind
  simp [operatorOr, Bool.or_assoc]

/-- A chain goes on neither on the first level nor on those above it. -/
lemma notNext_operatorOr_cons {level : Level} {ls : List Level} {more : Kind → Bool} :
    NotNext (operatorOr (level :: ls) more) ts ↔
      NotNext (level.operators.contains ·) ts ∧ NotNext (operatorOr ls more) ts := by
  rw [operatorOr_cons, notNext_or]

/-- Each turn of a chain reads an operator and its right operand. -/
lemma Level.reads_turns {level : Level} {operand : Parse Node} {r : Nat} {more : Kind → Bool}
    (hlevel : level ∈ levels) (hrank : ∀ kind ∈ level.operators, rank kind = r)
    (hoperand : Reads T operand (ExpressionRead T (r + 1) more)) {left e : Node}
    (h : Turns (level.step operand) left ts e rest) (hT : ∀ t ∈ ts, T t) {used : List Leaf}
    (hleft : ExpressionRead T r more left used ts) :
    ∃ used', ts = used' ++ rest ∧
      ExpressionRead T r (operatorOr [level] more) e (used ++ used') rest := by
  induction h generalizing used with
  | stop hs =>
    obtain ⟨hnot, rfl⟩ := stepBy_eq_none.mp hs
    refine ⟨[], rfl, ⟨by simpa using hleft.writes, hleft.shape, hleft.tight, ?_⟩⟩
    exact notNext_operatorOr_cons.mpr ⟨hnot, hleft.stops⟩
  | @turn left _ _ _ after _ hs _ ih =>
    obtain ⟨operator, mid, rfl, hkind, hmid⟩ := stepBy_eq_some.mp hs
    obtain ⟨right, hright, rfl⟩ := map_eq_ok.mp hmid
    obtain ⟨usedRight, rfl, hr⟩ := hoperand (fun t ht => hT t (by simp [ht])) hright
    have hmem : operator.kind ∈ level.operators := by simpa using hkind
    have hop := hrank _ hmem
    have hnode : ExpressionRead T r more (level.build left (.token operator) right)
        (used ++ operator :: usedRight) after := by
      refine ⟨?_, ?_, ?_, hr.stops⟩
      · rw [flatten_build hlevel]
        exact hleft.writes.append (.cons rfl hr.writes)
      · exact .operator hlevel (hT _ (by simp)) hmem hleft.shape (hop ▸ hleft.tight) hr.shape
          (hop ▸ hr.tight)
      · rw [tightness_build hlevel, hop]
    obtain ⟨used', rfl, he⟩ := ih (fun t ht => hT t (by simp [ht])) hnode
    exact ⟨operator :: usedRight ++ used', by simp, by simpa using he⟩

/-- A chain reads an expression of its level, and stops in front of what is no operator of it. -/
lemma Level.reads_chain {level : Level} {operand : Parse Node} {r : Nat} {more : Kind → Bool}
    (hlevel : level ∈ levels) (hrank : ∀ kind ∈ level.operators, rank kind = r)
    (htakes : Takes operand) (hoperand : Reads T operand (ExpressionRead T (r + 1) more)) :
    Reads T (level.chain operand) (ExpressionRead T r (operatorOr [level] more)) := by
  intro ts e rest hT h
  rw [level.chain_def] at h
  obtain ⟨first, mid, hfirst, hloop⟩ := bind_eq_ok.mp h
  obtain ⟨used, rfl, hread⟩ := hoperand hT hfirst
  have hconsuming : Consuming (level.step operand) :=
    consuming_stepBy fun _ _ => htakes.leaves.map _
  have hturns := (loop_eq_ok hconsuming).mp hloop
  obtain ⟨used', rfl, he⟩ :=
    level.reads_turns hlevel hrank hoperand hturns (fun t ht => hT t (by simp [ht]))
      ⟨hread.writes, hread.shape, Nat.le_of_succ_le hread.tight, hread.stops⟩
  exact ⟨used ++ used', by simp, he⟩

/-- All levels together read an expression that binds at least as tightly as the first of them. -/
lemma reads_binaries {ls : List Level} {operand : Parse Node} {r : Nat} {more : Kind → Bool}
    (hladder : Ladder r ls) (htakes : Takes operand)
    (hoperand : Reads T operand (ExpressionRead T (levels.length + 1) more)) :
    Reads T (binaries ls operand) (ExpressionRead T r (operatorOr ls more)) := by
  induction ls generalizing r with
  | nil =>
    obtain rfl : r = levels.length + 1 := hladder
    exact hoperand
  | cons level ls ih =>
    obtain ⟨hlevel, hrank, hrest⟩ := hladder
    have h := level.reads_chain hlevel hrank (takes_binaries ls htakes) (ih hrest)
    rw [operatorOr_cons] at h ⊢
    exact h

/-- The kinds that continue any expression. -/
def continuing : Kind → Bool :=
  fun kind => operatorOr levels (· = .leftParen) kind || kind = .equal

/-- Items behind a first one, each with its comma. -/
lemma reads_gathers {item : Parse α} {flat : α → List Terminal} {Q : α → Prop}
    (hitem : Reads T item fun a used _ => Writes (flat a) used ∧ Q a) {as : List α}
    (h : Gathers (nextSeparated .comma item) ts as rest) (hT : ∀ t ∈ ts, T t) :
    ∃ used, ts = used ++ rest ∧ Writes (as.flatMap (.mark .comma :: flat ·)) used ∧ ∀ a ∈ as, Q a := by
  induction h with
  | done hs =>
    obtain ⟨-, rfl⟩ := stepBy_eq_none.mp hs
    exact ⟨[], by simp⟩
  | more hs _ ih =>
    obtain ⟨t, mid, rfl, hkind, ha⟩ := stepBy_eq_some.mp hs
    obtain ⟨usedItem, rfl, hw, hq⟩ := hitem (fun t ht => hT t (by simp [ht])) ha
    obtain ⟨used, rfl, hws, hqs⟩ := ih fun t ht => hT t (by simp [ht])
    refine ⟨t :: usedItem ++ used, by simp, ?_, by simpa using ⟨hq, hqs⟩⟩
    rw [List.flatMap_cons]
    exact Writes.append (.cons (by simpa using hkind) hw) hws

/-- Items with commas between them, or none before a token of the given kind. -/
lemma reads_separated {item : Parse α} {flat : α → List Terminal} {Q : α → Prop} (stop : Kind)
    (hleaves : Leaves item) (hitem : Reads T item fun a used _ => Writes (flat a) used ∧ Q a) :
    Reads T (unlessNext stop [] (separated .comma item)) fun as used _ =>
      Writes (commas (as.map flat)) used ∧ ∀ a ∈ as, Q a := by
  intro ts as rest hT h
  obtain ⟨-, rfl, rfl⟩ | ⟨-, h⟩ := unlessNext_eq_ok.mp h
  · exact ⟨[], by simp⟩
  · obtain ⟨a, mid, as, rfl, ha, has⟩ := (separated_eq_ok hleaves).mp h
    obtain ⟨usedItem, rfl, hw, hq⟩ := hitem hT ha
    obtain ⟨used, rfl, hws, hqs⟩ := reads_gathers hitem has fun t ht => hT t (by simp [ht])
    refine ⟨usedItem ++ used, by simp, ?_, by simpa using ⟨hq, hqs⟩⟩
    rw [List.map_cons, commas_cons, List.flatMap_map]
    exact hw.append hws

/-- A primary is read with the tokens that write it. -/
lemma reads_primary {expression : Parse Node}
    (hexpression : Reads T expression (ExpressionRead T 0 continuing)) :
    Reads T (primary expression) (ExpressionRead T (levels.length + 3) fun _ => false) := by
  intro ts e rest hT h
  cases ts with
  | nil => simp [primary] at h
  | cons t us =>
    have hstops : NotNext (fun _ => false) rest := fun _ _ => rfl
    -- A token that denotes a value is read as the literal of that value.
    have literal : ∀ v, t.denoted? = some v → .literal v = e → us = rest →
        ∃ used, t :: us = used ++ rest ∧
          ExpressionRead T (levels.length + 3) (fun _ => false) e used rest := by
      rintro v hv rfl rfl
      have hw : Writes (Node.literal v).flatten [t] := by simp [Node.flatten, hv]
      exact ⟨[t], rfl, hw, .literal (hT t (by simp)) hv, le_rfl, hstops⟩
    unfold primary at h
    dsimp only at h
    split at h
    case h_1 hk | h_2 hk | h_3 hk | h_5 hk =>
      injection h with h
      injection h with h₁ h₂
      exact literal _ (by simp [Leaf.denoted?, hk]) h₁ h₂
    case h_4 hk =>
      unfold numberOf at h
      cases hx : number? t.literal with
      | none => simp [hx] at h
      | some x =>
        simp only [hx, pure_eq_ok] at h
        exact literal (.float x) (by simp [Leaf.denoted?, hk, hx]) h.1 h.2
    case h_6 hk =>
      injection h with h
      injection h with h₁ h₂
      subst h₁ h₂
      have hw : Writes (Node.ident (.token t)).flatten [t] := by
        simp [Node.flatten]
      exact ⟨[t], rfl, hw, .ident (hT t (by simp)) hk, le_rfl, hstops⟩
    case h_7 hk =>
      obtain ⟨inner, close, hinner, hkind, rfl⟩ := closedBy_eq_ok.mp h
      obtain ⟨used, rfl, hread⟩ := hexpression (fun t ht => hT t (by simp [ht])) hinner
      have hw : Writes (Node.grouping inner).flatten (t :: used ++ [close]) := by
        refine Writes.append (.cons hk hread.writes) ?_
        simp [hkind]
      exact ⟨t :: used ++ [close], by simp, hw, .grouping hread.shape, le_rfl, hstops⟩
    case h_8 => cases h

/-- Arguments are read with the commas between them and the closing parenthesis. -/
lemma reads_arguments {expression : Parse Node} (htakes : Takes expression)
    (hexpression : Reads T expression (ExpressionRead T 0 continuing)) :
    Reads T (arguments expression) fun args used _ =>
      Writes (commas (args.1.map Node.flatten) ++ [.exact args.2]) used ∧
        (∀ e ∈ args.1, IsExpression T e) ∧ T args.2 ∧ args.2.kind = .rightParen := by
  intro ts args rest hT h
  rw [arguments_def] at h
  obtain ⟨es, paren, hes, hkind, rfl⟩ := closedBy_eq_ok.mp h
  have hitem : Reads T expression fun e used _ => Writes e.flatten used ∧ IsExpression T e := by
    intro ts e rest hT h
    obtain ⟨used, rfl, hread⟩ := hexpression hT h
    exact ⟨used, rfl, hread.writes, hread.shape⟩
  obtain ⟨used, rfl, hw, hshape⟩ := reads_separated _ htakes.leaves hitem hT hes
  refine ⟨used ++ [paren], by simp, hw.append ?_, hshape, hT _ (by simp), hkind⟩
  simp

/-- Each turn of a call reads a list of arguments. -/
lemma reads_callTurns {expression : Parse Node} (htakes : Takes expression)
    (hexpression : Reads T expression (ExpressionRead T 0 continuing)) {callee e : Node}
    (h : Turns (callStep expression) callee ts e rest) (hT : ∀ t ∈ ts, T t) {used : List Leaf}
    (hcallee : ExpressionRead T (levels.length + 2) (fun _ => false) callee used ts) :
    ∃ used', ts = used' ++ rest ∧
      ExpressionRead T (levels.length + 2) (· = .leftParen) e (used ++ used') rest := by
  induction h generalizing used with
  | stop hs =>
    obtain ⟨hnot, rfl⟩ := stepBy_eq_none.mp hs
    exact ⟨[], rfl, ⟨by simpa using hcallee.writes, hcallee.shape, hcallee.tight, hnot⟩⟩
  | @turn callee _ _ _ after _ hs _ ih =>
    obtain ⟨opening, mid, rfl, hkind, hmid⟩ := stepBy_eq_some.mp hs
    obtain ⟨⟨args, paren⟩, hargs, rfl⟩ := map_eq_ok.mp hmid
    obtain ⟨usedArgs, rfl, hw, hshape, hparen, hparenKind⟩ :=
      reads_arguments htakes hexpression (fun t ht => hT t (by simp [ht])) hargs
    have hnode : ExpressionRead T (levels.length + 2) (fun _ => false)
        (.call callee (.token paren) (.list args)) (used ++ opening :: usedArgs) after := by
      refine ⟨?_, .call hcallee.shape hcallee.tight hparen hparenKind hshape, le_rfl, ?_⟩
      · have := hcallee.writes.append (.cons (Terminal.matches_mark.mpr (of_decide_eq_true hkind)) hw)
        simpa [Node.flatten] using this
      · exact fun _ _ => rfl
    obtain ⟨used', rfl, he⟩ := ih (fun t ht => hT t (by simp [ht])) hnode
    exact ⟨opening :: usedArgs ++ used', by simp, by simpa using he⟩

/-- A call is read with the tokens that write it, and no further arguments come next. -/
lemma reads_call {expression : Parse Node} (htakes : Takes expression)
    (hexpression : Reads T expression (ExpressionRead T 0 continuing)) :
    Reads T (call expression) (ExpressionRead T (levels.length + 2) (· = .leftParen)) := by
  intro ts e rest hT h
  rw [call_def] at h
  obtain ⟨callee, mid, hcallee, hloop⟩ := bind_eq_ok.mp h
  obtain ⟨used, rfl, hread⟩ := reads_primary hexpression hT hcallee
  have hconsuming : Consuming (callStep expression) :=
    consuming_stepBy fun _ _ => (takes_arguments htakes).leaves.map _
  have hturns := (loop_eq_ok hconsuming).mp hloop
  obtain ⟨used', rfl, he⟩ :=
    reads_callTurns htakes hexpression hturns (fun t ht => hT t (by simp [ht]))
      ⟨hread.writes, hread.shape, Nat.le_of_succ_le hread.tight, hread.stops⟩
  exact ⟨used ++ used', by simp, he⟩

/-- What an assignment reads, behind its target. -/
lemma reads_assignTo {expression : Parse Node}
    (hexpression : Reads T expression (ExpressionRead T 0 continuing)) {target : Node}
    {used : List Leaf} {more : Kind → Bool} {equals : Leaf} (hkind : equals.kind = .equal)
    (htarget : ExpressionRead T 1 more target used (equals :: ts)) (hT : ∀ t ∈ ts, T t) {e : Node}
    (h : (do assignTo target equals (← expression)) ts = .ok (e, rest)) :
    ∃ used', ts = used' ++ rest ∧ ExpressionRead T 0 continuing e (used ++ equals :: used') rest := by
  obtain ⟨value, mid, hvalue, hassign⟩ := bind_eq_ok.mp h
  obtain ⟨usedValue, rfl, hread⟩ := hexpression hT hvalue
  unfold assignTo at hassign
  split at hassign
  · rename_i name
    obtain ⟨rfl, rfl⟩ := pure_eq_ok.mp hassign
    obtain ⟨t, rfl, hname, hnameKind⟩ := htarget.shape.of_ident
    refine ⟨usedValue, rfl, ?_, .assign hname hnameKind hread.shape, Nat.zero_le _, hread.stops⟩
    have := htarget.writes.append (.cons (Terminal.matches_mark.mpr hkind) hread.writes)
    simpa [Node.flatten] using this
  · cases hassign

/-- Expressions, and unary operators with their operand, are read as the grammar has them. -/
theorem reads_expression_unary (limit : Nat) :
    Reads T (expression limit) (ExpressionRead T 0 continuing) ∧
      Reads T (unary limit) (ExpressionRead T (levels.length + 1) (· = .leftParen)) := by
  induction limit with
  | zero =>
    constructor <;>
    · intro ts e rest _ h
      cases h
  | succ limit ih =>
    obtain ⟨hexpression, hunary⟩ := ih
    constructor
    · intro ts e rest hT h
      unfold expression at h
      obtain ⟨target, mid, htarget, h₁⟩ := bind_eq_ok.mp h
      obtain ⟨o, mid', ho, h₂⟩ := bind_eq_ok.mp h₁
      obtain ⟨used, rfl, hread⟩ :=
        reads_binaries ladder_levels (takes_unary limit) hunary hT htarget
      cases o with
      | none =>
        obtain ⟨hnot, rfl⟩ := accept?_eq_none.mp ho
        obtain ⟨rfl, rfl⟩ := pure_eq_ok.mp h₂
        exact ⟨used, rfl, hread.writes, hread.shape, Nat.zero_le _, notNext_or.mpr ⟨hread.stops, hnot⟩⟩
      | some equals =>
        obtain ⟨hkind, rfl⟩ := accept?_eq_some.mp ho
        obtain ⟨used', rfl, he⟩ := reads_assignTo hexpression (of_decide_eq_true hkind) hread
          (fun t ht => hT t (by simp [ht])) h₂
        exact ⟨used ++ equals :: used', by simp, he⟩
    · intro ts e rest hT h
      unfold unary at h
      obtain ⟨o, mid, ho, h₁⟩ := bind_eq_ok.mp h
      cases o with
      | none =>
        obtain ⟨hnot, rfl⟩ := accept?_eq_none.mp ho
        obtain ⟨used, rfl, hread⟩ := reads_call (takes_expression limit) hexpression hT h₁
        exact ⟨used, rfl, hread.writes, hread.shape, Nat.le_of_succ_le hread.tight, hread.stops⟩
      | some operator =>
        obtain ⟨hkind, rfl⟩ := accept?_eq_some.mp ho
        obtain ⟨operand, mid', hoperand, h₂⟩ := bind_eq_ok.mp h₁
        obtain ⟨rfl, rfl⟩ := pure_eq_ok.mp h₂
        obtain ⟨used, rfl, hread⟩ := hunary (fun t ht => hT t (by simp [ht])) hoperand
        refine ⟨operator :: used, rfl, ?_, .unary (hT _ (by simp)) hkind hread.shape hread.tight,
          le_rfl, hread.stops⟩
        exact .cons rfl hread.writes

/-- An expression is read with the tokens that write it, and it is read to its end. -/
lemma reads_expression (limit : Nat) :
    Reads T (expression limit) (ExpressionRead T 0 continuing) :=
  (reads_expression_unary limit).1

/-! ## Statements -/

/-- The tokens hold no `for`. -/
def NoFor (T : Leaf → Prop) : Prop := ∀ t, T t → t.kind ≠ .forWord

/-- What holds of a statement that was read. -/
structure StatementRead (T : Leaf → Prop) (s : Node) (used rest : List Leaf) : Prop where
  /-- The statement has the shape of the grammar. -/
  shape : IsStatement T s
  /-- The tokens write the statement. -/
  writes : NoFor T → Writes s.flatten used
  /-- It continues no condition, unless it begins like that. -/
  begins : continuesCondition s → ∃ t ∈ used.head?, t.kind = .leftParen ∨ t.kind = .minus
  /-- It has taken an `else` that belongs to it. -/
  closed : endsOpen s = true → NotNext (· = .elseWord) rest

/-- What holds of a branch or a loop body that was read. -/
structure BranchRead (T : Leaf → Prop) (s : Node) (used rest : List Leaf) : Prop
    extends StatementRead T s used rest where
  /-- It is no declaration. -/
  plain : isDeclaration s = false

/-- A statement behind a condition does not continue the condition. -/
lemma ExpressionRead.not_continuesCondition {condition s : Node} {usedCondition used : List Leaf}
    {least : Nat} (hcondition : ExpressionRead T least continuing condition usedCondition (used ++ rest))
    (hs : StatementRead T s used rest) : ¬ continuesCondition s := by
  intro h
  obtain ⟨t, ht, hkind⟩ := hs.begins h
  have hhead : t ∈ (used ++ rest).head? := by
    cases used with
    | nil => simp at ht
    | cons u us => simpa using ht
  have hnot := hcondition.stops t hhead
  rcases hkind with hk | hk <;> simp [hk, continuing, operatorOr, levels] at hnot

/-- Some tokens and the tree that they are read as. -/
structure Part where
  tokens : List Leaf
  tree : Node

/-- The tokens themselves. -/
def Part.terminals (p : Part) : List Terminal :=
  p.tokens.map .exact

/-- The tokens of a part write nothing but that part. -/
lemma Part.writes_terminals {p : Part} : Writes p.terminals ts ↔ ts = p.tokens :=
  writes_exact

/-- What stands in the parentheses of a `for` statement.  The initializer is a statement, to which a semicolon
belongs. -/
structure ForHeader where
  initializer? : Option Part
  condition? : Option Part
  increment? : Option Part

namespace ForHeader

/-- The condition of the loop, which is true if there is none. -/
def condition (header : ForHeader) : Node :=
  header.condition?.elim (.literal (.bool true)) Part.tree

/-- The loop that a `for` statement with this header stands for. -/
def loop (header : ForHeader) (body : Node) : Node :=
  forLoop (header.initializer?.map Part.tree) header.condition (header.increment?.map Part.tree) body

/-- The tokens from the opening to the closing parenthesis. -/
def terminals (header : ForHeader) : List Terminal :=
  .mark .leftParen :: header.initializer?.elim [.mark .semicolon] Part.terminals
    ++ header.condition?.elim [] Part.terminals
    ++ .mark .semicolon :: header.increment?.elim [] Part.terminals ++ [.mark .rightParen]

/-- The parts have the shape of the grammar, and their tokens write them. -/
structure IsWritten (T : Leaf → Prop) (header : ForHeader) : Prop where
  initializer : ∀ p ∈ header.initializer?, IsStatement T p.tree ∧ Writes p.tree.flatten p.tokens
  condition : ∀ p ∈ header.condition?, IsExpression T p.tree ∧ Writes p.tree.flatten p.tokens
  increment : ∀ p ∈ header.increment?, IsExpression T p.tree ∧ Writes p.tree.flatten p.tokens

end ForHeader

section Statements

variable {expression statement declaration : Parse Node} {word : Leaf}
  (hexpression : Reads T expression (ExpressionRead T 0 continuing))
  (hstatement : Reads T statement (BranchRead T))
  (hdeclaration : Reads T declaration (StatementRead T))
  (hdeclarationTakes : Takes declaration)

include hexpression

/-- A variable declaration is read with the tokens that write it. -/
lemma reads_varDeclaration (hword : word.kind = .varWord) :
    Reads T (varDeclaration expression) fun s used rest =>
      StatementRead T s (word :: used) rest ∧ Writes s.flatten (word :: used) := by
  intro ts s rest hT h
  unfold varDeclaration at h
  obtain ⟨name, mid₁, hname, h₁⟩ := bind_eq_ok.mp h
  obtain ⟨hnameKind, rfl⟩ := expect_eq_ok.mp hname
  obtain ⟨o, mid₂, ho, h₂⟩ := bind_eq_ok.mp h₁
  cases o with
  | none =>
    obtain ⟨-, rfl⟩ := accept?_eq_none.mp ho
    obtain ⟨e, close, hpure, hcloseKind, rfl⟩ := closedBy_eq_ok.mp h₂
    obtain ⟨rfl, rfl⟩ := pure_eq_ok.mp hpure
    have hw : Writes (Node.varDecl (.token name) .null).flatten [word, name, close] :=
      .cons hword (.cons rfl (.cons hcloseKind .nil))
    refine ⟨[name, close], rfl, ⟨.varDecl (hT _ (by simp)) hnameKind, fun _ => hw, ?_, ?_⟩, hw⟩
    · simp [continuesCondition, Node.flatten, Terminal.kind?]
    · simp [endsOpen]
  | some equals =>
    obtain ⟨hequals, rfl⟩ := accept?_eq_some.mp ho
    obtain ⟨e, close, he, hcloseKind, rfl⟩ := closedBy_eq_ok.mp h₂
    obtain ⟨used, rfl, hread⟩ := hexpression (fun t ht => hT t (by simp [ht])) he
    have hne := hread.shape.ne_null
    have hw : Writes (Node.varDecl (.token name) e).flatten
        (word :: name :: equals :: used ++ [close]) := by
      rw [Node.flatten_varInit hne]
      refine .cons hword (.cons rfl (.cons (by simpa using hequals) ?_))
      exact hread.writes.append (.cons hcloseKind .nil)
    refine ⟨name :: equals :: used ++ [close], by simp,
      ⟨.varInit (hT _ (by simp)) hnameKind hread.shape, fun _ => hw, ?_, ?_⟩, hw⟩
    · simp [continuesCondition, Node.flatten_varInit hne, Terminal.kind?]
    · simp [endsOpen]

/-- An expression statement is read with the tokens that write it. -/
lemma reads_expressionStatement :
    Reads T (expressionStatement expression) fun s used rest =>
      BranchRead T s used rest ∧ Writes s.flatten used := by
  intro ts s rest hT h
  obtain ⟨e, close, he, hcloseKind, rfl⟩ := closedBy_eq_ok.mp h
  obtain ⟨used, rfl, hread⟩ := hexpression hT he
  have hw : Writes (Node.exprStmt e).flatten (used ++ [close]) :=
    hread.writes.append (.cons hcloseKind .nil)
  refine ⟨used ++ [close], by simp,
    ⟨⟨.exprStmt hread.shape, fun _ => hw, ?_, by simp [endsOpen]⟩, rfl⟩, hw⟩
  rintro ⟨x, hx, hk⟩
  obtain ⟨t, ht, hmatch⟩ := hw.head hx
  exact ⟨t, ht, hk.imp hmatch.kind_eq hmatch.kind_eq⟩

/-- A print statement is read with the tokens that write it. -/
lemma reads_printStatement (hword : word.kind = .printWord) :
    Reads T (printStatement expression) fun s used rest => BranchRead T s (word :: used) rest := by
  intro ts s rest hT h
  obtain ⟨e, close, he, hcloseKind, rfl⟩ := closedBy_eq_ok.mp h
  obtain ⟨used, rfl, hread⟩ := hexpression hT he
  refine ⟨used ++ [close], by simp, ⟨.printStmt hread.shape, fun _ => ?_, ?_, by simp [endsOpen]⟩, rfl⟩
  · exact .cons hword (hread.writes.append (.cons hcloseKind .nil))
  · simp [continuesCondition, Node.flatten, Terminal.kind?]

/-- A `return` statement is read with the tokens that write it. -/
lemma reads_returnStatement (hword : word.kind = .returnWord) (hwordT : T word) :
    Reads T (returnStatement expression word) fun s used rest => BranchRead T s (word :: used) rest := by
  intro ts s rest hT h
  rw [returnStatement_def] at h
  obtain ⟨e, close, he, hcloseKind, rfl⟩ := closedBy_eq_ok.mp h
  have hbegins : ∀ e : Node, ¬ continuesCondition (.returnStmt (.token word) e) := by
    simp [continuesCondition, Node.flatten, Terminal.kind?, hword]
  obtain ⟨-, rfl, rfl⟩ | ⟨-, he⟩ := unlessNext_eq_ok.mp he
  · refine ⟨[close], rfl, ⟨.returnStmt hwordT hword, fun _ => ?_, ?_, by simp [endsOpen]⟩, rfl⟩
    · exact .cons rfl (.cons hcloseKind .nil)
    · exact fun h => absurd h (hbegins _)
  · obtain ⟨used, rfl, hread⟩ := hexpression hT he
    refine ⟨used ++ [close], by simp,
      ⟨.returnValue hwordT hword hread.shape, fun _ => ?_, ?_, by simp [endsOpen]⟩, rfl⟩
    · exact .cons rfl (hread.writes.append (.cons hcloseKind .nil))
    · exact fun h => absurd h (hbegins _)

include hstatement

/-- An `if` statement is read with the tokens that write it, and takes an `else` that comes next. -/
lemma reads_ifStatement (hword : word.kind = .ifWord) :
    Reads T (ifStatement expression statement) fun s used rest =>
      BranchRead T s (word :: used) rest := by
  intro ts s rest hT h
  unfold ifStatement at h
  obtain ⟨c, mid₁, hc, h₁⟩ := bind_eq_ok.mp h
  obtain ⟨t, mid₂, ht, h₂⟩ := bind_eq_ok.mp h₁
  obtain ⟨o, mid₃, ho, h₃⟩ := bind_eq_ok.mp h₂
  obtain ⟨usedC, rfl, hcRead⟩ := hexpression hT hc
  obtain ⟨usedT, rfl, htRead⟩ := hstatement (fun t ht => hT t (by simp [ht])) ht
  have hbegins := hcRead.not_continuesCondition htRead.toStatementRead
  cases o with
  | none =>
    obtain ⟨hnot, rfl⟩ := accept?_eq_none.mp ho
    obtain ⟨rfl, rfl⟩ := pure_eq_ok.mp h₃
    refine ⟨usedC ++ usedT, by simp,
      ⟨.ifStmt hcRead.shape htRead.shape htRead.plain hbegins, fun hfor => ?_, ?_, fun _ => hnot⟩, rfl⟩
    · exact .cons hword (hcRead.writes.append (htRead.writes hfor))
    · simp [continuesCondition, Node.flatten, Terminal.kind?]
  | some other =>
    obtain ⟨hother, rfl⟩ := accept?_eq_some.mp ho
    obtain ⟨e, mid₄, he, h₄⟩ := bind_eq_ok.mp h₃
    obtain ⟨rfl, rfl⟩ := pure_eq_ok.mp h₄
    obtain ⟨usedE, rfl, heRead⟩ := hstatement (fun t ht => hT t (by simp [ht])) he
    have hne := heRead.shape.ne_null
    -- The first branch was read to its end, so it does not end open before an `else`.
    have hopen : endsOpen t = false := by
      by_contra hopen
      have hnot := htRead.closed (by simpa using hopen)
      simp only [notNext_cons] at hnot
      exact absurd hother (by simp [hnot])
    refine ⟨usedC ++ usedT ++ other :: usedE, by simp,
      ⟨.ifElse hcRead.shape htRead.shape htRead.plain hbegins hopen heRead.shape heRead.plain,
        fun hfor => ?_, ?_, ?_⟩, rfl⟩
    · rw [Node.flatten_ifElse hne]
      refine .cons hword ((hcRead.writes.append (htRead.writes hfor)).append ?_)
      exact .cons (by simpa using hother) (heRead.writes hfor)
    · simp [continuesCondition, Node.flatten_ifElse hne, Terminal.kind?]
    · rw [endsOpen_ifElse hne]
      exact heRead.closed

/-- A `while` statement is read with the tokens that write it. -/
lemma reads_whileStatement (hword : word.kind = .whileWord) :
    Reads T (whileStatement expression statement) fun s used rest =>
      BranchRead T s (word :: used) rest := by
  intro ts s rest hT h
  obtain ⟨c, mid₁, hc, h₁⟩ := bind_eq_ok.mp h
  obtain ⟨body, mid₂, hbody, h₂⟩ := bind_eq_ok.mp h₁
  obtain ⟨rfl, rfl⟩ := pure_eq_ok.mp h₂
  obtain ⟨usedC, rfl, hcRead⟩ := hexpression hT hc
  obtain ⟨used, rfl, hread⟩ := hstatement (fun t ht => hT t (by simp [ht])) hbody
  have hbegins := hcRead.not_continuesCondition hread.toStatementRead
  refine ⟨usedC ++ used, by simp,
    ⟨.whileStmt hcRead.shape hread.shape hread.plain hbegins, fun hfor => ?_, ?_, ?_⟩, rfl⟩
  · exact .cons hword (hcRead.writes.append (hread.writes hfor))
  · simp [continuesCondition, Node.flatten, Terminal.kind?]
  · exact hread.closed

omit hstatement in
/-- The initializer of a `for` statement is a statement, or there is nothing but a semicolon. -/
lemma reads_forInitializer :
    Reads T (forInitializer expression) fun o used _ =>
      (o = none ∧ Writes [.mark .semicolon] used) ∨
        ∃ s, o = some s ∧ IsStatement T s ∧ Writes s.flatten used := by
  intro ts o rest hT h
  unfold forInitializer at h
  obtain ⟨semicolon, mid₁, ho, h₁⟩ := bind_eq_ok.mp h
  cases semicolon with
  | some semicolon =>
    obtain ⟨hkind, rfl⟩ := accept?_eq_some.mp ho
    obtain ⟨rfl, rfl⟩ := pure_eq_ok.mp h₁
    exact ⟨[semicolon], rfl, .inl ⟨rfl, .cons (Terminal.matches_mark.mpr (of_decide_eq_true hkind)) .nil⟩⟩
  | none =>
    obtain ⟨-, rfl⟩ := accept?_eq_none.mp ho
    obtain ⟨word, mid₂, hword, h₂⟩ := bind_eq_ok.mp h₁
    cases word with
    | some word =>
      obtain ⟨hkind, rfl⟩ := accept?_eq_some.mp hword
      obtain ⟨s, mid₃, hs, h₃⟩ := bind_eq_ok.mp h₂
      obtain ⟨rfl, rfl⟩ := pure_eq_ok.mp h₃
      obtain ⟨used, rfl, hread, hw⟩ :=
        reads_varDeclaration hexpression (of_decide_eq_true hkind) (fun t ht => hT t (by simp [ht])) hs
      exact ⟨word :: used, rfl, .inr ⟨s, rfl, hread.shape, hw⟩⟩
    | none =>
      obtain ⟨-, rfl⟩ := accept?_eq_none.mp hword
      obtain ⟨s, mid₃, hs, h₃⟩ := bind_eq_ok.mp h₂
      obtain ⟨rfl, rfl⟩ := pure_eq_ok.mp h₃
      obtain ⟨used, rfl, hread, hw⟩ := reads_expressionStatement hexpression hT hs
      exact ⟨used, rfl, .inr ⟨s, rfl, hread.shape, hw⟩⟩

omit hstatement in
/-- The parts of a `for` statement: what is read in parentheses, and the body behind them. -/
lemma reads_forHeader (hT : ∀ t ∈ ts, T t) {s : Node}
    (h : forStatement expression statement ts = .ok (s, rest)) :
    ∃ (header : ForHeader) (used mid : List Leaf) (body : Node), ts = used ++ mid ∧ header.IsWritten T ∧
      Writes header.terminals used ∧ statement mid = .ok (body, rest) ∧ s = header.loop body := by
  rw [forStatement_def] at h
  obtain ⟨opening, mid₁, hopening, h₁⟩ := bind_eq_ok.mp h
  obtain ⟨hopeningKind, rfl⟩ := expect_eq_ok.mp hopening
  obtain ⟨o, mid₂, hinitializer, h₂⟩ := bind_eq_ok.mp h₁
  obtain ⟨usedI, rfl, hI⟩ :=
    reads_forInitializer hexpression (fun t ht => hT t (by simp [ht])) hinitializer
  -- An initializer brings its own semicolon, and without one there is just a semicolon.
  obtain ⟨initializer?, rfl, hI, hwI⟩ : ∃ initializer? : Option Part, initializer?.map Part.tree = o ∧
      (∀ p ∈ initializer?, IsStatement T p.tree ∧ Writes p.tree.flatten p.tokens) ∧
        Writes (initializer?.elim [.mark .semicolon] Part.terminals) usedI := by
    obtain ⟨rfl, hw⟩ | ⟨s, rfl, hs, hw⟩ := hI
    · exact ⟨none, rfl, by simp, hw⟩
    · exact ⟨some ⟨usedI, s⟩, rfl, by simpa using ⟨hs, hw⟩, writes_exact.mpr rfl⟩
  obtain ⟨condition, mid₃, hcondition, h₃⟩ := bind_eq_ok.mp h₂
  obtain ⟨condition?, rfl, usedC, rfl, hC, hwC⟩ : ∃ condition? : Option Part,
      condition?.elim (.literal (.bool true)) Part.tree = condition ∧ ∃ used, mid₂ = used ++ mid₃ ∧
        (∀ p ∈ condition?, IsExpression T p.tree ∧ Writes p.tree.flatten p.tokens) ∧
          Writes (condition?.elim [] Part.terminals) used := by
    obtain ⟨-, rfl, rfl⟩ | ⟨-, hcondition⟩ := unlessNext_eq_ok.mp hcondition
    · exact ⟨none, rfl, [], rfl, by simp, .nil⟩
    · obtain ⟨used, hmid, hread⟩ := hexpression (fun t ht => hT t (by simp [ht])) hcondition
      exact ⟨some ⟨used, condition⟩, rfl, used, hmid, by simpa using ⟨hread.shape, hread.writes⟩,
        writes_exact.mpr rfl⟩
  obtain ⟨semicolon, mid₄, hsemicolon, h₄⟩ := bind_eq_ok.mp h₃
  obtain ⟨hsemicolonKind, rfl⟩ := expect_eq_ok.mp hsemicolon
  obtain ⟨o, mid₅, hincrement, h₅⟩ := bind_eq_ok.mp h₄
  obtain ⟨increment?, rfl, usedE, rfl, hE, hwE⟩ : ∃ increment? : Option Part,
      increment?.map Part.tree = o ∧ ∃ used, mid₄ = used ++ mid₅ ∧
        (∀ p ∈ increment?, IsExpression T p.tree ∧ Writes p.tree.flatten p.tokens) ∧
          Writes (increment?.elim [] Part.terminals) used := by
    obtain ⟨-, rfl, rfl⟩ | ⟨-, hincrement⟩ := unlessNext_eq_ok.mp hincrement
    · exact ⟨none, rfl, [], rfl, by simp, .nil⟩
    · obtain ⟨e, he, rfl⟩ := map_eq_ok.mp hincrement
      obtain ⟨used, hmid, hread⟩ := hexpression (fun t ht => hT t (by simp [ht])) he
      exact ⟨some ⟨used, e⟩, rfl, used, hmid, by simpa using ⟨hread.shape, hread.writes⟩,
        writes_exact.mpr rfl⟩
  obtain ⟨closing, mid₆, hclosing, h₆⟩ := bind_eq_ok.mp h₅
  obtain ⟨hclosingKind, rfl⟩ := expect_eq_ok.mp hclosing
  obtain ⟨body, mid₇, hbody, h₇⟩ := bind_eq_ok.mp h₆
  obtain ⟨rfl, rfl⟩ := pure_eq_ok.mp h₇
  refine ⟨⟨initializer?, condition?, increment?⟩,
    opening :: usedI ++ usedC ++ semicolon :: usedE ++ [closing], mid₆, body, by simp, ⟨hI, hC, hE⟩, ?_,
    hbody, rfl⟩
  refine Writes.append (.append (.append (.cons hopeningKind hwI) hwC) (.cons hsemicolonKind hwE)) ?_
  exact .cons hclosingKind .nil

omit hexpression hstatement in
/-- The loop of a `for` statement has the shape of the grammar. -/
lemma ForHeader.IsWritten.isStatement_loop {header : ForHeader} (hheader : header.IsWritten T) {body : Node}
    (hbody : IsStatement T body) : IsStatement T (header.loop body) := by
  refine .block fun s hs => ?_
  rcases List.mem_append.mp hs with hs | hs
  · obtain ⟨p, hp, rfl⟩ : ∃ p ∈ header.initializer?, p.tree = s := by simpa using hs
    exact (hheader.initializer p hp).1
  · obtain rfl : s = _ := by simpa using hs
    refine .whileStmt ?_ (.block fun s hs => ?_) rfl ?_
    · unfold ForHeader.condition
      cases hcondition : header.condition? with
      | none => exact .always
      | some p => exact (hheader.condition p hcondition).1
    · rcases List.mem_cons.mp hs with rfl | hs
      · exact hbody
      · obtain ⟨p, hp, rfl⟩ : ∃ p ∈ header.increment?, .exprStmt p.tree = s := by simpa using hs
        exact .exprStmt (hheader.increment p hp).1
    · simp [continuesCondition, Node.flatten, Terminal.kind?]

/-- A `for` statement is read as the block that it stands for, which its tokens do not write. -/
lemma reads_forStatement (hword : word.kind = .forWord) (hwordT : T word) :
    Reads T (forStatement expression statement) fun s used rest =>
      BranchRead T s (word :: used) rest := by
  intro ts s rest hT h
  obtain ⟨header, used, mid, body, rfl, hheader, -, hbody, rfl⟩ := reads_forHeader hexpression hT h
  obtain ⟨usedBody, rfl, hread⟩ := hstatement (fun t ht => hT t (by simp [ht])) hbody
  refine ⟨used ++ usedBody, by simp,
    ⟨hheader.isStatement_loop hread.shape, fun hfor => ?_, ?_, ?_⟩, rfl⟩
  · exact absurd hword (hfor word hwordT)
  · simp [continuesCondition, ForHeader.loop, forLoop, Node.flatten, Terminal.kind?]
  · simp [ForHeader.loop, forLoop, endsOpen]

omit hexpression hstatement
include hdeclaration

/-- Items that are gathered up to a token are statements, one after the other. -/
lemma reads_statements {stop : Kind} {body : List Node}
    (h : Gathers (nextUntil stop declaration) ts body rest) (hT : ∀ t ∈ ts, T t) :
    ∃ used, ts = used ++ rest ∧ (NoFor T → Writes (body.flatMap Node.flatten) used) ∧
      (∀ s ∈ body, IsStatement T s) ∧ ∀ t ∈ rest.head?, t.kind = stop := by
  induction h with
  | done hs =>
    obtain ⟨hstop, rfl⟩ := nextUntil_eq_none.mp hs
    exact ⟨[], rfl, by simp, by simp, hstop⟩
  | more hs _ ih =>
    obtain ⟨usedFirst, rfl, hfirst⟩ := hdeclaration hT (nextUntil_eq_some.mp hs).2
    obtain ⟨used, rfl, hw, hshape, hstop⟩ := ih fun t ht => hT t (by simp [ht])
    refine ⟨usedFirst ++ used, by simp, fun hfor => ?_, by simpa using ⟨hfirst.shape, hshape⟩, hstop⟩
    rw [List.flatMap_cons]
    exact (hfirst.writes hfor).append (hw hfor)

include hdeclarationTakes

/-- A block is read with its statements and its closing brace. -/
lemma reads_block :
    Reads T (block declaration) fun body used _ =>
      (NoFor T → Writes (body.flatMap Node.flatten ++ [.mark .rightBrace]) used) ∧
        ∀ s ∈ body, IsStatement T s := by
  intro ts body rest hT h
  obtain ⟨body, close, hbody, hcloseKind, rfl⟩ := closedBy_eq_ok.mp h
  have hgathers := (itemsUntil_eq_ok hdeclarationTakes).mp hbody
  obtain ⟨used, rfl, hw, hshape, -⟩ := reads_statements hdeclaration hgathers hT
  refine ⟨used ++ [close], by simp, fun hfor => ?_, hshape⟩
  exact (hw hfor).append (.cons hcloseKind .nil)

/-- A block that stands as a statement is read with the tokens that write it. -/
lemma reads_blockStatement (hword : word.kind = .leftBrace) :
    Reads T ((Node.block ∘ Node.list) <$> block declaration) fun s used rest =>
      BranchRead T s (word :: used) rest := by
  intro ts s rest hT h
  obtain ⟨body, hbody, rfl⟩ := map_eq_ok.mp h
  obtain ⟨used, rfl, hw, hshape⟩ := reads_block hdeclaration hdeclarationTakes hT hbody
  refine ⟨used, rfl, ⟨.block hshape, fun hfor => ?_, ?_, by simp [endsOpen]⟩, rfl⟩
  · simpa [Node.flatten, List.flatMap_def] using Writes.cons (x := .mark .leftBrace) hword (hw hfor)
  · simp [continuesCondition, Node.flatten, Terminal.kind?]

omit hdeclaration hdeclarationTakes in
/-- Parameters are read with the commas between them and the closing parenthesis. -/
lemma reads_parameters :
    Reads T parameters fun params used _ =>
      Writes (commas (params.map fun t => [.exact t]) ++ [.mark .rightParen]) used ∧
        ∀ t ∈ params, T t ∧ t.kind = .identifier := by
  intro ts params rest hT h
  rw [parameters_def] at h
  obtain ⟨params, close, hparams, hcloseKind, rfl⟩ := closedBy_eq_ok.mp h
  have hitem : Reads T (expect .identifier) fun t used _ =>
      Writes [.exact t] used ∧ T t ∧ t.kind = .identifier := by
    intro ts t rest hT h
    obtain ⟨hkind, rfl⟩ := expect_eq_ok.mp h
    exact ⟨[t], rfl, .cons rfl .nil, hT t (by simp), hkind⟩
  obtain ⟨used, rfl, hw, hshape⟩ := reads_separated _ (takes_expect _).leaves hitem hT hparams
  exact ⟨used ++ [close], by simp, hw.append (.cons hcloseKind .nil), hshape⟩

/-- A function declaration is read with the tokens that write it. -/
lemma reads_funDeclaration (hword : word.kind = .funWord) :
    Reads T (funDeclaration declaration) fun s used rest => StatementRead T s (word :: used) rest := by
  intro ts s rest hT h
  unfold funDeclaration at h
  obtain ⟨name, mid₁, hname, h₁⟩ := bind_eq_ok.mp h
  obtain ⟨hnameKind, rfl⟩ := expect_eq_ok.mp hname
  obtain ⟨opening, mid₂, hopening, h₂⟩ := bind_eq_ok.mp h₁
  obtain ⟨hopeningKind, rfl⟩ := expect_eq_ok.mp hopening
  obtain ⟨params, mid₃, hparams, h₃⟩ := bind_eq_ok.mp h₂
  obtain ⟨usedP, rfl, hwP, hP⟩ := reads_parameters (fun t ht => hT t (by simp [ht])) hparams
  obtain ⟨brace, mid₄, hbrace, h₄⟩ := bind_eq_ok.mp h₃
  obtain ⟨hbraceKind, rfl⟩ := expect_eq_ok.mp hbrace
  obtain ⟨body, mid₅, hbody, h₅⟩ := bind_eq_ok.mp h₄
  obtain ⟨usedB, rfl, hwB, hB⟩ :=
    reads_block hdeclaration hdeclarationTakes (fun t ht => hT t (by simp [ht])) hbody
  obtain ⟨rfl, rfl⟩ := pure_eq_ok.mp h₅
  refine ⟨name :: opening :: usedP ++ brace :: usedB, by simp,
    .funDecl (hT _ (by simp)) hnameKind hP hB, fun hfor => ?_, ?_, by simp [endsOpen]⟩
  · have hw : Writes _ (word :: name :: opening :: (usedP ++ brace :: usedB)) :=
      .cons (x := .mark .funWord) hword <| .cons (x := .exact name) rfl <|
        .cons (x := .mark .leftParen) hopeningKind <|
          hwP.append (.cons (x := .mark .leftBrace) hbraceKind (hwB hfor))
    simpa [Node.flatten, List.flatMap_def, Function.comp_def] using hw
  · simp [continuesCondition, Node.flatten, Terminal.kind?]

end Statements

/-- Declarations and statements are read as the grammar has them. -/
theorem reads_declaration_statement (limit : Nat) :
    Reads T (declaration limit) (StatementRead T) ∧ Reads T (statement limit) (BranchRead T) := by
  induction limit with
  | zero =>
    constructor <;>
    · intro ts s rest _ h
      cases h
  | succ limit ih =>
    obtain ⟨hdeclaration, hstatement⟩ := ih
    have hexpression := reads_expression (T := T) limit
    have htakes := takes_declaration limit
    -- A declaration that begins with neither word is a statement.
    have plain : Reads T (statement limit) (StatementRead T) := by
      intro ts s rest hT h
      obtain ⟨used, hts, hread⟩ := hstatement hT h
      exact ⟨used, hts, hread.toStatementRead⟩
    constructor
    · intro ts s rest hT h
      cases ts with
      | nil => exact plain hT h
      | cons word us =>
        have hus : ∀ t ∈ us, T t := fun t ht => hT t (by simp [ht])
        unfold declaration at h
        dsimp only at h
        split at h
        case h_1 hword =>
          obtain ⟨used, rfl, hread, -⟩ := reads_varDeclaration hexpression hword hus h
          exact ⟨word :: used, rfl, hread⟩
        case h_2 hword =>
          obtain ⟨used, rfl, hread⟩ := reads_funDeclaration hdeclaration htakes hword hus h
          exact ⟨word :: used, rfl, hread⟩
        case h_3 => exact plain hT h
    · have plain : Reads T (expressionStatement (expression limit)) (BranchRead T) := by
        intro ts s rest hT h
        obtain ⟨used, hts, hread, -⟩ := reads_expressionStatement hexpression hT h
        exact ⟨used, hts, hread⟩
      intro ts s rest hT h
      cases ts with
      | nil => exact plain hT h
      | cons word us =>
        have hus : ∀ t ∈ us, T t := fun t ht => hT t (by simp [ht])
        have hwordT : T word := hT word (by simp)
        have withWord : (∃ used, us = used ++ rest ∧ BranchRead T s (word :: used) rest) →
            ∃ used, word :: us = used ++ rest ∧ BranchRead T s used rest := by
          rintro ⟨used, rfl, hread⟩
          exact ⟨word :: used, rfl, hread⟩
        unfold statement at h
        dsimp only at h
        split at h
        case h_1 hword => exact withWord (reads_ifStatement hexpression hstatement hword hus h)
        case h_2 hword => exact withWord (reads_printStatement hexpression hword hus h)
        case h_3 hword => exact withWord (reads_blockStatement hdeclaration htakes hword hus h)
        case h_4 hword => exact withWord (reads_whileStatement hexpression hstatement hword hus h)
        case h_5 hword =>
          exact withWord (reads_forStatement hexpression hstatement hword hwordT hus h)
        case h_6 hword => exact withWord (reads_returnStatement hexpression hword hwordT hus h)
        case h_7 => exact plain hT h

/-! ## Programs -/

/-- A program is what stands before the first end mark. -/
lemma tokens_cut (missing : Leaf) (tokens : List Leaf) :
    (Input.cut missing tokens).tokens = tokens.takeWhile (·.kind ≠ .eof) := by
  induction tokens with
  | nil => rfl
  | cons t rest ih => by_cases h : t.kind = .eof <;> simp [Input.cut, h, ih]

/-- Tokens that are no end marks do not change where the program ends. -/
lemma stop_cut_append {missing : Leaf} {front : List Leaf} (h : ∀ t ∈ front, t.kind ≠ .eof)
    (rest : List Leaf) : (Input.cut missing (front ++ rest)).stop = (Input.cut missing rest).stop := by
  induction front with
  | nil => rfl
  | cons t front ih =>
    obtain ⟨ht, hfront⟩ := List.forall_mem_cons.mp h
    rw [List.cons_append, Input.cut, if_neg ht]
    exact ih hfront

/-- What ends a program is an end mark. -/
lemma kind_stop_cut {mark : Leaf} (hmark : mark.kind = .eof) (ts : List Leaf) :
    (Input.cut mark ts).stop.kind = .eof := by
  induction ts with
  | nil => exact hmark
  | cons t ts ih =>
    by_cases heof : t.kind = .eof
    · simp [Input.cut, heof]
    · simpa [Input.cut, heof] using ih

/-- What ends a list of tokens is an end mark. -/
lemma kind_of_endMark? {tokens : List Leaf} {mark : Leaf} (h : endMark? tokens = some mark) :
    mark.kind = .eof := by
  unfold endMark? at h
  split at h
  · cases h
    rfl
  · split at h
    next heof =>
      cases h
      exact heof
    · obtain ⟨line, -, rfl⟩ := Option.map_eq_some_iff.mp h
      rfl

/-- What parsing does: declarations are read up to the end of the program. -/
lemma parseWithin_apply (limit : Nat) (tokens : List Leaf) :
    parseWithin limit tokens =
      match endMark? (tokens.filter (·.kind ≠ .comment)) with
      | none => .error ⟨.noEnd, .endMark .null⟩
      | some mark =>
        match itemsUntil .eof (declaration limit) (programTokens tokens) with
        | .ok (statements, _) => .ok statements
        | .error cause => .error ⟨cause, (Input.cut mark (tokens.filter (·.kind ≠ .comment))).stop⟩ := by
  have hcut : ∀ mark, (Input.cut mark (tokens.filter (·.kind ≠ .comment))).tokens =
      programTokens tokens := fun mark => tokens_cut mark _
  unfold parseWithin Input.ofTokens?
  dsimp only
  cases endMark? (tokens.filter (·.kind ≠ .comment)) with
  | none => rfl
  | some mark =>
    rw [← hcut mark]
    rfl

/-- Parsing succeeds exactly when there is an end to the tokens and declarations are gathered up to
it. -/
lemma parseWithin_eq_ok {limit : Nat} {tokens : List Leaf} {statements : List Node} :
    parseWithin limit tokens = .ok statements ↔
      (∃ mark, endMark? (tokens.filter (·.kind ≠ .comment)) = some mark) ∧
        Gathers (nextUntil .eof (declaration limit)) (programTokens tokens) statements [] := by
  have htakes := takes_declaration limit
  -- What is left of a program is empty, because no end mark is among its tokens.
  have hempty : ∀ {rest : List Leaf},
      itemsUntil .eof (declaration limit) (programTokens tokens) = .ok (statements, rest) →
        rest = [] := by
    intro rest h
    have hgathers := (itemsUntil_eq_ok htakes).mp h
    obtain ⟨-, -, -, -, hstop⟩ := reads_statements (T := fun _ => True)
      (reads_declaration_statement limit).1 hgathers (by simp)
    cases rest with
    | nil => rfl
    | cons t rest =>
      have hmem : t ∈ programTokens tokens := (htakes.leaves.itemsUntil .eof h).mem (by simp)
      exact absurd (hstop t rfl) (kind_of_mem_programTokens hmem).2
  rw [← itemsUntil_eq_ok htakes, parseWithin_apply]
  generalize endMark? (tokens.filter (·.kind ≠ .comment)) = mark?
  cases mark? with
  | none => simp
  | some mark =>
    cases hrun : itemsUntil .eof (declaration limit) (programTokens tokens) with
    | error e => simp
    | ok r =>
      obtain ⟨out, rest⟩ := r
      constructor
      · intro h
        obtain rfl : out = statements := by simpa using h
        rw [hempty hrun]
        exact ⟨⟨mark, rfl⟩, rfl⟩
      · rintro ⟨-, h⟩
        obtain ⟨rfl, rfl⟩ : out = statements ∧ rest = [] := by simpa using h
        rfl

/-- What a program that was parsed has read. -/
lemma reads_program {limit : Nat} {tokens : List Leaf} {statements : List Node}
    (hT : ∀ t ∈ tokens, T t) (h : parseWithin limit tokens = .ok statements) :
    (∀ s ∈ statements, IsStatement T s) ∧
      (NoFor T → Writes (Node.flattenProgram statements) (programTokens tokens)) := by
  have hgathers := (parseWithin_eq_ok.mp h).2
  obtain ⟨used, hused, hw, hshape, -⟩ := reads_statements (reads_declaration_statement limit).1
    hgathers fun t ht => hT t (kind_of_mem_programTokens ht).1
  rw [List.append_nil] at hused
  exact ⟨hshape, hused ▸ hw⟩

/-- A program without `for` is written by the tokens that it was parsed from, comments and everything
from the first end mark on left out, and every construct in it stands on its place of the ladder. -/
theorem program_written_by_tokens {limit : Nat} {tokens : List Leaf} {statements : List Node}
    (hfor : ∀ t ∈ tokens, t.kind ≠ .forWord) (h : parseWithin limit tokens = .ok statements) :
    Writes (Node.flattenProgram statements) (programTokens tokens) ∧
      ∀ s ∈ statements, IsStatement (· ∈ tokens) s := by
  obtain ⟨hshape, hwrites⟩ := reads_program (fun _ ht => ht) h
  exact ⟨hwrites hfor, hshape⟩

/-- A token of a kind, with a text. -/
def textToken (kind : Kind) (text : String) : Leaf :=
  ⟨kind, .str text, .null, .int 1, .int 0, .int 0⟩

/-- The tokens of `if a if b return; else print -c;`. -/
def nestedIfTokens : List Leaf :=
  [textToken .ifWord "if", textToken .identifier "a", textToken .ifWord "if",
   textToken .identifier "b", textToken .returnWord "return", textToken .semicolon ";",
   textToken .elseWord "else", textToken .printWord "print", textToken .minus "-",
   textToken .identifier "c", textToken .semicolon ";"]

/-- The statement that these tokens write: the `else` belongs to the inner `if`. -/
def nestedIf : Node :=
  .ifStmt (.ident (.token (textToken .identifier "a")))
    (.ifStmt (.ident (.token (textToken .identifier "b")))
      (.returnStmt (.token (textToken .returnWord "return")) .null)
      (.printStmt (.unary (.token (textToken .minus "-"))
        (.ident (.token (textToken .identifier "c"))))))
    .null

theorem nestedIf_written_by_tokens :
    (∀ t ∈ nestedIfTokens, t.kind ≠ .forWord) ∧
      parseWithin 9 nestedIfTokens = .ok [nestedIf] ∧
      Writes (Node.flattenProgram [nestedIf]) (programTokens nestedIfTokens) ∧
      ∀ s ∈ [nestedIf], IsStatement (· ∈ nestedIfTokens) s := by
  have hfor : ∀ t ∈ nestedIfTokens, t.kind ≠ .forWord := by decide
  have hparse : parseWithin 9 nestedIfTokens = .ok [nestedIf] := rfl
  exact ⟨hfor, hparse, program_written_by_tokens hfor hparse⟩

end Scriptlet.Grammar
