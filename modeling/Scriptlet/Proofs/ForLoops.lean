import Scriptlet.Proofs.Conditions
import Scriptlet.Proofs.DeclaredNames
import Scriptlet.Proofs.EmptyScopes
import Scriptlet.Proofs.Positions

/-!
# `for` statements

A `for` statement has no tree of its own.  It is read as the block that one could have written instead: the
initializer, and a `while` statement whose body is a block of the loop body and the increment.  Each part of the
statement is read in this block as it is on its own, with whatever tokens the block is written
(`ForHeader.parses_asBlock`).

The inner block opens a scope on every turn, and the increment is evaluated in that scope.  Nobody can tell, as
the parser takes no declaration for a loop body, so the scope stays empty.  A `for` statement is therefore
executed as one would expect, with one scope for the whole loop (`Exec.execute_loop`).
-/

namespace Scriptlet

namespace Grammar

open Filter

variable {n : ℕ} {ts us rest : List Leaf} {t word : Leaf} {s : Node}

/-! ## Parts that are read on their own -/

/-- The parser, with some nesting limit, reads the tokens of the part as its tree. -/
def Part.IsReadBy (parser : ℕ → Parse Node) (p : Part) : Prop :=
  ∃ n, parser n p.tokens = .ok (p.tree, [])

/-- Each part of the header is read on its own, the initializer with its semicolon. -/
structure ForHeader.IsRead (header : ForHeader) : Prop where
  initializer : ∀ p ∈ header.initializer?, p.IsReadBy declaration
  condition : ∀ p ∈ header.condition?, p.IsReadBy expression
  increment : ∀ p ∈ header.increment?, p.IsReadBy expression

/-- What a parser reads with nothing behind it, it reads as a part. -/
lemma Part.isReadBy_of_parses {parser : ℕ → Parse Node} {p : Part}
    (h : Parses parser (p.tokens ++ []) p.tree []) : p.IsReadBy parser := by
  rw [List.append_nil] at h
  exact h.exists

/-- The parts of a header that are written by the grammar are read. -/
lemma ForHeader.IsWritten.isRead {T : Leaf → Prop} {header : ForHeader} (h : header.IsWritten T) :
    header.IsRead := by
  have hexpression : ∀ p : Part, IsExpression T p.tree ∧ Writes p.tree.flatten p.tokens →
      p.IsReadBy expression := by
    rintro p ⟨he, hw⟩
    exact Part.isReadBy_of_parses ((he.parsable hw).asExpression [] (notNext_nil _))
  refine ⟨fun p hp => ?_, fun p hp => hexpression p (h.condition p hp),
    fun p hp => hexpression p (h.increment p hp)⟩
  obtain ⟨hs, hw⟩ := h.initializer p hp
  exact Part.isReadBy_of_parses ((hs.parsable hw).asDeclaration [] fun _ => notNext_nil _)

/-- Whatever is read as a statement is read as a declaration. -/
lemma Part.IsReadBy.declaration {p : Part} (h : p.IsReadBy statement) : p.IsReadBy declaration := by
  obtain ⟨n, hn⟩ := h
  refine ⟨n + 1, ?_⟩
  obtain ⟨t, us, hts, hkind⟩ := isNext_of_statement hn
  rw [hts] at hn ⊢
  rw [← hn]
  cases hk : t.kind <;> simp [hk, beginsStatement, beginsExpression] at hkind <;>
    simp [Grammar.declaration, hk]

/-- A statement that was read on its own is no declaration, so it declares nothing. -/
lemma Part.IsReadBy.declares_eq {p : Part} (h : p.IsReadBy statement) : p.tree.declares = false := by
  obtain ⟨n, hn⟩ := h
  obtain ⟨_, -, hread⟩ := (reads_declaration_statement n).2 (fun _ _ => trivial) hn
  exact hread.shape.declares_eq.trans hread.plain

/-- The first token of a declaration does not end a block. -/
lemma exists_head_of_declaration (h : declaration n ts = .ok (s, rest)) :
    ∃ t ∈ ts.head?, t.kind ≠ .rightBrace := by
  cases ts with
  | nil => exact absurd (takes_declaration n h).2 (Nat.not_lt_zero _)
  | cons t us =>
    exact ⟨t, rfl, fun hkind => failsAt_declaration (hkind ▸ rfl) (hkind ▸ nofun) n us _ h⟩

/-! ## Blocks of parts -/

/-- Declarations behind one another are gathered up to the end of the block. -/
lemma gathers_parts {parts : List Part} (hparts : ∀ p ∈ parts, p.IsReadBy declaration) {closing : Leaf}
    (hclosing : closing.kind = .rightBrace) (rest : List Leaf) :
    ∀ᶠ n in atTop, Gathers (nextUntil .rightBrace (declaration n))
      (parts.flatMap Part.tokens ++ closing :: rest) (parts.map Part.tree) (closing :: rest) := by
  induction parts with
  | nil => exact .of_forall fun n => .done (nextUntil_eq_none.mpr ⟨by simpa using hclosing, rfl⟩)
  | cons p parts ih =>
    obtain ⟨⟨n, hp⟩, hothers⟩ := List.forall_mem_cons.mp hparts
    have hlater := ih hothers
    -- What follows the first part is another one or the end of the block, but no `else`.
    obtain ⟨m, hm⟩ := hlater.exists
    have hnext := notNext_else_of_gathers hm (notNext_cons.mpr (by simp [hclosing]))
    have hread := parses_of_ok approximates_declaration ((seals_declaration_statement hnext n).1.joins hp)
    obtain ⟨t, ht, hkind⟩ := exists_head_of_declaration hp
    filter_upwards [hread, hlater] with m hm hgathers
    rw [List.flatMap_cons, List.append_assoc]
    exact .more (nextUntil_eq_some.mpr ⟨⟨t, List.mem_head?_append_of_mem_head? ht, hkind⟩, hm⟩) hgathers

/-- The block of some parts. -/
def Part.blockOf (opening closing : Leaf) (parts : List Part) : Part :=
  ⟨opening :: parts.flatMap Part.tokens ++ [closing], .block (.list (parts.map Part.tree))⟩

/-- A block is read if its statements are. -/
lemma isReadBy_blockOf {parts : List Part} (hparts : ∀ p ∈ parts, p.IsReadBy declaration)
    {opening closing : Leaf} (hopening : opening.kind = .leftBrace) (hclosing : closing.kind = .rightBrace) :
    (Part.blockOf opening closing parts).IsReadBy statement :=
  (parses_blockStatement hopening (parses_block hclosing (gathers_parts hparts hclosing []))).exists

/-- A `while` statement whose condition and body are read on their own. -/
lemma isReadBy_while {condition : Node} {body : Part} (hword : word.kind = .whileWord)
    (hcondition : Parsable condition ts) (hbody : body.IsReadBy statement)
    (hfirst : NotNext continuing body.tokens) :
    (Part.mk (word :: ts ++ body.tokens) (.whileStmt condition body.tree)).IsReadBy statement := by
  obtain ⟨n, hn⟩ := hbody
  have hread : Parses statement (body.tokens ++ []) body.tree [] :=
    parses_statement_append hn (notNext_nil _)
  have hexpression := hcondition.asExpression (body.tokens ++ []) (by rwa [List.append_nil])
  exact Part.isReadBy_of_parses (parses_whileStmt hword hexpression hread)

/-! ## The block that a `for` statement stands for -/

/-- How a `for` statement is written. -/
def ForHeader.asFor (header : ForHeader) (body : Part) : List Terminal :=
  .mark .forWord :: header.terminals ++ body.terminals

/-- How the block is written that a `for` statement stands for. -/
def ForHeader.asBlock (header : ForHeader) (body : Part) : List Terminal :=
  .mark .leftBrace :: header.initializer?.elim [] Part.terminals
    ++ .mark .whileWord :: header.condition?.elim [.mark .trueWord] Part.terminals
    ++ .mark .leftBrace :: body.terminals
    ++ header.increment?.elim [] (fun p => p.terminals ++ [.mark .semicolon])
    ++ [.mark .rightBrace, .mark .rightBrace]

namespace ForHeader

variable {header : ForHeader} {body : Part}

/-- Some tokens write the block. -/
lemma exists_asBlock (header : ForHeader) (body : Part) : ∃ us, Writes (header.asBlock body) us := by
  have hpart : ∀ p : Part, Writes p.terminals p.tokens := fun p => Part.writes_terminals.mpr rfl
  have mark : ∀ kind : Kind, (Terminal.mark kind).Matches (textToken kind "") := fun kind => rfl
  obtain ⟨initializer, hinitializer⟩ : ∃ us, Writes (header.initializer?.elim [] Part.terminals) us := by
    cases header.initializer? with
    | none => exact ⟨_, .nil⟩
    | some p => exact ⟨_, hpart p⟩
  obtain ⟨condition, hcondition⟩ :
      ∃ us, Writes (header.condition?.elim [.mark .trueWord] Part.terminals) us := by
    cases header.condition? with
    | none => exact ⟨_, .cons (mark _) .nil⟩
    | some p => exact ⟨_, hpart p⟩
  obtain ⟨increment, hincrement⟩ :
      ∃ us, Writes (header.increment?.elim [] fun p => p.terminals ++ [.mark .semicolon]) us := by
    cases header.increment? with
    | none => exact ⟨_, .nil⟩
    | some p => exact ⟨_, (hpart p).append (.cons (mark _) .nil)⟩
  have hfront := (hinitializer.cons (mark .leftBrace)).append (hcondition.cons (mark .whileWord))
  have hinner := (hfront.append ((hpart body).cons (mark .leftBrace))).append hincrement
  exact ⟨_, hinner.append (.cons (mark .rightBrace) (.cons (mark .rightBrace) .nil))⟩

/-- The tokens of the condition are those of an expression, also if they are only the word `true`. -/
lemma IsRead.parsable_condition (h : header.IsRead)
    (hw : Writes (header.condition?.elim [.mark .trueWord] Part.terminals) ts) :
    Parsable header.condition ts := by
  unfold ForHeader.condition
  cases hcondition : header.condition? with
  | none =>
    rw [hcondition] at hw
    obtain ⟨t, ht, rfl⟩ := writes_singleton.mp hw
    have hkind : t.kind = .trueWord := ht
    exact parsable_literal (by simp [Leaf.denoted?, hkind])
  | some p =>
    rw [hcondition] at hw
    obtain ⟨n, hn⟩ := h.condition p hcondition
    obtain rfl := Part.writes_terminals.mp hw
    exact (of_expression hn).2.2

/-- The initializer, if there is one, is a part of the block. -/
lemma IsRead.exists_initializer (h : header.IsRead)
    (hw : Writes (header.initializer?.elim [] Part.terminals) ts) :
    ∃ parts : List Part, (∀ p ∈ parts, p.IsReadBy declaration) ∧ parts.flatMap Part.tokens = ts ∧
      parts.map Part.tree = (header.initializer?.map Part.tree).toList := by
  cases hinitializer : header.initializer? with
  | none =>
    rw [hinitializer] at hw
    exact ⟨[], by simp, (writes_nil.mp hw).symm, rfl⟩
  | some p =>
    rw [hinitializer] at hw
    refine ⟨[p], by simpa using h.initializer p hinitializer, ?_, rfl⟩
    simpa using (Part.writes_terminals.mp hw).symm

/-- The increment, if there is one, is a statement of the inner block. -/
lemma IsRead.exists_increment (h : header.IsRead)
    (hw : Writes (header.increment?.elim [] fun p => p.terminals ++ [.mark .semicolon]) ts) :
    ∃ parts : List Part, (∀ p ∈ parts, p.IsReadBy declaration) ∧ parts.flatMap Part.tokens = ts ∧
      parts.map Part.tree = ((header.increment?.map Part.tree).map Node.exprStmt).toList := by
  cases hincrement : header.increment? with
  | none =>
    rw [hincrement] at hw
    exact ⟨[], by simp, (writes_nil.mp hw).symm, rfl⟩
  | some p =>
    rw [hincrement] at hw
    obtain ⟨n, hn⟩ := h.increment p hincrement
    obtain ⟨front, back, rfl, hfront, hback⟩ := writes_append.mp hw
    obtain rfl := Part.writes_terminals.mp hfront
    obtain ⟨semicolon, hsemicolon, rfl⟩ := writes_singleton.mp hback
    obtain ⟨hshape, hwrites, hparsable⟩ := of_expression hn
    have hread : (Part.mk (p.tokens ++ [semicolon]) (.exprStmt p.tree)).IsReadBy statement :=
      Part.isReadBy_of_parses (parses_exprStmt hsemicolon hparsable (hshape.isNext hwrites) [])
    exact ⟨[_], by simpa using hread.declaration, by simp, rfl⟩

/-- The block that a `for` statement stands for is read as the loop. -/
theorem parses_asBlock (hheader : header.IsRead) (hbody : body.IsReadBy statement)
    (hw : Writes (header.asBlock body) ts) : (Part.mk ts (header.loop body.tree)).IsReadBy statement := by
  obtain ⟨front, _, rfl, hfront, hends⟩ := writes_append.mp hw
  obtain ⟨front, incrementTokens, rfl, hfront, hincrement⟩ := writes_append.mp hfront
  obtain ⟨front, bodyTokens, rfl, hfront, hbodyTokens⟩ := writes_append.mp hfront
  obtain ⟨front, conditionTokens, rfl, hfront, hcondition⟩ := writes_append.mp hfront
  obtain ⟨opening, initializerTokens, hopening, hinitializer, rfl⟩ := writes_cons.mp hfront
  obtain ⟨word, conditionTokens, hword, hconditionTokens, rfl⟩ := writes_cons.mp hcondition
  obtain ⟨innerOpening, _, hinnerOpening, hinner, rfl⟩ := writes_cons.mp hbodyTokens
  obtain rfl := Part.writes_terminals.mp hinner
  obtain ⟨innerClosing, _, hinnerClosing, hlast, rfl⟩ := writes_cons.mp hends
  obtain ⟨closing, hclosing, rfl⟩ := writes_singleton.mp hlast
  obtain ⟨initializers, hinitializers, rfl, hinitializerTrees⟩ := hheader.exists_initializer hinitializer
  obtain ⟨increments, hincrements, rfl, hincrementTrees⟩ := hheader.exists_increment hincrement
  -- The body of the `while` statement is a block, and a brace does not continue the condition.
  have hturn : (Part.blockOf innerOpening innerClosing (body :: increments)).IsReadBy statement :=
    isReadBy_blockOf (List.forall_mem_cons.mpr ⟨hbody.declaration, hincrements⟩) hinnerOpening hinnerClosing
  have hbrace : NotNext continuing (Part.blockOf innerOpening innerClosing (body :: increments)).tokens := by
    have hkind : innerOpening.kind = .leftBrace := hinnerOpening
    simp [Part.blockOf, hkind, continuing, operatorOr, levels]
  have hloop := isReadBy_while hword (hheader.parsable_condition hconditionTokens) hturn hbrace
  have hparts := List.forall_mem_append.mpr ⟨hinitializers, List.forall_mem_singleton.mpr hloop.declaration⟩
  have houter := isReadBy_blockOf hparts hopening hclosing
  simpa [Part.blockOf, loop, forLoop, hinitializerTrees, hincrementTrees] using houter

end ForHeader

/-- The parts of a `for` statement that was read. -/
lemma exists_forHeader (hword : word.kind = .forWord) (h : statement n (word :: ts) = .ok (s, [])) :
    ∃ (header : ForHeader) (body : Part), header.IsRead ∧ body.IsReadBy statement ∧
      Writes (header.asFor body) (word :: ts) ∧ s = header.loop body.tree := by
  cases n with
  | zero => cases h
  | succ n =>
    simp only [statement, hword] at h
    obtain ⟨header, used, mid, body, rfl, hheader, hw, hbody, rfl⟩ :=
      reads_forHeader (T := fun _ => True) (reads_expression n) (fun _ _ => trivial) h
    refine ⟨header, ⟨mid, body⟩, hheader.isRead, ⟨n, hbody⟩, ?_, rfl⟩
    exact .append (.cons (Terminal.matches_mark.mpr hword) hw) (Part.writes_terminals.mpr rfl)

end Grammar

/-! ## Execution -/

namespace Exec

open Grammar

/-- Executes a `for` statement directly.  There is one fresh scope, for the whole loop.  The initializer is run
in it, and then the condition is evaluated, and the body run and the increment evaluated, until the condition
does not hold.  Of the nesting that is left, each part has what is left for it in the tree of the loop, and
without two levels there is no loop at all. -/
def executeFor (setting : Setting) : (depth : ℕ) → ForHeader → (body : Node) → Exec Unit
  | 0, _, _ | 1, _, _ => throw .tooDeep
  | depth + 2, header, body => inFreshScope do
    header.initializer?.forM fun p => execute setting (depth + 1) p.tree
    repeatWhile
      (do
        let value ← evaluate setting depth header.condition
        record (.whileCondition value)
        return value.truthy)
      (do
        execute setting (depth - 1) body
        header.increment?.forM fun p => do
          let _ ← evaluate setting (depth - 2) p.tree)
      setting.turns

/-- A turn of the loop is the body and the increment.  The scope that is opened for them is not noticed. -/
lemma execute_turn (setting : Setting) (depth : ℕ) {body : Node} (hbody : body.declares = false)
    (increment? : Option Part) :
    execute setting depth (.block (.list (body :: ((increment?.map Part.tree).map Node.exprStmt).toList))) = (do
      execute setting (depth - 1) body
      increment?.forM fun p => do
        let _ ← evaluate setting (depth - 2) p.tree) := by
  cases depth with
  | zero => rfl
  | succ depth =>
    have hdeclares : ∀ stmt ∈ body :: ((increment?.map Part.tree).map Node.exprStmt).toList,
        stmt.declares = false := by
      refine List.forall_mem_cons.mpr ⟨hbody, fun stmt hmem => ?_⟩
      obtain ⟨p, -, rfl⟩ : ∃ p ∈ increment?, .exprStmt p.tree = stmt := by simpa using hmem
      rfl
    rw [execute_block_of_declares_eq_false setting depth hdeclares]
    cases increment? with
    | none => rfl
    | some p =>
      have hincrement : execute setting depth (.exprStmt p.tree) = (do
          let _ ← evaluate setting (depth - 1) p.tree) := by
        cases depth <;> rfl
      change (do execute setting depth body; execute setting depth (.exprStmt p.tree); pure ()) = _
      rw [hincrement, bind_pure_unit]
      rfl

/-- The loop that a `for` statement stands for is executed as the `for` statement is executed directly. -/
theorem execute_loop (setting : Setting) (depth : ℕ) (header : ForHeader) {body : Node}
    (hbody : body.declares = false) :
    execute setting depth (header.loop body) = executeFor setting depth header body := by
  let turn : Node := .block (.list (body :: ((header.increment?.map Part.tree).map Node.exprStmt).toList))
  -- The statements of the outer block are the initializer, if there is one, and the `while` statement.
  have hstatements : ∀ depth, execute setting (depth + 1) (header.loop body) = inFreshScope (do
      header.initializer?.forM fun p => execute setting depth p.tree
      execute setting depth (.whileStmt header.condition turn)) := by
    intro depth
    change inFreshScope (((header.initializer?.map Part.tree).toList ++
      [Node.whileStmt header.condition turn]).forM (execute setting depth)) = _
    cases header.initializer? with
    | none => exact congrArg inFreshScope bind_pure_unit
    | some p =>
      change inFreshScope (do
        execute setting depth p.tree
        execute setting depth (.whileStmt header.condition turn)
        pure ()) = _
      rw [bind_pure_unit]
      rfl
  match depth with
  | 0 => rfl
  | 1 =>
    rw [hstatements]
    cases header.initializer? <;> rfl
  | depth + 2 =>
    rw [hstatements, executeFor, ← execute_turn setting depth hbody header.increment?]
    rfl

end Exec

/-! ## The meaning of `for` -/

/-- What a `for` statement with the tokens `ts` and the tree `s` means. -/
structure Grammar.ForHeader.Explains (header : ForHeader) (body : Part) (ts : List Leaf) (s : Node) : Prop where
  /-- The parts of the header are read on their own. -/
  header_isRead : header.IsRead
  /-- So is the body, as a statement that is no declaration. -/
  body_isRead : body.IsReadBy statement
  /-- The tokens are those of the parts. -/
  writes : Writes (header.asFor body) ts
  exists_block : ∃ us, Writes (header.asBlock body) us
  /-- From the tokens of the block, wherever they stand, the parser makes the same tree up to positions, unless
  constructs are nested too deeply. -/
  parsed ⦃us us' : List Leaf⦄ : Writes (header.asBlock body) us → List.Forall₂ Leaf.Alike us us' →
    ∃ s', Node.Alike s s' ∧ ∃ depth, ∃ got : ℕ → Option Leaf, ∀ limit, statement limit us' =
      if depth ≤ limit then .ok (s', []) else .error (@.tooDeep (got limit))
  /-- The tree is executed as the direct loop, from any state and however it ends. -/
  executed (setting : Setting) (depth : ℕ) :
    Exec.execute setting depth s = Exec.executeFor setting depth header body.tree
  /-- No scope has got a name or lost one. -/
  names_eq (setting : Setting) (depth : ℕ) (start : State) :
    (Exec.final (Exec.execute setting depth s start)).scopes.map Frame.names = start.scopes.map Frame.names

open Grammar

/-- Every `for` statement is read as the block that it stands for and executed as the loop that it describes. -/
theorem forStatement_is_loop {n : ℕ} {word : Leaf} {ts : List Leaf} {s : Node} (hword : word.kind = .forWord)
    (h : statement n (word :: ts) = .ok (s, [])) :
    ∃ (header : ForHeader) (body : Part), header.Explains body (word :: ts) s := by
  obtain ⟨header, body, hheader, hbody, hw, rfl⟩ := exists_forHeader hword h
  refine ⟨header, body, hheader, hbody, hw, header.exists_asBlock body, fun us us' hus halike => ?_,
    fun setting depth => Exec.execute_loop setting depth header hbody.declares_eq,
    names_of_declares_eq_false rfl⟩
  obtain ⟨m, hm⟩ := ForHeader.parses_asBlock hheader hbody hus
  have hread : statement m us = .ok (header.loop body.tree, []) := hm
  have hsame := ((congruence_parsesAlike parsesSame_alike False).declaration_statement (le_refl m) (absurd rfl)).2
  have hmatched := (hsame halike).resolve_left And.left
  rw [hread] at hmatched
  generalize hread' : statement m us' = outcome at hmatched
  cases hmatched with
  | @ok _ r hr =>
    obtain ⟨s', rest⟩ := r
    obtain ⟨htree, hrest⟩ := hr
    obtain rfl : rest = [] := List.forall₂_nil_left_iff.mp hrest
    exact ⟨s', htree.mono fun hleaf => hleaf.1, exists_depth approximates_statement hread'⟩

/-- The tokens of `for (var x = a; x; x = -x) if x print x;`. -/
def negatingLoopTokens : List Leaf :=
  [textToken .forWord "for", textToken .leftParen "(",
   textToken .varWord "var", textToken .identifier "x", textToken .equal "=", textToken .identifier "a",
   textToken .semicolon ";", textToken .identifier "x", textToken .semicolon ";",
   textToken .identifier "x", textToken .equal "=", textToken .minus "-", textToken .identifier "x",
   textToken .rightParen ")",
   textToken .ifWord "if", textToken .identifier "x", textToken .printWord "print", textToken .identifier "x",
   textToken .semicolon ";"]

/-- The tree of these tokens. -/
def negatingLoop : Node :=
  let x : Node := .token (textToken .identifier "x")
  forLoop (some (.varDecl x (.ident (.token (textToken .identifier "a"))))) (.ident x)
    (some (.assign x (.unary (.token (textToken .minus "-")) (.ident x))))
    (.ifStmt (.ident x) (.printStmt (.ident x)) .null)

/-- The loop of the sample has a header and a body that explain its tree. -/
theorem negatingLoop_is_loop :
    statement 9 negatingLoopTokens = .ok (negatingLoop, []) ∧
      ∃ (header : ForHeader) (body : Part), header.Explains body negatingLoopTokens negatingLoop := by
  have h : statement 9 negatingLoopTokens = .ok (negatingLoop, []) := rfl
  exact ⟨h, forStatement_is_loop rfl h⟩

end Scriptlet
