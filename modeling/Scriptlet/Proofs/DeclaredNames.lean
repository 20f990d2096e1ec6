import Scriptlet.Proofs.ScopeFrames
import Scriptlet.Proofs.Soundness
import Scriptlet.Proofs.Unwinding
import Scriptlet.Proofs.Variables

/-!
# The names that a run leaves

The statements of a program are executed one after the other until one of them fails.  In the scope that
the program runs in, the declarations among the statements that were completed have then left their names,
and nothing else has left any.  What blocks, loops and calls declare they declare in scopes that are dropped
again, because the parser puts no declaration directly into a branch or a loop; and a declaration that fails,
be it in its initializer or because the name is taken, declares nothing.

The values of variables are another matter: any expression may assign to a variable of any scope that it
sees.  But a declaration that fails leaves every variable with the value that it had, as long as the
initializer does not assign to that very variable.
-/

namespace Scriptlet

open Exec

/-! ## Declarations that are completed, and declarations that fail -/

/-- The name that a declaration declares. -/
def Node.declared? : Node → Option Name
  | .varDecl (.token t) _ | .funDecl (.token t) _ _ => t.name?.toOption
  | _ => none

/-- In a parsed program declarations stand neither in branches nor in loops, so a statement that is none
declares nothing in the scope that it is executed in. -/
lemma Grammar.IsStatement.declares_eq {T : Leaf → Prop} {stmt : Node} (h : IsStatement T stmt) :
    stmt.declares = isDeclaration stmt := by
  induction h with
  | ifStmt _ _ hthen _ ihthen =>
    have hthen := ihthen.trans hthen
    simp [Node.declares, isDeclaration, hthen]
  | ifElse _ _ hthen _ _ _ helse ihthen ihelse =>
    have hthen := ihthen.trans hthen
    have helse := ihelse.trans helse
    simp [Node.declares, isDeclaration, hthen, helse]
  | whileStmt _ _ hbody _ ih =>
    have hbody := ih.trans hbody
    simp [Node.declares, isDeclaration, hbody]
  | _ => rfl

section Declarations

variable {setting : Setting} {depth : ℕ} {s t u : State} {stop : Stop} {value : Value}
  {stmt name e : Node}

/-- The names of the scopes of a chain when further ones have been declared in the first scope. -/
def declaring (new : List Name) (scopes : List (List Name)) : List (List Name) :=
  scopes.modifyHead (new ++ ·)

lemma declaring_nil (scopes : List (List Name)) : declaring [] scopes = scopes := by
  cases scopes <;> rfl

/-- Declaring names and then newer ones is declaring them all at once. -/
lemma declaring_declaring (new newer : List Name) (scopes : List (List Name)) :
    declaring newer (declaring new scopes) = declaring (newer ++ new) scopes := by
  cases scopes <;> simp [declaring]

/-- A declaration adds its name to the innermost scope. -/
lemma names_of_declare {new : Name} {scopes : Chain} (h : s.scopes.declare new value = .ok scopes) :
    scopes.map Frame.names = declaring [new] (s.scopes.map Frame.names) := by
  obtain ⟨frame, outer, hscopes, rfl⟩ := Chain.exists_of_declare h
  rw [hscopes]
  rfl

/-- An expression that may be missing adds no name. -/
lemma names_of_evaluate? (setting : Setting) (depth : ℕ) (e : Node) (s : State) :
    (final (evaluate? setting depth e s)).scopes.map Frame.names = s.scopes.map Frame.names := by
  cases e with
  | null => rfl
  | _ => exact (respects_evaluate setting depth _ s).1

/-- What a declaration of a variable does once its initializer has a value. -/
lemma varDecl_cases (name : Node) (h : evaluate? setting depth e s = .ok value t) :
    (∃ new u, Node.declared? (.varDecl name e) = some new ∧
      execute setting (depth + 1) (.varDecl name e) s = .ok () u ∧
      u.scopes.map Frame.names = declaring [new] (t.scopes.map Frame.names)) ∨
    ∃ stop, execute setting (depth + 1) (.varDecl name e) s = .error stop t := by
  rw [execute_varDecl, bind_of_ok h]
  cases name with
  | token leaf =>
    simp only [Node.leaf?, part_ok, pure_bind]
    rcases declare_cases leaf value t with ⟨new, scopes, hnew, hscopes, hdeclare⟩ | ⟨stop, hdeclare⟩
    · have hname : Node.declared? (.varDecl (.token leaf) e) = some new := by
        simp [Node.declared?, hnew, Except.toOption]
      exact .inl ⟨new, _, hname, (bind_of_ok hdeclare).trans rfl, names_of_declare hscopes⟩
    · exact .inr ⟨stop, bind_of_error hdeclare⟩
  | _ => exact .inr ⟨_, rfl⟩

/-- What a declaration of a function does. -/
lemma funDecl_cases (setting : Setting) (depth : ℕ) (name params body : Node) (s : State) :
    (∃ new u, Node.declared? (.funDecl name params body) = some new ∧
      execute setting (depth + 1) (.funDecl name params body) s = .ok () u ∧
      u.scopes.map Frame.names = declaring [new] (s.scopes.map Frame.names)) ∨
    ∃ stop t, execute setting (depth + 1) (.funDecl name params body) s = .error stop t ∧
      t.scopes = s.scopes := by
  cases name with
  | token leaf =>
    let f : Value := .function ⟨s.made, leaf.lexeme.inText, params, body⟩
    have hrun : execute setting (depth + 1) (.funDecl (.token leaf) params body) s =
        (do declare leaf f; record (.defined leaf.lexeme.inText) : Exec Unit)
          { s with made := s.made + 1 } := rfl
    rw [hrun]
    rcases declare_cases leaf f { s with made := s.made + 1 } with
      ⟨new, scopes, hnew, hscopes, hdeclare⟩ | ⟨stop, hdeclare⟩
    · have hname : Node.declared? (.funDecl (.token leaf) params body) = some new := by
        simp [Node.declared?, hnew, Except.toOption]
      exact .inl ⟨new, _, hname, (bind_of_ok hdeclare).trans rfl, names_of_declare hscopes⟩
    · exact .inr ⟨stop, _, bind_of_error hdeclare, rfl⟩
  | _ => exact .inr ⟨_, s, rfl, rfl⟩

/-- A statement that declares nothing keeps all names, however it ends. -/
lemma names_of_declares_eq_false (hstmt : stmt.declares = false) (setting : Setting) (depth : ℕ) (s : State) :
    (final (execute setting depth stmt s)).scopes.map Frame.names = s.scopes.map Frame.names := by
  have heffect := (respectsFrom_map.mp (respects_effect setting depth (.execute stmt) s)).1
  rw [Task.effect, Node.effect, hstmt] at heffect
  exact heffect

/-- A statement that is completed has declared its name if it is a declaration, and nothing otherwise. -/
lemma names_of_execute_ok (hstmt : stmt.declares = Grammar.isDeclaration stmt)
    (h : execute setting depth stmt s = .ok () t) :
    t.scopes.map Frame.names = declaring stmt.declared?.toList (s.scopes.map Frame.names) := by
  cases depth with
  | zero => cases h
  | succ depth =>
    cases stmt with
    | varDecl name e =>
      have hrun := h
      rw [execute_varDecl] at hrun
      obtain ⟨value, u, hvalue, -⟩ := bind_eq_ok.mp hrun
      have hsame := names_of_evaluate? setting depth e s
      rw [hvalue] at hsame
      rcases varDecl_cases name hvalue with ⟨new, v, hnew, hok, hnames⟩ | ⟨stop, herror⟩
      · rw [h] at hok
        cases hok
        rw [hnew, hnames, ← hsame]
        rfl
      · rw [h] at herror
        cases herror
    | funDecl name params body =>
      rcases funDecl_cases setting depth name params body s with
        ⟨new, v, hnew, hok, hnames⟩ | ⟨stop, v, herror, -⟩
      · rw [h] at hok
        cases hok
        rw [hnew, hnames]
        rfl
      · rw [h] at herror
        cases herror
    | _ =>
      have hsame := names_of_declares_eq_false hstmt setting (depth + 1) s
      rw [h] at hsame
      exact hsame.trans (declaring_nil _).symm

/-- A declaration of a variable that fails leaves the scopes as its initializer has left them. -/
lemma scopes_of_varDecl_error (h : execute setting (depth + 1) (.varDecl name e) s = .error stop t) :
    t.scopes = (final (evaluate? setting depth e s)).scopes := by
  cases hvalue : evaluate? setting depth e s with
  | error stop' u =>
    rw [execute_varDecl, bind_of_error hvalue] at h
    cases h
    rfl
  | ok value u =>
    rcases varDecl_cases name hvalue with ⟨new, v, -, hok, -⟩ | ⟨stop', herror⟩
    · rw [h] at hok
      cases hok
    · rw [h] at herror
      cases herror
      rfl

/-- A declaration of a function that fails leaves the scopes as they were. -/
lemma scopes_of_funDecl_error {params body : Node}
    (h : execute setting depth (.funDecl name params body) s = .error stop t) : t.scopes = s.scopes := by
  cases depth with
  | zero =>
    cases h
    rfl
  | succ depth =>
    rcases funDecl_cases setting depth name params body s with
      ⟨new, v, -, hok, -⟩ | ⟨stop', v, herror, hscopes⟩
    · rw [h] at hok
      cases hok
    · rw [h] at herror
      cases herror
      exact hscopes

/-- A statement that fails has declared nothing. -/
lemma names_of_execute_error (hstmt : stmt.declares = Grammar.isDeclaration stmt)
    (h : execute setting depth stmt s = .error stop t) :
    t.scopes.map Frame.names = s.scopes.map Frame.names := by
  cases depth with
  | zero =>
    cases h
    rfl
  | succ depth =>
    cases stmt with
    | varDecl name e => rw [scopes_of_varDecl_error h, names_of_evaluate?]
    | funDecl name params body => rw [scopes_of_funDecl_error h]
    | _ =>
      have hsame := names_of_declares_eq_false hstmt setting (depth + 1) s
      rw [h] at hsame
      exact hsame

/-- Statements that are completed have declared the names of the declarations among them. -/
lemma names_of_forM_ok {stmts : List Node} (hstmts : ∀ stmt ∈ stmts, stmt.declares = Grammar.isDeclaration stmt)
    (h : stmts.forM (execute setting depth) s = .ok () t) :
    t.scopes.map Frame.names =
      declaring (stmts.filterMap Node.declared?).reverse (s.scopes.map Frame.names) := by
  induction stmts generalizing s with
  | nil =>
    cases h
    exact (declaring_nil _).symm
  | cons stmt stmts ih =>
    obtain ⟨hstmt, hrest⟩ := List.forall_mem_cons.mp hstmts
    obtain ⟨_, u, hfirst, hothers⟩ := bind_eq_ok.mp h
    rw [ih hrest hothers, names_of_execute_ok hstmt hfirst, declaring_declaring]
    cases hdeclared : stmt.declared? <;> simp [hdeclared]

end Declarations

/-! ## Programs -/

section Programs

variable {setting : Setting} {statements : List Node} {start : State}

/-- A run completes all of its statements, or those before the first one that fails. -/
lemma run_cases (setting : Setting) (statements : List Node) (start : State) :
    (∃ t u, (do record .runStart; statements.forM (execute setting setting.depth) : Exec Unit) start =
        .ok () t ∧ run setting statements start = .ok () u ∧ u.scopes = t.scopes) ∨
    ∃ before stmt after t stop stop' u, statements = before ++ stmt :: after ∧
      (do record .runStart; before.forM (execute setting setting.depth) : Exec Unit) start = .ok () t ∧
      execute setting setting.depth stmt t = .error stop u ∧
      run setting statements start = .error stop' u := by
  let begun : State := { start with log := .runStart :: start.log }
  have hrun : run setting statements start =
      (do outermost (statements.forM (execute setting setting.depth)); record .runEnd : Exec Unit) begun :=
    rfl
  rw [hrun]
  cases hstatements : statements.forM (execute setting setting.depth) begun with
  | ok _ t =>
    have houtermost : outermost (statements.forM (execute setting setting.depth)) begun = .ok () t := by
      unfold outermost
      rw [hstatements]
    exact .inl ⟨t, _, hstatements, (bind_of_ok houtermost).trans rfl, rfl⟩
  | error stop u =>
    obtain ⟨before, stmt, after, t, hsplit, hbefore, hstmt⟩ := forM_eq_error hstatements
    obtain ⟨stop', houtermost⟩ : ∃ stop',
        outermost (statements.forM (execute setting setting.depth)) begun = .error stop' u := by
      unfold outermost
      rw [hstatements]
      cases stop <;> exact ⟨_, rfl⟩
    exact .inr ⟨before, stmt, after, t, stop, stop', u, hsplit, hbefore, hstmt, bind_of_error houtermost⟩

end Programs

/-- The names of a scope are those that the chain seen from it has in its first scope. -/
lemma ScopeTree.names?_eq_head? (tree : ScopeTree) (n : ℕ) :
    tree.names? n = ((tree.chain n).map Frame.names).head? := by
  induction tree with
  | nil => rfl
  | cons scope older ih =>
    rw [names?_cons, ScopeTree.chain]
    split
    · cases scope.parent? <;> rfl
    · exact ih

/-- A declaration of a variable that fails leaves every variable with its value, unless the initializer
assigns to it. -/
lemma valueIn?_of_varDecl_error {setting : Setting} {name e : Node} {s t : State} {stop : Stop}
    (h : execute setting setting.depth (.varDecl name e) s = .error stop t) (x : Name) (n : ℕ) :
    t.scopes.valueIn? x n = s.scopes.valueIn? x n ∨
      ∃ depth, setting.depth = depth + 1 ∧ (Task.evaluate e).AssignsTo setting depth s x n := by
  cases hdepth : setting.depth with
  | zero =>
    rw [hdepth] at h
    cases h
    exact .inl rfl
  | succ depth =>
    rw [hdepth] at h
    rw [scopes_of_varDecl_error h]
    by_cases hnull : e = .null
    · subst hnull
      exact .inl rfl
    · rw [evaluate?_of_ne_null hnull]
      rcases (Task.evaluate e).keepsValue_or_assignsTo setting depth s x n with hkeeps | hassigns
      · exact .inl (respectsFrom_map.mp hkeeps).1.2
      · exact .inr ⟨depth, rfl, hassigns⟩

/-- After some of the statements of a program have been completed, the scope that it runs in binds the names
that it has bound before and those of the declarations among them. -/
lemma Session.names?_of_completed {setting : Setting} {session : Session} {n : ℕ} {names : List Name}
    {done : List Node} {t : State} (hnames : session.scopes.names? n = some names)
    (hdone : ∀ stmt ∈ done, stmt.declares = Grammar.isDeclaration stmt)
    (hok : (do record .runStart; done.forM (execute setting setting.depth) : Exec Unit) (session.state n) =
      .ok () t) :
    (t.scopes.map Frame.names).head? = some ((done.filterMap Node.declared?).reverse ++ names) := by
  let begun : State := { session.state n with log := [.runStart] }
  have hrun : done.forM (execute setting setting.depth) begun = .ok () t := hok
  have hbegun : (begun.scopes.map Frame.names).head? = some names := by
    rw [← hnames, ScopeTree.names?_eq_head?]
    rfl
  rw [names_of_forM_ok hdone hrun, declaring, List.head?_modifyHead, hbegun]
  rfl

/-- Exact names left by a run.  However a program that the parser accepts ends, the first `k` of its
statements were completed for some `k`, and the scope that it was run in binds the names that it has bound
before and those of the declarations among these `k`.  Either these are all statements and nothing went
wrong, or the next one has failed.  If that is a declaration of a variable, then every variable of every
scope has kept its value unless the initializer has assigned to it; if it is a declaration of a function,
then nothing has changed. -/
theorem Session.run_leaves_declared_names {tokens : List Leaf} {statements : List Node} {session : Session}
    {n : ℕ} {names : List Name} (setting : Setting) (hparse : Grammar.parse tokens = .ok statements)
    (hnames : session.scopes.names? n = some names) :
    let (report, after) := session.run setting n statements
    ∃ k t, k ≤ statements.length ∧
      (do record .runStart; (statements.take k).forM (execute setting setting.depth) : Exec Unit)
        (session.state n) = .ok () t ∧
      after.scopes.names? n = some (((statements.take k).filterMap Node.declared?).reverse ++ names) ∧
      (k = statements.length ∧ report.failure? = none ∨
        ∃ stmt stop u, statements[k]? = some stmt ∧ execute setting setting.depth stmt t = .error stop u ∧
          report.failure? ≠ none ∧ after.scopes.chain n = u.scopes ∧
          (∀ name e, stmt = .varDecl name e → ∀ x m,
            u.scopes.valueIn? x m = t.scopes.valueIn? x m ∨
              ∃ depth, setting.depth = depth + 1 ∧ (Task.evaluate e).AssignsTo setting depth t x m) ∧
          ∀ name params body, stmt = .funDecl name params body → u.scopes = t.scopes) := by
  have hshape : ∀ stmt ∈ statements, stmt.declares = Grammar.isDeclaration stmt := by
    have hstatements := (Grammar.reads_program (T := (· ∈ tokens)) (fun _ ht => ht) hparse).1
    exact fun stmt hmem => (hstatements stmt hmem).declares_eq
  have hafter : (session.run setting n statements).2.scopes.names? n =
      ((final (Exec.run setting statements (session.state n))).scopes.map Frame.names).head? := by
    rw [ScopeTree.names?_eq_head?, chain_run]
  dsimp only
  rcases run_cases setting statements (session.state n) with
    ⟨t, u, hall, hrun, hscopes⟩ | ⟨before, stmt, after, t, stop, stop', u, rfl, hbefore, hstmt, hrun⟩
  · have hdone := names?_of_completed hnames hshape hall
    rw [hrun] at hafter
    refine ⟨statements.length, t, le_rfl, ?_, ?_, .inl ⟨rfl, ?_⟩⟩
    · rw [List.take_length]
      exact hall
    · rw [List.take_length, hafter, ← hdone, final, hscopes]
    · rw [run_fst, hrun]
      rfl
  · -- The statements before the failing one have left their names, and this one leaves none.
    have hprefix : ∀ stmt ∈ before, stmt.declares = Grammar.isDeclaration stmt :=
      fun stmt hmem => hshape stmt (by simp [hmem])
    have hdone := names?_of_completed hnames hprefix hbefore
    have hnothing := names_of_execute_error (hshape stmt (by simp)) hstmt
    have htake : (before ++ stmt :: after).take before.length = before := List.take_left
    rw [hrun] at hafter
    refine ⟨before.length, t, by simp, ?_, ?_, .inr ⟨stmt, stop, u, ?_, hstmt, ?_, ?_, ?_, ?_⟩⟩
    · rw [htake]
      exact hbefore
    · rw [htake, hafter, ← hdone, final, hnothing]
    · simp
    · rw [run_fst, hrun]
      simp [stop?]
    · rw [chain_run, hrun, final]
    · rintro name e rfl x m
      exact valueIn?_of_varDecl_error hstmt x m
    · rintro name params body rfl
      exact scopes_of_funDecl_error hstmt

/-- The tokens of `var x; var x;`. -/
def declaredTwiceTokens : List Leaf :=
  [Grammar.textToken .varWord "var", Grammar.textToken .identifier "x", Grammar.textToken .semicolon ";",
   Grammar.textToken .varWord "var", Grammar.textToken .identifier "x", Grammar.textToken .semicolon ";"]

/-- The program that these tokens write; its second statement fails. -/
def declaredTwice : List Node :=
  List.replicate 2 (.varDecl (.token (Grammar.textToken .identifier "x")) .null)

/-- What is declared twice is bound once. -/
theorem declaredTwice_leaves_one_name :
    let start := Session.start 0
    let after := (start.run (Session.limits fun _ => 0) ScopeTree.rootNumber declaredTwice).2
    Grammar.parse declaredTwiceTokens = .ok declaredTwice ∧
      start.scopes.names? ScopeTree.rootNumber = some [.ofText "clock"] ∧
      after.scopes.names? ScopeTree.rootNumber = some [.ofText "x", .ofText "clock"] ∧
      ∃ k ≤ declaredTwice.length, after.scopes.names? ScopeTree.rootNumber =
        some (((declaredTwice.take k).filterMap Node.declared?).reverse ++ [.ofText "clock"]) := by
  have hparse : Grammar.parse declaredTwiceTokens = .ok declaredTwice := rfl
  have hnames : (Session.start 0).scopes.names? ScopeTree.rootNumber = some [.ofText "clock"] := rfl
  obtain ⟨k, t, hk, -, hleft, -⟩ :=
    Session.run_leaves_declared_names (Session.limits fun _ => 0) hparse hnames
  exact ⟨hparse, hnames, rfl, k, hk, hleft⟩

end Scriptlet
