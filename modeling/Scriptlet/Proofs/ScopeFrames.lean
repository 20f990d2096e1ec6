import Scriptlet.Proofs.SessionSteps

/-!
# Which scopes a run touches

What runs in a scope sees that scope and the ones around it.  It can assign to the variables of all of
them, but it can declare new variables in the scope itself alone, and no other scope of the tree is touched
at all.  An expression declares nothing anywhere.

A run works on the chain of the frames that it sees, and writes them back to the tree when it has ended, in
whatever way.  So what is known about chains before and after a run (`Exec.Respects`) says which scopes of
the tree have changed, and how.
-/

namespace Scriptlet

namespace ScopeTree

/-- The scope of the given number. -/
def scope? (tree : ScopeTree) (n : ℕ) : Option Scope :=
  tree.reverse[n]?

/-- A scope lies directly inside another one, which was opened before it. -/
def LiesIn (tree : ScopeTree) (n p : ℕ) : Prop :=
  ∃ scope, tree.scope? n = some scope ∧ scope.parent? = some p ∧ p < n

/-- The names that the scope of the given number binds. -/
def names? (tree : ScopeTree) (n : ℕ) : Option (List Name) :=
  (tree.scope? n).map (·.frame.names)

/-- What becomes of a tree when something is done in the scope of the given number: the same scopes lie
inside each other, those that are neither this one nor around it are as they were, all others bind the same
names, and this one binds at least the names that it has bound. -/
structure Framed (tree : ScopeTree) (n : ℕ) (after : ScopeTree) : Prop where
  length_eq : after.length = tree.length
  parent_eq : ∀ m, (after.scope? m).map (·.parent?) = (tree.scope? m).map (·.parent?)
  elsewhere : ∀ m, ¬ Relation.ReflTransGen tree.LiesIn n m → after.scope? m = tree.scope? m
  around : ∀ m, m ≠ n → after.names? m = tree.names? m
  inside : ∀ names, tree.names? n = some names → ∃ names', after.names? n = some names' ∧ names <:+ names'

variable {tree older after : ScopeTree} {scope : Scope} {n m : ℕ} {chain : Chain}

/-- The newest scope has the highest number. -/
lemma scope?_cons :
    scope? (scope :: older) n = if n = older.length then some scope else scope? older n := by
  unfold scope?
  rw [List.reverse_cons]
  by_cases hlt : n < older.length
  · rw [List.getElem?_append_left (by simpa using hlt), if_neg hlt.ne]
  · by_cases heq : n = older.length
    · simp [heq]
    · have hgt : older.length < n := by omega
      rw [if_neg heq, List.getElem?_eq_none (by simpa using hgt),
        List.getElem?_eq_none (by simpa using hgt.le)]

/-- A number that names a scope is below the length of the tree. -/
lemma lt_length_of_scope? (h : tree.scope? n = some scope) : n < tree.length := by
  have hlt := (List.getElem?_eq_some_iff.mp h).1
  simpa using hlt

/-- Opening a further scope does not change what lies inside what. -/
lemma LiesIn.cons {p : ℕ} (h : LiesIn older n p) : LiesIn (scope :: older) n p := by
  obtain ⟨inner, hinner, hparent, hlt⟩ := h
  refine ⟨inner, ?_, hparent, hlt⟩
  rw [scope?_cons, if_neg (lt_length_of_scope? hinner).ne, hinner]

/-- A new scope lies in its parent. -/
lemma liesIn_length {p : ℕ} (hparent : scope.parent? = some p) (hlt : p < older.length) :
    LiesIn (scope :: older) older.length p :=
  ⟨scope, by rw [scope?_cons, if_pos rfl], hparent, hlt⟩

/-- Nothing is written to a scope that was never opened. -/
lemma write_of_length_le (h : tree.length ≤ n) : tree.write n chain = tree := by
  induction tree generalizing chain with
  | nil => rfl
  | cons scope older ih =>
    rw [List.length_cons] at h
    cases chain with
    | nil => rfl
    | cons frame outer =>
      have hne : n ≠ older.length := by omega
      simp only [write, if_neg hne, ih (by omega : older.length ≤ n)]

/-- Writing frames back leaves all scopes alone but the given one and those around it. -/
lemma scope?_write (h : ¬ Relation.ReflTransGen tree.LiesIn n m) :
    (tree.write n chain).scope? m = tree.scope? m := by
  induction tree generalizing n chain with
  | nil => rfl
  | cons scope older ih =>
    have hcons : ∀ {k}, Relation.ReflTransGen (LiesIn older) k m →
        Relation.ReflTransGen (LiesIn (scope :: older)) k m :=
      fun hreach => hreach.lift id fun _ _ => LiesIn.cons
    cases chain with
    | nil => rfl
    | cons frame outer =>
      simp only [write]
      split
      next hn =>
        subst hn
        have hm : m ≠ older.length := by
          rintro rfl
          exact h .refl
        cases hparent : scope.parent? with
        | none => rw [scope?_cons, scope?_cons, if_neg hm, if_neg hm]
        | some p =>
          -- a parent that is not older is no scope, and nothing is written behind it
          have hwrite : scope? (write older p outer) m = scope? older m := by
            by_cases hp : p < older.length
            · exact ih fun hreach => h (.head (liesIn_length hparent hp) (hcons hreach))
            · rw [write_of_length_le (Nat.le_of_not_lt hp)]
          rw [scope?_cons, scope?_cons, length_write, if_neg hm, if_neg hm, hwrite]
      next => rw [scope?_cons, scope?_cons, length_write, ih fun hreach => h (hcons hreach)]

/-- Writing frames back moves no scope. -/
lemma parent?_write (tree : ScopeTree) (n : ℕ) (chain : Chain) (m : ℕ) :
    ((tree.write n chain).scope? m).map (·.parent?) = (tree.scope? m).map (·.parent?) := by
  induction tree generalizing n chain with
  | nil => rfl
  | cons scope older ih =>
    cases chain with
    | nil => rfl
    | cons frame outer =>
      simp only [write]
      split
      · cases hparent : scope.parent? with
        | none =>
          rw [scope?_cons, scope?_cons]
          split <;> simp [hparent]
        | some p =>
          rw [scope?_cons, scope?_cons, length_write]
          split <;> simp [hparent, ih]
      · rw [scope?_cons, scope?_cons, length_write]
        split <;> simp [ih]

/-- The newest scope has the highest number, and the names of its frame. -/
lemma names?_cons :
    names? (scope :: older) m = if m = older.length then some scope.frame.names else names? older m := by
  unfold names?
  rw [scope?_cons]
  split <;> rfl

/-- A chain that binds the same names leaves every scope with the names that it has. -/
lemma names?_write (h : Chain.SameNames (tree.chain n) chain) (m : ℕ) :
    (tree.write n chain).names? m = tree.names? m := by
  induction tree generalizing n chain with
  | nil => rfl
  | cons scope older ih =>
    cases chain with
    | nil => rfl
    | cons frame outer =>
      simp only [ScopeTree.chain] at h
      simp only [write]
      split at h
      next hn =>
        rw [if_pos hn]
        cases hparent : scope.parent? with
        | none =>
          simp only [hparent] at h
          obtain ⟨hframe, -⟩ := List.cons.inj h
          rw [names?_cons, names?_cons, hframe]
        | some p =>
          simp only [hparent] at h
          obtain ⟨hframe, houter⟩ := List.cons.inj h
          rw [names?_cons, names?_cons, length_write, hframe, ih houter]
      next hn => rw [if_neg hn, names?_cons, names?_cons, length_write, ih h]

/-- A chain that has grown leaves every scope but the given one with the names that it has, and that one
with these and perhaps more. -/
lemma names?_write_of_grows (h : Chain.Grows (tree.chain n) chain) :
    (∀ m, m ≠ n → (tree.write n chain).names? m = tree.names? m) ∧
      ∀ names, tree.names? n = some names →
        ∃ names', (tree.write n chain).names? n = some names' ∧ names <:+ names' := by
  induction tree with
  | nil => exact ⟨fun _ _ => rfl, nofun⟩
  | cons scope older ih =>
    have hsame : ∀ names, names? (scope :: older) n = some names →
        ∃ names', names? (scope :: older) n = some names' ∧ names <:+ names' :=
      fun names hnames => ⟨names, hnames, List.suffix_rfl⟩
    cases chain with
    | nil => exact ⟨fun _ _ => rfl, hsame⟩
    | cons frame outer =>
      simp only [ScopeTree.chain] at h
      simp only [write]
      split at h
      next hn =>
        subst hn
        rw [if_pos rfl]
        cases hparent : scope.parent? with
        | none =>
          simp only [hparent] at h
          cases h with
          | cons hframe _ =>
            refine ⟨fun m hm => by rw [names?_cons, names?_cons, if_neg hm, if_neg hm], ?_⟩
            simpa [names?_cons] using hframe
        | some p =>
          simp only [hparent] at h
          cases h with
          | cons hframe houter =>
            -- only the first frame can have grown; the ones around it keep their names
            refine ⟨fun m hm => ?_, by simpa [names?_cons, length_write] using hframe⟩
            rw [names?_cons, names?_cons, length_write, if_neg hm, if_neg hm, names?_write houter]
      next hn =>
        obtain ⟨hothers, hown⟩ := ih h
        rw [if_neg hn]
        refine ⟨fun m hm => ?_, ?_⟩
        · rw [names?_cons, names?_cons, length_write, hothers m hm]
        · simpa [names?_cons, length_write, hn] using hown

/-- Writing back a chain that has grown touches the given scope and those around it. -/
theorem framed_write (h : Chain.Grows (tree.chain n) chain) : tree.Framed n (tree.write n chain) := by
  obtain ⟨haround, hinside⟩ := names?_write_of_grows h
  exact ⟨length_write tree n chain, parent?_write tree n chain, fun _ => scope?_write, haround, hinside⟩

lemma Framed.rfl : tree.Framed n tree :=
  ⟨Eq.refl _, fun _ => Eq.refl _, fun _ _ => Eq.refl _, fun _ _ => Eq.refl _,
    fun names h => ⟨names, h, List.suffix_rfl⟩⟩

end ScopeTree

open Exec

namespace Session

variable (setting : Setting) (session : Session) (n : ℕ)

/-- A run in a scope leaves the tree framed. -/
lemma framed_run (statements : List Node) :
    session.scopes.Framed n (session.run setting n statements).2.scopes := by
  rw [run_snd]
  exact ScopeTree.framed_write (respects_run setting statements (session.state n)).1

/-- A source that is interpreted in a scope leaves the tree framed, whether it is accepted or not. -/
lemma framed_interpret (source : List UInt8) :
    session.scopes.Framed n (session.interpret setting n source).2.scopes := by
  rcases interpret_cases setting session n source with h | ⟨statements, h⟩
  · rw [h]
    exact .rfl
  · rw [h]
    exact framed_run setting session n statements

/-- A stored program that is run in a scope leaves the tree framed, whether it is loaded or not. -/
lemma framed_runJson (json : Json) :
    session.scopes.Framed n (session.runJson setting n json).2.scopes := by
  rcases runJson_cases setting session n json with h | ⟨statements, h⟩
  · rw [h]
    exact .rfl
  · rw [h]
    exact framed_run setting session n statements

/-- The session after a task that was performed in a scope. -/
def afterTask (depth : ℕ) (task : Task) : Session :=
  session.resume n (final (task.perform setting depth (session.state n)))

end Session

/-- Whatever runs in a scope of a tree, from a source or from a stored tree, and however it ends, leaves all
scopes alone that are neither this one nor around it, and the names of all others but this one; and it never
takes a name from this one.  The same holds of each expression, call and statement on its own, and in the
scopes that are opened for blocks and calls.  An expression, with all that it calls, declares no name in any
scope. -/
theorem run_keeps_frames (setting : Setting) :
    (∀ session : Session, ∀ n,
      (∀ statements, session.scopes.Framed n (session.run setting n statements).2.scopes) ∧
      (∀ source, session.scopes.Framed n (session.interpret setting n source).2.scopes) ∧
      (∀ json, session.scopes.Framed n (session.runJson setting n json).2.scopes) ∧
      ∀ depth, (∀ task, session.scopes.Framed n (session.afterTask setting n depth task).scopes) ∧
        ∀ e m, (session.afterTask setting n depth (.evaluate e)).scopes.names? m = session.scopes.names? m) ∧
    ∀ depth s, (∀ task : Task, Chain.Grows s.scopes (final (task.perform setting depth s)).scopes) ∧
      ∀ e, Chain.SameNames s.scopes (final (evaluate setting depth e s)).scopes := by
  have hevaluate : ∀ depth e, Respects Chain.SameNames ((Task.evaluate e).perform setting depth) :=
    fun depth e => (respects_evaluate setting depth e).map some
  refine ⟨fun session n => ⟨session.framed_run setting n, session.framed_interpret setting n,
    session.framed_runJson setting n, fun depth => ⟨fun task => ?_, fun e => ?_⟩⟩,
    fun depth s => ⟨fun task => ?_, fun e => ?_⟩⟩
  · exact ScopeTree.framed_write (respects_perform setting depth task (session.state n)).1
  · exact ScopeTree.names?_write (hevaluate depth e (session.state n)).1
  · exact (respects_perform setting depth task s).1
  · exact (respects_evaluate setting depth e s).1

end Scriptlet
