import Scriptlet.Proofs.Tasks

/-!
# What running any tree leaves as it was

A tree that was read from a file may be of any sort, and running it may end in any way: with a value, with
a return, with an error of the script, with a fault of the tree.  Whatever it is and however it ends, two
things are certain.  All calls that were begun have been left again, so as many calls are active as before.
And the scopes that are seen are the same ones: evaluating an expression declares no name in any of them,
and executing a statement can declare names in the innermost one alone.

More generally, whatever relation between chains is kept by assignments, and by declarations as far as they
are made in the innermost scope, is kept by all that runs (`Discipline`).  This is shown of every
computation that runs are made of, then of one task, if it holds of those that the task starts
(`Scoping.step`), and from there of all tasks by one induction on the number of constructs and calls that
may still be nested (`Scoping.respectsFrom_perform`).  It is enough that the relation is kept by the
assignments that the task really comes to make.
-/

namespace Scriptlet

/-! ## Chains before and after -/

namespace Chain

/-- Two chains bind the same names, scope by scope; the values of the names may differ. -/
def SameNames (before after : Chain) : Prop :=
  after.map Frame.names = before.map Frame.names

/-- A chain has come from another one by declarations in its first scope, and by assignments. -/
inductive Grows : Chain → Chain → Prop
  | nil : Grows [] []
  | cons {frame frame' : Frame} {outer outer' : Chain} :
      frame.names <:+ frame'.names → SameNames outer outer' → Grows (frame :: outer) (frame' :: outer')

instance : Std.Refl SameNames := ⟨fun _ => rfl⟩

instance : IsTrans Chain SameNames := ⟨fun _ _ _ h h' => h'.trans h⟩

variable {before after : Chain}

/-- Assignments alone are a case of growth. -/
lemma SameNames.grows (h : SameNames before after) : Grows before after := by
  cases before with
  | nil =>
    obtain rfl := List.map_eq_nil_iff.mp h
    exact .nil
  | cons frame outer =>
    obtain ⟨frame', outer', rfl, hframe, houter⟩ := List.map_eq_cons_iff.mp h
    exact .cons (hframe ▸ List.suffix_rfl) houter

instance : Std.Refl Grows := ⟨fun chain => SameNames.grows (refl chain)⟩

instance : IsTrans Chain Grows where
  trans _ _ _ h h' := by
    cases h with
    | nil => exact h'
    | cons hframe houter =>
      cases h' with
      | cons hframe' houter' => exact .cons (hframe.trans hframe') (IsTrans.trans _ _ _ houter houter')

/-- The scopes around a fresh one keep their names. -/
lemma Grows.tail (h : Grows before after) : SameNames before.tail after.tail := by
  cases h with
  | nil => exact refl _
  | cons _ houter => exact houter

variable {name : Name} {value : Value}

/-- An assignment changes no names. -/
lemma sameNames_of_assign (h : before.assign name value = .ok after) : SameNames before after :=
  names_of_assign? (assign_eq_ok.mp h)

/-- A declaration binds a new name in the first scope. -/
lemma exists_of_declare (h : before.declare name value = .ok after) :
    ∃ frame outer, before = frame :: outer ∧ after = ((name, value) :: frame) :: outer := by
  have hdeclare := declare_eq_ok.mp h
  cases before with
  | nil => cases hdeclare
  | cons frame outer =>
    rw [declare?] at hdeclare
    split at hdeclare
    · cases hdeclare
    · exact ⟨frame, outer, rfl, (Option.some.inj hdeclare).symm⟩

/-- A declaration makes the chain grow. -/
lemma grows_of_declare (h : before.declare name value = .ok after) : Grows before after := by
  obtain ⟨frame, outer, rfl, rfl⟩ := exists_of_declare h
  exact .cons (List.suffix_cons name frame.names) (refl outer)

end Chain

/-! ## Computations -/

/-- A token is at hand exactly where a token stands. -/
lemma Node.leaf?_eq_ok {node : Node} {t : Leaf} : node.leaf? = .ok t ↔ node = .token t := by
  cases node <;> simp [Node.leaf?]

namespace Exec

variable {α β : Type}

/-- The state in which a computation ends. -/
def final : EStateM.Result Stop State α → State
  | .ok _ s => s
  | .error _ s => s

/-- Looking at the state leaves it as it is. -/
lemma get_bind (next : State → Exec α) (s : State) : (get >>= next) s = next s s := rfl

/-- What comes second goes on from the state that the first part leaves. -/
lemma bind_of_ok {act : Exec α} {next : α → Exec β} {a : α} {s t : State} (h : act s = .ok a t) :
    (act >>= next) s = next a t := by
  rw [bind_apply, h]

/-- Results one after the other are the first one and then the others. -/
lemma mapM_cons_of_ok {f : α → Exec β} {a : α} {as : List α} {b : β} {bs : List β} {s t u : State}
    (ha : f a s = .ok b t) (has : as.mapM f t = .ok bs u) : (a :: as).mapM f s = .ok (b :: bs) u := by
  rw [List.mapM_cons, bind_of_ok ha, bind_of_ok has]
  rfl

/-- A part of a tree is at hand if the tree is of the right sort. -/
lemma part_eq_ok {result : Except Fault α} {a : α} {s t : State} :
    part result s = .ok a t ↔ result = .ok a ∧ s = t := by
  cases result with
  | ok b => exact ⟨fun h => by cases h; exact ⟨rfl, rfl⟩, fun ⟨h, h'⟩ => by cases h; cases h'; rfl⟩
  | error fault => exact ⟨nofun, nofun⟩

/-- One turn of a loop; `WhileTurn` is this for a loop of a script. -/
def Turn (test : Exec Bool) (body : Exec Unit) (s t : State) : Prop :=
  ∃ m, test s = .ok true m ∧ body m = .ok () t

/-- However a computation ends, the scopes that it saw have become related ones, and as many calls are
active as before. -/
def Respects (R : Chain → Chain → Prop) (act : Exec α) : Prop :=
  ∀ s, R s.scopes (final (act s)).scopes ∧ (final (act s)).callDepth = s.callDepth

/-- A computation does so from a given state. -/
def RespectsFrom (R : Chain → Chain → Prop) (s : State) (act : Exec α) : Prop :=
  R s.scopes (final (act s)).scopes ∧ (final (act s)).callDepth = s.callDepth

section Relation

variable {R S : Chain → Chain → Prop} {s : State} {act : Exec α} {next : α → Exec β}

lemma RespectsFrom.mono (h : RespectsFrom R s act)
    (himp : ∀ {before after}, R before after → S before after) : RespectsFrom S s act :=
  ⟨himp h.1, h.2⟩

lemma respectsFrom_map {f : α → β} : RespectsFrom R s (f <$> act) ↔ RespectsFrom R s act := by
  unfold RespectsFrom
  rw [← bind_pure_comp, bind_apply]
  cases act s <;> rfl

/-- A computation that goes on after another one only has to go on from the state that this one leaves. -/
lemma RespectsFrom.bind [IsTrans Chain R] (h : RespectsFrom R s act)
    (hnext : ∀ a t, act s = .ok a t → RespectsFrom R t (next a)) : RespectsFrom R s (act >>= next) := by
  obtain ⟨hscopes, hdepth⟩ := h
  unfold RespectsFrom
  rw [bind_apply]
  cases hrun : act s with
  | error stop t =>
    rw [hrun] at hscopes hdepth
    exact ⟨hscopes, hdepth⟩
  | ok a t =>
    rw [hrun] at hscopes hdepth
    obtain ⟨hscopes', hdepth'⟩ := hnext a t hrun
    exact ⟨IsTrans.trans _ _ _ hscopes hscopes', hdepth'.trans hdepth⟩

lemma Respects.mono (h : Respects R act) (himp : ∀ {before after}, R before after → S before after) :
    Respects S act :=
  fun s => RespectsFrom.mono (h s) himp

lemma Respects.map (h : Respects R act) (f : α → β) : Respects R (f <$> act) :=
  fun s => respectsFrom_map.mpr (h s)

/-- What respects a relation does so when it ends well. -/
lemma Respects.of_ok (h : Respects R act) {a : α} {t : State} (hrun : act s = .ok a t) :
    R s.scopes t.scopes ∧ t.callDepth = s.callDepth := by
  have hact := h s
  rw [hrun] at hact
  exact hact

/-- A sequence respects what its parts respect. -/
lemma Respects.bind [IsTrans Chain R] (h : Respects R act) (hnext : ∀ a, Respects R (next a)) :
    Respects R (act >>= next) :=
  fun s => RespectsFrom.bind (h s) fun a t _ => hnext a t

variable [Std.Refl R]

/-- What a computation goes on with begins with the scopes that the computation has left. -/
lemma scopes_bind (hnext : ∀ a, Respects R (next a)) (s : State) :
    R (final (act s)).scopes (final ((act >>= next) s)).scopes := by
  rw [bind_apply]
  cases act s with
  | ok a t => exact (hnext a t).1
  | error stop t => exact Std.Refl.refl _

/-- A computation that leaves scopes and calls alone respects every reflexive relation. -/
lemma respects_of_untouched
    (h : ∀ s, (final (act s)).scopes = s.scopes ∧ (final (act s)).callDepth = s.callDepth) :
    Respects R act := by
  intro s
  obtain ⟨hscopes, hdepth⟩ := h s
  exact ⟨by rw [hscopes]; exact Std.Refl.refl _, hdepth⟩

lemma respects_pure (a : α) : Respects R (pure a) :=
  respects_of_untouched fun _ => ⟨rfl, rfl⟩

lemma respects_throw (stop : Stop) : Respects R (throw stop : Exec α) :=
  respects_of_untouched fun _ => ⟨rfl, rfl⟩

/-- Recording an event changes neither the scopes nor the number of active calls. -/
lemma respects_record (event : Event) : Respects R (record event) :=
  respects_of_untouched fun _ => ⟨rfl, rfl⟩

/-- Making a function changes neither the scopes nor the number of active calls. -/
lemma respects_makeFunction (name : String) (params body : Node) :
    Respects R (makeFunction name params body) :=
  respects_of_untouched fun _ => ⟨rfl, rfl⟩

/-- Reading the clock changes neither the scopes nor the number of active calls. -/
lemma respects_readClock (clock : ℕ → Float) : Respects R (readClock clock) :=
  respects_of_untouched fun _ => ⟨rfl, rfl⟩

/-- Looking at a part of a tree touches nothing, even if the part is of the wrong sort. -/
lemma respects_part (result : Except Fault α) : Respects R (part result) := by
  cases result with
  | ok a => exact respects_pure a
  | error fault => exact respects_throw _

/-- Failing touches nothing. -/
lemma respects_fail (cause : RuntimeCause) (t : Leaf) : Respects R (fail cause t : Exec α) :=
  respects_throw _

/-- The result of an operator touches nothing, nor does its failure. -/
lemma respects_result (operator : Leaf) (outcome : Except RuntimeCause Value) :
    Respects R (result operator outcome) := by
  cases outcome with
  | ok value => exact respects_pure value
  | error cause => exact respects_fail cause operator

variable [IsTrans Chain R]

/-- Failing at a place touches nothing, even if the place is no token. -/
lemma respects_failAt (cause : RuntimeCause) (place : Node) : Respects R (failAt cause place : Exec α) :=
  (respects_part _).bind fun t => respects_fail cause t

/-- Counting arguments touches nothing. -/
lemma respects_checkArity (callee : Value) (expected got : ℕ) (paren : Node) :
    Respects R (checkArity callee expected got paren) := by
  unfold checkArity
  split
  · exact respects_failAt _ paren
  · exact respects_record _

/-- Looking up a name touches nothing, whether it is found or not. -/
lemma respects_lookUp (t : Leaf) : Respects R (lookUp t) := by
  refine (respects_part _).bind fun name s => ?_
  rw [get_bind]
  cases s.scopes.read name with
  | ok value => exact respects_pure value s
  | error cause => exact respects_fail cause t s

/-- Each of some computations only has to go on from the state that those before it leave. -/
lemma respectsFrom_forM {f : α → Exec Unit} {as : List α}
    (h : ∀ before a after t, as = before ++ a :: after → before.forM f s = .ok () t →
      RespectsFrom R t (f a)) : RespectsFrom R s (as.forM f) := by
  induction as generalizing s with
  | nil => exact respects_pure _ s
  | cons a as ih =>
    refine (h [] a as s rfl rfl).bind fun _ t ha => ih fun before b after u hsplit hbefore => ?_
    have hall : (a :: before).forM f s = .ok () u := (bind_of_ok ha).trans hbefore
    exact h (a :: before) b after u (congrArg (a :: ·) hsplit) hall

/-- Computations that give values respect, one after the other, what each of them respects from where it starts.
-/
lemma respectsFrom_mapM {f : α → Exec β} {as : List α}
    (h : ∀ before a after bs t, as = before ++ a :: after → before.mapM f s = .ok bs t →
      RespectsFrom R t (f a)) : RespectsFrom R s (as.mapM f) := by
  induction as generalizing s with
  | nil => exact respects_pure _ s
  | cons a as ih =>
    rw [List.mapM_cons]
    refine (h [] a as [] s rfl rfl).bind fun b t ha => ?_
    have hrest : RespectsFrom R t (as.mapM f) := by
      refine ih fun before c after bs u hsplit hbefore => ?_
      exact h (a :: before) c after (b :: bs) u (congrArg (a :: ·) hsplit) (mapM_cons_of_ok ha hbefore)
    exact hrest.bind fun bs u _ => respects_pure _ u

/-- Statements one after the other respect what each of them respects. -/
lemma respects_forM {f : α → Exec Unit} {as : List α} (h : ∀ a ∈ as, Respects R (f a)) :
    Respects R (as.forM f) :=
  fun _ => respectsFrom_forM fun _ a _ t hsplit _ => h a (by simp [hsplit]) t

/-- Expressions one after the other respect what each of them respects. -/
lemma respects_mapM {f : α → Exec β} {as : List α} (h : ∀ a ∈ as, Respects R (f a)) :
    Respects R (as.mapM f) :=
  fun _ => respectsFrom_mapM fun _ a _ _ t hsplit _ => h a (by simp [hsplit]) t

/-- The test and the body of a loop only have to go on from where some turns lead. -/
lemma respectsFrom_repeatWhile {test : Exec Bool} {body : Exec Unit}
    (htest : ∀ t, Relation.ReflTransGen (Turn test body) s t → RespectsFrom R t test)
    (hbody : ∀ t m, Relation.ReflTransGen (Turn test body) s t → test t = .ok true m →
      RespectsFrom R m body) (turns : ℕ) : RespectsFrom R s (repeatWhile test body turns) := by
  induction turns generalizing s with
  | zero => exact respects_throw _ s
  | succ turns ih =>
    refine (htest s .refl).bind fun b m hm => ?_
    cases b with
    | true =>
      refine (hbody s m .refl hm).bind fun _ t ht => ?_
      have hturn : Turn test body s t := ⟨m, hm, ht⟩
      exact ih (fun u hturns => htest u (.head hturn hturns))
        fun u v hturns => hbody u v (.head hturn hturns)
    | false => exact respects_pure _ m

/-- A call is left in whatever way its body ends. -/
lemma respectsFrom_asCall (paren : Node) {body : Exec Unit}
    (h : RespectsFrom R { s with callDepth := s.callDepth + 1 } body) :
    RespectsFrom R s (asCall paren body) := by
  obtain ⟨hscopes, hdepth⟩ := h
  have hleave : ∀ t : State, R s.scopes t.scopes → t.callDepth = s.callDepth + 1 →
      R s.scopes t.scopes ∧ t.callDepth - 1 = s.callDepth :=
    fun t hscopes hdepth => ⟨hscopes, by omega⟩
  unfold RespectsFrom asCall
  -- every branch counts one call less than the body has left
  cases hrun : body { s with callDepth := s.callDepth + 1 } with
  | ok u t =>
    rw [hrun] at hscopes hdepth
    exact hleave t hscopes hdepth
  | error stop t =>
    rw [hrun] at hscopes hdepth
    cases stop with
    | tooDeep =>
      obtain ⟨hfail, hcall⟩ := respects_failAt (α := Value) (R := R) .callsTooDeep paren
        { t with callDepth := t.callDepth - 1 }
      obtain ⟨hkept, hleft⟩ := hleave t hscopes hdepth
      exact ⟨IsTrans.trans _ _ _ hkept hfail, hcall.trans hleft⟩
    | _ => exact hleave t hscopes hdepth

end Relation

/-! ## Variables -/

section Variables

variable {R : Chain → Chain → Prop} [Std.Refl R] {s : State} {t : Leaf} {value : Value}

/-- Writing changed scopes back changes the scopes and nothing else that counts here. -/
lemma respectsFrom_update (change : Chain → Except RuntimeCause Chain)
    (h : ∀ {after}, change s.scopes = .ok after → R s.scopes after) :
    RespectsFrom R s (do
      let s ← get
      match change s.scopes with
      | .ok scopes => set { s with scopes }
      | .error cause => fail cause t : Exec Unit) := by
  unfold RespectsFrom
  rw [get_bind]
  cases hchange : change s.scopes with
  | ok scopes => exact ⟨h hchange, rfl⟩
  | error cause => exact ⟨Std.Refl.refl _, rfl⟩

variable [IsTrans Chain R]

/-- An assignment is to the variable that its token names. -/
lemma respectsFrom_assign (h : ∀ {name after}, t.name? = .ok name →
    s.scopes.assign name value = .ok after → R s.scopes after) : RespectsFrom R s (assign t value) := by
  refine RespectsFrom.bind (respects_part _ s) fun name u hpart => ?_
  obtain ⟨hname, rfl⟩ := part_eq_ok.mp hpart
  exact respectsFrom_update (·.assign name value) fun hassign => h hname hassign

/-- A declaration is of the variable that its token names. -/
lemma respectsFrom_declare (h : ∀ {name after}, t.name? = .ok name →
    s.scopes.declare name value = .ok after → R s.scopes after) : RespectsFrom R s (declare t value) := by
  refine RespectsFrom.bind (respects_part _ s) fun name u hpart => ?_
  obtain ⟨hname, rfl⟩ := part_eq_ok.mp hpart
  exact respectsFrom_update (·.declare name value) fun hdeclare => h hname hdeclare

end Variables

/-! ## Optional parts -/

section Optional

/-- The value of an expression that may be left out. -/
def evaluate? (setting : Setting) (depth : ℕ) : Node → Exec Value
  | .null => pure .nil
  | e => evaluate setting depth e

/-- Executes a statement that may be left out. -/
def execute? (setting : Setting) (depth : ℕ) : Node → Exec Unit
  | .null => pure ()
  | s => execute setting depth s

variable (setting : Setting) (depth : ℕ)

variable {setting depth} in
/-- An expression that is there is evaluated. -/
lemma evaluate?_of_ne_null {e : Node} (h : e ≠ .null) :
    evaluate? setting depth e = evaluate setting depth e := by
  cases e with
  | null => exact absurd rfl h
  | _ => rfl

variable {setting depth} in
/-- A statement that is there is executed. -/
lemma execute?_of_ne_null {s : Node} (h : s ≠ .null) :
    execute? setting depth s = execute setting depth s := by
  cases s with
  | null => exact absurd rfl h
  | _ => rfl

/-- A variable declaration evaluates its initializer, if it has one, before it declares the name. -/
lemma execute_varDecl (name initializer : Node) :
    execute setting (depth + 1) (.varDecl name initializer) = (do
      let value ← evaluate? setting depth initializer
      let t ← part name.leaf?
      declare t value
      record (.declared t.lexeme.inText value)) := by
  cases initializer <;> rfl

/-- An `if` statement executes one branch, by the value of its condition. -/
lemma execute_ifStmt (condition thenBranch elseBranch : Node) :
    execute setting (depth + 1) (.ifStmt condition thenBranch elseBranch) = (do
      let value ← evaluate setting depth condition
      record (.ifCondition value)
      if value.truthy then execute setting depth thenBranch else execute? setting depth elseBranch) := by
  cases elseBranch <;> rfl

/-- A return statement stops with the value of its expression, unless no call is active. -/
lemma execute_returnStmt (keyword e : Node) (s : State) :
    execute setting (depth + 1) (.returnStmt keyword e) s =
      if s.callDepth = 0 then failAt .returnOutside keyword s
      else (do throw (.returned (← evaluate? setting depth e)) : Exec Unit) s := by
  have hget : execute setting (depth + 1) (.returnStmt keyword e) = (do
      if (← get).callDepth = 0 then failAt .returnOutside keyword
      else throw (.returned (← evaluate? setting depth e))) := by
    cases e <;> rfl
  rw [hget, get_bind]
  split <;> rfl

end Optional

end Exec

open Exec

/-! ## Relations that are kept -/

/-- Whether executing a statement may declare a name in the scope that it is executed in. -/
def Node.declares : Node → Bool
  | .varDecl _ _ | .funDecl _ _ _ => true
  | .ifStmt _ thenBranch elseBranch => thenBranch.declares || elseBranch.declares
  | .whileStmt _ body => body.declares
  | _ => false

/-- Two relations between chains: one for what is done while no name is declared in the innermost scope, and
one for what is done while names may be declared there.  What is left when a fresh scope is dropped belongs
to the first. -/
structure Scoping (R S : Chain → Chain → Prop) : Prop where
  weaken : ∀ {before after : Chain}, R before after → S before after
  declare : ∀ {before after : Chain} {name : Name} {value : Value},
    before.declare name value = .ok after → S before after
  leave : ∀ {outer after : Chain}, S ([] :: outer) after → R outer after.tail

/-- Such relations that all assignments keep as well. -/
structure Discipline (R S : Chain → Chain → Prop) : Prop extends Scoping R S where
  assign : ∀ {before after : Chain} {name : Name} {value : Value},
    before.assign name value = .ok after → R before after

/-- What a statement may do to the chain of scopes: declare names if it is one that may. -/
def Node.effect (R S : Chain → Chain → Prop) (stmt : Node) : Chain → Chain → Prop :=
  bif stmt.declares then S else R

/-- What a task may do to the chain of scopes: only statements declare names. -/
def Task.effect (R S : Chain → Chain → Prop) : Task → Chain → Chain → Prop
  | .execute stmt => stmt.effect R S
  | _ => R

section Kept

variable {R S : Chain → Chain → Prop}

instance [Std.Refl R] [Std.Refl S] (stmt : Node) : Std.Refl (stmt.effect R S) := by
  unfold Node.effect
  cases stmt.declares with
  | true => exact inferInstanceAs (Std.Refl S)
  | false => exact inferInstanceAs (Std.Refl R)

instance [IsTrans Chain R] [IsTrans Chain S] (stmt : Node) : IsTrans Chain (stmt.effect R S) := by
  unfold Node.effect
  cases stmt.declares with
  | true => exact inferInstanceAs (IsTrans Chain S)
  | false => exact inferInstanceAs (IsTrans Chain R)

namespace Scoping

variable {before after : Chain}

/-- A statement may do what its parts may. -/
lemma effect_mono (D : Scoping R S) {part stmt : Node}
    (hpart : part.declares = true → stmt.declares = true) (h : part.effect R S before after) :
    stmt.effect R S before after := by
  unfold Node.effect at h ⊢
  cases hdeclares : part.declares with
  | true =>
    rw [hdeclares] at h
    rw [hpart hdeclares]
    exact h
  | false =>
    rw [hdeclares] at h
    cases stmt.declares with
    | true => exact D.weaken h
    | false => exact h

/-- A statement may do what an expression may. -/
lemma effect_of (D : Scoping R S) (stmt : Node) (h : R before after) : stmt.effect R S before after := by
  have hnull : Node.effect R S .null before after := h
  exact D.effect_mono (by simp [Node.declares]) hnull

/-- Whatever a statement may do to the scopes, a declaration may do. -/
lemma of_effect (D : Scoping R S) {stmt : Node} (h : stmt.effect R S before after) :
    S before after := by
  have hdeclaration : Node.effect R S (.varDecl .null .null) before after := D.effect_mono (fun _ => rfl) h
  exact hdeclaration

/-- Whatever a task may do to the scopes, a declaration may do. -/
lemma of_task_effect (D : Scoping R S) {task : Task} (h : task.effect R S before after) :
    S before after := by
  cases task with
  | execute stmt => exact D.of_effect h
  | _ => exact D.weaken h

variable {setting : Setting} {depth : ℕ} {s : State}

/-- What is declared in a fresh scope is dropped with it. -/
lemma respectsFrom_inFreshScope (D : Scoping R S) {α : Type} {act : Exec α}
    (h : RespectsFrom S { s with scopes := [] :: s.scopes } act) :
    RespectsFrom R s (inFreshScope act) := by
  obtain ⟨hscopes, hdepth⟩ := h
  unfold RespectsFrom inFreshScope
  cases hrun : act { s with scopes := [] :: s.scopes } with
  | ok a t =>
    rw [hrun] at hscopes hdepth
    exact ⟨D.leave hscopes, hdepth⟩
  | error stop t =>
    rw [hrun] at hscopes hdepth
    exact ⟨D.leave hscopes, hdepth⟩

variable [Std.Refl S] [IsTrans Chain S]

/-- Declaring a name is within what may be done where names are declared. -/
lemma respects_declare (D : Scoping R S) (t : Leaf) (value : Value) : Respects S (Exec.declare t value) :=
  fun _ => respectsFrom_declare fun _ hdeclare => D.declare hdeclare

/-- Binding the parameters of a call is within what may be done where names are declared. -/
lemma respects_declareAll (D : Scoping R S) (params : List Node) (arguments : List Value) :
    Respects S (declareAll params arguments) :=
  respects_forM fun p _ => (respects_part _).bind fun t => D.respects_declare t p.2

variable [Std.Refl R] [IsTrans Chain R]

/-- Evaluating an expression respects what the tasks that it starts respect, and the assignments that it makes.
-/
lemma respectsFrom_evaluate {e : Node}
    (hevaluate : ∀ {e' s'}, Starts setting depth (.evaluate e) s (.evaluate e') s' →
      RespectsFrom R s' (evaluate setting depth e'))
    (hcall : ∀ {f args paren s'}, Starts setting depth (.evaluate e) s (.call f args paren) s' →
      RespectsFrom R s' (call setting depth f args paren))
    (hassign : ∀ {t e' value u}, e = .assign (.token t) e' → evaluate setting depth e' s = .ok value u →
      RespectsFrom R u (assign t value)) :
    RespectsFrom R s (evaluate setting (depth + 1) e) := by
  cases e with
  | literal value => exact respects_pure _ s
  | grouping e => exact hevaluate .grouping
  | ident name => exact ((respects_part _).bind fun t => respects_lookUp t) s
  | assign name e =>
    refine (hevaluate .assigned).bind fun value t hvalue => ?_
    refine RespectsFrom.bind (respects_part _ t) fun leaf u hpart => ?_
    obtain ⟨hleaf, rfl⟩ := part_eq_ok.mp hpart
    obtain rfl := Node.leaf?_eq_ok.mp hleaf
    exact (hassign rfl hvalue).bind fun _ u _ => respects_pure value u
  | unary operator e =>
    refine (hevaluate .operand).bind fun a t _ => ?_
    exact ((respects_part _).bind fun leaf => respects_result leaf _) t
  | logical left operator right =>
    refine (hevaluate .logicalLeft).bind fun value t hvalue => ?_
    refine RespectsFrom.bind (respects_part _ t) fun leaf u hpart => ?_
    obtain ⟨hleaf, rfl⟩ := part_eq_ok.mp hpart
    obtain rfl := Node.leaf?_eq_ok.mp hleaf
    split
    next => exact respects_pure value t
    next hopen => exact hevaluate (.logicalRight hvalue (by simpa using hopen))
  | binary left operator right =>
    refine (hevaluate .binaryLeft).bind fun a t ha => ?_
    refine (hevaluate (.binaryRight ha)).bind fun b u _ => ?_
    exact ((respects_part _).bind fun leaf => respects_result leaf _) u
  | call callee paren arguments =>
    refine (hevaluate .callee).bind fun f t hf => ?_
    refine RespectsFrom.bind (respects_part _ t) fun items u hpart => ?_
    obtain ⟨hitems, rfl⟩ := part_eq_ok.mp hpart
    have harguments : RespectsFrom R t (items.mapM (evaluate setting depth)) := by
      refine respectsFrom_mapM fun before e after values u hsplit hvalues => ?_
      exact hevaluate (.argument (hsplit ▸ hitems) hf hvalues)
    exact harguments.bind fun args u hargs => hcall (.call hitems hf hargs)
  | _ => exact respects_throw _ s

/-- A call respects the relation for what leaves no names if the statements of its body respect the other one.
-/
lemma respectsFrom_call (D : Scoping R S) {callee : Value} {args : List Value} {paren : Node}
    (hexecute : ∀ {stmt s'}, Starts setting depth (.call callee args paren) s (.execute stmt) s' →
      RespectsFrom S s' (execute setting depth stmt)) :
    RespectsFrom R s (call setting (depth + 1) callee args paren) := by
  cases callee with
  | function f =>
    refine RespectsFrom.bind (respects_part _ s) fun params t hpart => ?_
    obtain ⟨hparams, rfl⟩ := part_eq_ok.mp hpart
    refine RespectsFrom.bind (respects_checkArity _ _ _ paren s) fun _ t harity => ?_
    refine respectsFrom_asCall paren (D.respectsFrom_inFreshScope ?_)
    refine RespectsFrom.bind (D.respects_declareAll params args _) fun _ u hdeclared => ?_
    refine RespectsFrom.bind (respects_part _ u) fun body v hpart => ?_
    obtain ⟨hbody, rfl⟩ := part_eq_ok.mp hpart
    refine respectsFrom_forM fun before stmt after v hsplit hbefore => ?_
    exact hexecute (.body hparams (hsplit ▸ hbody) harity ((bind_of_ok hdeclared).trans hbefore))
  | clock => exact ((respects_checkArity _ _ _ paren).bind fun _ => respects_readClock _) s
  | _ => exact respects_failAt _ paren s

/-- A statement has no more effect than its kind allows if the tasks that it starts have not. -/
lemma respectsFrom_execute (D : Scoping R S) {stmt : Node}
    (hevaluate : ∀ {e s'}, Starts setting depth (.execute stmt) s (.evaluate e) s' →
      RespectsFrom R s' (evaluate setting depth e))
    (hexecute : ∀ {stmt' s'}, Starts setting depth (.execute stmt) s (.execute stmt') s' →
      RespectsFrom (stmt'.effect R S) s' (execute setting depth stmt')) :
    RespectsFrom (stmt.effect R S) s (execute setting (depth + 1) stmt) := by
  have hvalue : ∀ {e s'}, Starts setting depth (.execute stmt) s (.evaluate e) s' →
      RespectsFrom (stmt.effect R S) s' (evaluate setting depth e) :=
    fun hstarts => (hevaluate hstarts).mono (D.effect_of stmt)
  have hvalue? : ∀ {e}, (e ≠ .null → Starts setting depth (.execute stmt) s (.evaluate e) s) →
      RespectsFrom (stmt.effect R S) s (evaluate? setting depth e) := by
    intro e hstarts
    unfold evaluate?
    split
    next => exact respects_pure Value.nil s
    next hnull => exact hvalue (hstarts hnull)
  cases stmt with
  | exprStmt e => exact (hvalue .exprStmt).bind fun _ t _ => respects_pure () t
  | printStmt e => exact (hvalue .printStmt).bind fun value t _ => respects_record _ t
  | varDecl name initializer =>
    rw [execute_varDecl]
    refine (hvalue? .initializer).bind fun value t _ => ?_
    refine ((respects_part _).bind fun leaf => ?_) t
    exact (D.respects_declare leaf value).bind fun _ => respects_record _
  | block statements =>
    refine D.respectsFrom_inFreshScope (RespectsFrom.bind (respects_part _ _) fun body t hpart => ?_)
    obtain ⟨hitems, rfl⟩ := part_eq_ok.mp hpart
    refine respectsFrom_forM fun before stmt after u hsplit hbefore => ?_
    exact (hexecute (.block (hsplit ▸ hitems) hbefore)).mono D.of_effect
  | ifStmt condition thenBranch elseBranch =>
    -- What a branch may declare, the whole statement may declare.
    have hthen : thenBranch.declares = true →
        (Node.ifStmt condition thenBranch elseBranch).declares = true := by
      simp +contextual [Node.declares]
    have helse : elseBranch.declares = true →
        (Node.ifStmt condition thenBranch elseBranch).declares = true := by
      simp +contextual [Node.declares]
    rw [execute_ifStmt]
    refine (hvalue .ifCondition).bind fun value t hcondition => ?_
    refine RespectsFrom.bind (respects_record _ t) fun _ u hrecord => ?_
    cases hrecord
    split
    next htruthy => exact (hexecute (.thenBranch hcondition htruthy)).mono (D.effect_mono hthen)
    next hfalsy =>
      unfold execute?
      split
      next => exact respects_pure () _
      next hnull =>
        have hno : value.truthy = false := by simpa using hfalsy
        exact (hexecute (.elseBranch hcondition hno hnull)).mono (D.effect_mono helse)
  | whileStmt condition body =>
    refine respectsFrom_repeatWhile (fun t hturns => ?_) (fun t m hturns htest => ?_) _
    · refine (hvalue (.whileCondition hturns)).bind fun value u _ => ?_
      exact ((respects_record _).bind fun _ => respects_pure _) u
    · exact (hexecute (.whileBody hturns htest)).mono (D.effect_mono id)
  | funDecl name params body =>
    refine ((respects_part _).bind fun leaf => (respects_makeFunction _ params body).bind fun f => ?_) s
    exact (D.respects_declare leaf f).bind fun _ => respects_record _
  | returnStmt keyword e =>
    unfold RespectsFrom
    rw [execute_returnStmt]
    split
    next => exact respects_failAt _ keyword s
    next hactive => exact (hvalue? (.returned hactive)).bind fun value t _ => respects_throw (.returned value) t
  | _ => exact respects_throw _ s

/-- A task does nothing to the scopes that the tasks that it starts and its own assignment do not do. -/
theorem step (D : Scoping R S) {task : Task}
    (hstarts : ∀ {task' s'}, Starts setting depth task s task' s' →
      RespectsFrom (task'.effect R S) s' (task'.perform setting depth))
    (hassign : ∀ {t e value u}, task = .evaluate (.assign (.token t) e) →
      evaluate setting depth e s = .ok value u → RespectsFrom R u (assign t value)) :
    RespectsFrom (task.effect R S) s (task.perform setting (depth + 1)) := by
  cases task with
  | evaluate e =>
    have hevaluate : ∀ {e' s'}, Starts setting depth (.evaluate e) s (.evaluate e') s' →
        RespectsFrom R s' (evaluate setting depth e') := fun h => respectsFrom_map.mp (hstarts h)
    have hcall : ∀ {f args paren s'}, Starts setting depth (.evaluate e) s (.call f args paren) s' →
        RespectsFrom R s' (call setting depth f args paren) := fun h => respectsFrom_map.mp (hstarts h)
    have hvalue : RespectsFrom R s (evaluate setting (depth + 1) e) :=
      respectsFrom_evaluate hevaluate hcall fun he => hassign (congrArg _ he)
    exact respectsFrom_map.mpr hvalue
  | call callee args paren =>
    refine respectsFrom_map.mpr (D.respectsFrom_call fun h => ?_)
    exact (respectsFrom_map.mp (hstarts h)).mono D.of_effect
  | execute stmt =>
    have hevaluate : ∀ {e s'}, Starts setting depth (.execute stmt) s (.evaluate e) s' →
        RespectsFrom R s' (evaluate setting depth e) := fun h => respectsFrom_map.mp (hstarts h)
    have hexecute : ∀ {stmt' s'}, Starts setting depth (.execute stmt) s (.execute stmt') s' →
        RespectsFrom (stmt'.effect R S) s' (execute setting depth stmt') :=
      fun h => respectsFrom_map.mp (hstarts h)
    have hstmt : RespectsFrom (stmt.effect R S) s (execute setting (depth + 1) stmt) :=
      D.respectsFrom_execute hevaluate hexecute
    exact respectsFrom_map.mpr hstmt

/-- Whatever a task does and however it ends, the scopes stay related and all calls that were begun are
left, if the assignments that the task comes to make keep the scopes related. -/
theorem respectsFrom_perform (D : Scoping R S) {task : Task}
    (hassign : ∀ {d t e s' value u},
      LeadsTo setting depth task s (d + 1) (.evaluate (.assign (.token t) e)) s' →
      evaluate setting d e s' = .ok value u → RespectsFrom R u (assign t value)) :
    RespectsFrom (task.effect R S) s (task.perform setting depth) := by
  induction depth generalizing task s with
  | zero =>
    cases task with
    | execute stmt => exact respectsFrom_map.mpr (respects_throw (R := stmt.effect R S) .tooDeep s)
    | _ => exact respectsFrom_map.mpr (respects_throw (R := R) .tooDeep s)
  | succ depth ih =>
    refine D.step (fun hstarts => ih fun hleads => hassign (.head hstarts hleads)) fun htask => ?_
    subst htask
    exact hassign .refl

end Scoping

namespace Discipline

variable [Std.Refl R] [IsTrans Chain R]

/-- Assigning respects a relation that all assignments keep. -/
lemma respects_assign (D : Discipline R S) (t : Leaf) (value : Value) : Respects R (Exec.assign t value) :=
  fun _ => respectsFrom_assign fun _ hassign => D.assign hassign

variable [Std.Refl S] [IsTrans Chain S]

/-- Whatever a task does and however it ends, the scopes stay related and all calls that were begun are
left. -/
theorem respects_effect (D : Discipline R S) (setting : Setting) (depth : ℕ) (task : Task) :
    Respects (task.effect R S) (task.perform setting depth) :=
  fun _ => D.respectsFrom_perform fun _ _ => D.respects_assign _ _ _

/-- All tasks respect the relation for what may leave names, whatever they are and however they end. -/
lemma respects_perform (D : Discipline R S) (setting : Setting) (depth : ℕ) (task : Task) :
    Respects S (task.perform setting depth) :=
  (D.respects_effect setting depth task).mono D.of_task_effect

/-- Evaluating an expression respects the relation for what leaves no names. -/
lemma respects_evaluate (D : Discipline R S) (setting : Setting) (depth : ℕ) (e : Node) :
    Respects R (evaluate setting depth e) :=
  fun s => respectsFrom_map.mp (D.respects_effect setting depth (.evaluate e) s)

/-- A call respects the relation for what leaves no names. -/
lemma respects_call (D : Discipline R S) (setting : Setting) (depth : ℕ) (callee : Value)
    (args : List Value) (paren : Node) : Respects R (call setting depth callee args paren) :=
  fun s => respectsFrom_map.mp (D.respects_effect setting depth (.call callee args paren) s)

/-- Executing a statement respects the relation for what may leave names. -/
lemma respects_execute (D : Discipline R S) (setting : Setting) (depth : ℕ) (stmt : Node) :
    Respects S (execute setting depth stmt) :=
  fun s => respectsFrom_map.mp (D.respects_perform setting depth (.execute stmt) s)

end Discipline

end Kept

namespace Exec

/-! ## Names of scopes -/

open Chain (SameNames Grows)

/-- All names of the scopes around stay, and new ones are declared by statements alone and in the innermost
scope alone. -/
lemma discipline_sameNames_grows : Discipline SameNames Grows where
  weaken := Chain.SameNames.grows
  declare := Chain.grows_of_declare
  leave := Chain.Grows.tail
  assign := Chain.sameNames_of_assign

/-- A statement that declares nothing keeps all names as they are, and any other one can declare names in
the innermost scope alone. -/
theorem respects_effect (setting : Setting) (depth : ℕ) (task : Task) :
    Respects (task.effect SameNames Grows) (task.perform setting depth) :=
  discipline_sameNames_grows.respects_effect setting depth task

/-- A task declares names in the innermost scope alone and leaves all calls that it begins. -/
theorem respects_perform (setting : Setting) (depth : ℕ) (task : Task) :
    Respects Grows (task.perform setting depth) :=
  discipline_sameNames_grows.respects_perform setting depth task

/-- Evaluating an expression changes no names in any scope. -/
lemma respects_evaluate (setting : Setting) (depth : ℕ) (e : Node) :
    Respects SameNames (evaluate setting depth e) :=
  discipline_sameNames_grows.respects_evaluate setting depth e

/-- Executing a statement can only add names to the innermost scope. -/
lemma respects_execute (setting : Setting) (depth : ℕ) (s : Node) :
    Respects Grows (execute setting depth s) :=
  discipline_sameNames_grows.respects_execute setting depth s

/-- Turning the nesting limit into an error of the program touches nothing. -/
lemma respects_outermost {R : Chain → Chain → Prop} {act : Exec Unit} (h : Respects R act) :
    Respects R (outermost act) := by
  intro s
  have hact := h s
  unfold outermost
  cases hrun : act s with
  | ok u t =>
    rw [hrun] at hact
    exact hact
  | error stop t =>
    rw [hrun] at hact
    cases stop <;> exact hact

/-- A run declares names in the innermost scope alone and leaves all calls that it begins. -/
theorem respects_run (setting : Setting) (statements : List Node) :
    Respects Grows (run setting statements) := by
  have hstatements : Respects Grows (statements.forM (execute setting setting.depth)) :=
    respects_forM fun s _ => respects_execute setting _ s
  refine (respects_record _).bind fun _ => ?_
  exact (respects_outermost hstatements).bind fun _ => respects_record _

end Exec

end Scriptlet
