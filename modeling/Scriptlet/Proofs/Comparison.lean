import Scriptlet.Proofs.Embracing

/-!
# Comparing two runs

Two programs that are the same but for their tokens and for braces run side by side, from states that need not
be the same either.  What is compared of the scopes is left open: it is enough that names are found, assigned
and declared alike, as far as the programs have them.  Left open is as well what is compared of the two logs, and
how many calls are active on each side, as long as a return statement is within a call on both sides or on none.

Then the two runs do the same step by step, which is shown once, by one induction (`Comparison.alike`): they
compute the same values up to braces, and stop for the same reasons.  If there are more braces in the second
program, then its trees are nested deeper than those of the first, and so the nesting limit is reached at another
place.  In this case the comparison ends where one of the runs reaches the limit.
-/

namespace Scriptlet

/-- Whether a run has reached the nesting limit.  A call that reaches it is blamed for it; if it has no closing
parenthesis, then this is the fault. -/
def Stop.IsExhaustion : Stop → Prop
  | tooDeep => True
  | failed error => error.cause = .callsTooDeep ∨ error.cause = .programTooDeep
  | fault f => f = .noToken
  | returned _ | outOfTurns => False

/-- Whether a computation stops because a return statement was executed. -/
def Stop.IsReturned : Stop → Prop
  | returned _ => True
  | _ => False

namespace Node

mutual

/-- Whether executing a statement may come to a return statement that is not within another call. -/
def returns : Node → Bool
  | list items => returnsAny items
  | block statements => statements.returns
  | ifStmt _ thenBranch elseBranch => thenBranch.returns || elseBranch.returns
  | whileStmt _ body => body.returns
  | returnStmt _ _ => true
  | _ => false

/-- Whether executing some statements may come to such a return statement. -/
def returnsAny : List Node → Bool
  | [] => false
  | s :: rest => s.returns || returnsAny rest

end

/-- Some statements may return if one of them may. -/
lemma returnsAny_eq_true {items : List Node} : returnsAny items = true ↔ ∃ s ∈ items, s.returns = true := by
  induction items with
  | nil => simp [returnsAny]
  | cons s items ih => simp [returnsAny, ih]

/-- A part of a block that may return makes the block one that may. -/
lemma returns_of_mem {n s : Node} {items : List Node} (h : n.items? = .ok items) (hs : s ∈ items)
    (hreturns : s.returns = true) : n.returns = true := by
  cases n with
  | list _ =>
    cases h
    exact returnsAny_eq_true.mpr ⟨s, hs, hreturns⟩
  | str text =>
    cases h
    obtain ⟨c, -, rfl⟩ := List.mem_map.mp hs
    cases hreturns
  | _ => cases h

end Node

/-- What is compared of two runs.  As scopes are opened, the relation between the scopes may change, so it has an
index. -/
structure Comparison (ι : Type) where
  /-- Which tokens and which functions correspond. -/
  likeness : Likeness
  /-- Whether the second program may have more braces. -/
  braces : Prop
  /-- Whether it is left aside what happens when the nesting limit is reached. -/
  aside : Prop
  /-- How the chains of scopes are related. -/
  scopes : ι → Chain → Chain → Prop
  /-- How they are related within a fresh scope. -/
  fresh : ι → ι
  /-- Where it is compared what a declaration does. -/
  declares : ι → Prop
  /-- How the numbers of active calls are related, within so many more calls than at first. -/
  calls : ℕ → ℕ → ℕ → Prop
  /-- Where it is compared what a return statement does. -/
  returns : ℕ → Prop
  /-- How the events so far are related. -/
  log : List Event → List Event → Prop

namespace Comparison

variable {ι α β γ δ : Type}

/-- The values of two runs, which are the same up to braces. -/
abbrev Values (C : Comparison ι) : Value → Value → Prop :=
  Value.Embraced C.likeness C.braces

/-- The steps of two runs, which are about the same values up to braces. -/
abbrev Events (C : Comparison ι) : Event → Event → Prop :=
  Event.Embraced C.likeness C.braces

/-- Why two runs stop. -/
abbrev Stops (C : Comparison ι) : Stop → Stop → Prop :=
  Stop.Embraced C.likeness C.braces

/-- Related scopes stay related under what names are used for, and so do the numbers of active calls. -/
structure Lawful (C : Comparison ι) : Prop where
  meansSame : C.likeness.MeansSame
  aside_of_braces : C.braces → C.aside
  find? {i : ι} {chain chain' : Chain} {t u : Leaf} {name : Name} :
    C.scopes i chain chain' → C.likeness.token .name t u → t.name? = .ok name →
    Option.Rel C.Values (chain.find? name) (chain'.find? name)
  assign? {i : ι} {chain chain' : Chain} {t u : Leaf} {name : Name} {v v' : Value} :
    C.scopes i chain chain' → C.likeness.token .name t u → t.name? = .ok name → C.Values v v' →
    Option.Rel (C.scopes i) (chain.assign? name v) (chain'.assign? name v')
  declare? {i : ι} {chain chain' : Chain} {t u : Leaf} {name : Name} {v v' : Value} :
    C.declares i → C.scopes i chain chain' → C.likeness.token .name t u → t.name? = .ok name → C.Values v v' →
    Option.Rel (C.scopes i) (chain.declare? name v) (chain'.declare? name v')
  declares_fresh (i : ι) : C.declares (C.fresh i)
  enter {i : ι} {chain chain' : Chain} :
    C.scopes i chain chain' → C.scopes (C.fresh i) ([] :: chain) ([] :: chain')
  leave {i : ι} {chain chain' : Chain} :
    C.scopes (C.fresh i) chain chain' → C.scopes i chain.tail chain'.tail
  enterCall {c d d' : ℕ} : C.calls c d d' → C.calls (c + 1) (d + 1) (d' + 1)
  leaveCall {c d d' : ℕ} : C.calls (c + 1) d d' → C.calls c (d - 1) (d' - 1)
  returns_succ (c : ℕ) : C.returns (c + 1)
  eq_zero_iff {c d d' : ℕ} : C.returns c → C.calls c d d' → (d = 0 ↔ d' = 0)
  prints {v v' : Value} {l l' : List Event} :
    C.Values v v' → C.log l l' → C.log (.printed v :: l) (.printed v' :: l')

/-- Scopes are compared by all that they hold, and as many calls are active on either side. -/
def ofLikeness (T : Likeness) (braces : Prop) (log : List Event → List Event → Prop) : Comparison Unit where
  likeness := T
  braces := braces
  aside := braces
  scopes _ := Chain.Related (Value.Embraced T braces)
  fresh _ := ()
  declares _ := True
  calls _ := Eq
  returns _ := True
  log := log

/-- Comparing all that scopes hold is lawful if tokens that are alike mean the same. -/
lemma lawful_ofLikeness {T : Likeness} {braces : Prop} {log : List Event → List Event → Prop} (hT : T.MeansSame)
    (hprints : ∀ {v v' : Value} {l l' : List Event}, v.Embraced T braces v' → log l l' →
      log (.printed v :: l) (.printed v' :: l')) :
    (ofLikeness T braces log).Lawful where
  meansSame := hT
  aside_of_braces := id
  find? hchain _ _ := (Frame.usedAlike_related _ _).chain_find? hchain
  assign? hchain _ _ hv := (Frame.usedAlike_related _ _).chain_assign? hchain hv
  declare? _ hchain _ _ hv := (Frame.usedAlike_related _ _).chain_declare? hchain hv
  declares_fresh _ := trivial
  enter hchain := .cons .nil hchain
  leave hchain := Chain.tail_related hchain
  enterCall h := congrArg (· + 1) h
  leaveCall h := congrArg (· - 1) h
  returns_succ _ := trivial
  eq_zero_iff _ h := by rw [h]
  prints := hprints

/-- States that are compared within `c` more calls.  The functions that are made from now on correspond in the order
in which they are made. -/
structure States (C : Comparison ι) (i : ι) (c : ℕ) (s s' : State) : Prop where
  scopes : C.scopes i s.scopes s'.scopes
  log : C.log s.log s'.log
  calls : C.calls c s.callDepth s'.callDepth
  made (k : ℕ) : C.likeness.function (s.made + k) (s'.made + k)
  readings : s.readings = s'.readings

/-- Two computations end in the same way and in related states, and with a return only where that is compared.  If the
nesting limit is left aside, then it is enough that one of them reaches it. -/
inductive Outcomes (C : Comparison ι) (i : ι) (c : ℕ) (Q : α → β → Prop) :
    EStateM.Result Stop State α → EStateM.Result Stop State β → Prop
  | ok {a : α} {b : β} {s s' : State} :
      Q a b → C.States i c s s' → Outcomes C i c Q (.ok a s) (.ok b s')
  | error {stop stop' : Stop} {s s' : State} :
      C.Stops stop stop' → (stop.IsReturned → C.returns c) → C.States i c s s' →
      Outcomes C i c Q (.error stop s) (.error stop' s')
  | left {stop : Stop} {s : State} {outcome' : EStateM.Result Stop State β} :
      C.aside → stop.IsExhaustion → Outcomes C i c Q (.error stop s) outcome'
  | right {stop' : Stop} {s' : State} {outcome : EStateM.Result Stop State α} :
      C.aside → stop'.IsExhaustion → Outcomes C i c Q outcome (.error stop' s')

/-- Two computations that end in the same way from all states that are compared. -/
def Compares (C : Comparison ι) (i : ι) (c : ℕ) (Q : α → β → Prop) (act : Exec α) (act' : Exec β) : Prop :=
  ∀ ⦃s s'⦄, C.States i c s s' → C.Outcomes i c Q (act s) (act' s')

/-- What a statement of the first program has to be: it declares and returns only where that is compared. -/
structure Admits (C : Comparison ι) (i : ι) (c : ℕ) (s : Node) : Prop where
  declares : s.declares = true → C.declares i
  returns : s.returns = true → C.returns c

namespace Admits

variable {C : Comparison ι} {i : ι} {c : ℕ} {s : Node}

/-- Within a call and a fresh scope any statement may stand. -/
lemma within (hC : C.Lawful) (i : ι) (c : ℕ) (s : Node) : C.Admits (C.fresh i) (c + 1) s :=
  ⟨fun _ => hC.declares_fresh i, fun _ => hC.returns_succ c⟩

/-- A part of an admitted statement is admitted if it does nothing that the statement does not do. -/
lemma part (h : C.Admits i c s) {part : Node} (hdeclares : part.declares = true → s.declares = true)
    (hreturns : part.returns = true → s.returns = true) : C.Admits i c part :=
  ⟨fun hpart => h.declares (hdeclares hpart), fun hpart => h.returns (hreturns hpart)⟩

end Admits

/-- Two hooks and two settings under which trees are run alike. -/
structure Surroundings (C : Comparison ι) (hook hook' : Event → Exec Unit) (setting setting' : Setting) : Prop where
  turns : setting.turns = setting'.turns
  clock : setting.clock = setting'.clock
  notes {i : ι} {c : ℕ} {e e' : Event} :
    C.Events e e' → C.Compares i c (fun _ _ => True) (hook e) (hook' e')
  /-- The second side does not notice braces around a statement that declares nothing. -/
  braced : C.braces → ∀ (depth : ℕ) {s : Node}, s.declares = false →
    Exec.executeWith hook' setting' (depth + 1) (.block (.list [s])) = Exec.executeWith hook' setting' depth s

open Exec

variable {C : Comparison ι} {i : ι} {c : ℕ} {Q : α → β → Prop} {S : γ → δ → Prop} {act : Exec α}
  {act' : Exec β}

/-! ## Computations -/

lemma compares_pure {a : α} {b : β} (h : Q a b) : C.Compares i c Q (pure a) (pure b) :=
  fun _ _ hs => .ok h hs

/-- Related stops are compared as such, if no return is compared where it must not be. -/
lemma compares_throw {stop stop' : Stop} (h : C.Stops stop stop') (hreturns : stop.IsReturned → C.returns c) :
    C.Compares i c Q (throw stop) (throw stop') :=
  fun _ _ hs => .error h hreturns hs

/-- If the nesting limit is left aside, then the first run may reach it whatever the second one does. -/
lemma compares_tooDeep_left (haside : C.aside) (act' : Exec β) :
    C.Compares i c Q (throw .tooDeep : Exec α) act' :=
  fun _ _ _ => .left haside trivial

/-- If the nesting limit is left aside, then the second run may reach it whatever the first one does. -/
lemma compares_tooDeep_right (haside : C.aside) (act : Exec α) :
    C.Compares i c Q act (throw .tooDeep : Exec β) :=
  fun _ _ _ => .right haside trivial

/-- Sequences are compared part by part. -/
lemma Compares.bind {next : α → Exec γ} {next' : β → Exec δ} (h : C.Compares i c Q act act')
    (hnext : ∀ {a b}, Q a b → C.Compares i c S (next a) (next' b)) :
    C.Compares i c S (act >>= next) (act' >>= next') := by
  intro s s' hs
  have hact := h hs
  rw [bind_apply, bind_apply]
  generalize act s = outcome, act' s' = outcome' at hact
  cases hact with
  | ok hab ht => exact hnext hab ht
  | error hstop hreturns ht => exact .error hstop hreturns ht
  | left haside hstop => exact .left haside hstop
  | right haside hstop => exact .right haside hstop

/-- Parts of the trees are at hand on both sides, or on neither for the same reason. -/
lemma compares_part {result : Except Fault α} {result' : Except Fault β}
    (h : Matched (Fault.Corresponds C.likeness.token) Q result result') :
    C.Compares i c Q (part result) (part result') := by
  cases h with
  | ok hab => exact compares_pure hab
  | error hfault => exact compares_throw (.fault (.other hfault)) nofun

/-- Failures for one cause are blamed on tokens that are alike. -/
lemma compares_fail {cause : RuntimeCause} {r : Role} {t u : Leaf} (ht : C.likeness.token r t u)
    (h : cause.Blames r t) : C.Compares i c Q (fail cause t) (fail cause u) :=
  compares_throw (.failed ht h) nofun

/-- A part of a tree that should be a token is one on both sides, for the same purpose. -/
lemma compares_leaf {r : Role} {n n' : Node} (h : n.Corresponds C.likeness.token r n') :
    C.Compares i c (C.likeness.token r) (part n.leaf?) (part n'.leaf?) :=
  compares_part h.leaf?

/-- What stands for the list of statements does so on both sides. -/
lemma compares_items {n n' : Node} (h : n.Embraced C.likeness.token C.braces n') :
    C.Compares i c
      (fun items items' => n.items? = .ok items ∧
        List.Forall₂ (Node.Embraced C.likeness.token C.braces) items items')
      (part n.items?) (part n'.items?) := by
  have hitems := h.items?
  generalize n.items? = outcome, n'.items? = outcome' at hitems
  cases hitems with
  | ok hitems => exact compares_pure ⟨rfl, hitems⟩
  | error hfault => exact compares_throw (.fault (.other hfault)) nofun

/-- Failures for one cause are blamed alike at corresponding places, be these tokens or not. -/
lemma compares_failAt (cause : RuntimeCause) {r : Role} {n n' : Node}
    (h : n.Corresponds C.likeness.token r n') (hblames : ∀ t, cause.Blames r t) :
    C.Compares i c Q (failAt cause n) (failAt cause n') :=
  (compares_leaf h).bind fun ht => compares_fail ht (hblames _)

/-- Computations one after the other are compared one by one. -/
lemma compares_forM {R : γ → δ → Prop} {f : γ → Exec Unit} {f' : δ → Exec Unit} {as : List γ}
    {bs : List δ} (has : List.Forall₂ R as bs)
    (hf : ∀ {a b}, a ∈ as → R a b → C.Compares i c (fun _ _ => True) (f a) (f' b)) :
    C.Compares i c (fun _ _ => True) (as.forM f) (bs.forM f') := by
  induction has with
  | nil => exact compares_pure trivial
  | cons hab _ ih =>
    exact (hf List.mem_cons_self hab).bind fun _ => ih fun hmem => hf (List.mem_cons_of_mem _ hmem)

/-- Computations of values one after the other are compared one by one. -/
lemma compares_mapM {R : γ → δ → Prop} {f : γ → Exec α} {f' : δ → Exec β} {as : List γ}
    {bs : List δ} (has : List.Forall₂ R as bs) (hf : ∀ {a b}, R a b → C.Compares i c Q (f a) (f' b)) :
    C.Compares i c (List.Forall₂ Q) (as.mapM f) (bs.mapM f') := by
  induction has with
  | nil => exact compares_pure .nil
  | cons hab _ ih =>
    rw [List.mapM_cons, List.mapM_cons]
    exact (hf hab).bind fun hv => ih.bind fun hvs => compares_pure (.cons hv hvs)

/-- Loops are compared turn by turn, since both make the same turns. -/
lemma compares_repeatWhile {test test' : Exec Bool} {body body' : Exec Unit}
    (htest : C.Compares i c Eq test test') (hbody : C.Compares i c (fun _ _ => True) body body')
    (turns : ℕ) :
    C.Compares i c (fun _ _ => True) (repeatWhile test body turns) (repeatWhile test' body' turns) := by
  induction turns with
  | zero => exact compares_throw .outOfTurns nofun
  | succ turns ih =>
    refine htest.bind fun {b b'} hb => ?_
    obtain rfl : b = b' := hb
    cases b with
    | true => exact hbody.bind fun _ => ih
    | false => exact compares_pure trivial

/-- A call that runs into the nesting limit is blamed for it, if it can be. -/
lemma isExhaustion_callsTooDeep (paren : Node) (s : State) :
    ∃ stop, (failAt .callsTooDeep paren : Exec Value) s = .error stop s ∧ stop.IsExhaustion := by
  cases paren with
  | token t => exact ⟨.failed ⟨.callsTooDeep, some t.place⟩, rfl, .inl rfl⟩
  | _ => exact ⟨.fault .noToken, rfl, rfl⟩

/-- Functions that are made at the same time correspond. -/
lemma compares_makeFunction (name : String) {params params' body body' : Node}
    (hparams : params.Corresponds C.likeness.token .name params')
    (hbody : body.Embraced C.likeness.token C.braces body') :
    C.Compares i c C.Values (makeFunction name params body) (makeFunction name params' body') := by
  intro s s' hs
  have hfunction : C.Values (.function ⟨s.made, name, params, body⟩) (.function ⟨s'.made, name, params', body'⟩) :=
    .function name (hs.made 0) hparams hbody
  have hmade : ∀ k, C.likeness.function (s.made + 1 + k) (s'.made + 1 + k) := by
    intro k
    rw [Nat.add_assoc, Nat.add_assoc]
    exact hs.made (1 + k)
  unfold makeFunction
  rw [get_bind, get_bind]
  exact .ok hfunction ⟨hs.scopes, hs.log, hs.calls, hmade, hs.readings⟩

/-- The clock shows the same, as it has been read equally often. -/
lemma compares_readClock (clock : ℕ → Float) :
    C.Compares i c C.Values (readClock clock) (readClock clock) := by
  intro s s' hs
  have hnext : s.readings + 1 = s'.readings + 1 := congrArg (· + 1) hs.readings
  unfold readClock
  rw [get_bind, get_bind, ← hs.readings]
  exact .ok (.same nofun) ⟨hs.scopes, hs.log, hs.calls, hs.made, rfl⟩

/-- An operator gives the same value on both sides, or is blamed in the same way. -/
lemma compares_result {operator operator' : Leaf} {r : Role} {outcome : Except RuntimeCause Value}
    (ht : C.likeness.token r operator operator') (hvalue : ∀ {v}, outcome = .ok v → v.IsPlain)
    (hcause : ∀ {cause}, outcome = .error cause → cause.Blames r operator) :
    C.Compares i c C.Values (result operator outcome) (result operator' outcome) := by
  cases outcome with
  | ok v => exact compares_pure (hvalue rfl).embraced
  | error cause => exact compares_fail ht (hcause rfl)

/-- If all events may be recorded, then programs may be run without other hooks. -/
lemma surroundings_record {setting setting' : Setting} (turns : setting.turns = setting'.turns)
    (clock : setting.clock = setting'.clock)
    (hlog : ∀ {e e' : Event} {l l' : List Event}, C.Events e e' → C.log l l' → C.log (e :: l) (e' :: l'))
    (braced : C.braces → ∀ (depth : ℕ) {s : Node}, s.declares = false →
      execute setting' (depth + 1) (.block (.list [s])) = execute setting' depth s) :
    C.Surroundings record record setting setting' where
  turns := turns
  clock := clock
  notes he _ _ hs := .ok trivial ⟨hs.scopes, hlog he hs.log, hs.calls, hs.made, hs.readings⟩
  braced := by
    simpa only [executeWith_record] using braced

/-! ## Scopes, calls and names -/

section Lawful

variable (hC : C.Lawful)

include hC

/-- Related values are printed. -/
lemma compares_print {v v' : Value} (h : C.Values v v') :
    C.Compares i c (fun _ _ => True) (record (.printed v)) (record (.printed v')) :=
  fun _ _ hs => .ok trivial
    ⟨hs.scopes, hC.prints h hs.log, hs.calls, hs.made, hs.readings⟩

/-- In a fresh scope the comparison goes on as it does in one, and behind it as before. -/
lemma compares_inFreshScope (h : C.Compares (C.fresh i) c Q act act') :
    C.Compares i c Q (inFreshScope act) (inFreshScope act') := by
  intro s s' hs
  have hfresh : C.States (C.fresh i) c { s with scopes := [] :: s.scopes }
      { s' with scopes := [] :: s'.scopes } :=
    ⟨hC.enter hs.scopes, hs.log, hs.calls, hs.made, hs.readings⟩
  have hdrop : ∀ {t t' : State}, C.States (C.fresh i) c t t' →
      C.States i c { t with scopes := t.scopes.tail } { t' with scopes := t'.scopes.tail } :=
    fun ht => ⟨hC.leave ht.scopes, ht.log, ht.calls, ht.made, ht.readings⟩
  have hact := h hfresh
  unfold inFreshScope
  generalize act { s with scopes := [] :: s.scopes } = outcome,
    act' { s' with scopes := [] :: s'.scopes } = outcome' at hact
  cases hact with
  | ok hab ht => exact .ok hab (hdrop ht)
  | error hstop hreturns ht => exact .error hstop hreturns (hdrop ht)
  | left haside hstop => exact .left haside hstop
  | right haside hstop => exact .right haside hstop

/-- What is compared inside of two calls may be compared of the calls. -/
lemma compares_asCall {paren paren' : Node} {body body' : Exec Unit}
    (hparen : paren.Corresponds C.likeness.token .closing paren')
    (h : C.Compares i (c + 1) (fun _ _ => True) body body') :
    C.Compares i c C.Values (asCall paren body) (asCall paren' body') := by
  intro s s' hs
  have hentered : C.States i (c + 1) { s with callDepth := s.callDepth + 1 }
      { s' with callDepth := s'.callDepth + 1 } :=
    ⟨hs.scopes, hs.log, hC.enterCall hs.calls, hs.made, hs.readings⟩
  have hleft : ∀ {t t' : State}, C.States i (c + 1) t t' →
      C.States i c { t with callDepth := t.callDepth - 1 } { t' with callDepth := t'.callDepth - 1 } :=
    fun ht => ⟨ht.scopes, ht.log, hC.leaveCall ht.calls, ht.made, ht.readings⟩
  have hbody := h hentered
  unfold asCall
  generalize body { s with callDepth := s.callDepth + 1 } = outcome,
    body' { s' with callDepth := s'.callDepth + 1 } = outcome' at hbody
  cases hbody with
  | ok _ ht => exact .ok (.same nofun) (hleft ht)
  | error hstop _ ht =>
    cases hstop with
    | returned hv => exact .ok hv (hleft ht)
    | failed htoken hblames => exact .error (.failed htoken hblames) nofun (hleft ht)
    | programTooDeep => exact .error .programTooDeep nofun (hleft ht)
    | fault hfault => exact .error (.fault hfault) nofun (hleft ht)
    | tooDeep => exact compares_failAt .callsTooDeep hparen (fun _ => trivial) (hleft ht)
    | outOfTurns => exact .error .outOfTurns nofun (hleft ht)
  | @left stop t _ haside hstop =>
    cases stop with
    | tooDeep =>
      obtain ⟨stop, hfail, hexhausted⟩ := isExhaustion_callsTooDeep paren { t with callDepth := t.callDepth - 1 }
      dsimp only
      rw [hfail]
      exact .left haside hexhausted
    | returned _ | outOfTurns => exact hstop.elim
    | _ => exact .left haside hstop
  | @right stop' t' _ haside hstop =>
    cases stop' with
    | tooDeep =>
      obtain ⟨stop, hfail, hexhausted⟩ :=
        isExhaustion_callsTooDeep paren' { t' with callDepth := t'.callDepth - 1 }
      dsimp only
      rw [hfail]
      exact .right haside hexhausted
    | returned _ | outOfTurns => exact hstop.elim
    | _ => exact .right haside hstop

/-- A token names one variable on both sides, or none on both. -/
lemma compares_name {r : Role} {t u : Leaf} (ht : C.likeness.token r t u) :
    C.Compares i c (fun name name' => name = name' ∧ t.name? = .ok name) (part t.name?) (part u.name?) := by
  rw [← hC.meansSame.name?_eq ht]
  refine compares_part ?_
  cases hname : t.name? with
  | ok name => exact .ok ⟨rfl, rfl⟩
  | error fault =>
    rw [Leaf.name?_eq_error hname]
    exact .error .noName

/-- Names that are alike have related values, or are unknown on both sides. -/
lemma compares_lookUp {t u : Leaf} (ht : C.likeness.token .name t u) :
    C.Compares i c C.Values (lookUp t) (lookUp u) := by
  refine (compares_name hC ht).bind fun {name name'} hname => ?_
  obtain ⟨rfl, hname⟩ := hname
  intro s s' hs
  have hfound := hC.find? hs.scopes ht hname
  rw [get_bind, get_bind, Chain.read, Chain.read]
  generalize s.scopes.find? name = o, s'.scopes.find? name = o' at hfound
  cases hfound with
  | none =>
    have hblames : (RuntimeCause.unknownIdentifier name.text).Blames .name t := Leaf.inText_of_name? hname
    exact compares_fail ht hblames hs
  | some hv => exact .ok hv hs

omit hC in
/-- Writing related scopes back, or blaming the name. -/
lemma compares_update {t u : Leaf} (ht : C.likeness.token .name t u)
    (change change' : Chain → Except RuntimeCause Chain)
    (h : ∀ {chain chain'}, C.scopes i chain chain' →
      Matched (fun cause cause' => cause = cause' ∧ cause.Blames .name t) (C.scopes i) (change chain)
        (change' chain')) :
    C.Compares i c (fun _ _ => True)
      (do
        let s ← get
        match change s.scopes with
        | .ok scopes => set { s with scopes }
        | .error cause => fail cause t : Exec Unit)
      (do
        let s ← get
        match change' s.scopes with
        | .ok scopes => set { s with scopes }
        | .error cause => fail cause u : Exec Unit) := by
  intro s s' hs
  have hchange := h hs.scopes
  rw [get_bind, get_bind]
  generalize change s.scopes = outcome, change' s'.scopes = outcome' at hchange
  cases hchange with
  | ok hscopes =>
    exact .ok trivial ⟨hscopes, hs.log, hs.calls, hs.made, hs.readings⟩
  | error hcause =>
    obtain ⟨rfl, hblames⟩ := hcause
    exact compares_fail ht hblames hs

/-- Names that are alike can be assigned to on both sides or on neither. -/
lemma compares_assign {t u : Leaf} {v v' : Value} (ht : C.likeness.token .name t u) (hv : C.Values v v') :
    C.Compares i c (fun _ _ => True) (assign t v) (assign u v') := by
  refine (compares_name hC ht).bind fun {name name'} hname => ?_
  obtain ⟨rfl, hname⟩ := hname
  refine compares_update ht (·.assign name v) (·.assign name v') fun {chain chain'} hchain => ?_
  have hfound := hC.assign? hchain ht hname hv
  unfold Chain.assign
  generalize chain.assign? name v = o, chain'.assign? name v' = o' at hfound ⊢
  cases hfound with
  | none => exact .error ⟨rfl, Leaf.inText_of_name? hname⟩
  | some hafter => exact .ok hafter

/-- Where declarations are compared, names that are alike can be declared on both sides or on neither. -/
lemma compares_declare {t u : Leaf} {v v' : Value} (hi : C.declares i) (ht : C.likeness.token .name t u)
    (hv : C.Values v v') : C.Compares i c (fun _ _ => True) (declare t v) (declare u v') := by
  refine (compares_name hC ht).bind fun {name name'} hname => ?_
  obtain ⟨rfl, hname⟩ := hname
  refine compares_update ht (·.declare name v) (·.declare name v') fun {chain chain'} hchain => ?_
  have hfound := hC.declare? hi hchain ht hname hv
  unfold Chain.declare
  generalize chain.declare? name v = o, chain'.declare? name v' = o' at hfound ⊢
  cases hfound with
  | none => exact .error ⟨rfl, Leaf.inText_of_name? hname⟩
  | some hafter => exact .ok hafter

/-- Parameters are declared with as many of the arguments as there are. -/
lemma compares_declareAll {params params' : List Node} {args args' : List Value} (hi : C.declares i)
    (hparams : List.Forall₂ (Node.Corresponds C.likeness.token .name) params params')
    (hargs : List.Forall₂ C.Values args args') :
    C.Compares i c (fun _ _ => True) (declareAll params args) (declareAll params' args') := by
  have hzip : List.Forall₂
      (fun p p' : Node × Value => p.1.Corresponds C.likeness.token .name p'.1 ∧ C.Values p.2 p'.2)
      (params.zip args) (params'.zip args') := by
    induction hparams generalizing args args' with
    | nil => exact .nil
    | cons hparam _ ih =>
      cases hargs with
      | nil => exact .nil
      | cons harg hargs => exact .cons ⟨hparam, harg⟩ (ih hargs)
  exact compares_forM hzip fun _ hp => (compares_leaf hp.1).bind fun ht => compares_declare hC hi ht hp.2

/-- Binary operators do the same with related values. -/
lemma compares_applyBinary {t u : Leaf} {a a' b b' : Value} (ht : C.likeness.token .binary t u)
    (ha : C.Values a a') (hb : C.Values b b') :
    C.Compares i c C.Values (applyBinary t a b) (applyBinary u a' b') := by
  unfold applyBinary
  rw [← hC.meansSame.kind_eq ht, ← hC.meansSame.lexeme_eq ht, ← Operator.binary_eq hC.meansSame _ _ ha hb]
  exact compares_result ht Operator.isPlain_of_binary Operator.blames_binary

/-- Unary operators do the same with related values. -/
lemma compares_applyUnary {t u : Leaf} {a a' : Value} (ht : C.likeness.token .unary t u)
    (ha : C.Values a a') : C.Compares i c C.Values (applyUnary t a) (applyUnary u a') := by
  unfold applyUnary
  rw [← hC.meansSame.kind_eq ht, ← hC.meansSame.lexeme_eq ht, ← Operator.unary_eq _ _ ha]
  exact compares_result ht Operator.isPlain_of_unary Operator.blames_unary

/-! ## Trees -/

variable {hook hook' : Event → Exec Unit} {setting setting' : Setting} {depth depth' : ℕ}

omit hC in
/-- Related callees take equally many arguments, and are blamed alike if they get others. -/
lemma compares_checkArity (hsurroundings : C.Surroundings hook hook' setting setting') {callee callee' : Value}
    {paren paren' : Node} (expected got : ℕ) (hcallee : C.Values callee callee')
    (hparen : paren.Corresponds C.likeness.token .closing paren') :
    C.Compares i c (fun _ _ => True) (checkArityWith hook callee expected got paren)
      (checkArityWith hook' callee' expected got paren') := by
  unfold checkArityWith
  split
  · rw [hcallee.text_eq]
    exact compares_failAt (.arity _ _ _) hparen fun _ => trivial
  · exact hsurroundings.notes (.called got hcallee)

/-- With so much nesting left on either side, trees that are the same up to braces are run alike. -/
structure Alike (C : Comparison ι) (hook hook' : Event → Exec Unit) (setting setting' : Setting)
    (depth depth' : ℕ) : Prop where
  evaluate {i : ι} {c : ℕ} {r : Role} {e e' : Node} :
    e.Corresponds C.likeness.token r e' →
    C.Compares i c C.Values (evaluateWith hook setting depth e) (evaluateWith hook' setting' depth' e')
  call {i : ι} {c : ℕ} {callee callee' : Value} {args args' : List Value} {paren paren' : Node} :
    C.Values callee callee' → List.Forall₂ C.Values args args' →
    paren.Corresponds C.likeness.token .closing paren' →
    C.Compares i c C.Values (callWith hook setting depth callee args paren)
      (callWith hook' setting' depth' callee' args' paren')
  execute {i : ι} {c : ℕ} {s s' : Node} :
    C.Admits i c s → s.Embraced C.likeness.token C.braces s' →
    C.Compares i c (fun _ _ => True) (executeWith hook setting depth s) (executeWith hook' setting' depth' s')

variable (h : C.Alike hook hook' setting setting' depth depth')

include h

/-- Expressions are compared if their parts are. -/
lemma compares_evaluate_succ {r : Role} {e e' : Node}
    (he : e.Corresponds C.likeness.token r e') :
    C.Compares i c C.Values (evaluateWith hook setting (depth + 1) e)
      (evaluateWith hook' setting' (depth' + 1) e') := by
  have hno : C.Compares i c C.Values (throw (.fault (.noExpression e))) (throw (.fault (.noExpression e'))) :=
    compares_throw (.fault (.other (.noExpression he))) nofun
  cases he with
  | literal value => exact compares_pure (Value.embraced_ofNode value)
  | grouping he => exact h.evaluate he
  | ident hname => exact (compares_leaf hname).bind fun ht => compares_lookUp hC ht
  | assign hname he =>
    refine (h.evaluate he).bind fun hv => (compares_leaf hname).bind fun ht => ?_
    exact (compares_assign hC ht hv).bind fun _ => compares_pure hv
  | unary hoperator he =>
    exact (h.evaluate he).bind fun ha => (compares_leaf hoperator).bind fun ht =>
      compares_applyUnary hC ht ha
  | logical hleft hoperator hright =>
    refine (h.evaluate hleft).bind fun hv => (compares_leaf hoperator).bind fun ht => ?_
    rw [← hv.truthy_eq, ← hC.meansSame.kind_eq ht]
    split
    · exact compares_pure hv
    · exact h.evaluate hright
  | binary hleft hoperator hright =>
    refine (h.evaluate hleft).bind fun ha => (h.evaluate hright).bind fun hb => ?_
    exact (compares_leaf hoperator).bind fun ht => compares_applyBinary hC ht ha hb
  | call hcallee hparen harguments =>
    refine (h.evaluate hcallee).bind fun hf => (compares_part harguments.items?).bind fun hitems => ?_
    exact (compares_mapM hitems fun he => h.evaluate he).bind fun hargs => h.call hf hargs hparen
  | _ => exact hno

/-- Calls are compared if the statements of the bodies are. -/
lemma compares_call_succ (hsurroundings : C.Surroundings hook hook' setting setting') {callee callee' : Value}
    {args args' : List Value} {paren paren' : Node} (hcallee : C.Values callee callee')
    (hargs : List.Forall₂ C.Values args args') (hparen : paren.Corresponds C.likeness.token .closing paren') :
    C.Compares i c C.Values (callWith hook setting (depth + 1) callee args paren)
      (callWith hook' setting' (depth' + 1) callee' args' paren') := by
  have hlength := hargs.length_eq
  cases hcallee with
  | function name hid hparams hbody =>
    refine (compares_part hparams.items?).bind fun hitems => ?_
    rw [← hitems.length_eq, ← hlength]
    refine (compares_checkArity hsurroundings _ _ (.function name hid hparams hbody) hparen).bind fun _ => ?_
    refine compares_asCall hC hparen (compares_inFreshScope hC ?_)
    refine (compares_declareAll hC (hC.declares_fresh i) hitems hargs).bind fun _ => ?_
    refine (compares_part hbody.items?).bind fun hstatements => compares_forM hstatements fun _ hs => ?_
    exact h.execute (.within hC i c _) hs
  | same hv =>
    cases callee with
    | function f => exact absurd rfl (hv f)
    | clock =>
      unfold callWith
      rw [← hlength, ← hsurroundings.clock]
      exact (compares_checkArity hsurroundings 0 _ (.same hv) hparen).bind fun _ => compares_readClock _
    | _ => exact compares_failAt (.notCallable _) hparen fun _ => trivial

/-- Statements are compared if their parts are, but for braces, which have to be compared already. -/
lemma compares_execute_succ (hsurroundings : C.Surroundings hook hook' setting setting') {s s' : Node}
    (hadmits : C.Admits i c s) (hs : s.Embraced C.likeness.token C.braces s')
    (hbraced : C.braces → ∀ {s'' : Node}, s.Embraced C.likeness.token C.braces s'' →
      C.Compares i c (fun _ _ => True) (executeWith hook setting (depth + 1) s)
        (executeWith hook' setting' depth' s'')) :
    C.Compares i c (fun _ _ => True) (executeWith hook setting (depth + 1) s)
      (executeWith hook' setting' (depth' + 1) s') := by
  have hno : s.isStatement = false → C.Compares i c (fun (_ _ : Unit) => True)
      (throw (.fault (.noStatement s))) (throw (.fault (.noStatement s'))) :=
    fun hstatement => compares_throw (.fault (.noStatement hstatement hs)) nofun
  have hevaluate? : ∀ {r : Role} {e e' : Node}, e.Corresponds C.likeness.token r e' →
      C.Compares i c C.Values (evaluateWith? hook setting depth e) (evaluateWith? hook' setting' depth' e') := by
    intro r e e' he
    cases he with
    | null => exact compares_pure (.same nofun)
    | _ => exact h.evaluate (r := r) (by constructor <;> assumption)
  have hexecute? : ∀ {s s' : Node}, C.Admits i c s → s.Embraced C.likeness.token C.braces s' →
      C.Compares i c (fun _ _ => True) (executeWith? hook setting depth s)
        (executeWith? hook' setting' depth' s') := by
    intro s s' hadmits hs
    by_cases hnull : s = .null
    · obtain rfl := hs.eq_null_iff.mp hnull
      subst hnull
      exact compares_pure trivial
    · rw [executeWith?_of_ne_null hnull, executeWith?_of_ne_null (mt hs.eq_null_iff.mpr hnull)]
      exact h.execute hadmits hs
  cases hs with
  | simple hsimple hs =>
    cases hs with
    | exprStmt he => exact (h.evaluate he).bind fun _ => compares_pure trivial
    | printStmt he => exact (h.evaluate he).bind fun hv => compares_print hC hv
    | varDecl hname he =>
      rw [executeWith_varDecl, executeWith_varDecl]
      refine (hevaluate? he).bind fun hv => (compares_leaf hname).bind fun ht => ?_
      rw [← hC.meansSame.lexeme_eq ht]
      exact (compares_declare hC (hadmits.declares rfl) ht hv).bind fun _ => hsurroundings.notes (.declared _ hv)
    | returnStmt hkeyword he =>
      -- Whether a return is outside of all calls is the same on both sides, although the depths may differ.
      intro s s' hs
      have hactive : s.callDepth = 0 ↔ s'.callDepth = 0 := hC.eq_zero_iff (hadmits.returns rfl) hs.calls
      rw [executeWith_returnStmt, executeWith_returnStmt]
      by_cases houtside : s.callDepth = 0
      · rw [if_pos houtside, if_pos (hactive.mp houtside)]
        exact compares_failAt .returnOutside hkeyword (fun _ => trivial) hs
      · rw [if_neg houtside, if_neg fun h => houtside (hactive.mpr h)]
        exact (hevaluate? he).bind (fun hv => compares_throw (.returned hv) fun _ => hadmits.returns rfl) hs
    | block _ | ifStmt _ _ _ | whileStmt _ _ | funDecl _ _ _ => cases hsimple
    | _ => exact hno rfl
  | nil | cons _ _ => exact hno rfl
  | block hstatements =>
    refine compares_inFreshScope hC ((compares_items hstatements).bind fun {body body'} hbody => ?_)
    obtain ⟨hitems, hbody⟩ := hbody
    refine compares_forM hbody fun hmem hs => h.execute ⟨fun _ => hC.declares_fresh i, fun hreturns => ?_⟩ hs
    have hblock := Node.returns_of_mem hitems hmem hreturns
    exact hadmits.returns hblock
  | ifStmt hcondition hthen helse =>
    have hor : ∀ {a b : Bool}, (a = true → (a || b) = true) ∧ (b = true → (a || b) = true) := by simp +contextual
    rw [executeWith_ifStmt, executeWith_ifStmt]
    refine (h.evaluate hcondition).bind fun hv => (hsurroundings.notes (.ifCondition hv)).bind fun _ => ?_
    rw [← hv.truthy_eq]
    split
    · exact h.execute (hadmits.part hor.1 hor.1) hthen
    · exact hexecute? (hadmits.part hor.2 hor.2) helse
  | @whileStmt _ _ body _ hcondition hbody =>
    have hturn : C.Admits i c body := hadmits.part id id
    unfold executeWith
    rw [← hsurroundings.turns]
    refine compares_repeatWhile ((h.evaluate hcondition).bind fun hv => ?_) (h.execute hturn hbody) _
    exact (hsurroundings.notes (.whileCondition hv)).bind fun _ => compares_pure hv.truthy_eq
  | funDecl hname hparams hbody =>
    refine (compares_leaf hname).bind fun ht => ?_
    rw [← hC.meansSame.lexeme_eq ht]
    refine (compares_makeFunction _ hparams hbody).bind fun hf => ?_
    exact (compares_declare hC (hadmits.declares rfl) ht hf).bind fun _ => hsurroundings.notes (.defined _)
  | braced hbraces htakes hs =>
    -- the braces are left out, which leaves the same statement on the left beside less nesting on the right
    have hplain := hs.declares_eq ▸ Node.declares_of_takesBraces htakes
    rw [hsurroundings.braced hbraces depth' hplain]
    exact hbraced hbraces hs

omit h in
/-- Trees that are the same up to braces are run alike.  If the nesting limit is not left aside, then as much nesting
has to be left on one side as on the other.  The induction is on the nesting that is left on the right, because
braces use it up on that side alone. -/
theorem alike (hsurroundings : C.Surroundings hook hook' setting setting') :
    ∀ {depth depth' : ℕ}, depth = depth' ∨ C.aside → C.Alike hook hook' setting setting' depth depth' := by
  intro depth depth'
  induction depth' generalizing depth with
  | zero =>
    rintro (rfl | haside)
    · exact ⟨fun _ => compares_throw .tooDeep nofun, fun _ _ _ => compares_throw .tooDeep nofun,
        fun _ _ => compares_throw .tooDeep nofun⟩
    · exact ⟨fun _ => compares_tooDeep_right haside _, fun _ _ _ => compares_tooDeep_right haside _,
        fun _ _ => compares_tooDeep_right haside _⟩
  | succ depth' ih =>
    intro hdepth
    cases depth with
    | zero =>
      have haside : C.aside := hdepth.resolve_left (Nat.succ_ne_zero depth').symm
      exact ⟨fun _ => compares_tooDeep_left haside _, fun _ _ _ => compares_tooDeep_left haside _,
        fun _ _ => compares_tooDeep_left haside _⟩
    | succ depth =>
      have h : C.Alike hook hook' setting setting' depth depth' := ih (hdepth.imp_left Nat.succ.inj)
      refine ⟨compares_evaluate_succ hC h, compares_call_succ hC h hsurroundings, fun hadmits hs => ?_⟩
      refine compares_execute_succ hC h hsurroundings hadmits hs fun hbraces => ?_
      exact (ih (.inr (hC.aside_of_braces hbraces))).execute hadmits

/-! ## Programs -/

omit hC h in
/-- The nesting limit of a program is reached on both sides, or on one and left aside. -/
lemma compares_outermost {body body' : Exec Unit} (h : C.Compares i c (fun _ _ => True) body body') :
    C.Compares i c (fun _ _ => True) (outermost body) (outermost body') := by
  intro s s' hs
  have hbody := h hs
  unfold outermost
  generalize body s = outcome, body' s' = outcome' at hbody
  cases hbody with
  | ok _ ht => exact .ok trivial ht
  | error hstop hreturns ht =>
    cases hstop with
    | tooDeep => exact .error .programTooDeep nofun ht
    | _ => exact .error (by constructor <;> assumption) hreturns ht
  | @left stop _ _ haside hstop =>
    cases stop with
    | tooDeep => exact .left haside (.inr rfl)
    | _ => exact .left haside hstop
  | @right stop' _ _ haside hstop =>
    cases stop' with
    | tooDeep => exact .right haside (.inr rfl)
    | _ => exact .right haside hstop

omit h in
/-- Programs that are the same up to braces are run alike. -/
theorem compares_run (hsurroundings : C.Surroundings hook hook' setting setting')
    (hdepth : setting.depth = setting'.depth ∨ C.aside) {statements statements' : List Node}
    (hadmits : ∀ s ∈ statements, C.Admits i c s)
    (hstatements : List.Forall₂ (Node.Embraced C.likeness.token C.braces) statements statements') :
    C.Compares i c (fun _ _ => True) (runWith hook setting statements)
      (runWith hook' setting' statements') := by
  have halike := alike hC hsurroundings hdepth
  have hbody := compares_forM hstatements fun hmem hs => halike.execute (hadmits _ hmem) hs
  refine (hsurroundings.notes .runStart).bind fun _ => ?_
  exact (compares_outermost hbody).bind fun _ => hsurroundings.notes .runEnd

end Lawful

end Comparison

/-! ## Sessions -/

/-- A report says that the nesting limit was reached. -/
def Report.Exhausts (report : Report) : Prop :=
  ∃ stop, report.failure? = some (.run stop) ∧ stop.IsExhaustion

namespace Session

variable {ι : Type} {C : Comparison ι} {i : ι} {c : ℕ} {setting setting' : Setting} {session session' : Session}
  {scope scope' : ℕ}

/-- What is compared of two runs can be seen from their reports and from the states that they end in. -/
theorem run_compares (hC : C.Lawful) (hlog : C.log = List.Forall₂ C.Events)
    (hsurroundings : C.Surroundings Exec.record Exec.record setting setting')
    (hdepth : setting.depth = setting'.depth ∨ C.aside) {program program' : List Node}
    (hadmits : ∀ s ∈ program, C.Admits i c s)
    (hprogram : List.Forall₂ (Node.Embraced C.likeness.token C.braces) program program')
    (hstates : C.States i c (session.state scope) (session'.state scope')) :
    let report := (session.run setting scope program).1
    let report' := (session'.run setting' scope' program').1
    C.aside ∧ (report.Exhausts ∨ report'.Exhausts) ∨
      report.Embraced C.likeness C.braces report' ∧
        C.States i c (Exec.final (Exec.run setting program (session.state scope)))
          (Exec.final (Exec.run setting' program' (session'.state scope'))) := by
  have hrun := Comparison.compares_run hC hsurroundings hdepth hadmits hprogram hstates
  rw [Exec.runWith_record, Exec.runWith_record] at hrun
  have houtput : ∀ {s s' : State}, C.States i c s s' → ∀ view : View,
      view.output s.log.reverse = view.output s'.log.reverse := by
    intro s s' hs view
    have hevents : List.Forall₂ C.Events s.log s'.log := hlog ▸ hs.log
    exact View.output_eq_of_embraced (List.rel_reverse hevents) view
  dsimp only
  rw [run_fst, run_fst]
  generalize Exec.run setting program (session.state scope) = outcome,
    Exec.run setting' program' (session'.state scope') = outcome' at hrun
  cases hrun with
  | ok _ hs => exact .inr ⟨⟨houtput hs, .none⟩, hs⟩
  | error hstop _ hs => exact .inr ⟨⟨houtput hs, .some (.run hstop)⟩, hs⟩
  | left haside hstop => exact .inl ⟨haside, .inl ⟨_, rfl, hstop⟩⟩
  | right haside hstop => exact .inl ⟨haside, .inr ⟨_, rfl, hstop⟩⟩

end Session

end Scriptlet
