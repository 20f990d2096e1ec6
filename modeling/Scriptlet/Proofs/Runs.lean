import Scriptlet.Proofs.Accepted

/-!
# What runs keep to

A value is sound if scripts compute with it, and a state is sound if its scopes and its log hold sound
values only.  A computation keeps to this if it takes sound states to sound states and ends with a value
of the expected sort, or else with a stop that a script can cause: it is neither stopped by a tree of the
wrong sort nor by an operator that is none, and it returns only where a call is active.

Functions outlive the source that declares them, so that their bodies are statements is part of the
soundness of values, and a call can rely on it whatever source it comes from.
-/

namespace Scriptlet

open Grammar (IsExpression IsStatement)

/-! ## Sound states -/

/-- The values that scripts compute with: nothing, truth values, numbers, texts and functions.  The
parameters of a function are tokens and its body is a list of statements. -/
inductive Value.IsSound : Value → Prop
  | nil : IsSound .nil
  | bool (b : Bool) : IsSound (.bool b)
  | number (x : Float) : IsSound (.number x)
  | string (s : String) : IsSound (.string s)
  | clock : IsSound .clock
  | function (id : ℕ) (name : String) {params : List Leaf} {body : List Node} :
      (∀ t ∈ params, t.IsScanned) → (∀ s ∈ body, IsStatement Leaf.IsScanned s) →
      IsSound (.function ⟨id, name, .list (params.map .token), .list body⟩)

/-- The values that an event is about. -/
def Event.values : Event → List Value
  | printed value | declared _ value | ifCondition value | whileCondition value => [value]
  | called callee _ => [callee]
  | _ => []

/-- All values that are bound in a scope have a property. -/
def Frame.All (P : Value → Prop) (frame : Frame) : Prop :=
  ∀ binding ∈ frame, P binding.2

/-- All values that are bound in the scopes of a chain have a property. -/
def Chain.All (P : Value → Prop) (chain : Chain) : Prop :=
  ∀ frame ∈ chain, frame.All P

/-- All values that are bound in a scope are sound. -/
def Frame.IsSound (frame : Frame) : Prop :=
  ∀ binding ∈ frame, binding.2.IsSound

/-- All values that are bound in the scopes of a chain are sound. -/
def Chain.IsSound (chain : Chain) : Prop :=
  ∀ frame ∈ chain, frame.IsSound

/-- All values in the scopes and in the log of a state are sound. -/
structure State.IsSound (s : State) : Prop where
  scopes : s.scopes.IsSound
  log : ∀ event ∈ s.log, ∀ value ∈ event.values, value.IsSound

/-- An event about sound values may be recorded. -/
lemma State.IsSound.record {s : State} (hs : s.IsSound) {event : Event}
    (h : ∀ value ∈ event.values, value.IsSound) :
    State.IsSound { s with log := event :: s.log } :=
  ⟨hs.scopes, List.forall_mem_cons.mpr ⟨h, hs.log⟩⟩

/-- The causes that a script can bring about. -/
def RuntimeCause.IsPlain : RuntimeCause → Prop
  | unknownOperator _ | unsupportedUnary _ => False
  | _ => True

/-- The stops that a script can bring about while `active` calls are active. -/
def Stop.IsSound (active : ℕ) : Stop → Prop
  | returned value => 0 < active ∧ value.IsSound
  | failed error => error.cause.IsPlain
  | fault _ => False
  | tooDeep | outOfTurns => True

/-! ## Scopes -/

namespace Frame

variable {P : Value → Prop} {frame : Frame} {value : Value}

lemma isSound_nil : IsSound [] := by
  simp [IsSound]

/-- What is found in a frame is one of its values. -/
lemma All.find? (h : frame.All P) {name : Name} (hfind : frame.find? name = some value) : P value := by
  induction frame with
  | nil => cases hfind
  | cons b rest ih =>
    obtain ⟨hb, hrest⟩ := List.forall_mem_cons.mp h
    rw [Frame.find?] at hfind
    split at hfind
    · obtain rfl := Option.some.inj hfind
      exact hb
    · exact ih hrest hfind

/-- A frame keeps a property of all its values when a value that has it is assigned. -/
lemma All.assign (h : frame.All P) (hvalue : P value) (name : Name) : All P (frame.assign name value) := by
  induction frame with
  | nil => exact List.forall_mem_nil _
  | cons b rest ih =>
    obtain ⟨hb, hrest⟩ := List.forall_mem_cons.mp h
    rw [Frame.assign]
    split
    · exact List.forall_mem_cons.mpr ⟨hvalue, hrest⟩
    · exact List.forall_mem_cons.mpr ⟨hb, ih hrest⟩

end Frame

namespace Chain

variable {chain after : Chain} {name : Name} {value : Value} {cause : RuntimeCause}

/-- Reading succeeds exactly with the value that is found. -/
lemma read_eq_ok : chain.read name = .ok value ↔ chain.find? name = some value := by
  unfold Chain.read
  cases chain.find? name <;> simp

/-- Assigning succeeds exactly if some scope binds the name. -/
lemma assign_eq_ok : chain.assign name value = .ok after ↔ chain.assign? name value = some after := by
  unfold Chain.assign
  cases chain.assign? name value <;> simp

/-- Declaring succeeds exactly if the innermost scope does not bind the name yet. -/
lemma declare_eq_ok :
    chain.declare name value = .ok after ↔ chain.declare? name value = some after := by
  unfold Chain.declare
  cases chain.declare? name value <;> simp

section All

variable {P : Value → Prop}

/-- What is read is one of the values of the scopes. -/
lemma All.read (h : chain.All P) (hread : chain.read name = .ok value) : P value := by
  obtain ⟨frame, hframe, hfind⟩ := List.exists_of_findSome?_eq_some (read_eq_ok.mp hread)
  exact (h frame hframe).find? hfind

/-- Scopes keep a property of all their values when a value that has it is assigned. -/
lemma All.assign (h : chain.All P) (hvalue : P value) (hassign : chain.assign name value = .ok after) :
    after.All P := by
  rw [assign_eq_ok] at hassign
  induction chain generalizing after with
  | nil => cases hassign
  | cons frame outer ih =>
    obtain ⟨hframe, houter⟩ := List.forall_mem_cons.mp h
    rw [assign?] at hassign
    split at hassign
    · obtain rfl := Option.some.inj hassign
      exact List.forall_mem_cons.mpr ⟨hframe.assign hvalue name, houter⟩
    · obtain ⟨rest, hrest, rfl⟩ := Option.map_eq_some_iff.mp hassign
      exact List.forall_mem_cons.mpr ⟨hframe, ih houter hrest⟩

/-- Scopes keep a property of all their values when a value that has it is declared. -/
lemma All.declare (h : chain.All P) (hvalue : P value) (hdeclare : chain.declare name value = .ok after) :
    after.All P := by
  rw [declare_eq_ok] at hdeclare
  cases chain with
  | nil => cases hdeclare
  | cons frame outer =>
    obtain ⟨hframe, houter⟩ := List.forall_mem_cons.mp h
    rw [declare?] at hdeclare
    split at hdeclare
    · cases hdeclare
    · obtain rfl := Option.some.inj hdeclare
      exact List.forall_mem_cons.mpr ⟨List.forall_mem_cons.mpr ⟨hvalue, hframe⟩, houter⟩

end All

/-- From sound scopes a sound value is read. -/
lemma IsSound.read (h : chain.IsSound) (hread : chain.read name = .ok value) : value.IsSound :=
  All.read h hread

/-- Assigning a sound value leaves scopes sound. -/
lemma IsSound.assign (h : chain.IsSound) (hvalue : value.IsSound)
    (hassign : chain.assign name value = .ok after) : after.IsSound :=
  All.assign h hvalue hassign

/-- Declaring a sound value leaves scopes sound. -/
lemma IsSound.declare (h : chain.IsSound) (hvalue : value.IsSound)
    (hdeclare : chain.declare name value = .ok after) : after.IsSound :=
  All.declare h hvalue hdeclare

/-- The only thing that can be wrong with a variable is that it is not bound, or bound already. -/
lemma isPlain_of_read (h : chain.read name = .error cause) : cause.IsPlain := by
  unfold Chain.read at h
  cases hfind : chain.find? name <;> simp [hfind] at h
  exact h ▸ trivial

/-- That an assignment fails is something that a script can bring about. -/
lemma isPlain_of_assign (h : chain.assign name value = .error cause) : cause.IsPlain := by
  unfold Chain.assign at h
  cases hassign : chain.assign? name value <;> simp [hassign] at h
  exact h ▸ trivial

/-- That a declaration fails is something that a script can bring about. -/
lemma isPlain_of_declare (h : chain.declare name value = .error cause) : cause.IsPlain := by
  unfold Chain.declare at h
  cases hdeclare : chain.declare? name value <;> simp [hdeclare] at h
  exact h ▸ trivial

end Chain

/-- A fresh scope may be entered, whatever calls are active in it. -/
lemma State.IsSound.fresh {s : State} (hs : s.IsSound) (active : ℕ) :
    State.IsSound { s with scopes := [] :: s.scopes, callDepth := active } :=
  ⟨List.forall_mem_cons.mpr ⟨Frame.isSound_nil, hs.scopes⟩, hs.log⟩

/-! ## Computations -/

namespace Exec

variable {α β : Type} {active : ℕ} {post : α → Prop}

/-- How a computation ends that keeps to soundness while `active` calls are active. -/
def EndsWell (active : ℕ) (post : α → Prop) : EStateM.Result Stop State α → Prop
  | .ok a s => post a ∧ s.IsSound ∧ s.callDepth = active
  | .error stop s => stop.IsSound active ∧ s.IsSound ∧ s.callDepth = active

/-- From every sound state in which `active` calls are active a computation ends well. -/
def Keeps (active : ℕ) (act : Exec α) (post : α → Prop) : Prop :=
  ∀ s, s.IsSound → s.callDepth = active → EndsWell active post (act s)

/-- What a sequence of two computations does. -/
lemma bind_apply (act : Exec α) (next : α → Exec β) (s : State) :
    (act >>= next) s =
      match act s with
      | .ok a s => next a s
      | .error stop s => .error stop s := by
  change EStateM.bind act next s = _
  unfold EStateM.bind
  cases act s <;> rfl

lemma Keeps.pure {a : α} (h : post a) : Keeps active (pure a) post :=
  fun _ hs hdepth => ⟨h, hs, hdepth⟩

/-- What two computations keep, their sequence keeps. -/
lemma Keeps.bind {act : Exec α} {next : α → Exec β} {last : β → Prop} (h : Keeps active act post)
    (hnext : ∀ a, post a → Keeps active (next a) last) : Keeps active (act >>= next) last := by
  intro s hs hdepth
  have hact := h s hs hdepth
  rw [bind_apply]
  cases hrun : act s with
  | error stop t =>
    rw [hrun] at hact
    exact hact
  | ok a t =>
    rw [hrun] at hact
    obtain ⟨ha, ht, hdepth'⟩ := hact
    exact hnext a ha t ht hdepth'

/-- A computation that looks at the state ends well if it does so whatever state it sees. -/
lemma Keeps.get {next : State → Exec α}
    (h : ∀ s, s.IsSound → s.callDepth = active → EndsWell active post (next s s)) :
    Keeps active (get >>= next) post :=
  h

/-- Stopping keeps the scopes sound, if the stop is sound. -/
lemma Keeps.throw {stop : Stop} (h : stop.IsSound active) :
    Keeps active (throw stop : Exec α) post :=
  fun _ hs hdepth => ⟨h, hs, hdepth⟩

/-- Failing with an error that a script can cause keeps the scopes sound. -/
lemma keeps_fail {cause : RuntimeCause} (h : cause.IsPlain) (t : Leaf) :
    Keeps active (fail cause t : Exec α) post :=
  .throw h

/-- A part of the expected sort is just given. -/
@[simp] lemma part_ok (a : α) : part (.ok a) = pure a := rfl

/-- An error is reported at a place that is a token. -/
lemma keeps_failAt {cause : RuntimeCause} (h : cause.IsPlain) (t : Leaf) :
    Keeps active (failAt cause (.token t) : Exec α) post :=
  keeps_fail h t

/-- A sound value may be returned as long as a call is active. -/
lemma keeps_returned {value : Value} (hactive : 0 < active) (h : value.IsSound) :
    Keeps active (throw (.returned value) : Exec α) post :=
  .throw ⟨hactive, h⟩

/-- Recording an event about sound values changes no scope. -/
lemma keeps_record {event : Event} (h : ∀ value ∈ event.values, value.IsSound) :
    Keeps active (record event) fun _ => True :=
  fun _ hs hdepth => ⟨trivial, hs.record h, hdepth⟩

/-! ## Variables -/

/-- A token of a source names a variable. -/
lemma part_name? {t : Leaf} (h : t.IsScanned) : ∃ name, part t.name? = pure name := by
  obtain ⟨token, rfl⟩ := h
  exact ⟨_, rfl⟩

/-- Looking up a scanned name gives a sound value. -/
lemma keeps_lookUp {t : Leaf} (h : t.IsScanned) : Keeps active (lookUp t) Value.IsSound := by
  obtain ⟨name, hname⟩ := part_name? h
  unfold lookUp
  rw [hname, pure_bind]
  refine .get fun s hs hdepth => ?_
  cases hread : s.scopes.read name with
  | ok value => exact ⟨hs.scopes.read hread, hs, hdepth⟩
  | error cause => exact keeps_fail (Chain.isPlain_of_read hread) t s hs hdepth

/-- Assigning a sound value to a scanned name keeps scopes sound. -/
lemma keeps_assign {t : Leaf} {value : Value} (h : t.IsScanned) (hvalue : value.IsSound) :
    Keeps active (assign t value) fun _ => True := by
  obtain ⟨name, hname⟩ := part_name? h
  unfold assign
  rw [hname, pure_bind]
  refine .get fun s hs hdepth => ?_
  cases hassign : s.scopes.assign name value with
  | ok scopes => exact ⟨trivial, ⟨hs.scopes.assign hvalue hassign, hs.log⟩, hdepth⟩
  | error cause => exact keeps_fail (Chain.isPlain_of_assign hassign) t s hs hdepth

/-- Declaring a scanned name with a sound value keeps scopes sound. -/
lemma keeps_declare {t : Leaf} {value : Value} (h : t.IsScanned) (hvalue : value.IsSound) :
    Keeps active (declare t value) fun _ => True := by
  obtain ⟨name, hname⟩ := part_name? h
  unfold declare
  rw [hname, pure_bind]
  refine .get fun s hs hdepth => ?_
  cases hdeclare : s.scopes.declare name value with
  | ok scopes => exact ⟨trivial, ⟨hs.scopes.declare hvalue hdeclare, hs.log⟩, hdepth⟩
  | error cause => exact keeps_fail (Chain.isPlain_of_declare hdeclare) t s hs hdepth

/-- Binding sound arguments to scanned parameters keeps scopes sound. -/
lemma keeps_declareAll {params : List Leaf} {arguments : List Value} (h : ∀ t ∈ params, t.IsScanned)
    (harguments : ∀ value ∈ arguments, value.IsSound) :
    Keeps active (declareAll (params.map .token) arguments) fun _ => True := by
  unfold declareAll
  induction params generalizing arguments with
  | nil => exact .pure trivial
  | cons t params ih =>
    cases arguments with
    | nil => exact .pure trivial
    | cons value arguments =>
      obtain ⟨ht, hparams⟩ := List.forall_mem_cons.mp h
      obtain ⟨hvalue, hrest⟩ := List.forall_mem_cons.mp harguments
      exact .bind (keeps_declare ht hvalue) fun _ _ => ih hparams hrest

/-- A function of scanned parameters and well-shaped statements is a sound value. -/
lemma keeps_makeFunction (name : String) {params : List Leaf} {body : List Node}
    (hparams : ∀ t ∈ params, t.IsScanned) (hbody : ∀ s ∈ body, IsStatement Leaf.IsScanned s) :
    Keeps active (makeFunction name (.list (params.map .token)) (.list body)) Value.IsSound :=
  fun s hs hdepth => ⟨.function s.made name hparams hbody, ⟨hs.scopes, hs.log⟩, hdepth⟩

/-- The clock shows a number, which is sound. -/
lemma keeps_readClock (clock : ℕ → Float) : Keeps active (readClock clock) Value.IsSound :=
  fun s hs hdepth => ⟨.number (clock s.readings), ⟨hs.scopes, hs.log⟩, hdepth⟩

/-! ## Scopes, calls and loops -/

/-- What is kept in one scope more is kept when that scope is dropped. -/
lemma keeps_inFreshScope {act : Exec α} (h : Keeps active act post) :
    Keeps active (inFreshScope act) post := by
  intro s hs hdepth
  have hact := h _ (hs.fresh s.callDepth) hdepth
  have hdrop : ∀ t : State, t.IsSound → State.IsSound { t with scopes := t.scopes.tail } :=
    fun t ht => ⟨fun frame hmem => ht.scopes frame (List.mem_of_mem_tail hmem), ht.log⟩
  unfold inFreshScope
  cases hrun : act { s with scopes := [] :: s.scopes } with
  | ok a t =>
    rw [hrun] at hact
    exact ⟨hact.1, hdrop t hact.2.1, hact.2.2⟩
  | error stop t =>
    rw [hrun] at hact
    exact ⟨hact.1, hdrop t hact.2.1, hact.2.2⟩

/-- A call takes what its body returns, so nothing is returned beyond it. -/
lemma keeps_asCall {body : Exec Unit} (paren : Leaf) (h : Keeps (active + 1) body fun _ => True) :
    Keeps active (asCall (.token paren) body) Value.IsSound := by
  intro s hs hdepth
  have hbody := h { s with callDepth := s.callDepth + 1 } ⟨hs.scopes, hs.log⟩ (by simp [hdepth])
  have hleave : ∀ t : State, t.IsSound ∧ t.callDepth = active + 1 →
      State.IsSound { t with callDepth := t.callDepth - 1 } ∧ t.callDepth - 1 = active := by
    rintro t ⟨ht, hdepth⟩
    exact ⟨⟨ht.scopes, ht.log⟩, by omega⟩
  unfold asCall
  cases hrun : body { s with callDepth := s.callDepth + 1 } with
  | ok u t =>
    rw [hrun] at hbody
    exact ⟨.nil, hleave t hbody.2⟩
  | error stop t =>
    rw [hrun] at hbody
    obtain ⟨hstop, ht⟩ := hbody
    cases stop with
    | returned value => exact ⟨hstop.2, hleave t ht⟩
    | failed error => exact ⟨hstop, hleave t ht⟩
    | fault fault => exact hstop.elim
    | tooDeep => exact ⟨trivial, hleave t ht⟩
    | outOfTurns => exact ⟨trivial, hleave t ht⟩

/-- A loop keeps what its condition and its body keep, in each of its turns. -/
lemma keeps_repeatWhile {test : Exec Bool} {body : Exec Unit} (htest : Keeps active test fun _ => True)
    (hbody : Keeps active body fun _ => True) (turns : ℕ) :
    Keeps active (repeatWhile test body turns) fun _ => True := by
  induction turns with
  | zero => exact .throw trivial
  | succ turns ih =>
    refine .bind htest fun b _ => ?_
    cases b with
    | true => exact .bind hbody fun _ _ => ih
    | false => exact .pure trivial

/-- Statements one after the other keep what each of them keeps. -/
lemma keeps_forM {f : α → Exec Unit} {as : List α} (h : ∀ a ∈ as, Keeps active (f a) fun _ => True) :
    Keeps active (as.forM f) fun _ => True := by
  induction as with
  | nil => exact .pure trivial
  | cons a as ih =>
    obtain ⟨ha, has⟩ := List.forall_mem_cons.mp h
    exact .bind ha fun _ _ => ih has

/-- Expressions one after the other keep what each of them keeps, and give values that all are as they should
be. -/
lemma keeps_mapM {f : α → Exec β} {last : β → Prop} {as : List α}
    (h : ∀ a ∈ as, Keeps active (f a) last) :
    Keeps active (as.mapM f) fun bs => ∀ b ∈ bs, last b := by
  induction as with
  | nil => exact .pure (by simp)
  | cons a as ih =>
    obtain ⟨ha, has⟩ := List.forall_mem_cons.mp h
    rw [List.mapM_cons]
    refine .bind ha fun b hb => .bind (ih has) fun bs hbs => .pure ?_
    exact List.forall_mem_cons.mpr ⟨hb, hbs⟩

end Exec

end Scriptlet
