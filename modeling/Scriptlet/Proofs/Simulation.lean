import Scriptlet.Proofs.Comparison

/-!
# Runs that correspond

Corresponding trees, run in corresponding scopes, do the same step by step: they print corresponding values,
leave corresponding scopes, and stop for one cause, which they blame on corresponding tokens.  Values
correspond that are equal but for the declarations of functions, and scopes that bind the same names to
corresponding values.  Which functions of the two runs are counted as the same one is left open, as long as
nothing is confused.  What is recorded on both sides, and by what hooks, is left open as well; the relation
between the two logs only has to be kept by every event.

The relation between tokens is arbitrary here.  If corresponding tokens are the same but for their places, this
says that places do not matter to runs.  If a token corresponds to itself alone, and only if it comes from some
source, this says that every token that a run blames comes from that source.
-/

namespace Scriptlet

variable {T : Likeness}

/-! ## Values -/

/-- Values that are the same but for the declarations of functions, which correspond. -/
inductive Value.Corresponds (T : Likeness) : Value → Value → Prop
  | nil : Corresponds T .nil .nil
  | bool (b : Bool) : Corresponds T (.bool b) (.bool b)
  | number (x : Float) : Corresponds T (.number x) (.number x)
  | string (s : String) : Corresponds T (.string s) (.string s)
  | clock : Corresponds T .clock .clock
  | tree (node : Node) : Corresponds T (.tree node) (.tree node)
  | function {id id' : ℕ} (name : String) {params params' body body' : Node} :
      T.function id id' → params.Corresponds T.token .name params' → body.Corresponds T.token .stray body' →
      Corresponds T (.function ⟨id, name, params, body⟩) (.function ⟨id', name, params', body'⟩)

namespace Value

variable {a a' b b' : Value}

/-- Corresponding values have one type. -/
lemma Corresponds.type_eq (h : a.Corresponds T a') : a.type = a'.type := by
  cases h <;> rfl

/-- Corresponding values are printed alike. -/
lemma Corresponds.text_eq (h : a.Corresponds T a') : a.text = a'.text := by
  cases h <;> rfl

/-- Correspondence is the relation up to braces in which no braces are added. -/
lemma Corresponds.embraced (h : a.Corresponds T a') : a.Embraced T False a' := by
  cases h with
  | function name hid hparams hbody => exact .function name hid hparams hbody.embraced
  | _ => exact .same nofun

/-- If tokens and functions correspond to themselves alone, then so do values. -/
lemma Corresponds.eq (h : a.Corresponds .same a') : a = a' :=
  h.embraced.eq

/-- Without more braces in the bodies of functions the values correspond. -/
lemma Embraced.corresponds (h : a.Embraced T False a') : a.Corresponds T a' := by
  cases h with
  | function name hid hparams hbody => exact .function name hid hparams hbody.corresponds
  | same ha =>
    cases a with
    | function f => exact absurd rfl (ha f)
    | nil => exact .nil
    | bool b => exact .bool b
    | number x => exact .number x
    | string s => exact .string s
    | clock => exact .clock
    | tree node => exact .tree node

lemma corresponds_refl (htoken : ∀ r t, T.token r t t) (hid : ∀ i, T.function i i) (a : Value) :
    a.Corresponds T a :=
  (embraced_refl htoken hid a).corresponds

end Value

/-! ## Scopes -/

/-- A name is bound to corresponding values. -/
def Binding.Corresponds (T : Likeness) (b b' : Name × Value) : Prop :=
  b.1 = b'.1 ∧ b.2.Corresponds T b'.2

/-- Scopes that bind the same names to corresponding values. -/
abbrev Frame.Corresponds (T : Likeness) : Frame → Frame → Prop :=
  List.Forall₂ (Binding.Corresponds T)

/-- Chains of scopes that correspond one by one. -/
abbrev Chain.Corresponds (T : Likeness) : Chain → Chain → Prop :=
  List.Forall₂ (Frame.Corresponds T)

namespace Chain

variable {chain chain' : Chain}

/-- Scopes that correspond are related scope by scope and value by value. -/
lemma related_of_corresponds (h : Chain.Corresponds T chain chain') :
    Chain.Related (Value.Embraced T False) chain chain' :=
  Related.mono h Value.Corresponds.embraced

/-- Scopes that are related scope by scope and value by value correspond. -/
lemma corresponds_of_related (h : Chain.Related (Value.Embraced T False) chain chain') :
    Chain.Corresponds T chain chain' :=
  Related.mono h Value.Embraced.corresponds

lemma corresponds_refl (htoken : ∀ r t, T.token r t t) (hid : ∀ i, T.function i i) (chain : Chain) :
    Chain.Corresponds T chain chain :=
  Related.refl (Value.corresponds_refl htoken hid) chain

/-- If tokens and functions correspond to themselves alone, then so do scopes. -/
lemma eq_of_corresponds (h : Chain.Corresponds .same chain chain') : chain = chain' :=
  Related.eq (Related.mono h Value.Corresponds.eq)

end Chain

/-! ## Events, stops and states -/

/-- Events of a run that are about corresponding values. -/
inductive Event.Corresponds (T : Likeness) : Event → Event → Prop
  | printed {v v' : Value} : v.Corresponds T v' → Corresponds T (.printed v) (.printed v')
  | runStart : Corresponds T .runStart .runStart
  | runEnd : Corresponds T .runEnd .runEnd
  | declared (name : String) {v v' : Value} :
      v.Corresponds T v' → Corresponds T (.declared name v) (.declared name v')
  | defined (name : String) : Corresponds T (.defined name) (.defined name)
  | ifCondition {v v' : Value} : v.Corresponds T v' → Corresponds T (.ifCondition v) (.ifCondition v')
  | whileCondition {v v' : Value} :
      v.Corresponds T v' → Corresponds T (.whileCondition v) (.whileCondition v')
  | called {v v' : Value} (n : ℕ) : v.Corresponds T v' → Corresponds T (.called v n) (.called v' n)

/-- For events, too, correspondence is the relation up to braces in which no braces are added. -/
lemma Event.Corresponds.embraced {e e' : Event} (h : e.Corresponds T e') : e.Embraced T False e' := by
  cases h with
  | printed hv => exact .printed hv.embraced
  | runStart => exact .runStart
  | runEnd => exact .runEnd
  | declared name hv => exact .declared name hv.embraced
  | defined name => exact .defined name
  | ifCondition hv => exact .ifCondition hv.embraced
  | whileCondition hv => exact .whileCondition hv.embraced
  | called n hv => exact .called n hv.embraced

/-- If tokens and functions correspond to themselves alone, then so do events. -/
lemma Event.Corresponds.eq {e e' : Event} (h : e.Corresponds .same e') : e = e' :=
  h.embraced.eq

/-- Events that are about values without more braces correspond. -/
lemma Event.Embraced.corresponds {e e' : Event} (h : e.Embraced T False e') : e.Corresponds T e' := by
  cases h with
  | printed hv => exact .printed hv.corresponds
  | runStart => exact .runStart
  | runEnd => exact .runEnd
  | declared name hv => exact .declared name hv.corresponds
  | defined name => exact .defined name
  | ifCondition hv => exact .ifCondition hv.corresponds
  | whileCondition hv => exact .whileCondition hv.corresponds
  | called n hv => exact .called n hv.corresponds

/-- Stops for the same reason: corresponding values are returned, corresponding trees cannot be used, or one
cause is blamed on corresponding tokens. -/
inductive Stop.Corresponds (T : Likeness) : Stop → Stop → Prop
  | returned {v v' : Value} : v.Corresponds T v' → Corresponds T (.returned v) (.returned v')
  | failed {cause : RuntimeCause} {r : Role} {t u : Leaf} :
      T.token r t u → cause.Blames r t →
      Corresponds T (.failed ⟨cause, some t.place⟩) (.failed ⟨cause, some u.place⟩)
  | programTooDeep : Corresponds T (.failed ⟨.programTooDeep, none⟩) (.failed ⟨.programTooDeep, none⟩)
  | fault {fault fault' : Fault} :
      fault.Corresponds T.token fault' → Corresponds T (.fault fault) (.fault fault')
  | tooDeep : Corresponds T .tooDeep .tooDeep
  | outOfTurns : Corresponds T .outOfTurns .outOfTurns

/-- For stops, too, correspondence is the relation up to braces in which no braces are added. -/
lemma Stop.Corresponds.embraced {stop stop' : Stop} (h : stop.Corresponds T stop') :
    stop.Embraced T False stop' := by
  cases h with
  | returned hv => exact .returned hv.embraced
  | failed htoken hblames => exact .failed htoken hblames
  | programTooDeep => exact .programTooDeep
  | fault hfault => exact .fault (.other hfault)
  | tooDeep => exact .tooDeep
  | outOfTurns => exact .outOfTurns

/-- If tokens and functions correspond to themselves alone, then so do stops. -/
lemma Stop.Corresponds.eq {stop stop' : Stop} (h : stop.Corresponds .same stop') : stop = stop' :=
  h.embraced.eq

/-- Stops that are related without any braces added correspond. -/
lemma Stop.Embraced.corresponds {stop stop' : Stop} (h : stop.Embraced T False stop') :
    stop.Corresponds T stop' := by
  cases h with
  | returned hv => exact .returned hv.corresponds
  | failed htoken hblames => exact .failed htoken hblames
  | programTooDeep => exact .programTooDeep
  | fault hfault =>
    cases hfault with
    | noStatement _ hn => exact .fault (.noStatement hn.corresponds)
    | other hfault => exact .fault hfault
  | tooDeep => exact .tooDeep
  | outOfTurns => exact .outOfTurns

/-- States with corresponding scopes and related logs, and with the same counts but that of the functions
made; those that are made from now on correspond in the order in which they are made. -/
structure State.Corresponds (T : Likeness) (L : List Event → List Event → Prop)
    (s s' : State) : Prop where
  scopes : Chain.Corresponds T s.scopes s'.scopes
  log : L s.log s'.log
  callDepth : s.callDepth = s'.callDepth
  made (k : ℕ) : T.function (s.made + k) (s'.made + k)
  readings : s.readings = s'.readings

/-! ## Computations -/

/-- Two results of computations are related, or they stop for the same reason; in corresponding states. -/
inductive Exec.Agree {α β : Type} (T : Likeness) (L : List Event → List Event → Prop)
    (Q : α → β → Prop) : EStateM.Result Stop State α → EStateM.Result Stop State β → Prop
  | ok {a : α} {b : β} {s s' : State} :
      Q a b → s.Corresponds T L s' → Agree T L Q (.ok a s) (.ok b s')
  | error {stop stop' : Stop} {s s' : State} :
      stop.Corresponds T stop' → s.Corresponds T L s' → Agree T L Q (.error stop s) (.error stop' s')

/-- Runs that agree leave corresponding states, however they end. -/
lemma Exec.Agree.final {α β : Type} {L : List Event → List Event → Prop} {Q : α → β → Prop}
    {outcome : EStateM.Result Stop State α} {outcome' : EStateM.Result Stop State β}
    (h : Agree T L Q outcome outcome') :
    State.Corresponds T L (Exec.final outcome) (Exec.final outcome') := by
  cases h with
  | ok _ hs => exact hs
  | error _ hs => exact hs

/-- Runs that agree stop in corresponding ways, or neither of them stops. -/
lemma Exec.Agree.stop? {α β : Type} {L : List Event → List Event → Prop} {Q : α → β → Prop}
    {outcome : EStateM.Result Stop State α} {outcome' : EStateM.Result Stop State β}
    (h : Agree T L Q outcome outcome') :
    Option.Rel (Stop.Corresponds T) (Exec.stop? outcome) (Exec.stop? outcome') := by
  cases h with
  | ok _ _ => exact .none
  | error hstop _ => exact .some hstop

/-- Two computations agree whenever they begin in corresponding states. -/
def Exec.Simulates {α β : Type} (T : Likeness) (L : List Event → List Event → Prop)
    (Q : α → β → Prop) (act : Exec α) (act' : Exec β) : Prop :=
  ∀ ⦃s s'⦄, s.Corresponds T L s' → Agree T L Q (act s) (act' s')

/-- Two hooks that treat corresponding events alike, when the logs are related. -/
structure Exec.SeeAlike (T : Likeness) (L : List Event → List Event → Prop)
    (hook hook' : Event → Exec Unit) : Prop where
  prints {v v' : Value} {l l' : List Event} :
    v.Corresponds T v' → L l l' → L (.printed v :: l) (.printed v' :: l')
  notes {e e' : Event} : e.Corresponds T e' → Simulates T L (fun _ _ => True) (hook e) (hook' e')

/-! ## Runs -/

namespace Exec

variable {α β : Type} {L : List Event → List Event → Prop} {Q : α → β → Prop} {act : Exec α} {act' : Exec β}

/-- States are compared as corresponding ones when no braces are added. -/
lemma states_iff_corresponds {c : ℕ} {s s' : State} :
    (Comparison.ofLikeness T False L).States () c s s' ↔ s.Corresponds T L s' :=
  ⟨fun h => ⟨Chain.corresponds_of_related h.scopes, h.log, h.calls, h.made, h.readings⟩,
    fun h => ⟨Chain.related_of_corresponds h.scopes, h.log, h.callDepth, h.made, h.readings⟩⟩

/-- To simulate is to compare without any braces added. -/
lemma simulates_iff_compares (c : ℕ) :
    Simulates T L Q act act' ↔ (Comparison.ofLikeness T False L).Compares () c Q act act' := by
  have houtcomes : ∀ {outcome : EStateM.Result Stop State α} {outcome' : EStateM.Result Stop State β},
      Agree T L Q outcome outcome' ↔ (Comparison.ofLikeness T False L).Outcomes () c Q outcome outcome' := by
    intro outcome outcome'
    constructor
    · intro h
      cases h with
      | ok hab hs => exact .ok hab (states_iff_corresponds.mpr hs)
      | error hstop hs => exact .error hstop.embraced (fun _ => trivial) (states_iff_corresponds.mpr hs)
    · intro h
      cases h with
      | ok hab hs => exact .ok hab (states_iff_corresponds.mp hs)
      | error hstop _ hs => exact .error hstop.corresponds (states_iff_corresponds.mp hs)
      | left haside _ | right haside _ => exact haside.elim
  exact ⟨fun h _ _ hs => houtcomes.mp (h (states_iff_corresponds.mp hs)),
    fun h _ _ hs => houtcomes.mpr (h (states_iff_corresponds.mpr hs))⟩

/-- Recording treats corresponding events alike if the relation between logs allows it. -/
lemma seeAlike_record
    (h : ∀ {e e' l l'}, Event.Corresponds T e e' → L l l' → L (e :: l) (e' :: l')) :
    SeeAlike T L record record where
  prints hv hl := h (.printed hv) hl
  notes he _ _ hs := .ok trivial ⟨hs.scopes, h he hs.log, hs.callDepth, hs.made, hs.readings⟩

/-- Corresponding programs run alike from corresponding states, under hooks that see alike. -/
theorem simulates_run (hT : T.MeansSame) {hook hook' : Event → Exec Unit} (hhooks : SeeAlike T L hook hook')
    (setting : Setting) {statements statements' : List Node}
    (h : List.Forall₂ (Node.Corresponds T.token .stray) statements statements') :
    Simulates T L (fun _ _ => True) (runWith hook setting statements) (runWith hook' setting statements') := by
  have hC : (Comparison.ofLikeness T False L).Lawful :=
    Comparison.lawful_ofLikeness hT fun hv => hhooks.prints hv.corresponds
  have hsurroundings : (Comparison.ofLikeness T False L).Surroundings hook hook' setting setting :=
    ⟨rfl, rfl, fun he => (simulates_iff_compares _).mp (hhooks.notes he.corresponds), nofun⟩
  have hadmits : ∀ s ∈ statements, (Comparison.ofLikeness T False L).Admits () 0 s :=
    fun _ _ => ⟨fun _ => trivial, fun _ => trivial⟩
  have hembraced : List.Forall₂ (Node.Embraced T.token False) statements statements' :=
    h.imp fun _ _ hs => hs.embraced
  exact (simulates_iff_compares 0).mpr (Comparison.compares_run hC hsurroundings (.inl rfl) hadmits hembraced)

end Exec

end Scriptlet
