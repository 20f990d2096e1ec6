import Scriptlet.Proofs.Likeness

/-!
# Trees with more braces

A program may differ from another one in its tokens, as far as these correspond, and in braces around some of
its statements.  The statements that take them are those that declare nothing in the scope where they stand.
Braces are put around statements wherever these are: in the list of a block, as a branch or as the body of a
loop, and in the bodies of functions.  So values that are functions may differ in the same way, and so may what is
recorded about them and what is returned.

Whether there may be such braces at all is left open; if not, then this is no more than that trees
correspond.
-/

namespace Scriptlet

/-! ## Statements -/

namespace Node

/-- Whether a tree is a statement, whatever its parts are. -/
def isStatement : Node → Bool
  | exprStmt _ | printStmt _ | varDecl _ _ | block _ | ifStmt _ _ _ | whileStmt _ _ | funDecl _ _ _
  | returnStmt _ _ => true
  | _ => false

/-- Whether braces around a tree are redundant: it is a statement, and one that does not declare anything in the
scope in which it is executed. -/
def takesBraces (s : Node) : Bool :=
  s.isStatement && !s.declares

/-- Whether a tree is a list, or has parts that are statements. -/
def holdsStatements : Node → Bool
  | list _ | block _ | ifStmt _ _ _ | whileStmt _ _ | funDecl _ _ _ => true
  | _ => false

/-- Trees that correspond but for braces around statements of the second one. -/
inductive Embraced (T : Role → Leaf → Leaf → Prop) (braces : Prop) : Node → Node → Prop
  | simple {n n' : Node} :
      n.holdsStatements = false → n.Corresponds T .stray n' → Embraced T braces n n'
  | nil : Embraced T braces (.list []) (.list [])
  | cons {a b : Node} {as bs : List Node} :
      Embraced T braces a b → Embraced T braces (.list as) (.list bs) →
      Embraced T braces (.list (a :: as)) (.list (b :: bs))
  | block {statements statements' : Node} :
      Embraced T braces statements statements' → Embraced T braces (.block statements) (.block statements')
  | ifStmt {condition condition' thenBranch thenBranch' elseBranch elseBranch' : Node} :
      condition.Corresponds T .stray condition' → Embraced T braces thenBranch thenBranch' →
      Embraced T braces elseBranch elseBranch' →
      Embraced T braces (.ifStmt condition thenBranch elseBranch) (.ifStmt condition' thenBranch' elseBranch')
  | whileStmt {condition condition' body body' : Node} :
      condition.Corresponds T .stray condition' → Embraced T braces body body' →
      Embraced T braces (.whileStmt condition body) (.whileStmt condition' body')
  | funDecl {name name' params params' body body' : Node} :
      name.Corresponds T .name name' → params.Corresponds T .name params' → Embraced T braces body body' →
      Embraced T braces (.funDecl name params body) (.funDecl name' params' body')
  | braced {s s' : Node} :
      braces → s.takesBraces = true → Embraced T braces s s' → Embraced T braces s (.block (.list [s']))

variable {T : Role → Leaf → Leaf → Prop} {braces : Prop} {n n' s : Node}

/-- What takes braces declares nothing. -/
lemma declares_of_takesBraces (h : s.takesBraces = true) : s.declares = false := by
  simpa using (Bool.and_eq_true_iff.mp h).2

/-- What takes braces is a statement. -/
lemma isStatement_of_takesBraces (h : s.takesBraces = true) : s.isStatement = true :=
  (Bool.and_eq_true_iff.mp h).1

/-- Trees that correspond are the same up to braces. -/
lemma Corresponds.embraced (h : n.Corresponds T .stray n') : n.Embraced T braces n' := by
  generalize hrole : Role.stray = r at h
  induction h with
  | nil => exact .nil
  | cons _ _ iha ihas => exact .cons (iha hrole) (ihas hrole)
  | block _ ih => exact .block (ih rfl)
  | ifStmt hcondition _ _ _ ihthen ihelse => exact .ifStmt hcondition (ihthen rfl) (ihelse rfl)
  | whileStmt hcondition _ _ ihbody => exact .whileStmt hcondition (ihbody rfl)
  | funDecl hname hparams _ _ _ ihbody => exact .funDecl hname hparams (ihbody rfl)
  | token ht => exact .simple rfl (.token (hrole ▸ ht))
  | _ => exact .simple rfl (by constructor <;> assumption)

namespace Embraced

/-- Without braces the trees correspond. -/
lemma corresponds (h : n.Embraced T False n') : n.Corresponds T .stray n' := by
  induction h with
  | simple _ h => exact h
  | nil => exact .nil
  | cons _ _ iha ihas => exact .cons iha ihas
  | block _ ih => exact .block ih
  | ifStmt hcondition _ _ ihthen ihelse => exact .ifStmt hcondition ihthen ihelse
  | whileStmt hcondition _ ihbody => exact .whileStmt hcondition ihbody
  | funDecl hname hparams _ ihbody => exact .funDecl hname hparams ihbody
  | braced hbraces _ _ _ => exact hbraces.elim

lemma mono {S : Role → Leaf → Leaf → Prop} (h : n.Embraced T braces n')
    (himp : ∀ {r t u}, T r t u → S r t u) : n.Embraced S braces n' := by
  induction h with
  | simple hsimple h => exact .simple hsimple (h.mono himp)
  | nil => exact .nil
  | cons _ _ iha ihas => exact .cons iha ihas
  | block _ ih => exact .block ih
  | ifStmt hcondition _ _ ihthen ihelse => exact .ifStmt (hcondition.mono himp) ihthen ihelse
  | whileStmt hcondition _ ihbody => exact .whileStmt (hcondition.mono himp) ihbody
  | funDecl hname hparams _ ihbody => exact .funDecl (hname.mono himp) (hparams.mono himp) ihbody
  | braced hbraces hs _ ih => exact .braced hbraces hs ih

/-- Braces are never put around declarations, so the same statements declare names. -/
lemma declares_eq (h : n.Embraced T braces n') : n.declares = n'.declares := by
  induction h with
  | simple _ h => cases h <;> first | rfl | contradiction
  | ifStmt _ _ _ ihthen ihelse => rw [Node.declares, ihthen, ihelse, Node.declares]
  | whileStmt _ _ ih => rw [Node.declares, ih, Node.declares]
  | braced _ hs _ _ => exact declares_of_takesBraces hs
  | _ => rfl

/-- Braces are put around no part that is left out. -/
lemma eq_null_iff (h : n.Embraced T braces n') : n = .null ↔ n' = .null := by
  cases h with
  | simple _ h => exact h.eq_null_iff
  | braced _ hs _ =>
    have hstatement := isStatement_of_takesBraces hs
    refine ⟨fun hnull => ?_, nofun⟩
    rw [hnull] at hstatement
    cases hstatement
  | _ => simp

/-- Lists are put together from items of which the second may have braces. -/
lemma of_list {as : List Node} (h : (list as).Embraced T braces n') :
    ∃ bs, n' = .list bs ∧ List.Forall₂ (Embraced T braces) as bs := by
  generalize hn : list as = n at h
  induction h generalizing as with
  | simple hsimple _ =>
    subst hn
    cases hsimple
  | nil =>
    cases hn
    exact ⟨[], rfl, .nil⟩
  | cons ha _ _ ihas =>
    cases hn
    obtain ⟨bs, hbs, hrest⟩ := ihas rfl
    cases hbs
    exact ⟨_, rfl, .cons ha hrest⟩
  | braced _ hs _ _ =>
    subst hn
    cases hs
  | _ => cases hn

/-- What stands for a list does so on both sides, and its items are embraced. -/
lemma items? (h : n.Embraced T braces n') :
    Matched (Fault.Corresponds T) (List.Forall₂ (Embraced T braces)) n.items? n'.items? := by
  have hno : ∀ {n : Node}, n.isStatement = true → n.items? = .error .noList := by
    intro n hn
    cases n <;> first | rfl | cases hn
  cases h with
  | simple hn h =>
    cases h with
    | str text =>
      refine .ok (List.forall₂_map_left_iff.mpr (List.forall₂_map_right_iff.mpr ?_))
      exact List.forall₂_same.mpr fun _ _ => .simple rfl (.str _)
    | nil | cons _ _ => cases hn
    | _ => exact .error .noList
  | nil => exact .ok .nil
  | cons ha has =>
    obtain ⟨bs, hbs, hrest⟩ := has.of_list
    cases hbs
    exact .ok (.cons ha hrest)
  | braced _ hs _ =>
    rw [hno (isStatement_of_takesBraces hs)]
    exact .error .noList
  | _ => exact .error .noList

end Embraced

end Node

/-! ## What runs handle -/

/-- Values that are the same but for the declarations of functions, which correspond up to braces in their
bodies. -/
inductive Value.Embraced (T : Likeness) (braces : Prop) : Value → Value → Prop
  | same {v : Value} : (∀ f, v ≠ .function f) → Embraced T braces v v
  | function {id id' : ℕ} (name : String) {params params' body body' : Node} :
      T.function id id' → params.Corresponds T.token .name params' → body.Embraced T.token braces body' →
      Embraced T braces (.function ⟨id, name, params, body⟩) (.function ⟨id', name, params', body'⟩)

/-- Events of a run that are about values which are the same up to braces. -/
inductive Event.Embraced (T : Likeness) (braces : Prop) : Event → Event → Prop
  | printed {v v' : Value} : v.Embraced T braces v' → Embraced T braces (.printed v) (.printed v')
  | runStart : Embraced T braces .runStart .runStart
  | runEnd : Embraced T braces .runEnd .runEnd
  | declared (name : String) {v v' : Value} :
      v.Embraced T braces v' → Embraced T braces (.declared name v) (.declared name v')
  | defined (name : String) : Embraced T braces (.defined name) (.defined name)
  | ifCondition {v v' : Value} :
      v.Embraced T braces v' → Embraced T braces (.ifCondition v) (.ifCondition v')
  | whileCondition {v v' : Value} :
      v.Embraced T braces v' → Embraced T braces (.whileCondition v) (.whileCondition v')
  | called {v v' : Value} (n : ℕ) :
      v.Embraced T braces v' → Embraced T braces (.called v n) (.called v' n)

/-- Faults that say the same about trees that are the same up to braces. -/
inductive Fault.Embraced (T : Role → Leaf → Leaf → Prop) (braces : Prop) : Fault → Fault → Prop
  | noStatement {n n' : Node} :
      n.isStatement = false → n.Embraced T braces n' → Embraced T braces (.noStatement n) (.noStatement n')
  | other {fault fault' : Fault} : fault.Corresponds T fault' → Embraced T braces fault fault'

/-- Stops for the same reason, up to braces. -/
inductive Stop.Embraced (T : Likeness) (braces : Prop) : Stop → Stop → Prop
  | returned {v v' : Value} : v.Embraced T braces v' → Embraced T braces (.returned v) (.returned v')
  | failed {cause : RuntimeCause} {r : Role} {t u : Leaf} :
      T.token r t u → cause.Blames r t →
      Embraced T braces (.failed ⟨cause, some t.place⟩) (.failed ⟨cause, some u.place⟩)
  | programTooDeep : Embraced T braces (.failed ⟨.programTooDeep, none⟩) (.failed ⟨.programTooDeep, none⟩)
  | fault {fault fault' : Fault} :
      fault.Embraced T.token braces fault' → Embraced T braces (.fault fault) (.fault fault')
  | tooDeep : Embraced T braces .tooDeep .tooDeep
  | outOfTurns : Embraced T braces .outOfTurns .outOfTurns

variable {T : Likeness} {braces : Prop}

namespace Value

variable {a a' b b' : Value}

/-- A value that holds no function is the same as itself up to braces. -/
lemma IsPlain.embraced (h : a.IsPlain) : a.Embraced T braces a :=
  .same h.ne_function

/-- The value of a literal is no function of a script. -/
lemma embraced_ofNode (node : Node) : (ofNode node).Embraced T braces (ofNode node) := by
  refine .same fun f => ?_
  unfold ofNode
  split <;> nofun

lemma embraced_refl (htoken : ∀ r t, T.token r t t) (hid : ∀ i, T.function i i) (a : Value) :
    a.Embraced T braces a := by
  cases a with
  | function f =>
    have hbody := Node.corresponds_refl htoken .stray f.body
    exact .function f.name (hid f.id) (Node.corresponds_refl htoken _ _) hbody.embraced
  | _ => exact .same nofun

/-- If nothing is alike but what is equal, and no braces are added, then values that are the same up to braces
are equal. -/
lemma Embraced.eq (h : a.Embraced .same False a') : a = a' := by
  cases h with
  | same _ => rfl
  | function name hid hparams hbody =>
    obtain rfl := hid
    rw [hparams.eq, hbody.corresponds.eq]

lemma Embraced.mono {S : Likeness} (h : a.Embraced T braces a') (htoken : ∀ {r t u}, T.token r t u → S.token r t u)
    (hfunction : ∀ {i j}, T.function i j → S.function i j) : a.Embraced S braces a' := by
  cases h with
  | same ha => exact .same ha
  | function name hid hparams hbody =>
    exact .function name (hfunction hid) (hparams.mono htoken) (hbody.mono htoken)

/-- Values that are the same up to braces have one type. -/
lemma Embraced.type_eq (h : a.Embraced T braces a') : a.type = a'.type := by
  cases h <;> rfl

/-- Values that are the same up to braces are printed alike, as a function shows no more than its name. -/
lemma Embraced.text_eq (h : a.Embraced T braces a') : a.text = a'.text := by
  cases h <;> rfl

/-- Values that are the same up to braces count alike as conditions. -/
lemma Embraced.truthy_eq (h : a.Embraced T braces a') : a.truthy = a'.truthy := by
  cases h <;> rfl

/-- Equality only looks at which functions they are, and not at what is declared. -/
lemma Embraced.equal_eq (hT : T.MeansSame) (ha : a.Embraced T braces a') (hb : b.Embraced T braces b') :
    a.equal b = a'.equal b' := by
  cases ha with
  | same ha =>
    cases hb with
    | same _ => rfl
    | function _ _ _ _ =>
      cases a with
      | function f => exact absurd rfl (ha f)
      | _ => rfl
  | function _ hid _ _ =>
    cases hb with
    | same hb =>
      cases b with
      | function f => exact absurd rfl (hb f)
      | _ => rfl
    | function _ hid' _ _ => simpa [Value.equal] using hT.id_iff hid hid'

end Value

namespace Event.Embraced

variable {e e' : Event}

/-- Events that differ only in braces are shown by the same texts. -/
lemma text_eq (h : e.Embraced T braces e') : e.text = e'.text := by
  cases h with
  | printed hv | whileCondition hv | called _ hv =>
    unfold Event.text
    simp only [hv.text_eq]
  | declared _ hv =>
    unfold Event.text
    simp only [hv.text_eq, hv.type_eq]
  | ifCondition hv =>
    unfold Event.text
    simp only [hv.text_eq, hv.truthy_eq]
  | _ => rfl

/-- Events that are the same up to braces belong to one level. -/
lemma level_eq (h : e.Embraced T braces e') : e.level = e'.level := by
  cases h <;> rfl

/-- Of two events that are the same up to braces, both are printed or neither is. -/
lemma isPrinted_eq (h : e.Embraced T braces e') : e.isPrinted = e'.isPrinted := by
  cases h <;> rfl

end Event.Embraced

/-- Such events are shown alike, however they are looked at. -/
lemma View.output_eq_of_embraced {events events' : List Event}
    (h : List.Forall₂ (Event.Embraced T braces) events events') (view : View) :
    view.output events = view.output events' := by
  have hshown : List.Forall₂ (Event.Embraced T braces) (view.shown events) (view.shown events') :=
    List.rel_filter (fun _ _ he => by simp only [he.level_eq]) h
  have hprinted : List.Forall₂ (Event.Embraced T braces) ((view.shown events).filter Event.isPrinted)
      ((view.shown events').filter Event.isPrinted) :=
    List.rel_filter (fun _ _ he => by simp only [he.isPrinted_eq]) hshown
  have htexts : ∀ {es es' : List Event}, List.Forall₂ (Event.Embraced T braces) es es' →
      es.map Event.text = es'.map Event.text := by
    intro es es' hes
    refine List.forall₂_eq_eq_eq ▸ ?_
    exact List.forall₂_map_left_iff.mpr (List.forall₂_map_right_iff.mpr (hes.imp fun _ _ he => he.text_eq))
  unfold View.output View.outputLines
  split
  · rw [htexts hprinted]
  · rw [htexts hshown]

/-- If nothing is alike but what is equal, and no braces are added, then events that are the same up to braces
are equal. -/
lemma Event.Embraced.eq {e e' : Event} (h : e.Embraced .same False e') : e = e' := by
  cases h with
  | printed hv | declared _ hv | ifCondition hv | whileCondition hv | called _ hv => rw [hv.eq]
  | _ => rfl

/-- If nothing is alike but what is equal, and no braces are added, then stops that are the same up to braces
are equal. -/
lemma Stop.Embraced.eq {stop stop' : Stop} (h : stop.Embraced .same False stop') : stop = stop' := by
  cases h with
  | returned hv => rw [hv.eq]
  | failed ht _ => rw [ht]
  | fault hfault =>
    cases hfault with
    | noStatement _ hn => rw [hn.corresponds.eq]
    | other hfault => rw [hfault.eq]
  | _ => rfl

lemma Stop.Embraced.mono {S : Likeness} {stop stop' : Stop} (h : stop.Embraced T braces stop')
    (htoken : ∀ {r t u}, T.token r t u → S.token r t u)
    (hfunction : ∀ {i j}, T.function i j → S.function i j) : stop.Embraced S braces stop' := by
  cases h with
  | returned hv => exact .returned (hv.mono htoken hfunction)
  | failed ht hblames => exact .failed (htoken ht) hblames
  | fault hfault =>
    cases hfault with
    | noStatement hn hnodes => exact .fault (.noStatement hn (hnodes.mono htoken))
    | other hfault => exact .fault (.other (hfault.mono htoken))
  | _ => constructor

/-- Two runs fail for the same reason, up to braces. -/
inductive Failure.Embraced (T : Likeness) (braces : Prop) : Failure → Failure → Prop
  | run {stop stop' : Stop} : stop.Embraced T braces stop' → Embraced T braces (.run stop) (.run stop')

/-- What is reported of two failures is the same text, if corresponding tokens stand at the same places. -/
lemma Failure.Embraced.text?_eq {failure failure' : Failure} (h : failure.Embraced T braces failure')
    (hplace : ∀ {r t u}, T.token r t u → t.place = u.place) : failure.text? = failure'.text? := by
  cases h with
  | run hstop =>
    cases hstop with
    | failed htoken _ => rw [hplace htoken]
    | _ => rfl

/-- Two reports that show the same, however the events are looked at, and give the same reason for a failure. -/
structure Report.Embraced (T : Likeness) (braces : Prop) (report report' : Report) : Prop where
  output (view : View) : view.output report.events = view.output report'.events
  failure : Option.Rel (Failure.Embraced T braces) report.failure? report'.failure?

lemma Report.Embraced.mono {S : Likeness} {report report' : Report} (h : report.Embraced T braces report')
    (htoken : ∀ {r t u}, T.token r t u → S.token r t u)
    (hfunction : ∀ {i j}, T.function i j → S.function i j) : report.Embraced S braces report' := by
  refine ⟨h.output, ?_⟩
  have hfailure := h.failure
  generalize report.failure? = failure?, report'.failure? = failure?' at hfailure ⊢
  cases hfailure with
  | none => exact .none
  | some hfailure =>
    cases hfailure with
    | run hstop => exact .some (.run (hstop.mono htoken hfunction))

/-- What two reports say of a failure is the same text, if corresponding tokens stand at the same places. -/
lemma Report.Embraced.text?_eq {report report' : Report} (h : report.Embraced T braces report')
    (hplace : ∀ {r t u}, T.token r t u → t.place = u.place) :
    report.failure?.bind Failure.text? = report'.failure?.bind Failure.text? := by
  have hfailure := h.failure
  generalize report.failure? = failure?, report'.failure? = failure?' at hfailure
  cases hfailure with
  | none => rfl
  | some hfailure => exact hfailure.text?_eq hplace

namespace Operator

variable {a a' b b' : Value}

/-- Operators look at functions only to tell which ones they are. -/
lemma binary_eq (hT : T.MeansSame) (kind : Kind) (lexeme : String) (ha : a.Embraced T braces a')
    (hb : b.Embraced T braces b') : binary kind lexeme a b = binary kind lexeme a' b' := by
  have hequal := ha.equal_eq hT hb
  unfold binary
  rw [hequal]
  cases ha with
  | same _ =>
    cases hb with
    | same _ => rfl
    | function _ _ _ _ => cases a <;> rfl
  | function _ _ _ _ =>
    cases hb with
    | same _ => cases b <;> rfl
    | function _ _ _ _ => rfl

/-- A unary operator looks at the type and the number of its operand, which are the same. -/
lemma unary_eq (kind : Kind) (lexeme : String) (ha : a.Embraced T braces a') :
    unary kind lexeme a = unary kind lexeme a' := by
  cases ha <;> rfl

end Operator

/-! ## Scopes -/

/-- What is done to related scopes under a name is done alike: it shows related values, and they stay related when it
is assigned or declared with related values. -/
structure Frame.UsedAlike (R : Frame → Frame → Prop) (V : Value → Value → Prop) (name : Name) : Prop where
  find? {frame frame' : Frame} : R frame frame' → Option.Rel V (frame.find? name) (frame'.find? name)
  assign {frame frame' : Frame} {v v' : Value} :
    R frame frame' → V v v' → R (frame.assign name v) (frame'.assign name v')
  declare {frame frame' : Frame} {v v' : Value} :
    R frame frame' → V v v' → R ((name, v) :: frame) ((name, v') :: frame')

namespace Frame.UsedAlike

variable {R : Frame → Frame → Prop} {V : Value → Value → Prop} {name : Name} {chain chain' : Chain} {v v' : Value}

/-- Of two frames that are used alike under a name, both bind it or neither does. -/
lemma binds_eq (hR : UsedAlike R V name) {frame frame' : Frame} (h : R frame frame') :
    frame.binds name = frame'.binds name := by
  have hfind := hR.find? h
  unfold Frame.binds
  generalize frame.find? name = o, frame'.find? name = o' at hfind ⊢
  cases hfind <;> rfl

/-- Chains of frames that are used alike under a name give related values for it, or none. -/
lemma chain_find? (hR : UsedAlike R V name) (h : List.Forall₂ R chain chain') :
    Option.Rel V (chain.find? name) (chain'.find? name) := by
  unfold Chain.find?
  induction h with
  | nil => exact .none
  | @cons frame frame' outer outer' hframe _ ih =>
    have hfind := hR.find? hframe
    rw [List.findSome?_cons, List.findSome?_cons]
    generalize frame.find? name = o, frame'.find? name = o' at hfind ⊢
    cases hfind with
    | none => exact ih
    | some hv => exact .some hv

/-- Chains of frames that are used alike under a name take an assignment to it both or neither. -/
lemma chain_assign? (hR : UsedAlike R V name) (h : List.Forall₂ R chain chain') (hv : V v v') :
    Option.Rel (List.Forall₂ R) (chain.assign? name v) (chain'.assign? name v') := by
  induction h with
  | nil => exact .none
  | @cons frame frame' outer outer' hframe houter ih =>
    have hbinds := hR.binds_eq hframe
    by_cases hb : frame.binds name = true
    · have hb' : frame'.binds name = true := hbinds ▸ hb
      simpa [Chain.assign?, hb, hb'] using Option.Rel.some (List.Forall₂.cons (hR.assign hframe hv) houter)
    · have hb' : ¬ frame'.binds name = true := hbinds ▸ hb
      simp only [Chain.assign?, hb, hb']
      generalize Chain.assign? name v outer = o, Chain.assign? name v' outer' = o' at ih ⊢
      cases ih with
      | none => exact .none
      | some hafter => exact .some (.cons hframe hafter)

/-- Chains of frames that are used alike under a name take a declaration of it both or neither. -/
lemma chain_declare? (hR : UsedAlike R V name) (h : List.Forall₂ R chain chain') (hv : V v v') :
    Option.Rel (List.Forall₂ R) (chain.declare? name v) (chain'.declare? name v') := by
  cases h with
  | nil => exact .none
  | @cons frame frame' outer outer' hframe houter =>
    have hbinds := hR.binds_eq hframe
    by_cases hb : frame.binds name = true
    · have hb' : frame'.binds name = true := hbinds ▸ hb
      simp [Chain.declare?, hb, hb']
    · have hb' : ¬ frame'.binds name = true := hbinds ▸ hb
      simpa [Chain.declare?, hb, hb'] using Option.Rel.some (List.Forall₂.cons (hR.declare hframe hv) houter)

end Frame.UsedAlike

/-- What is around related scopes is related. -/
lemma Chain.tail_related {R : Frame → Frame → Prop} {chain chain' : Chain} (h : List.Forall₂ R chain chain') :
    List.Forall₂ R chain.tail chain'.tail := by
  cases h with
  | nil => exact .nil
  | cons _ houter => exact houter

/-- Scopes that bind the same names to related values. -/
abbrev Frame.Related (V : Value → Value → Prop) : Frame → Frame → Prop :=
  List.Forall₂ fun b b' => b.1 = b'.1 ∧ V b.2 b'.2

/-- Chains of scopes that are related one by one. -/
abbrev Chain.Related (V : Value → Value → Prop) : Chain → Chain → Prop :=
  List.Forall₂ (Frame.Related V)

section Related

variable {V : Value → Value → Prop}

/-- Frames with related values give related values for each name. -/
lemma Frame.Related.find? {frame frame' : Frame} (h : Frame.Related V frame frame') (name : Name) :
    Option.Rel V (frame.find? name) (frame'.find? name) := by
  induction h with
  | nil => exact .none
  | @cons b b' rest rest' hb _ ih =>
    obtain ⟨x, v⟩ := b
    obtain ⟨x', v'⟩ := b'
    obtain ⟨rfl, hv⟩ : x = x' ∧ V v v' := hb
    by_cases hkey : x.key = name.key
    · simpa [Frame.find?, hkey] using Option.Rel.some hv
    · simpa [Frame.find?, hkey] using ih

/-- Frames with related values keep them under assignments of related values. -/
lemma Frame.Related.assign {frame frame' : Frame} {value value' : Value} (h : Frame.Related V frame frame')
    (hvalue : V value value') (name : Name) :
    Frame.Related V (frame.assign name value) (frame'.assign name value') := by
  induction h with
  | nil => exact .nil
  | @cons b b' rest rest' hb hrest ih =>
    obtain ⟨x, v⟩ := b
    obtain ⟨x', v'⟩ := b'
    obtain ⟨rfl, hv⟩ : x = x' ∧ V v v' := hb
    by_cases hkey : x.key = name.key
    · simpa [Frame.assign, hkey] using ⟨hvalue, hrest⟩
    · simpa [Frame.assign, hkey] using ⟨hv, ih⟩

/-- Frames with related values are used alike under every name. -/
lemma Frame.usedAlike_related (V : Value → Value → Prop) (name : Name) : UsedAlike (Frame.Related V) V name where
  find? h := h.find? name
  assign h hv := h.assign hv name
  declare h hv := .cons ⟨rfl, hv⟩ h

namespace Chain.Related

variable {chain chain' : Chain}

lemma mono {W : Value → Value → Prop} (h : Chain.Related V chain chain')
    (himp : ∀ {v v'}, V v v' → W v v') : Chain.Related W chain chain' :=
  List.Forall₂.imp (fun _ _ hframe => List.Forall₂.imp (fun _ _ hb => ⟨hb.1, himp hb.2⟩) hframe) h

lemma refl (hV : ∀ v, V v v) (chain : Chain) : Chain.Related V chain chain :=
  List.forall₂_same.mpr fun _ _ => List.forall₂_same.mpr fun binding _ => ⟨rfl, hV binding.2⟩

/-- If values are related only to themselves, then so are chains. -/
lemma eq (h : Chain.Related Eq chain chain') : chain = chain' := by
  have hframe : ∀ {frame frame' : Frame}, Frame.Related Eq frame frame' → frame = frame' := fun hframe =>
    List.forall₂_eq_eq_eq ▸ hframe.imp fun _ _ hb => Prod.ext hb.1 hb.2
  exact List.forall₂_eq_eq_eq ▸ List.Forall₂.imp (fun _ _ hf => hframe hf) h

end Chain.Related

end Related

end Scriptlet
