import Scriptlet.Proofs.Comparison

/-!
# Calls as inlined blocks

A function sees the variables of its caller, so a call can be written out where it stands: as a block that declares
the parameters with the arguments and goes on with the body.  The call runs its body in a scope like that of the
block, and with one more call active.  Whether this is noticed is the question, for within the body further calls
are made, and further functions return.

It is not noticed, unless the body itself returns: the two runs are compared with the number of active calls shifted
by one, and a return statement that is within another call is within a call on both sides
(`Exec.outcomes_inlined`).  So the call gives nothing as its value, and otherwise does what the block does
(`Exec.call_is_inlined`).
-/

namespace Scriptlet

/-! ## Calls written out -/

/-- The tree that a literal of this value holds. -/
def Value.data : Value → Node
  | nil => .null
  | bool b => .bool b
  | number x => .float x
  | string s => .str s
  | function _ | clock => .null
  | tree node => node

/-- A plain value is what a literal with it denotes. -/
lemma Value.IsPlain.ofNode_data {v : Value} (h : v.IsPlain) : ofNode v.data = v := by
  cases h <;> rfl

namespace Node

/-- The statement `var p = v;`. -/
def declaration (p : Leaf) (v : Value) : Node :=
  .varDecl (.token p) (.literal v.data)

/-- The block that stands for a call: the parameters are declared with the arguments, and the body follows. -/
def inlined (params : List Leaf) (args : List Value) (body : List Node) : Node :=
  .block (.list (params.zipWith declaration args ++ body))

end Node

/-- States that differ in nothing but debug lines. -/
structure State.SamePrinted (s s' : State) : Prop where
  scopes : s.scopes = s'.scopes
  printed : s.log.filter Event.isPrinted = s'.log.filter Event.isPrinted
  callDepth : s.callDepth = s'.callDepth
  made : s.made = s'.made
  readings : s.readings = s'.readings

namespace Exec

/-- How a call ends if it does what a block does: with nothing as its value, or with the error of the block. -/
inductive Inlines : EStateM.Result Stop State Value → EStateM.Result Stop State Unit → Prop
  | ok {t t' : State} : t.SamePrinted t' → Inlines (.ok .nil t) (.ok () t')
  | error {stop : Stop} {t t' : State} :
      ¬ stop.IsReturned → t.SamePrinted t' → Inlines (.error stop t) (.error stop t')

/-- A computation ends at the nesting limit. -/
def Exhausts {α : Type} (outcome : EStateM.Result Stop State α) : Prop :=
  ∃ stop t, outcome = .error stop t ∧ stop.IsExhaustion

/-! ## One more active call -/

/-- Two runs of the same trees are compared while one more call is active on the left and at least `base` on the
right.  Of the logs only what is printed is compared. -/
def shifting (aside : Prop) (base : ℕ) : Comparison Unit where
  likeness := .same
  braces := False
  aside := aside
  scopes _ := Chain.Related (Value.Embraced .same False)
  fresh _ := ()
  declares _ := True
  calls c d d' := d = base + c + 1 ∧ d' = base + c
  returns c := 0 < c
  log l l' := l.filter Event.isPrinted = l'.filter Event.isPrinted

variable {aside : Prop} {base c : ℕ} {setting : Setting}

/-- Logs that agree in what is printed do so behind one more event. -/
lemma filter_isPrinted_cons {e e' : Event} {l l' : List Event} (he : e = e')
    (hlog : l.filter Event.isPrinted = l'.filter Event.isPrinted) :
    (e :: l).filter Event.isPrinted = (e' :: l').filter Event.isPrinted := by
  rw [he, List.filter_cons, List.filter_cons, hlog]

/-- Comparing runs at two call depths is lawful. -/
lemma lawful_shifting (aside : Prop) (base : ℕ) : (shifting aside base).Lawful :=
  have hC : (Comparison.ofLikeness .same False fun l l' =>
      l.filter Event.isPrinted = l'.filter Event.isPrinted).Lawful :=
    Comparison.lawful_ofLikeness Likeness.meansSame_same fun hv hlog =>
      filter_isPrinted_cons (congrArg Event.printed hv.eq) hlog
  { hC with
    aside_of_braces := False.elim
    enterCall := fun h => ⟨congrArg (· + 1) h.1, congrArg (· + 1) h.2⟩
    leaveCall := fun h => ⟨congrArg (· - 1) h.1, congrArg (· - 1) h.2⟩
    returns_succ := fun c => Nat.succ_pos c
    eq_zero_iff := fun {c d d'} hc h => by
      have hpos : 0 < c := hc
      obtain ⟨rfl, rfl⟩ := h
      omega }

/-- The runs compared at two call depths are recorded, under one setting. -/
lemma surroundings_shifting (aside : Prop) (base : ℕ) (setting : Setting) :
    (shifting aside base).Surroundings record record setting setting :=
  Comparison.surroundings_record rfl rfl (fun he hlog => filter_isPrinted_cons he.eq hlog) False.elim

/-- States compared so differ in the call depth, by one, and in what is not printed. -/
lemma samePrinted_of_states {s s' : State} (h : (shifting aside base).States () 0 s s') :
    State.SamePrinted { s with callDepth := s.callDepth - 1 } s' where
  scopes := Chain.Related.eq (Chain.Related.mono h.scopes Value.Embraced.eq)
  printed := h.log
  callDepth := by
    obtain ⟨hleft, hright⟩ := h.calls
    rw [hleft, hright]
    rfl
  made := h.made 0
  readings := h.readings

/-! ## Parameters -/

/-- Declaring a plain value evaluates a literal, declares the name and records that. -/
lemma execute_declaration (setting : Setting) (depth : ℕ) (p : Leaf) {v : Value} (h : v.IsPlain) :
    execute setting (depth + 2) (.declaration p v) = (do
      declare p v
      record (.declared p.lexeme.inText v)) := by
  have hvalue : evaluate? setting (depth + 1) (.literal v.data) = pure v := congrArg pure h.ofNode_data
  rw [Node.declaration, execute_varDecl, hvalue]
  rfl

/-- Declaring the parameters with the arguments is executing the declarations that stand for this. -/
lemma compares_declarations (params : List Leaf) {args : List Value} (hargs : ∀ v ∈ args, v.IsPlain) {depth : ℕ}
    (hdepth : ∀ v ∈ args, 2 ≤ depth) :
    (shifting aside base).Compares () c (fun _ _ => True) (declareAll (params.map .token) args)
      ((params.zipWith Node.declaration args).forM (execute setting depth)) := by
  have hC := lawful_shifting aside base
  induction params generalizing args with
  | nil => exact Comparison.compares_pure trivial
  | cons p params ih =>
    cases args with
    | nil => exact Comparison.compares_pure trivial
    | cons v args =>
      obtain ⟨hv, hplain⟩ := List.forall_mem_cons.mp hargs
      obtain ⟨hle, hdeep⟩ := List.forall_mem_cons.mp hdepth
      obtain ⟨depth, rfl⟩ := Nat.exists_eq_add_of_le' hle
      have hdeclare : (shifting aside base).Compares () c (fun _ _ => True) (declare p v) (declare p v) :=
        Comparison.compares_declare hC trivial rfl hv.embraced
      -- The block notes the declaration, where the call has noted that it is made.
      have hnote : (shifting aside base).Compares () c (fun _ _ => True) (pure ())
          (record (.declared p.lexeme.inText v)) :=
        fun _ _ hs => .ok trivial ⟨hs.scopes, hs.log, hs.calls, hs.made, hs.readings⟩
      have hfirst := hdeclare.bind fun _ => hnote
      rw [bind_pure_unit, ← execute_declaration setting depth p hv] at hfirst
      exact hfirst.bind fun _ => ih hplain hdeep

/-- If so much nesting is not left, then a declaration reaches the limit. -/
lemma declaration_tooDeep (setting : Setting) {depth : ℕ} (hdepth : depth < 2) (p : Leaf) (v : Value) (s : State) :
    execute setting depth (.declaration p v) s = .error .tooDeep s := by
  match depth with
  | 0 => rfl
  | 1 => rfl

/-! ## Calls -/

section Call

variable {f : UserFunction} {params : List Leaf} {body : List Node} {args : List Value} {depth depth' : ℕ}
  (hparams : f.params.items? = .ok (params.map .token)) (hbody : f.body.items? = .ok body)
  (hlength : args.length = params.length)

include hparams hbody hlength in
/-- A call of a function with as many arguments as it takes notes the call, and runs the body as a call and in a
fresh scope. -/
lemma call_function (setting : Setting) (depth : ℕ) (paren : Node) (s : State) :
    call setting (depth + 1) (.function f) args paren s =
      asCall paren (inFreshScope do
        declareAll (params.map .token) args
        body.forM (execute setting depth)) { s with log := .called (.function f) args.length :: s.log } := by
  have harity : ¬ args.length ≠ (params.map Node.token).length := by simp [hlength]
  change (do
    let ps ← part f.params.items?
    checkArity (.function f) ps.length args.length paren
    asCall paren (inFreshScope do
      declareAll ps args
      (← part f.body.items?).forM (execute setting depth)) : Exec Value) s = _
  rw [hparams, hbody]
  simp only [part_ok, pure_bind, checkArity, if_neg harity]
  rfl

/-- The block first declares the parameters. -/
lemma execute_inlined (setting : Setting) (depth : ℕ) (params : List Leaf) (args : List Value) (body : List Node) :
    execute setting (depth + 1) (.inlined params args body) = inFreshScope (do
      (params.zipWith Node.declaration args).forM (execute setting depth)
      body.forM (execute setting depth)) := by
  change inFreshScope ((params.zipWith Node.declaration args ++ body).forM (execute setting depth)) = _
  rw [List.forM_eq_forM, List.forM_append]

variable (base setting params) in
/-- The two bodies, each in its fresh scope, are compared. -/
lemma compares_inlined (hreturns : ∀ stmt ∈ body, stmt.returns = false) (hargs : ∀ v ∈ args, v.IsPlain)
    (hdeep : ∀ v ∈ args, 2 ≤ depth') (hdepth : depth = depth' ∨ aside) :
    (shifting aside base).Compares () 0 (fun _ _ => True)
      (inFreshScope do
        declareAll (params.map .token) args
        body.forM (execute setting depth))
      (inFreshScope do
        (params.zipWith Node.declaration args).forM (execute setting depth')
        body.forM (execute setting depth')) := by
  have hC := lawful_shifting aside base
  have halike := Comparison.alike hC (surroundings_shifting aside base setting) hdepth
  have hself : List.Forall₂ (Node.Embraced (fun _ => Eq) False) body body :=
    List.forall₂_same.mpr fun stmt _ => (Node.corresponds_refl (fun _ _ => rfl) .stray stmt).embraced
  refine Comparison.compares_inFreshScope hC ((compares_declarations params hargs hdeep).bind fun _ => ?_)
  refine Comparison.compares_forM hself fun {stmt stmt'} hmem hs => ?_
  have hadmits : (shifting aside base).Admits () 0 stmt :=
    ⟨fun _ => trivial, fun hstmt => absurd hstmt (by rw [hreturns stmt hmem]; exact Bool.false_ne_true)⟩
  simpa only [executeWith_record] using halike.execute hadmits hs

/-- If there is not enough nesting left for the declarations, then the block reaches the limit. -/
lemma inlined_tooDeep (setting : Setting) {depth : ℕ} (hlength : args.length = params.length) (hargs : args ≠ [])
    (hdepth : depth < 2) (s : State) :
    ∃ t, execute setting (depth + 1) (.inlined params args body) s = .error .tooDeep t := by
  obtain ⟨v, args, rfl⟩ := List.exists_cons_of_ne_nil hargs
  obtain ⟨p, params, rfl⟩ : ∃ p ps, params = p :: ps := by
    cases params with
    | nil => cases hlength
    | cons p ps => exact ⟨p, ps, rfl⟩
  have hfirst := declaration_tooDeep setting hdepth p v { s with scopes := [] :: s.scopes }
  have hrest : ∀ rest : Exec Unit, (do
      execute setting depth (.declaration p v)
      rest : Exec Unit) { s with scopes := [] :: s.scopes } = .error .tooDeep { s with scopes := [] :: s.scopes } := by
    intro rest
    rw [bind_apply, hfirst]
  have hblock : execute setting (depth + 1) (.inlined (p :: params) (v :: args) body) = inFreshScope (do
      execute setting depth (.declaration p v)
      (params.zipWith Node.declaration args ++ body).forM (execute setting depth)) := rfl
  rw [hblock]
  unfold inFreshScope
  rw [hrest]
  exact ⟨_, rfl⟩

include hparams hbody hlength in
/-- A call and the block that stands for it, if there is enough nesting left for the declarations. -/
lemma outcomes_inlined (setting : Setting) (hreturns : ∀ stmt ∈ body, stmt.returns = false)
    (hargs : ∀ v ∈ args, v.IsPlain) (hdeep : ∀ v ∈ args, 2 ≤ depth') (paren : Node) (s : State) :
    let called := call setting (depth + 1) (.function f) args paren s
    let block := execute setting (depth' + 1) (.inlined params args body) s
    (∃ t, block = .error .tooDeep t) ∨ (depth + 1 ≠ depth' + 1 ∧ (Exhausts called ∨ Exhausts block)) ∨
      Inlines called block := by
  -- At equal depths the nesting limit must not be left aside.
  have hdepth : depth = depth' ∨ depth + 1 ≠ depth' + 1 := by omega
  have hstates : (shifting (depth + 1 ≠ depth' + 1) s.callDepth).States () 0
      { s with log := .called (.function f) args.length :: s.log, callDepth := s.callDepth + 1 } s :=
    ⟨.refl (Value.embraced_refl (fun _ _ => rfl) fun _ => rfl) _, rfl, ⟨rfl, rfl⟩, fun _ => rfl, rfl⟩
  have houtcomes := compares_inlined s.callDepth setting params hreturns hargs hdeep hdepth hstates
  rw [call_function hparams hbody hlength, execute_inlined]
  unfold asCall
  generalize inFreshScope (do
      declareAll (params.map .token) args
      body.forM (execute setting depth)) _ = outcome,
    inFreshScope (do
      (params.zipWith Node.declaration args).forM (execute setting depth')
      body.forM (execute setting depth')) s = outcome' at houtcomes ⊢
  cases houtcomes with
  | ok _ ht => exact .inr (.inr (.ok (samePrinted_of_states ht)))
  | @error stop stop' t t' hstop hreturns ht =>
    obtain rfl := hstop.eq
    have hsame := samePrinted_of_states ht
    cases stop with
    | returned value => exact absurd (hreturns trivial) (Nat.lt_irrefl 0)
    -- Within a call this would be an error of the program, and in the block it is not.
    | tooDeep => exact .inl ⟨t', rfl⟩
    | failed error => exact .inr (.inr (.error id hsame))
    | fault fault => exact .inr (.inr (.error id hsame))
    | outOfTurns => exact .inr (.inr (.error id hsame))
  | @left stop t _ haside hstop =>
    refine .inr (.inl ⟨haside, .inl ?_⟩)
    cases stop with
    | tooDeep =>
      obtain ⟨stop, hfail, hexhausted⟩ :=
        Comparison.isExhaustion_callsTooDeep paren { t with callDepth := t.callDepth - 1 }
      exact ⟨stop, _, hfail, hexhausted⟩
    | returned _ | outOfTurns => exact hstop.elim
    | failed error => exact ⟨_, _, rfl, hstop⟩
    | fault fault => exact ⟨_, _, rfl, hstop⟩
  | right haside hstop => exact .inr (.inl ⟨haside, .inr ⟨_, _, rfl, hstop⟩⟩)

end Call

end Exec

open Exec

/-- A call is its body inlined at the call site.  Let a function have tokens as parameters and a body that does not
return, but for returns of functions that are declared in it.  It is called with as many arguments as it takes, of
which none is a function, in any scopes and while any number of calls is active.  Then the call gives nothing as its
value if the block ends that declares the parameters with the arguments and goes on with the body, and it ends with
the same error if the block does; the same is printed, and what is left behind is the same as well.

The nesting limit is left aside.  It may make a difference if the block itself reaches it, or if the one has less
nesting left than the other, and then one of them reaches it. -/
theorem call_is_inlined (setting : Setting) (depth depth' : ℕ) (f : UserFunction) (params : List Leaf)
    (body : List Node) (args : List Value) (paren : Node) (s : State)
    (hparams : f.params.items? = .ok (params.map .token)) (hbody : f.body.items? = .ok body)
    (hreturns : ∀ stmt ∈ body, stmt.returns = false) (hargs : ∀ v ∈ args, v.IsPlain)
    (hlength : args.length = params.length) :
    let called := call setting depth (.function f) args paren s
    let block := execute setting depth' (.inlined params args body) s
    (∃ t, block = .error .tooDeep t) ∨ (depth ≠ depth' ∧ (Exhausts called ∨ Exhausts block)) ∨
      Inlines called block := by
  cases depth' with
  | zero => exact .inl ⟨s, rfl⟩
  | succ depth' =>
    cases depth with
    | zero => exact .inr (.inl ⟨(Nat.succ_ne_zero depth').symm, .inl ⟨.tooDeep, s, rfl, trivial⟩⟩)
    | succ depth =>
      by_cases hdeep : ∀ v ∈ args, 2 ≤ depth'
      · exact outcomes_inlined hparams hbody hlength setting hreturns hargs hdeep paren s
      · obtain ⟨v, hv, hlt⟩ : ∃ v ∈ args, depth' < 2 := by simpa using hdeep
        exact .inl (inlined_tooDeep setting hlength (List.ne_nil_of_mem hv) hlt s)

/-- The function of `fun f(a, a) { print a; }`, in which one name is declared twice. -/
def twiceDeclaring : UserFunction :=
  let a : Node := .token (Grammar.textToken .identifier "a")
  ⟨0, "f", .list [a, a], .list [.printStmt (.ident a)]⟩

/-- A call of the function that declares a name twice fails at the second parameter, and so does the block that
stands for the call. -/
theorem twiceDeclaring_is_inlined :
    let s := (Session.start 0).state 0
    let a := Grammar.textToken .identifier "a"
    let called := call ⟨9, 9, fun _ => 0⟩ 9 (.function twiceDeclaring) [.nil, .bool true] .null s
    let block := execute ⟨9, 9, fun _ => 0⟩ 9 (.inlined [a, a] [.nil, .bool true] [.printStmt (.ident (.token a))]) s
    Exec.stop? block = some (.failed ⟨.redeclaration "a", some a.place⟩) ∧ Inlines called block := by
  intro s a called block
  have hstop : Exec.stop? block = some (.failed ⟨.redeclaration "a", some a.place⟩) := rfl
  have hplain : ∀ v ∈ [Value.nil, .bool true], v.IsPlain :=
    List.forall_mem_cons.mpr ⟨.nil, List.forall_mem_singleton.mpr (.bool true)⟩
  have hinlined := call_is_inlined ⟨9, 9, fun _ => 0⟩ 9 9 twiceDeclaring [a, a] [.printStmt (.ident (.token a))]
    [.nil, .bool true] .null s rfl rfl (by decide) hplain rfl
  rcases hinlined with ⟨t, ht⟩ | ⟨hne, -⟩ | hinlined
  · rw [show block = _ from ht] at hstop
    cases hstop
  · exact absurd rfl hne
  · exact ⟨hstop, hinlined⟩

end Scriptlet
