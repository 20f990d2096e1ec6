import Scriptlet.Proofs.Codec
import Scriptlet.Proofs.DoubleRange

/-!
# Loading step by step

Loading a value means a number of checks, one after the other: those of its children, which are the items of a list
and the declared fields of a node (`Json.child?`), and its own (`Json.Offends`).  The kind of a token is looked at
before its fields, the class of a node before its fields, and the value of a literal behind them.  Loading fails
for the first of these checks that fails (`Node.ofJson_eq_error_iff`).  All that is known about failing follows
from this one step.
-/

namespace Scriptlet

/-! ## The first check that fails -/

/-- The first of numbered checks that fails does so with this error. -/
def First (Fails : ℕ → LoadError → Prop) (e : LoadError) : Prop :=
  ∃ k, Fails k e ∧ ∀ j < k, ∀ e', ¬ Fails j e'

section First

variable {α β : Type} {Fails Fails' : ℕ → LoadError → Prop} {e : LoadError}

/-- The first error depends on nothing but which errors there are. -/
lemma first_congr (h : ∀ k e, Fails k e ↔ Fails' k e) : First Fails e ↔ First Fails' e := by
  simp only [First, h]

/-- Where nothing fails there is no first error. -/
lemma not_first (h : ∀ k e, ¬ Fails k e) : ¬ First Fails e := by
  rintro ⟨k, hk, -⟩
  exact h k e hk

/-- Either the check with number zero fails, or one of the others is the first to fail. -/
lemma first_iff : First Fails e ↔ Fails 0 e ∨ (∀ e', ¬ Fails 0 e') ∧ First (fun k => Fails (k + 1)) e := by
  constructor
  · rintro ⟨k, hk, hbefore⟩
    cases k with
    | zero => exact .inl hk
    | succ k =>
      exact .inr ⟨hbefore 0 (Nat.succ_pos k), k, hk, fun j hj => hbefore (j + 1) (Nat.succ_lt_succ hj)⟩
  · rintro (h | ⟨hzero, k, hk, hbefore⟩)
    · exact ⟨0, h, fun j hj => absurd hj (Nat.not_lt_zero j)⟩
    · refine ⟨k + 1, hk, fun j hj => ?_⟩
      cases j with
      | zero => exact hzero
      | succ j => exact hbefore j (Nat.lt_of_succ_lt_succ hj)

/-- If some check fails, then one is the first to fail. -/
lemma exists_first {k : ℕ} (h : Fails k e) : ∃ e', First Fails e' := by
  classical
  have hex : ∃ k, ∃ e, Fails k e := ⟨k, e, h⟩
  obtain ⟨e', he'⟩ := Nat.find_spec hex
  exact ⟨e', _, he', fun j hj e'' hj' => Nat.find_min hex hj ⟨e'', hj'⟩⟩

/-- A table of checks fails for the first of them that does. -/
lemma mapM_eq_error_iff {f : α → Except LoadError β} {xs : List α} :
    xs.mapM f = .error e ↔ First (fun k e => ∃ x, xs[k]? = some x ∧ f x = .error e) e := by
  induction xs with
  | nil => exact iff_of_false nofun (not_first fun k e => by simp)
  | cons x xs ih =>
    rw [first_iff, List.mapM_cons]
    simp only [List.getElem?_cons_zero, List.getElem?_cons_succ, Option.some.injEq, exists_eq_left', ← ih]
    cases hx : f x with
    | error e' => simp [bind, Except.bind]
    | ok y =>
      cases hxs : xs.mapM f with
      | error e' => simp [bind, Except.bind]
      | ok ys => simp [bind, Except.bind, pure, Except.pure]

end First

namespace Json

/-! ## Reaching values -/

/-- The classes of nodes. -/
def classNames : List String :=
  ["Assign", "BinaryOp", "Block", "Call", "ExprStmt", "FuncDecl", "Grouping", "Ident", "IfStmt", "Literal",
   "Logical", "PrintStmt", "ReturnStmt", "UnaryOp", "VarDecl", "WhileStmt"]

/-- The fields that a token must have, in the order in which they are asked for. -/
def tokenFields : List String :=
  ["lexeme", "line", "start", "end"]

/-- Only classes declare fields. -/
lemma mem_classNames {s : String} (h : declaredFields s ≠ []) : s ∈ classNames := by
  unfold declaredFields at h
  split at h
  case h_17 => exact absurd rfl h
  all_goals decide

/-- The value with a given index in a list, or in a node among the fields that its class declares. -/
def child? : Json → ℕ → Option Json
  | .list items, k => items[k]?
  | .object members, k =>
    match members.lookup "__token__", members.lookup "__node__" with
    | none, some (.str s) => (declaredFields s)[k]?.bind fun name => members.lookup name
    | _, _ => none
  | _, _ => none

/-! ## Offences -/

/-- The error for a name that is no name of a class. -/
def noClass : Json → LoadError
  | .list _ | .object _ => .unusableName
  | name => .unknownClass name

/-- What is wrong with a value itself, at an index among its children: the kind of a token and its fields are
looked at one after the other, and so are the fields of a node, and behind them the value of a literal. -/
inductive Offends : Json → ℕ → LoadError → Prop
  | unknownKind {members : List (String × Json)} {name : Json} :
      members.lookup "__token__" = some name → (∀ kind : Kind, name ≠ .str kind.name) →
      Offends (.object members) 0 (.unknownKind name)
  | missingTokenField {members : List (String × Json)} {k : ℕ} {name : String} :
      (members.lookup "__token__").isSome → tokenFields[k]? = some name → members.lookup name = none →
      Offends (.object members) (k + 1) (.missingField name)
  | unknownClass {members : List (String × Json)} :
      members.lookup "__token__" = none → (∀ s ∈ classNames, members.lookup "__node__" ≠ some (.str s)) →
      Offends (.object members) 0 (noClass ((members.lookup "__node__").getD .null))
  | missingField {members : List (String × Json)} {s : String} {k : ℕ} {name : String} :
      members.lookup "__token__" = none → members.lookup "__node__" = some (.str s) →
      (declaredFields s)[k]? = some name → members.lookup name = none →
      Offends (.object members) k (.missingField name)
  | integerTooLarge {members : List (String × Json)} {i : ℤ} :
      members.lookup "__token__" = none → members.lookup "__node__" = some (.str "Literal") →
      members.lookup "value" = some (.int i) → ¬ Decimal.InRange i →
      Offends (.object members) 1 .integerTooLarge

end Json

/-! ## One step of loading -/

namespace Node

variable {members : List (String × Json)} {name : Json} {e : LoadError}

/-- A sequence fails in its first step, or in the second after a first that succeeds. -/
lemma bind_eq_error {α β : Type} {x : Except LoadError α} {f : α → Except LoadError β} :
    (x >>= f) = .error e ↔ x = .error e ∨ ∃ a, x = .ok a ∧ f a = .error e := by
  cases x with
  | error e' => simp [bind, Except.bind]
  | ok a => simp [bind, Except.bind]

lemma map_eq_error {α β : Type} {x : Except LoadError α} {f : α → β} :
    f <$> x = .error e ↔ x = .error e := by
  cases x with
  | error e' => simp [Functor.map, Except.map]
  | ok a => simp [Functor.map, Except.map]

/-- A check of a value fails: one of its children cannot be loaded, or it offends itself. -/
def StepFails (o : Json) (k : ℕ) (e : LoadError) : Prop :=
  (∃ c, o.child? k = some c ∧ ofJson c = .error e) ∨ o.Offends k e

/-- A text names no kind of token if it is the name of none. -/
lemma ofName?_eq_none {text : String} : Kind.ofName? text = none ↔ ∀ kind : Kind, text ≠ kind.name := by
  unfold Kind.ofName?
  rw [List.find?_eq_none]
  constructor
  · rintro h kind rfl
    simpa using h kind (Kind.mem_all kind)
  · intro h kind _
    simpa using (h kind).symm

/-- A token of an unknown kind is refused for it, before any other field is read. -/
lemma leafOfMembers_of_noKind (h : ∀ kind : Kind, name ≠ .str kind.name) :
    leafOfMembers name members = .error (.unknownKind name) := by
  cases name with
  | str text =>
    have hnone : Kind.ofName? text = none := ofName?_eq_none.mpr fun kind heq => h kind (heq ▸ rfl)
    simp only [leafOfMembers, hnone]
    rfl
  | _ => rfl

/-- A token of some kind is not loaded because of the first of its fields that is missing. -/
lemma leafOfMembers_eq_error {kind : Kind} :
    leafOfMembers (.str kind.name) members = .error e ↔
      Json.tokenFields.mapM (rawField members) = .error e := by
  simp [leafOfMembers, Kind.ofName?_name, Json.tokenFields, List.mapM_cons, bind_eq_error, map_eq_error]

/-- A token's field fails by being missing only. -/
lemma rawField_eq_error {key : String} :
    rawField members key = .error e ↔ members.lookup key = none ∧ e = .missingField key := by
  unfold rawField
  cases members.lookup key <;> simp [eq_comm]

/-- A token is loaded by looking at its kind and at its fields one after the other. -/
lemma step_token (h : members.lookup "__token__" = some name) :
    ofJson (.object members) = .error e ↔ First (StepFails (.object members)) e := by
  have hchild : ∀ k, (Json.object members).child? k = none := fun k => by simp [Json.child?, h]
  have hstep : ∀ k e, StepFails (.object members) k e ↔ (Json.object members).Offends k e := by
    simp [StepFails, hchild]
  have hkind : ∀ e, (Json.object members).Offends 0 e ↔
      (∀ kind : Kind, name ≠ .str kind.name) ∧ e = .unknownKind name := by
    intro e
    constructor
    · intro hoffends
      cases hoffends with
      | unknownKind hname hnone =>
        obtain rfl := Option.some.inj (hname.symm.trans h)
        exact ⟨hnone, rfl⟩
      | unknownClass hnone _ | missingField hnone _ _ _ => cases h.symm.trans hnone
    · rintro ⟨hnone, rfl⟩
      exact .unknownKind h hnone
  have hfields : ∀ k e, (Json.object members).Offends (k + 1) e ↔
      ∃ key, Json.tokenFields[k]? = some key ∧ rawField members key = .error e := by
    intro k e
    simp only [rawField_eq_error]
    constructor
    · intro hoffends
      cases hoffends with
      | missingTokenField _ hkey hmissing => exact ⟨_, hkey, hmissing, rfl⟩
      | missingField hnone _ _ _ | integerTooLarge hnone _ _ _ => cases h.symm.trans hnone
    · rintro ⟨key, hkey, hmissing, rfl⟩
      exact .missingTokenField (by simp [h]) hkey hmissing
  rw [first_congr hstep, first_iff, first_congr hfields, ← mapM_eq_error_iff, ofJson_object_token h, map_eq_error]
  simp only [hkind]
  by_cases hname : ∃ kind : Kind, name = .str kind.name
  · obtain ⟨kind, rfl⟩ := hname
    simp [leafOfMembers_eq_error]
  · have hnone : ∀ kind : Kind, name ≠ .str kind.name := fun kind heq => hname ⟨kind, heq⟩
    simp [leafOfMembers_of_noKind hnone, hnone, eq_comm]

/-- A list is loaded by loading its items. -/
lemma ofJson_list (items : List Json) : ofJson (.list items) = list <$> items.mapM ofJson := by
  rw [← listOfJson_eq_mapM, ofJson]
  cases listOfJson items <;> rfl

/-- A list is loaded item by item. -/
lemma step_list (items : List Json) :
    ofJson (.list items) = .error e ↔ First (StepFails (.list items)) e := by
  have hstep : ∀ k e, StepFails (.list items) k e ↔ ∃ o, items[k]? = some o ∧ ofJson o = .error e := by
    intro k e
    refine or_iff_left fun hoffends => ?_
    cases hoffends
  rw [first_congr hstep, ← mapM_eq_error_iff, ofJson_list, map_eq_error]

/-! ### Nodes -/

/-- A class that the syntax tree does not have is refused, whatever the fields hold. -/
lemma classOfFields_of_noClass {results : List (String × Except LoadError Node)}
    (h : ∀ s ∈ Json.classNames, name ≠ .str s) :
    classOfFields name results = .error (Json.noClass name) := by
  unfold classOfFields
  dsimp only
  split
  case h_17 | h_18 => rfl
  case h_19 hlist hobject =>
    unfold Json.noClass
    split
    · exact absurd rfl (hlist _)
    · exact absurd rfl (hobject _)
    · rfl
  all_goals exact absurd rfl (h _ (by decide))

/-- A field of a node, loaded. -/
def loadField (members : List (String × Json)) (key : String) : Except LoadError Node :=
  match members.lookup key with
  | some value => ofJson value
  | none => .error (.missingField key)

/-- A field is loaded from the member under its key. -/
lemma field_eq_loadField (key : String) :
    field (members.map fun m => (m.1, ofJson m.2)) key = loadField members key := by
  unfold field loadField
  rw [Json.lookup_map_snd]
  cases members.lookup key <;> rfl

/-- A node that is no literal is not loaded because of the first of its fields that cannot be loaded. -/
lemma classOfFields_eq_error {results : List (String × Except LoadError Node)} {s : String}
    (hs : s ∈ Json.classNames) (hliteral : s ≠ "Literal") :
    classOfFields (.str s) results = .error e ↔ (Json.declaredFields s).mapM (field results) = .error e := by
  simp only [Json.classNames, List.mem_cons, List.not_mem_nil, or_false] at hs
  rcases hs with rfl | rfl | rfl | rfl | rfl | rfl | rfl | rfl | rfl | rfl | rfl | rfl | rfl | rfl | rfl | rfl
  case inr.inr.inr.inr.inr.inr.inr.inr.inr.inl => exact absurd rfl hliteral
  all_goals
    simp [classOfFields, Json.declaredFields, List.mapM_cons, bind_eq_error, map_eq_error]

/-- Widening a literal leaves a node with fields a node with fields. -/
lemma fields_of_widen {node raw : Node} (hfields : raw.fields ≠ []) (h : raw.widen = .ok node) :
    node.fields ≠ [] := by
  cases raw with
  | literal value =>
    cases value with
    | int i =>
      simp only [widen, literalOf] at h
      split at h <;> cases h
      simp [fields]
    | _ =>
      cases h
      simp [fields]
  | _ =>
    cases h
    exact hfields

/-- An object is loaded as a token or as a tree of some class. -/
lemma of_ofJson_object {node : Node} (h : ofJson (.object members) = .ok node) :
    (∃ t, node = token t) ∨ node.fields ≠ [] := by
  cases htoken : members.lookup "__token__" with
  | some name =>
    rw [ofJson_object_token htoken] at h
    generalize leafOfMembers name members = outcome at h
    cases outcome with
    | ok t => exact .inl ⟨t, (Except.ok.inj h).symm⟩
    | error _ => cases h
  | none =>
    rw [ofJson_object htoken] at h
    obtain ⟨raw, hfields, -, -, hwiden⟩ := loadedFrom_of_ok h
    exact .inr (fields_of_widen hfields hwiden)

/-- Only an integer is loaded as one. -/
lemma ofJson_eq_int {o : Json} {i : ℤ} : ofJson o = .ok (int i) ↔ o = .int i := by
  refine ⟨fun h => ?_, fun h => h ▸ rfl⟩
  cases o with
  | object members =>
    rcases of_ofJson_object h with ⟨t, ht⟩ | hfields
    · cases ht
    · exact absurd rfl hfields
  | list items =>
    rw [ofJson_list] at h
    generalize items.mapM ofJson = outcome at h
    cases outcome <;> cases h
  | int j =>
    obtain rfl : j = i := by simpa [ofJson] using h
    rfl
  | _ => cases h

/-- Only a list is loaded as one. -/
lemma exists_list_iff {o : Json} {node : Node} (h : ofJson o = .ok node) :
    (∃ nodes, node = list nodes) ↔ ∃ items, o = .list items := by
  cases o with
  | object members =>
    refine iff_of_false ?_ nofun
    rintro ⟨nodes, rfl⟩
    rcases of_ofJson_object h with ⟨t, ht⟩ | hfields
    · cases ht
    · exact hfields rfl
  | list items =>
    rw [ofJson_list] at h
    generalize items.mapM ofJson = outcome at h
    cases outcome with
    | ok nodes => exact iff_of_true ⟨nodes, (Except.ok.inj h).symm⟩ ⟨items, rfl⟩
    | error _ => cases h
  | _ =>
    cases h
    exact iff_of_false nofun nofun

/-- A literal is refused if it is an integer beyond every double, and for no other reason. -/
lemma literalOf_eq_error {value : Node} :
    literalOf value = .error e ↔ ∃ i, value = int i ∧ ¬ Decimal.InRange i ∧ e = .integerTooLarge := by
  cases value with
  | int i =>
    simp only [literalOf]
    cases h : Decimal.ofInt? i with
    | none => simp [Decimal.ofInt?_eq_none.mp h, eq_comm]
    | some x =>
      have hrange : Decimal.InRange i := by
        by_contra hrange
        cases h.symm.trans (Decimal.ofInt?_eq_none.mpr hrange)
      simp [hrange]
  | _ => simp [literalOf]

section Class

variable {s : String} (htoken : members.lookup "__token__" = none)
  (hnode : members.lookup "__node__" = some (.str s)) (hs : s ∈ Json.classNames)

include htoken hnode hs

/-- The checks of a node are those of its fields, and one more for a literal. -/
lemma stepFails_node (k : ℕ) (e : LoadError) :
    StepFails (.object members) k e ↔
      (∃ key, (Json.declaredFields s)[k]? = some key ∧ loadField members key = .error e) ∨
        s = "Literal" ∧ k = 1 ∧ e = .integerTooLarge ∧
          ∃ i, members.lookup "value" = some (.int i) ∧ ¬ Decimal.InRange i := by
  have hchild : (Json.object members).child? k =
      (Json.declaredFields s)[k]?.bind fun key => members.lookup key := by
    simp only [Json.child?, htoken, hnode]
  have hclass : ∀ {s'}, members.lookup "__node__" = some (.str s') → s' = s := by
    intro s' h
    simpa using h.symm.trans hnode
  constructor
  · rintro (⟨c, hc, hload⟩ | hoffends)
    · rw [hchild] at hc
      obtain ⟨key, hkey, hlookup⟩ := Option.bind_eq_some_iff.mp hc
      exact .inl ⟨key, hkey, by simpa only [loadField, hlookup] using hload⟩
    · cases hoffends with
      | unknownKind hname _ => cases htoken.symm.trans hname
      | missingTokenField hsome _ _ => simp [htoken] at hsome
      | unknownClass _ hnone => exact absurd hnode (hnone s hs)
      | missingField _ hname hkey hmissing =>
        obtain rfl := hclass hname
        exact .inl ⟨_, hkey, by simp only [loadField, hmissing]⟩
      | integerTooLarge _ hname hvalue hrange => exact .inr ⟨(hclass hname).symm, rfl, rfl, _, hvalue, hrange⟩
  · rintro (⟨key, hkey, hload⟩ | ⟨rfl, rfl, rfl, i, hvalue, hrange⟩)
    · cases hlookup : members.lookup key with
      | some c =>
        refine .inl ⟨c, by rw [hchild, hkey, Option.bind_some, hlookup], ?_⟩
        simpa only [loadField, hlookup] using hload
      | none =>
        simp only [loadField, hlookup] at hload
        obtain rfl := Except.error.inj hload
        exact .inr (.missingField htoken hnode hkey hlookup)
    · exact .inr (.integerTooLarge htoken hnode hvalue hrange)

/-- A node is loaded field by field, and a literal looks at its value last. -/
lemma step_class : ofJson (.object members) = .error e ↔ First (StepFails (.object members)) e := by
  rw [first_congr (stepFails_node htoken hnode hs), ofJson_object htoken, hnode, Option.getD_some]
  by_cases hliteral : s = "Literal"
  · subst hliteral
    have hload : ∀ results, classOfFields (.str "Literal") results = field results "value" >>= literalOf :=
      fun _ => rfl
    have hloaded : ∀ i, loadField members "value" = .ok (int i) ↔ members.lookup "value" = some (.int i) := by
      intro i
      unfold loadField
      cases members.lookup "value" <;> simp [ofJson_eq_int]
    have hinteger : (∃ value, loadField members "value" = .ok value ∧ literalOf value = .error e) ↔
        (∀ e', loadField members "value" ≠ .error e') ∧ e = .integerTooLarge ∧
          ∃ i, members.lookup "value" = some (.int i) ∧ ¬ Decimal.InRange i := by
      simp only [literalOf_eq_error, ← hloaded]
      constructor
      · rintro ⟨_, hvalue, i, rfl, hrange, rfl⟩
        exact ⟨fun e' he' => (by cases hvalue.symm.trans he'), rfl, i, hvalue, hrange⟩
      · rintro ⟨-, rfl, i, hvalue, hrange⟩
        exact ⟨_, hvalue, i, rfl, hrange, rfl⟩
    -- The field comes first, the value second, and there are no other checks.
    rw [hload, field_eq_loadField, bind_eq_error, hinteger, first_iff, first_iff]
    simp [Json.declaredFields, not_first]
  · rw [classOfFields_eq_error hs hliteral, funext field_eq_loadField, mapM_eq_error_iff]
    exact first_congr fun k e => by simp [hliteral]

end Class

/-- An object without a kind whose class is none has nothing else that is looked at. -/
lemma step_noClass (htoken : members.lookup "__token__" = none)
    (hnode : ∀ s ∈ Json.classNames, members.lookup "__node__" ≠ some (.str s)) :
    ofJson (.object members) = .error e ↔ First (StepFails (.object members)) e := by
  have hname : ∀ s ∈ Json.classNames, (members.lookup "__node__").getD .null ≠ .str s := by
    intro s hs heq
    cases h : members.lookup "__node__" with
    | none => simp [h] at heq
    | some name => exact hnode s hs (by rw [h, ← heq, h, Option.getD_some])
  have hchild : ∀ k c, (Json.object members).child? k ≠ some c := by
    intro k c hc
    simp only [Json.child?, htoken] at hc
    split at hc
    next s _ hs =>
      obtain ⟨key, hkey, -⟩ := Option.bind_eq_some_iff.mp hc
      exact hnode s (Json.mem_classNames (List.ne_nil_of_mem (List.mem_of_getElem? hkey))) hs
    next => cases hc
  have hstep : ∀ k e, StepFails (.object members) k e ↔
      k = 0 ∧ e = Json.noClass ((members.lookup "__node__").getD .null) := by
    intro k e
    constructor
    · rintro (⟨c, hc, -⟩ | hoffends)
      · exact absurd hc (hchild k c)
      · cases hoffends with
        | unknownKind hname _ => cases htoken.symm.trans hname
        | missingTokenField hsome _ _ => simp [htoken] at hsome
        | unknownClass _ _ => exact ⟨rfl, rfl⟩
        | missingField _ hs hkey _ =>
          exact absurd hs (hnode _ (Json.mem_classNames (List.ne_nil_of_mem (List.mem_of_getElem? hkey))))
        | integerTooLarge _ hs _ _ => exact absurd hs (hnode _ (by decide))
    · rintro ⟨rfl, rfl⟩
      exact .inr (.unknownClass htoken hnode)
  rw [first_congr hstep, first_iff, ofJson_object htoken, classOfFields_of_noClass hname]
  simp [eq_comm]

/-- Loading a value fails for the first of its checks that fails. -/
theorem ofJson_eq_error_iff {o : Json} : ofJson o = .error e ↔ First (StepFails o) e := by
  cases o with
  | list items => exact step_list items
  | object members =>
    cases htoken : members.lookup "__token__" with
    | some name => exact step_token htoken
    | none =>
      by_cases hnode : ∃ s ∈ Json.classNames, members.lookup "__node__" = some (.str s)
      · obtain ⟨s, hs, hnode⟩ := hnode
        exact step_class htoken hnode hs
      · exact step_noClass htoken fun s hs hname => hnode ⟨s, hs, hname⟩
  | _ =>
    refine iff_of_false nofun (not_first fun k e => ?_)
    rintro (⟨c, hc, -⟩ | hoffends)
    · cases hc
    · cases hoffends

end Node

end Scriptlet
