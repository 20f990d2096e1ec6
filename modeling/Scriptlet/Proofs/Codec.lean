import Mathlib
import Scriptlet.Tree.Codec

/-!
# Storing trees and loading them

A tree that is stored and loaded again is the same tree, whatever stands in its fields, except for an
integer as the value of a literal: literals are loaded with doubles.

The other way round, a JSON value that can be loaded is stored as its *normal form*.  Nodes keep the fields
that their classes declare, and tokens keep theirs, while everything else is dropped; a token without a
literal is given an empty one; and the integers that stand as values of literals become doubles.  In the
normal form the members of an object stand in the order in which they are declared, which is of no account.

Both directions look at a tree of some class as the name of the class with a table of named parts
(`Node.fields`), so that they need no word about single classes.
-/

namespace Scriptlet

namespace Node

/-! ## Classes and their fields -/

/-- The parts of a tree of some class, by the names under which the class declares them.  What is no tree
of a class has none. -/
def fields : Node → List (String × Node)
  | literal value => [("value", value)]
  | grouping e => [("expression", e)]
  | unary operator e => [("operator", operator), ("operand", e)]
  | binary left operator right => [("left", left), ("operator", operator), ("right", right)]
  | logical left operator right => [("left", left), ("operator", operator), ("right", right)]
  | ident name => [("name", name)]
  | assign name value => [("name", name), ("value", value)]
  | call callee paren arguments => [("callee", callee), ("paren", paren), ("arguments", arguments)]
  | exprStmt e => [("expression", e)]
  | printStmt e => [("expression", e)]
  | varDecl name initializer => [("name", name), ("initializer", initializer)]
  | block statements => [("statements", statements)]
  | ifStmt condition thenBranch elseBranch =>
    [("condition", condition), ("then_branch", thenBranch), ("else_branch", elseBranch)]
  | whileStmt condition body => [("condition", condition), ("body", body)]
  | funDecl name params body => [("name", name), ("params", params), ("body", body)]
  | returnStmt keyword value => [("keyword", keyword), ("value", value)]
  | _ => []

/-- The trees that can be stored: bare values, lists, tokens of all kinds, and trees of all classes, with
any of these in their fields, but without an integer as the value of a literal. -/
inductive IsStorable : Node → Prop
  | null : IsStorable null
  | bool (b : Bool) : IsStorable (bool b)
  | int (i : ℤ) : IsStorable (int i)
  | float (x : Float) : IsStorable (float x)
  | str (s : String) : IsStorable (str s)
  | token (t : Leaf) : IsStorable (token t)
  | list {items : List Node} : (∀ item ∈ items, IsStorable item) → IsStorable (list items)
  | ofClass {node : Node} : node.fields ≠ [] → (∀ i, node ≠ literal (.int i)) →
      (∀ field ∈ node.fields, IsStorable field.2) → IsStorable node

variable {node : Node}

/-- A node with one field is storable if the part in it is. -/
lemma isStorable_of_field {name : String} {a : Node} (hfields : node.fields = [(name, a)])
    (hliteral : ∀ i, node ≠ literal (int i)) (ha : a.IsStorable) : node.IsStorable :=
  .ofClass (by simp [hfields]) hliteral (by simpa [hfields] using ha)

/-- A node with two fields is storable if both parts are. -/
lemma isStorable_of_two_fields {name name' : String} {a b : Node}
    (hfields : node.fields = [(name, a), (name', b)]) (hliteral : ∀ i, node ≠ literal (int i))
    (ha : a.IsStorable) (hb : b.IsStorable) : node.IsStorable :=
  .ofClass (by simp [hfields]) hliteral (by simpa [hfields] using ⟨ha, hb⟩)

/-- A node with three fields is storable if the three parts are. -/
lemma isStorable_of_three_fields {name name' name'' : String} {a b c : Node}
    (hfields : node.fields = [(name, a), (name', b), (name'', c)]) (hliteral : ∀ i, node ≠ literal (int i))
    (ha : a.IsStorable) (hb : b.IsStorable) (hc : c.IsStorable) : node.IsStorable :=
  .ofClass (by simp [hfields]) hliteral (by simpa [hfields] using ⟨ha, hb, hc⟩)

/-- A literal is storable unless it holds a bare integer, which loading would widen. -/
lemma isStorable_literal {value : Node} (h : value.IsStorable) (hint : ∀ i, value ≠ int i) :
    (literal value).IsStorable :=
  isStorable_of_field rfl (by simpa using hint) h

/-- A tree of a class is stored with the name of the class and with each of its fields. -/
lemma toJson_of_fields (h : node.fields ≠ []) :
    node.toJson = classToJson node.className (node.fields.map fun f => (f.1, f.2.toJson)) := by
  cases node <;> first | rfl | exact absurd rfl h

/-- A list is stored item by item. -/
lemma toJson_list (items : List Node) : (list items).toJson = .list (items.map toJson) := by
  have hitems : ∀ items : List Node, listToJson items = items.map toJson := by
    intro items
    induction items with
    | nil => rfl
    | cons item items ih => simp only [listToJson, ih, List.map_cons]
  simp only [toJson, hitems]

lemma fieldsOfJson_eq_map (members : List (String × Json)) :
    fieldsOfJson members = members.map fun m => (m.1, ofJson m.2) := by
  induction members with
  | nil => rfl
  | cons member members ih => simp only [fieldsOfJson, ih, List.map_cons]

/-- An object without a kind is loaded by its class. -/
lemma ofJson_object {members : List (String × Json)} (h : members.lookup "__token__" = none) :
    ofJson (.object members) =
      classOfFields ((members.lookup "__node__").getD .null) (members.map fun m => (m.1, ofJson m.2)) := by
  rw [← fieldsOfJson_eq_map]
  simp only [ofJson, h]

/-- Members with a token's mark are loaded as a token, whatever else they hold. -/
lemma ofJson_object_token {members : List (String × Json)} {name : Json}
    (h : members.lookup "__token__" = some name) :
    ofJson (.object members) = token <$> leafOfMembers name members := by
  simp only [ofJson, h]
  cases leafOfMembers name members <;> rfl

/-! ## Loading what was stored -/

/-- A token is loaded with all fields that it was stored with. -/
lemma ofJson_toJson_token (t : Leaf) : ofJson (token t).toJson = .ok (token t) := by
  have hleaf : ∀ kind : Kind, Kind.ofName? kind.name = some kind := Kind.ofName?_name
  simp [toJson, Leaf.toJson, ofJson, leafOfMembers, rawField, List.lookup, hleaf]
  rfl

/-- A tree of a class is loaded if its parts are. -/
lemma ofJson_toJson_class (h : node.fields ≠ []) (hliteral : ∀ i, node ≠ literal (.int i))
    (hparts : ∀ field ∈ node.fields, ofJson field.2.toJson = .ok field.2) :
    ofJson node.toJson = .ok node := by
  have htoken : (("__node__", Json.str node.className) ::
      node.fields.map fun f => (f.1, f.2.toJson)).lookup "__token__" = none := by
    cases node <;> rfl
  have hfields : (node.fields.map fun f => (f.1, f.2.toJson)).map (fun m => (m.1, ofJson m.2)) =
      node.fields.map fun f => (f.1, .ok f.2) := by
    rw [List.map_map]
    exact List.map_congr_left fun f hf => Prod.ext rfl (hparts f hf)
  have hclass : classOfFields (.str node.className) (("__node__", .ok (str node.className)) ::
      node.fields.map fun f => (f.1, .ok f.2)) = .ok node := by
    cases node with
    | literal value =>
      cases value with
      | int i => exact absurd rfl (hliteral i)
      | _ => rfl
    | _ => first | rfl | exact absurd rfl h
  rw [toJson_of_fields h, classToJson, ofJson_object htoken, List.map_cons, hfields]
  exact hclass

/-- The items of a list are loaded in their order, up to the first error. -/
lemma listOfJson_eq_mapM (items : List Json) : listOfJson items = items.mapM ofJson := by
  induction items with
  | nil => rfl
  | cons item items ih => rw [listOfJson, List.mapM_cons, ih]

/-- What is stored is loaded as it was. -/
theorem ofJson_toJson (h : node.IsStorable) : ofJson node.toJson = .ok node := by
  induction h with
  | null | bool | int | float | str => rfl
  | token t => exact ofJson_toJson_token t
  | @list items _ ih =>
    have hitems : (items.map toJson).mapM ofJson = .ok items := by
      clear * - ih
      induction items with
      | nil => rfl
      | cons item items ihitems =>
        obtain ⟨hitem, hitems⟩ := List.forall_mem_cons.mp ih
        rw [List.map_cons, List.mapM_cons, hitem, ihitems hitems]
        rfl
    rw [toJson_list, ofJson, listOfJson_eq_mapM, hitems]
    rfl
  | ofClass hfields hliteral _ ih => exact ofJson_toJson_class hfields hliteral ih

end Node

/-! ## Normal forms -/

namespace Json

/-- The fields that a class declares. -/
def declaredFields : String → List String
  | "Literal" => ["value"]
  | "Grouping" => ["expression"]
  | "UnaryOp" => ["operator", "operand"]
  | "BinaryOp" => ["left", "operator", "right"]
  | "Logical" => ["left", "operator", "right"]
  | "Ident" => ["name"]
  | "Assign" => ["name", "value"]
  | "Call" => ["callee", "paren", "arguments"]
  | "ExprStmt" => ["expression"]
  | "PrintStmt" => ["expression"]
  | "VarDecl" => ["name", "initializer"]
  | "Block" => ["statements"]
  | "IfStmt" => ["condition", "then_branch", "else_branch"]
  | "WhileStmt" => ["condition", "body"]
  | "FuncDecl" => ["name", "params", "body"]
  | "ReturnStmt" => ["keyword", "value"]
  | _ => []

/-- The value of a field in a class: an integer as the value of a literal becomes a double. -/
def widened : (className : String) → Json → Json
  | "Literal", .int i => ((Decimal.ofInt? i).map Json.float).getD (.int i)
  | _, value => value

/-- A token with its own fields and nothing else, and with a literal, which may be missing. -/
def normalToken (kind : Json) (members : List (String × Json)) : Json :=
  let get name := (members.lookup name).getD .null
  .object [("__token__", kind), ("lexeme", get "lexeme"), ("literal", get "literal"), ("line", get "line"),
    ("start", get "start"), ("end", get "end")]

/-- A node of a class with the declared fields and nothing else. -/
def normalNode (className : Json) (members : List (String × Json)) : Json :=
  match className with
  | .str s => .object (("__node__", className) ::
      (declaredFields s).map fun name => (name, widened s ((members.lookup name).getD .null)))
  | _ => .object [("__node__", className)]

mutual

/-- The normal form of a JSON value.  What the fields of a token hold is left as it is. -/
def normal : Json → Json
  | .list items => .list (normalItems items)
  | .object members =>
    match members.lookup "__token__" with
    | some kind => normalToken kind members
    | none => normalNode ((members.lookup "__node__").getD .null) (normalMembers members)
  | json => json

/-- The normal forms of some values. -/
def normalItems : List Json → List Json
  | [] => []
  | item :: rest => normal item :: normalItems rest

/-- The members of an object, with the normal forms of their values. -/
def normalMembers : List (String × Json) → List (String × Json)
  | [] => []
  | (name, value) :: rest => (name, normal value) :: normalMembers rest

end

lemma normalItems_eq_map (items : List Json) : normalItems items = items.map normal := by
  induction items with
  | nil => rfl
  | cons item items ih => simp only [normalItems, ih, List.map_cons]

lemma normalMembers_eq_map (members : List (String × Json)) :
    normalMembers members = members.map fun m => (m.1, normal m.2) := by
  induction members with
  | nil => rfl
  | cons member members ih => simp only [normalMembers, ih, List.map_cons]

/-- Looking a key up commutes with a change of the values. -/
lemma lookup_map_snd {α β : Type} (f : α → β) (members : List (String × α)) (key : String) :
    (members.map fun m => (m.1, f m.2)).lookup key = (members.lookup key).map f := by
  induction members with
  | nil => rfl
  | cons member members ih =>
    obtain ⟨name, a⟩ := member
    simp only [List.map_cons, List.lookup_cons, ih]
    split <;> rfl

/-- A value is loaded as a tree that can be stored, and then stored as its normal form. -/
def Reloads (o : Json) : Prop :=
  ∀ node, Node.ofJson o = .ok node → node.toJson = o.normal ∧ node.IsStorable

end Json

/-! ## Storing what was loaded -/

namespace Node

variable {node raw : Node} {members : List (String × Json)} {name : Json}
  {results : List (String × Except LoadError Node)}

/-- What is made of a tree of some class when its fields have been loaded. -/
def widen : Node → Except LoadError Node
  | literal value => literalOf value
  | node => .ok node

/-- A tree comes from a tree of a class, whose fields are among some results of loading. -/
def LoadedFrom (name : Json) (results : List (String × Except LoadError Node)) (node : Node) : Prop :=
  ∃ raw : Node, raw.fields ≠ [] ∧ name = .str raw.className ∧
    (∀ f ∈ raw.fields, results.lookup f.1 = some (.ok f.2)) ∧ raw.widen = .ok node

lemma bind_eq_ok {α β : Type} {x : Except LoadError α} {f : α → Except LoadError β} {b : β} :
    (x >>= f) = .ok b ↔ ∃ a, x = .ok a ∧ f a = .ok b := by
  cases x with
  | error e => simp [bind, Except.bind]
  | ok a => simp [bind, Except.bind]

/-- A field is there exactly if its key is found and its part was loaded. -/
lemma field_eq_ok {key : String} {part : Node} :
    field results key = .ok part ↔ results.lookup key = some (.ok part) := by
  unfold field
  cases h : results.lookup key <;> simp

/-- A tree that comes as it is from the class that it belongs to. -/
lemma loadedFrom_self (hname : name = .str node.className) (hliteral : ∀ value, node ≠ literal value)
    (hfields : node.fields ≠ []) (h : ∀ f ∈ node.fields, results.lookup f.1 = some (.ok f.2)) :
    LoadedFrom name results node := by
  refine ⟨node, hfields, hname, h, ?_⟩
  cases node with
  | literal value => exact absurd rfl (hliteral value)
  | _ => rfl

/-- A tree of a class is loaded from the fields that the class declares. -/
lemma loadedFrom_of_ok (h : classOfFields name results = .ok node) : LoadedFrom name results node := by
  unfold classOfFields at h
  dsimp only at h
  split at h
  case h_17 | h_18 | h_19 => cases h
  all_goals simp only [bind_eq_ok, field_eq_ok] at h
  -- the classes by the number of their fields
  case h_1 =>
    obtain ⟨value, hvalue, h⟩ := h
    exact ⟨literal value, by simp [fields], rfl, by simpa [fields] using hvalue, h⟩
  case h_2 | h_6 | h_9 | h_10 | h_12 =>
    obtain ⟨a, ha, h⟩ := h
    obtain rfl := Except.ok.inj h
    exact loadedFrom_self rfl (by simp) (by simp [fields]) (by simpa [fields] using ha)
  case h_3 | h_7 | h_11 | h_14 | h_16 =>
    obtain ⟨a, ha, b, hb, h⟩ := h
    obtain rfl := Except.ok.inj h
    exact loadedFrom_self rfl (by simp) (by simp [fields]) (by simpa [fields] using ⟨ha, hb⟩)
  case h_4 | h_5 | h_8 | h_13 | h_15 =>
    obtain ⟨a, ha, b, hb, c, hc, h⟩ := h
    obtain rfl := Except.ok.inj h
    exact loadedFrom_self rfl (by simp) (by simp [fields]) (by simpa [fields] using ⟨ha, hb, hc⟩)

/-- A node has the fields that are declared for its class, in that order. -/
lemma map_fst_fields (raw : Node) : raw.fields.map (·.1) = Json.declaredFields raw.className := by
  cases raw <;> rfl

/-- A tree of a class is stored with its fields, integers in literals made doubles. -/
lemma toJson_of_widen (hfields : raw.fields ≠ []) (h : raw.widen = .ok node) :
    node.toJson = classToJson raw.className
      (raw.fields.map fun f => (f.1, Json.widened raw.className f.2.toJson)) := by
  cases raw with
  | literal value =>
    cases value with
    | int i =>
      simp only [widen, literalOf] at h
      split at h
      next x hx =>
        obtain rfl := Except.ok.inj h
        simp [toJson, fields, className, Json.widened, hx]
      next => cases h
    | _ =>
      obtain rfl := Except.ok.inj h
      rfl
  | _ =>
    first
    | exact absurd rfl hfields
    | obtain rfl := Except.ok.inj h
      rfl

/-- A tree is storable if the parts that it was loaded with are. -/
lemma isStorable_of_widen (hfields : raw.fields ≠ []) (hparts : ∀ f ∈ raw.fields, f.2.IsStorable)
    (h : raw.widen = .ok node) : node.IsStorable := by
  have hself : (∀ i, raw ≠ literal (.int i)) → raw.IsStorable := fun hint =>
    .ofClass hfields hint hparts
  cases raw with
  | literal value =>
    cases value with
    | int i =>
      simp only [widen, literalOf] at h
      split at h
      next x hx =>
        obtain rfl := Except.ok.inj h
        exact isStorable_literal (.float x) (by simp)
      next => cases h
    | _ =>
      obtain rfl := Except.ok.inj h
      exact hself (by simp)
  | _ =>
    obtain rfl := Except.ok.inj h
    exact hself (by simp)

/-- A node of a class reloads if the values of its members do. -/
lemma reloads_class (hmembers : ∀ m ∈ members, m.2.Reloads) (htoken : members.lookup "__token__" = none) :
    (Json.object members).Reloads := by
  intro node h
  rw [ofJson_object htoken] at h
  obtain ⟨raw, hfields, hname, hparts, hwiden⟩ := loadedFrom_of_ok h
  have hvalue : ∀ f ∈ raw.fields, ∃ value, members.lookup f.1 = some value ∧
      f.2.toJson = value.normal ∧ f.2.IsStorable := by
    intro f hf
    have hlookup := hparts f hf
    rw [Json.lookup_map_snd, Option.map_eq_some_iff] at hlookup
    obtain ⟨value, hmem, hload⟩ := hlookup
    obtain ⟨before, after, rfl, -⟩ := List.lookup_eq_some_iff.mp hmem
    exact ⟨value, hmem, hmembers (f.1, value) (by simp) f.2 hload⟩
  -- both sides are tables over the declared fields, so they are compared field by field
  refine ⟨?_, isStorable_of_widen hfields (fun f hf => (hvalue f hf).choose_spec.2.2) hwiden⟩
  have hnormal : (Json.object members).normal = classToJson raw.className
      ((Json.declaredFields raw.className).map fun key =>
        (key, Json.widened raw.className (((Json.normalMembers members).lookup key).getD .null))) := by
    simp only [Json.normal, htoken, hname, Json.normalNode, classToJson]
  rw [hnormal, toJson_of_widen hfields hwiden, ← map_fst_fields, List.map_map]
  congr 1
  refine List.map_congr_left fun f hf => ?_
  obtain ⟨value, hlookup, hjson, -⟩ := hvalue f hf
  simp only [Function.comp, Json.normalMembers_eq_map, Json.lookup_map_snd, hlookup, hjson,
    Option.map_some, Option.getD_some]

/-- A token's field is the member under its key. -/
lemma rawField_eq_ok {key : String} {value : Json} :
    rawField members key = .ok value ↔ members.lookup key = some value := by
  unfold rawField
  cases members.lookup key <;> simp

/-- A token is loaded from an object that names a kind and has the fields of a token. -/
lemma toJson_of_leafOfMembers {t : Leaf} (h : leafOfMembers name members = .ok t) :
    t.toJson = Json.normalToken name members := by
  unfold leafOfMembers at h
  cases name with
  | str text =>
    cases hkind : Kind.ofName? text with
    | none =>
      simp only [hkind] at h
      cases h
    | some kind =>
      simp only [hkind, bind_eq_ok, rawField_eq_ok] at h
      obtain ⟨lexeme, hlexeme, line, hline, start, hstart, stop, hstop, h⟩ := h
      obtain rfl := Except.ok.inj h
      have hname : kind.name = text := by simpa using List.find?_some hkind
      simp [Leaf.toJson, Json.normalToken, hname, hlexeme, hline, hstart, hstop]
  | _ => cases h

/-- A token reloads, whatever its fields hold. -/
lemma reloads_token (h : members.lookup "__token__" = some name) : (Json.object members).Reloads := by
  intro node hload
  rw [ofJson_object_token h] at hload
  cases hleaf : leafOfMembers name members with
  | error e =>
    rw [hleaf] at hload
    cases hload
  | ok t =>
    rw [hleaf] at hload
    obtain rfl : token t = node := Except.ok.inj hload
    refine ⟨?_, .token t⟩
    simp only [Json.normal, h]
    exact toJson_of_leafOfMembers hleaf

/-- A list is loaded and stored again if each of its items is. -/
lemma reloads_list {items : List Json} (h : ∀ item ∈ items, item.Reloads) :
    (Json.list items).Reloads := by
  intro node hload
  rw [ofJson, listOfJson_eq_mapM] at hload
  obtain ⟨nodes, hnodes, hlist⟩ := bind_eq_ok.mp hload
  obtain rfl := Except.ok.inj hlist
  have hitems : nodes.map toJson = items.map Json.normal ∧ ∀ node ∈ nodes, node.IsStorable := by
    clear hload hlist
    induction items generalizing nodes with
    | nil =>
      obtain rfl := Except.ok.inj hnodes
      simp
    | cons item items ih =>
      obtain ⟨hitem, hrest⟩ := List.forall_mem_cons.mp h
      rw [List.mapM_cons] at hnodes
      obtain ⟨node, hnode, hnodes⟩ := bind_eq_ok.mp hnodes
      obtain ⟨nodes, hmap, hcons⟩ := bind_eq_ok.mp hnodes
      obtain rfl := Except.ok.inj hcons
      obtain ⟨hjson, hstorable⟩ := hitem node hnode
      obtain ⟨hjsons, hstorables⟩ := ih hrest nodes hmap
      exact ⟨by rw [List.map_cons, List.map_cons, hjson, hjsons],
        List.forall_mem_cons.mpr ⟨hstorable, hstorables⟩⟩
  refine ⟨?_, .list hitems.2⟩
  rw [toJson_list, hitems.1, Json.normal, Json.normalItems_eq_map]

/-- What is loaded as a storable node, and stored in normal form, reloads. -/
lemma reloads_bare {o : Json} (hload : ofJson o = .ok node) (hnormal : node.toJson = o.normal)
    (hstorable : node.IsStorable) : o.Reloads := by
  intro loaded h
  obtain rfl := Except.ok.inj (hload.symm.trans h)
  exact ⟨hnormal, hstorable⟩

mutual

/-- Every JSON value reloads. -/
theorem reloads : ∀ o : Json, o.Reloads
  | .null => reloads_bare rfl rfl .null
  | .bool b => reloads_bare rfl rfl (.bool b)
  | .int i => reloads_bare rfl rfl (.int i)
  | .float x => reloads_bare rfl rfl (.float x)
  | .str s => reloads_bare rfl rfl (.str s)
  | .list items => reloads_list (reloads_items items)
  | .object members => by
    cases htoken : members.lookup "__token__" with
    | none => exact reloads_class (reloads_members members) htoken
    | some name => exact reloads_token htoken

/-- The items of every list reload. -/
theorem reloads_items : ∀ items : List Json, ∀ item ∈ items, item.Reloads
  | [] => by simp
  | item :: items => List.forall_mem_cons.mpr ⟨reloads item, reloads_items items⟩

theorem reloads_members : ∀ members : List (String × Json), ∀ m ∈ members, m.2.Reloads
  | [] => by simp
  | (_, value) :: members => List.forall_mem_cons.mpr ⟨reloads value, reloads_members members⟩

end

end Node

/-- Trees are loaded as they were stored, whatever stands in their fields, unless a literal holds an
integer.  And a JSON value that can be loaded is stored as its normal form, which is loaded as the same tree
and is its own normal form, so that storing and loading a second time changes nothing. -/
theorem stored_is_loaded_and_loaded_is_normal :
    (∀ node : Node, node.IsStorable → Node.ofJson node.toJson = .ok node) ∧
    ∀ (o : Json) (node : Node), Node.ofJson o = .ok node →
      node.toJson = o.normal ∧ Node.ofJson o.normal = .ok node ∧ o.normal.normal = o.normal := by
  refine ⟨fun node h => Node.ofJson_toJson h, fun o node h => ?_⟩
  obtain ⟨hnormal, hstorable⟩ := Node.reloads o node h
  have hagain : Node.ofJson o.normal = .ok node := hnormal ▸ Node.ofJson_toJson hstorable
  exact ⟨hnormal, hagain, (Node.reloads o.normal node hagain).1.symm.trans hnormal⟩

/-- A stored return statement with a field that is not declared, and with a token that has no literal. -/
def untidyReturn : Json :=
  .object [("value", .null), ("note", .str "by hand"), ("__node__", .str "ReturnStmt"),
    ("keyword", .object [("__token__", .str "return"), ("lexeme", .str "return"), ("line", .int 1),
      ("start", .int 0), ("end", .int 6)])]

/-- The untidy return statement is loaded, and stored in order and without what does not belong to it. -/
theorem untidyReturn_is_tidied :
    ∃ node : Node, Node.ofJson untidyReturn = .ok node ∧
      node.toJson = .object [("__node__", .str "ReturnStmt"),
        ("keyword", .object [("__token__", .str "return"), ("lexeme", .str "return"), ("literal", .null),
          ("line", .int 1), ("start", .int 0), ("end", .int 6)]), ("value", .null)] ∧
      Node.ofJson node.toJson = .ok node := by
  have hload : Node.ofJson untidyReturn = .ok (.returnStmt
      (.token ⟨.returnWord, .str "return", .null, .int 1, .int 0, .int 6⟩) .null) := rfl
  obtain ⟨hnormal, hagain, -⟩ := stored_is_loaded_and_loaded_is_normal.2 untidyReturn _ hload
  refine ⟨_, hload, rfl, ?_⟩
  rw [hnormal]
  exact hagain

end Scriptlet
