import Mathlib
import Scriptlet.Grammar.Expression

/-!
# Trees that correspond

Two programs, or two runs, are compared by what they start from: trees that are built alike and differ in
nothing but their tokens.  How far corresponding tokens may differ is left open.  It is a relation between
tokens, which may depend on what a token is for at its place in the tree; where a construct asks for a name,
say, the relation may tell more than where it asks for an operator.
-/

namespace Scriptlet

/-! ## What tokens are for -/

/-- What a token is for at its place in a tree. -/
inductive Role where
  /-- The name of a variable, a function or a parameter. -/
  | name
  | unary
  | binary
  | logical
  /-- The parenthesis that closes a call. -/
  | closing
  /-- The word of a return statement. -/
  | keyword
  /-- No construct asks for a token here. -/
  | stray
deriving DecidableEq, Repr

/-- The kinds of the tokens that the parser takes for a purpose. -/
def Role.Fits : Role → Kind → Prop
  | name, kind => kind = .identifier
  | unary, kind => Grammar.isUnaryOperator kind = true
  | binary, kind => ∃ level ∈ Grammar.levels, level.build = .binary ∧ kind ∈ level.operators
  | logical, kind => ∃ level ∈ Grammar.levels, level.build = .logical ∧ kind ∈ level.operators
  | closing, kind => kind = .rightParen
  | keyword, kind => kind = .returnWord
  | stray, _ => False

/-! ## Trees -/

/-- Trees that are built alike and whose tokens are related.  Values of literals are the same, whatever they
hold.  A list hands on the purpose that it serves itself. -/
inductive Node.Corresponds (T : Role → Leaf → Leaf → Prop) : Role → Node → Node → Prop
  | null {r : Role} : Corresponds T r .null .null
  | bool {r : Role} (b : Bool) : Corresponds T r (.bool b) (.bool b)
  | int {r : Role} (i : Int) : Corresponds T r (.int i) (.int i)
  | float {r : Role} (x : Float) : Corresponds T r (.float x) (.float x)
  | str {r : Role} (s : String) : Corresponds T r (.str s) (.str s)
  | object {r : Role} (members : List (String × Json)) : Corresponds T r (.object members) (.object members)
  | nil {r : Role} : Corresponds T r (.list []) (.list [])
  | cons {r : Role} {a b : Node} {as bs : List Node} :
      Corresponds T r a b → Corresponds T r (.list as) (.list bs) →
      Corresponds T r (.list (a :: as)) (.list (b :: bs))
  | token {r : Role} {t u : Leaf} : T r t u → Corresponds T r (.token t) (.token u)
  | literal {r : Role} (value : Node) : Corresponds T r (.literal value) (.literal value)
  | grouping {r : Role} {e e' : Node} :
      Corresponds T .stray e e' → Corresponds T r (.grouping e) (.grouping e')
  | unary {r : Role} {operator operator' e e' : Node} :
      Corresponds T .unary operator operator' → Corresponds T .stray e e' →
      Corresponds T r (.unary operator e) (.unary operator' e')
  | binary {r : Role} {left left' operator operator' right right' : Node} :
      Corresponds T .stray left left' → Corresponds T .binary operator operator' →
      Corresponds T .stray right right' →
      Corresponds T r (.binary left operator right) (.binary left' operator' right')
  | logical {r : Role} {left left' operator operator' right right' : Node} :
      Corresponds T .stray left left' → Corresponds T .logical operator operator' →
      Corresponds T .stray right right' →
      Corresponds T r (.logical left operator right) (.logical left' operator' right')
  | ident {r : Role} {name name' : Node} :
      Corresponds T .name name name' → Corresponds T r (.ident name) (.ident name')
  | assign {r : Role} {name name' e e' : Node} :
      Corresponds T .name name name' → Corresponds T .stray e e' →
      Corresponds T r (.assign name e) (.assign name' e')
  | call {r : Role} {callee callee' paren paren' arguments arguments' : Node} :
      Corresponds T .stray callee callee' → Corresponds T .closing paren paren' →
      Corresponds T .stray arguments arguments' →
      Corresponds T r (.call callee paren arguments) (.call callee' paren' arguments')
  | exprStmt {r : Role} {e e' : Node} :
      Corresponds T .stray e e' → Corresponds T r (.exprStmt e) (.exprStmt e')
  | printStmt {r : Role} {e e' : Node} :
      Corresponds T .stray e e' → Corresponds T r (.printStmt e) (.printStmt e')
  | varDecl {r : Role} {name name' initializer initializer' : Node} :
      Corresponds T .name name name' → Corresponds T .stray initializer initializer' →
      Corresponds T r (.varDecl name initializer) (.varDecl name' initializer')
  | block {r : Role} {statements statements' : Node} :
      Corresponds T .stray statements statements' →
      Corresponds T r (.block statements) (.block statements')
  | ifStmt {r : Role} {condition condition' thenBranch thenBranch' elseBranch elseBranch' : Node} :
      Corresponds T .stray condition condition' → Corresponds T .stray thenBranch thenBranch' →
      Corresponds T .stray elseBranch elseBranch' →
      Corresponds T r (.ifStmt condition thenBranch elseBranch) (.ifStmt condition' thenBranch' elseBranch')
  | whileStmt {r : Role} {condition condition' body body' : Node} :
      Corresponds T .stray condition condition' → Corresponds T .stray body body' →
      Corresponds T r (.whileStmt condition body) (.whileStmt condition' body')
  | funDecl {r : Role} {name name' params params' body body' : Node} :
      Corresponds T .name name name' → Corresponds T .name params params' →
      Corresponds T .stray body body' →
      Corresponds T r (.funDecl name params body) (.funDecl name' params' body')
  | returnStmt {r : Role} {keyword keyword' e e' : Node} :
      Corresponds T .keyword keyword keyword' → Corresponds T .stray e e' →
      Corresponds T r (.returnStmt keyword e) (.returnStmt keyword' e')

/-- Two results are related, or two errors are. -/
inductive Matched {ε ε' α β : Type} (E : ε → ε' → Prop) (Q : α → β → Prop) :
    Except ε α → Except ε' β → Prop
  | ok {a : α} {b : β} : Q a b → Matched E Q (.ok a) (.ok b)
  | error {e : ε} {e' : ε'} : E e e' → Matched E Q (.error e) (.error e')

variable {T : Role → Leaf → Leaf → Prop}

namespace Node

variable {r : Role} {n n' : Node}

lemma Corresponds.mono {S : Role → Leaf → Leaf → Prop} (h : n.Corresponds T r n')
    (himp : ∀ {r t u}, T r t u → S r t u) : n.Corresponds S r n' := by
  induction h with
  | token ht => exact .token (himp ht)
  | _ => constructor <;> assumption

/-- Trees whose tokens are the same are the same. -/
lemma Corresponds.eq (h : n.Corresponds (fun _ => Eq) r n') : n = n' := by
  induction h with
  | token ht => rw [ht]
  | cons _ _ iha ihas =>
    obtain rfl := iha
    obtain rfl := list.inj ihas
    rfl
  | _ => simp_all

/-- A part that is left out corresponds to one that is left out. -/
lemma Corresponds.eq_null_iff (h : n.Corresponds T r n') : n = .null ↔ n' = .null := by
  cases h <;> simp

/-- Trees that correspond to one tree correspond to each other. -/
lemma Corresponds.join {S U : Role → Leaf → Leaf → Prop} {m : Node} (h : n.Corresponds T r m)
    (h' : n'.Corresponds S r m) (hjoin : ∀ {r t u v}, T r t v → S r u v → U r t u) : n.Corresponds U r n' := by
  induction h generalizing n' with
  | token ht =>
    cases h' with
    | token hu => exact .token (hjoin ht hu)
  | null | bool _ | int _ | float _ | str _ | object _ | nil | literal _ =>
    cases h'
    constructor
  | grouping _ ih | exprStmt _ ih | printStmt _ ih | block _ ih | ident _ ih =>
    cases h'
    constructor
    exact ih ‹_›
  | cons _ _ ih ih' | unary _ _ ih ih' | assign _ _ ih ih' | varDecl _ _ ih ih' | whileStmt _ _ ih ih'
  | returnStmt _ _ ih ih' =>
    cases h'
    constructor
    · exact ih ‹_›
    · exact ih' ‹_›
  | binary _ _ _ ih ih' ih'' | logical _ _ _ ih ih' ih'' | call _ _ _ ih ih' ih'' | ifStmt _ _ _ ih ih' ih''
  | funDecl _ _ _ ih ih' ih'' =>
    cases h'
    constructor
    · exact ih ‹_›
    · exact ih' ‹_›
    · exact ih'' ‹_›

mutual

/-- The tokens of a tree, each with what it is for, if the tree itself serves a purpose. -/
def uses : Role → Node → List (Role × Leaf)
  | _, null | _, bool _ | _, int _ | _, float _ | _, str _ | _, object _ | _, literal _ => []
  | r, list items => usesOfAll r items
  | r, token t => [(r, t)]
  | _, grouping e | _, exprStmt e | _, printStmt e | _, block e => e.uses .stray
  | _, unary operator e => operator.uses .unary ++ e.uses .stray
  | _, binary left operator right => left.uses .stray ++ operator.uses .binary ++ right.uses .stray
  | _, logical left operator right => left.uses .stray ++ operator.uses .logical ++ right.uses .stray
  | _, ident name => name.uses .name
  | _, assign name e | _, varDecl name e => name.uses .name ++ e.uses .stray
  | _, call callee paren arguments => callee.uses .stray ++ paren.uses .closing ++ arguments.uses .stray
  | _, ifStmt condition thenBranch elseBranch =>
    condition.uses .stray ++ thenBranch.uses .stray ++ elseBranch.uses .stray
  | _, whileStmt condition body => condition.uses .stray ++ body.uses .stray
  | _, funDecl name params body => name.uses .name ++ params.uses .name ++ body.uses .stray
  | _, returnStmt keyword e => keyword.uses .keyword ++ e.uses .stray

/-- The tokens of some trees, if they serve a purpose. -/
def usesOfAll : Role → List Node → List (Role × Leaf)
  | _, [] => []
  | r, item :: rest => item.uses r ++ usesOfAll r rest

end

mutual

/-- A tree corresponds to itself if every token of it does. -/
lemma corresponds_self : ∀ (r : Role) (n : Node), (∀ use ∈ n.uses r, T use.1 use.2 use.2) → n.Corresponds T r n
  | _, null, _ => .null
  | _, bool b, _ => .bool b
  | _, int i, _ => .int i
  | _, float x, _ => .float x
  | _, str s, _ => .str s
  | r, list items, h => corresponds_self_list r items h
  | _, object members, _ => .object members
  | r, token t, h => .token (h (r, t) List.mem_cons_self)
  | _, literal value, _ => .literal value
  | _, grouping e, h => .grouping (corresponds_self _ e h)
  | _, unary operator e, h =>
    let ⟨hoperator, he⟩ := List.forall_mem_append.mp h
    .unary (corresponds_self _ operator hoperator) (corresponds_self _ e he)
  | _, binary left operator right, h =>
    let ⟨hparts, hright⟩ := List.forall_mem_append.mp h
    let ⟨hleft, hoperator⟩ := List.forall_mem_append.mp hparts
    .binary (corresponds_self _ left hleft) (corresponds_self _ operator hoperator)
      (corresponds_self _ right hright)
  | _, logical left operator right, h =>
    let ⟨hparts, hright⟩ := List.forall_mem_append.mp h
    let ⟨hleft, hoperator⟩ := List.forall_mem_append.mp hparts
    .logical (corresponds_self _ left hleft) (corresponds_self _ operator hoperator)
      (corresponds_self _ right hright)
  | _, ident name, h => .ident (corresponds_self _ name h)
  | _, assign name e, h =>
    let ⟨hname, he⟩ := List.forall_mem_append.mp h
    .assign (corresponds_self _ name hname) (corresponds_self _ e he)
  | _, call callee paren arguments, h =>
    let ⟨hparts, harguments⟩ := List.forall_mem_append.mp h
    let ⟨hcallee, hparen⟩ := List.forall_mem_append.mp hparts
    .call (corresponds_self _ callee hcallee) (corresponds_self _ paren hparen)
      (corresponds_self _ arguments harguments)
  | _, exprStmt e, h => .exprStmt (corresponds_self _ e h)
  | _, printStmt e, h => .printStmt (corresponds_self _ e h)
  | _, varDecl name e, h =>
    let ⟨hname, he⟩ := List.forall_mem_append.mp h
    .varDecl (corresponds_self _ name hname) (corresponds_self _ e he)
  | _, block statements, h => .block (corresponds_self _ statements h)
  | _, ifStmt condition thenBranch elseBranch, h =>
    let ⟨hparts, helse⟩ := List.forall_mem_append.mp h
    let ⟨hcondition, hthen⟩ := List.forall_mem_append.mp hparts
    .ifStmt (corresponds_self _ condition hcondition) (corresponds_self _ thenBranch hthen)
      (corresponds_self _ elseBranch helse)
  | _, whileStmt condition body, h =>
    let ⟨hcondition, hbody⟩ := List.forall_mem_append.mp h
    .whileStmt (corresponds_self _ condition hcondition) (corresponds_self _ body hbody)
  | _, funDecl name params body, h =>
    let ⟨hparts, hbody⟩ := List.forall_mem_append.mp h
    let ⟨hname, hparams⟩ := List.forall_mem_append.mp hparts
    .funDecl (corresponds_self _ name hname) (corresponds_self _ params hparams) (corresponds_self _ body hbody)
  | _, returnStmt keyword e, h =>
    let ⟨hkeyword, he⟩ := List.forall_mem_append.mp h
    .returnStmt (corresponds_self _ keyword hkeyword) (corresponds_self _ e he)

/-- A list corresponds to itself if the tokens in it are alike to themselves. -/
lemma corresponds_self_list : ∀ (r : Role) (items : List Node),
    (∀ use ∈ usesOfAll r items, T use.1 use.2 use.2) → (list items).Corresponds T r (list items)
  | _, [], _ => .nil
  | r, item :: items, h =>
    let ⟨hitem, hitems⟩ := List.forall_mem_append.mp h
    .cons (corresponds_self r item hitem) (corresponds_self_list r items hitems)

end

lemma corresponds_refl (hT : ∀ r t, T r t t) (r : Role) (n : Node) : n.Corresponds T r n :=
  corresponds_self r n fun _ _ => hT _ _

/-- Every token of a tree corresponds to one of the other tree. -/
lemma Corresponds.exists_of_mem_uses (h : n.Corresponds T r n') : ∀ use ∈ n.uses r, ∃ u, T use.1 use.2 u := by
  induction h with
  | null | bool _ | int _ | float _ | str _ | object _ | literal _ | nil => simp [uses, usesOfAll]
  | token ht => simpa [uses] using ⟨_, ht⟩
  | cons _ _ iha ihas => exact List.forall_mem_append.mpr ⟨iha, ihas⟩
  | grouping _ ih | exprStmt _ ih | printStmt _ ih | block _ ih | ident _ ih => exact ih
  | unary _ _ ih ih' | assign _ _ ih ih' | varDecl _ _ ih ih' | whileStmt _ _ ih ih' | returnStmt _ _ ih ih' =>
    exact List.forall_mem_append.mpr ⟨ih, ih'⟩
  | binary _ _ _ ih ih' ih'' | logical _ _ _ ih ih' ih'' | call _ _ _ ih ih' ih'' | ifStmt _ _ _ ih ih' ih''
  | funDecl _ _ _ ih ih' ih'' =>
    exact List.forall_mem_append.mpr ⟨List.forall_mem_append.mpr ⟨ih, ih'⟩, ih''⟩

/-- Lists correspond item by item. -/
lemma corresponds_list {as bs : List Node} :
    (list as).Corresponds T r (list bs) ↔ List.Forall₂ (Corresponds T r) as bs := by
  constructor
  · intro h
    induction as generalizing bs with
    | nil =>
      cases h
      exact .nil
    | cons a as ih =>
      cases h with
      | cons ha has => exact .cons ha (ih has)
  · intro h
    induction h with
    | nil => exact .nil
    | cons ha _ ih => exact .cons ha ih

/-- Lists of parameters correspond if their tokens do. -/
lemma corresponds_params {ts us : List Leaf} (h : List.Forall₂ (T r) ts us) :
    (list (ts.map token)).Corresponds T r (list (us.map token)) := by
  rw [corresponds_list]
  exact List.forall₂_map_left_iff.mpr (List.forall₂_map_right_iff.mpr (h.imp fun _ _ => .token))

end Node

/-- Faults that say the same about corresponding trees. -/
inductive Fault.Corresponds (T : Role → Leaf → Leaf → Prop) : Fault → Fault → Prop
  | noStatement {r : Role} {n n' : Node} :
      n.Corresponds T r n' → Corresponds T (.noStatement n) (.noStatement n')
  | noExpression {r : Role} {n n' : Node} :
      n.Corresponds T r n' → Corresponds T (.noExpression n) (.noExpression n')
  | noToken : Corresponds T .noToken .noToken
  | noList : Corresponds T .noList .noList
  | noText : Corresponds T .noText .noText
  | noName : Corresponds T .noName .noName

lemma Fault.Corresponds.mono {S : Role → Leaf → Leaf → Prop} {fault fault' : Fault}
    (h : fault.Corresponds T fault') (himp : ∀ {r t u}, T r t u → S r t u) : fault.Corresponds S fault' := by
  cases h with
  | noStatement hn => exact .noStatement (hn.mono himp)
  | noExpression hn => exact .noExpression (hn.mono himp)
  | _ => constructor

/-- Where alike means equal, faults that correspond are equal. -/
lemma Fault.Corresponds.eq {fault fault' : Fault} (h : fault.Corresponds (fun _ => Eq) fault') :
    fault = fault' := by
  cases h with
  | noStatement hn | noExpression hn => rw [hn.eq]
  | _ => rfl

namespace Node.Corresponds

variable {r : Role} {n n' : Node}

/-- Nodes that correspond are of one type. -/
lemma qualifiedName_eq (h : n.Corresponds T r n') : n.qualifiedName = n'.qualifiedName := by
  cases h <;> rfl

/-- A token stands where the other tree has one, and it is one for the same purpose. -/
lemma leaf? (h : n.Corresponds T r n') : Matched (Fault.Corresponds T) (T r) n.leaf? n'.leaf? := by
  cases h with
  | token ht => exact .ok ht
  | _ => exact .error .noToken

/-- The parts of corresponding lists correspond, and what is no list corresponds to no list. -/
lemma items? (h : n.Corresponds T r n') :
    Matched (Fault.Corresponds T) (List.Forall₂ (Node.Corresponds T r)) n.items? n'.items? := by
  cases h with
  | nil => exact .ok .nil
  | cons ha has => exact .ok (.cons ha (corresponds_list.mp has))
  | str s =>
    refine .ok (List.forall₂_map_left_iff.mpr (List.forall₂_map_right_iff.mpr ?_))
    exact List.forall₂_same.mpr fun _ _ => .str _
  | _ => exact .error .noList

end Node.Corresponds

/-- Faults that correspond have one message. -/
lemma Fault.Corresponds.message?_eq {fault fault' : Fault} (h : fault.Corresponds T fault') :
    fault.message? = fault'.message? := by
  cases h with
  | noStatement hn | noExpression hn => simp only [Fault.message?, hn.qualifiedName_eq]
  | _ => rfl

end Scriptlet
