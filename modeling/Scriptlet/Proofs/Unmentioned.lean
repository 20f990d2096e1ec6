import Scriptlet.Proofs.Comparison
import Scriptlet.Proofs.CorrespondingPrograms
import Scriptlet.Proofs.Variables

/-!
# Variables that are not mentioned

A function sees the variables of its callers, so the text of a program does not tell which variables the program
uses: it may call a function that was declared before, and so on.  But it uses none that are mentioned neither in the
program nor in such functions.

Let there be a set of names that the program does not mention, and neither does any function that is bound to another
name.  Functions move between variables during the run, and new ones are made, but those that are bound to other
names never mention these names.  So two runs can be compared in which the variables of these names differ, or are
there on one side only: tokens correspond to themselves if they do not name such a variable
(`Likeness.avoiding`), and of the scopes only the other variables are compared.  What the scopes hold under
these names stays as it was at the beginning, on either side.
-/

namespace Scriptlet

/-! ## What is mentioned -/

/-- A token does not name a variable of these names. -/
def Leaf.Avoids (N : Set Key) (t : Leaf) : Prop :=
  ∀ name, t.name? = .ok name → name.key ∉ N

/-- A tree, which itself may stand for a name, does not mention these names. -/
def Node.Avoids (N : Set Key) (r : Role) (n : Node) : Prop :=
  ∀ t, (Role.name, t) ∈ n.uses r → t.Avoids N

/-- A value is no function that mentions these names, be it as parameters or in its body. -/
def Value.Avoids (N : Set Key) : Value → Prop
  | function f => f.params.Avoids N .name ∧ f.body.Avoids N .stray
  | _ => True

/-- No function that a scope binds to another name mentions these names. -/
def Frame.Avoids (N : Set Key) (frame : Frame) : Prop :=
  ∀ x : Name, x.key ∉ N → ∀ v, frame.find? x = some v → v.Avoids N

/-- No function that is bound to another name mentions these names. -/
def Chain.Avoids (N : Set Key) (chain : Chain) : Prop :=
  ∀ frame ∈ chain, frame.Avoids N

/-- Functions are counted as the same as they are paired, and tokens are the same. -/
def Likeness.renumbering (pairing : ℕ → ℕ → Prop) : Likeness :=
  ⟨fun _ => Eq, pairing⟩

/-- Values that are the same but for the numbers of functions, which are paired. -/
abbrev Value.Renumbered (pairing : ℕ → ℕ → Prop) : Value → Value → Prop :=
  Value.Embraced (.renumbering pairing) False

/-- Functions are counted as the same as they are paired, and tokens are the same if they do not name a variable of
these names. -/
def Likeness.avoiding (N : Set Key) (pairing : ℕ → ℕ → Prop) : Likeness :=
  ⟨fun r t u => t = u ∧ (r = .name → t.Avoids N), pairing⟩

variable {N : Set Key} {pairing : ℕ → ℕ → Prop}

/-- A tree corresponds to itself alone, and only if it does not mention the names. -/
lemma Node.corresponds_avoiding_iff {r : Role} {n n' : Node} :
    n.Corresponds (Likeness.avoiding N pairing).token r n' ↔ n = n' ∧ n.Avoids N r := by
  constructor
  · intro h
    refine ⟨Corresponds.eq (h.mono fun ht => ht.1), fun t ht => ?_⟩
    obtain ⟨u, hu⟩ := h.exists_of_mem_uses _ ht
    exact hu.2 rfl
  · rintro ⟨rfl, h⟩
    exact corresponds_self r n fun use huse => ⟨rfl, fun hname => h use.2 (hname ▸ huse)⟩

/-- A value is the same as another one only if it does not mention the names and the two differ in the numbers of
functions alone. -/
lemma Value.embraced_avoiding_iff {v v' : Value} :
    v.Embraced (.avoiding N pairing) False v' ↔ v.Renumbered pairing v' ∧ v.Avoids N := by
  constructor
  · intro h
    refine ⟨h.mono (fun ht => ht.1) id, ?_⟩
    cases h with
    | same hv =>
      cases v with
      | function f => exact absurd rfl (hv f)
      | _ => trivial
    | function name hid hparams hbody =>
      exact ⟨(Node.corresponds_avoiding_iff.mp hparams).2, (Node.corresponds_avoiding_iff.mp hbody.corresponds).2⟩
  · rintro ⟨h, havoids⟩
    cases h with
    | same hv => exact .same hv
    | function name hid hparams hbody =>
      obtain rfl := hparams.eq
      obtain rfl := hbody.corresponds.eq
      have hbody' : Node.Corresponds (Likeness.avoiding N pairing).token .stray _ _ :=
        Node.corresponds_avoiding_iff.mpr ⟨rfl, havoids.2⟩
      exact .function name hid (Node.corresponds_avoiding_iff.mpr ⟨rfl, havoids.1⟩) hbody'.embraced

/-! ## Programs that are parsed -/

namespace Grammar

/-- A program that is parsed mentions no names but identifiers of the source. -/
lemma avoids_of_parse {tokens : List Leaf} {program : List Node} (h : parse tokens = .ok program)
    (htokens : ∀ t ∈ tokens, t.kind = .identifier → t.Avoids N) : ∀ s ∈ program, s.Avoids N .stray := by
  let T : Leaf → Leaf → Prop := fun t u => t = u ∧ (t.kind = .identifier → t.Avoids N)
  have hT : ParsesSame T := ⟨fun ht => congrArg Leaf.kind ht.1, fun ht => congrArg Leaf.literal ht.1⟩
  have hself : List.Forall₂ T tokens tokens := List.forall₂_same.mpr fun t ht => ⟨rfl, htokens t ht⟩
  have hmark : Option.Rel T (endMark? (tokens.filter (·.kind ≠ .comment)))
      (endMark? (tokens.filter (·.kind ≠ .comment))) := by
    cases hend : endMark? (tokens.filter (·.kind ≠ .comment)) with
    | none => exact .none
    | some mark => exact .some ⟨rfl, fun hkind => nomatch hkind.symm.trans (kind_of_endMark? hend)⟩
  have hparse := parseWithin_corresponds hT nestingLimit hself hmark
  change Matched _ _ (parse tokens) (parse tokens) at hparse
  rw [h] at hparse
  cases hparse with
  | ok hprogram =>
    intro s hs t ht
    have hsame : SameTree T s s := List.forall₂_same.mp hprogram s hs
    obtain ⟨u, ⟨-, havoids⟩, hfits⟩ := hsame.exists_of_mem_uses _ ht
    exact havoids hfits

end Grammar

/-! ## Scopes that hold the same but for some names -/

/-- Scopes that bind names of a set to related values, or do not bind them. -/
def Frame.RelatedOn (K : Set Key) (V : Value → Value → Prop) (frame frame' : Frame) : Prop :=
  ∀ x : Name, x.key ∈ K → Option.Rel V (frame.find? x) (frame'.find? x)

/-- Chains of scopes that are so related one by one. -/
abbrev Chain.RelatedOn (K : Set Key) (V : Value → Value → Prop) : Chain → Chain → Prop :=
  List.Forall₂ (Frame.RelatedOn K V)

/-- Names of the set are used alike in such scopes. -/
lemma Frame.usedAlike_relatedOn {K : Set Key} (V : Value → Value → Prop) {name : Name} (hname : name.key ∈ K) :
    UsedAlike (Frame.RelatedOn K V) V name where
  find? h := h name hname
  assign {frame frame' v v'} h hv := by
    intro x hx
    have hfound := h name hname
    rw [Frame.find?_assign, Frame.find?_assign]
    split
    · generalize frame.find? name = o, frame'.find? name = o' at hfound
      cases hfound with
      | none => exact .none
      | some _ => exact .some hv
    · exact h x hx
  declare h hv := by
    intro x hx
    rw [Frame.find?, Frame.find?]
    split
    · exact .some hv
    · exact h x hx

/-- Only what avoids the names is compared of other variables. -/
lemma Frame.relatedOn_avoiding_iff {frame frame' : Frame} :
    frame.RelatedOn Nᶜ (Value.Embraced (.avoiding N pairing) False) frame' ↔
      frame.Avoids N ∧ frame.RelatedOn Nᶜ (Value.Renumbered pairing) frame' := by
  constructor
  · intro h
    constructor
    · intro x hx v hv
      have hfound := h x hx
      rw [hv] at hfound
      generalize frame'.find? x = o' at hfound
      cases hfound with
      | some hvalue => exact (Value.embraced_avoiding_iff.mp hvalue).2
    · intro x hx
      have hfound := h x hx
      generalize frame.find? x = o, frame'.find? x = o' at hfound ⊢
      cases hfound with
      | none => exact .none
      | some hvalue => exact .some (Value.embraced_avoiding_iff.mp hvalue).1
  · rintro ⟨havoids, h⟩ x hx
    have hfound := h x hx
    have havoids := havoids x hx
    generalize frame.find? x = o, frame'.find? x = o' at hfound havoids ⊢
    cases hfound with
    | none => exact .none
    | some hvalue => exact .some (Value.embraced_avoiding_iff.mpr ⟨hvalue, havoids _ rfl⟩)

namespace Chain

variable {x name : Name} {n : ℕ} {value : Value} {before after chain chain' : Chain}

/-- The variables of some names are what they were. -/
def Spares (N : Set Key) (before after : Chain) : Prop :=
  ∀ x : Name, x.key ∈ N → ∀ n, KeepsValue x n before after

lemma spares_refl (N : Set Key) (chain : Chain) : Spares N chain chain :=
  fun _ _ _ => ⟨rfl, rfl⟩

/-- Two changes one after the other spare the names that both of them spare. -/
lemma Spares.trans {middle : Chain} (h : Spares N before middle) (h' : Spares N middle after) :
    Spares N before after :=
  fun x hx n => IsTrans.trans _ _ _ (h x hx n) (h' x hx n)

/-- An assignment to a name that is not one of them spares some names. -/
lemma spares_of_assign? (hname : name.key ∉ N) (h : before.assign? name value = some after) :
    Spares N before after := by
  intro x hx n
  have hother : ¬ (name.key = x.key ∧ before.holder? name = some n) := fun hmeans => hname (hmeans.1 ▸ hx)
  exact ⟨length_of_assign? h, valueIn?_of_assign? hother h⟩

/-- A declaration of a name that is not one of them spares some names. -/
lemma spares_of_declare? (hname : name.key ∉ N) (h : before.declare? name value = some after) :
    Spares N before after := by
  intro x hx n
  obtain ⟨frame, outer, rfl, rfl⟩ := exists_of_declare (declare_eq_ok.mpr h)
  have hkey : name.key ≠ x.key := fun hkey => hname (hkey ▸ hx)
  refine ⟨rfl, ?_⟩
  rw [valueIn?, valueIn?, Frame.find?, if_neg hkey]

/-- What is spared without a further scope is spared within one. -/
lemma Spares.enter (h : Spares N before after) : Spares N ([] :: before) ([] :: after) := by
  intro x hx n
  obtain ⟨hlength, hvalue⟩ := h x hx n
  refine ⟨congrArg (· + 1) hlength, ?_⟩
  rw [valueIn?, valueIn?, hlength, hvalue]

/-- What is spared within a fresh scope is spared when this is dropped. -/
lemma Spares.leave (h : Spares N ([] :: before) after) : Spares N before after.tail :=
  fun x hx n => (scoping_keepsValue x n).leave ((scoping_keepsValue x n).weaken (h x hx n))

/-- Apart from some names, chains are related if no function in the first uses these names and their values
differ in the numbers of functions only. -/
lemma relatedOn_avoiding_iff :
    chain.RelatedOn Nᶜ (Value.Embraced (.avoiding N pairing) False) chain' ↔
      chain.Avoids N ∧ chain.RelatedOn Nᶜ (Value.Renumbered pairing) chain' := by
  unfold RelatedOn Avoids
  rw [← List.forall₂_and_left]
  exact ⟨fun h => h.imp fun _ _ => Frame.relatedOn_avoiding_iff.mp,
    fun h => h.imp fun _ _ => Frame.relatedOn_avoiding_iff.mpr⟩

end Chain

/-! ## Runs -/

/-- Two runs are compared in all but the variables of some names; these are compared with what they were at the
beginning. -/
def Comparison.unmentioned (N : Set Key) (pairing : ℕ → ℕ → Prop) : Comparison (Chain × Chain) where
  likeness := .avoiding N pairing
  braces := False
  aside := False
  scopes start chain chain' := chain.RelatedOn Nᶜ (Value.Embraced (.avoiding N pairing) False) chain' ∧
    start.1.Spares N chain ∧ start.2.Spares N chain'
  fresh start := ([] :: start.1, [] :: start.2)
  declares _ := True
  calls _ := Eq
  returns _ := True
  log := List.Forall₂ (Event.Embraced (.avoiding N pairing) False)

/-- Two chains that are both changed or both not are compared again, if the variables are spared. -/
lemma Comparison.unmentioned_rel {start : Chain × Chain} {chain chain' : Chain} {o o' : Option Chain}
    (h : (unmentioned N pairing).scopes start chain chain')
    (hrel : Option.Rel (Chain.RelatedOn Nᶜ (Value.Embraced (.avoiding N pairing) False)) o o')
    (hleft : ∀ {after}, o = some after → chain.Spares N after)
    (hright : ∀ {after}, o' = some after → chain'.Spares N after) :
    Option.Rel ((unmentioned N pairing).scopes start) o o' := by
  cases hrel with
  | none => exact .none
  | some hafter => exact .some ⟨hafter, h.2.1.trans (hleft rfl), h.2.2.trans (hright rfl)⟩

/-- Comparing runs apart from names that the program does not mention is lawful. -/
lemma Comparison.lawful_unmentioned (hid : ∀ {i i' j j' : ℕ}, pairing i i' → pairing j j' → (i = j ↔ i' = j')) :
    (unmentioned N pairing).Lawful where
  meansSame := ⟨fun ht => congrArg Leaf.kind ht.1, fun ht => congrArg Leaf.lexeme ht.1, hid⟩
  aside_of_braces := id
  find? h ht hname := (Frame.usedAlike_relatedOn _ (ht.2 rfl _ hname)).chain_find? h.1
  assign? h ht hname hv :=
    unmentioned_rel h ((Frame.usedAlike_relatedOn _ (ht.2 rfl _ hname)).chain_assign? h.1 hv)
      (Chain.spares_of_assign? (ht.2 rfl _ hname)) (Chain.spares_of_assign? (ht.2 rfl _ hname))
  declare? _ h ht hname hv :=
    unmentioned_rel h ((Frame.usedAlike_relatedOn _ (ht.2 rfl _ hname)).chain_declare? h.1 hv)
      (Chain.spares_of_declare? (ht.2 rfl _ hname)) (Chain.spares_of_declare? (ht.2 rfl _ hname))
  declares_fresh _ := trivial
  enter h := ⟨.cons (fun _ _ => .none) h.1, h.2.1.enter, h.2.2.enter⟩
  leave h := ⟨Chain.tail_related h.1, h.2.1.leave, h.2.2.leave⟩
  enterCall h := congrArg (· + 1) h
  leaveCall h := congrArg (· - 1) h
  returns_succ _ := trivial
  eq_zero_iff _ h := by rw [h]
  prints hv hlog := .cons (.printed hv) hlog

namespace Session

/-- Two scopes, one of each of two sessions, that see the same but for the variables of some names, when functions
are paired.  The pairing confuses no two functions, and it pairs those that will be made. -/
structure AgreesBut (N : Set Key) (pairing : ℕ → ℕ → Prop) (session : Session) (scope : ℕ) (session' : Session)
    (scope' : ℕ) : Prop where
  scopes : (session.scopes.chain scope).RelatedOn Nᶜ (Value.Renumbered pairing) (session'.scopes.chain scope')
  callDepth : session.callDepth = session'.callDepth
  readings : session.readings = session'.readings
  id_iff {i i' j j' : ℕ} : pairing i i' → pairing j j' → (i = j ↔ i' = j')
  made (k : ℕ) : pairing (session.made + k) (session'.made + k)

variable {session session' : Session} {scope scope' : ℕ}

/-- A program that does not mention some names runs alike in scopes that agree but for these names, and spares the
variables of these names on both sides. -/
theorem run_unmentioned (setting : Setting) {program : List Node} (hprogram : ∀ s ∈ program, s.Avoids N .stray)
    (hfunctions : (session.scopes.chain scope).Avoids N) (h : session.AgreesBut N pairing scope session' scope') :
    let run := session.run setting scope program
    let run' := session'.run setting scope' program
    run.1.Embraced (.renumbering pairing) False run'.1 ∧ run.2.AgreesBut N pairing scope run'.2 scope' ∧
      (run.2.scopes.chain scope).Avoids N ∧
      (session.scopes.chain scope).Spares N (run.2.scopes.chain scope) ∧
      (session'.scopes.chain scope').Spares N (run'.2.scopes.chain scope') := by
  let C := Comparison.unmentioned N pairing
  let start := (session.scopes.chain scope, session'.scopes.chain scope')
  have hC : C.Lawful := Comparison.lawful_unmentioned h.id_iff
  have hsurroundings : C.Surroundings Exec.record Exec.record setting setting :=
    Comparison.surroundings_record rfl rfl .cons nofun
  have hself : List.Forall₂ (Node.Embraced C.likeness.token C.braces) program program :=
    List.forall₂_same.mpr fun s hs => (Node.corresponds_avoiding_iff.mpr ⟨rfl, hprogram s hs⟩).embraced
  have hstates : C.States start 0 (session.state scope) (session'.state scope') :=
    ⟨⟨Chain.relatedOn_avoiding_iff.mpr ⟨hfunctions, h.scopes⟩, Chain.spares_refl N _, Chain.spares_refl N _⟩,
      .nil, h.callDepth, h.made, h.readings⟩
  have hruns := run_compares hC rfl hsurroundings (.inl rfl) (fun _ _ => ⟨fun _ => trivial, fun _ => trivial⟩)
    hself hstates
  obtain ⟨hreport, hafter⟩ := hruns.resolve_left fun hleft => hleft.1
  obtain ⟨hrelated, hspares, hspares'⟩ := hafter.scopes
  rw [← chain_run setting session, ← chain_run setting session'] at hrelated
  rw [← chain_run] at hspares hspares'
  obtain ⟨havoids, hscopes⟩ := Chain.relatedOn_avoiding_iff.mp hrelated
  dsimp only
  refine ⟨hreport.mono (fun ht => ht.1) id, ⟨hscopes, ?_, ?_, h.id_iff, ?_⟩, havoids, hspares, hspares'⟩
  all_goals rw [run_snd, run_snd]
  · exact hafter.calls
  · exact hafter.readings
  · exact hafter.made

/-- Unmentioned variables do not matter.  Let there be a set of names that are not among the identifiers of a
program, as they occur in its source, nor mentioned by any function that is bound to another name.  If the program
runs in two scopes that agree but for these names, then the output is the same, and it ends in the same way, with an
error of the same kind, message and place if it fails.  The scopes that are left agree again but for these names, and
the variables of these names are in both what they were before. -/
theorem unmentioned_variables_do_not_matter (N : Set Key) :
    (∀ (tokens : List Leaf) (program : List Node), Grammar.parse tokens = .ok program →
      (∀ t ∈ tokens, t.kind = .identifier → t.Avoids N) → ∀ s ∈ program, s.Avoids N .stray) ∧
    ∀ (setting : Setting) (pairing : ℕ → ℕ → Prop) (session session' : Session) (scope scope' : ℕ)
      (program : List Node), (∀ s ∈ program, s.Avoids N .stray) → (session.scopes.chain scope).Avoids N →
      session.AgreesBut N pairing scope session' scope' →
      let run := session.run setting scope program
      let run' := session'.run setting scope' program
      run.1.Embraced (.renumbering pairing) False run'.1 ∧
        run.1.failure?.bind Failure.text? = run'.1.failure?.bind Failure.text? ∧
        run.2.AgreesBut N pairing scope run'.2 scope' ∧ (run.2.scopes.chain scope).Avoids N ∧
        (session.scopes.chain scope).Spares N (run.2.scopes.chain scope) ∧
        (session'.scopes.chain scope').Spares N (run'.2.scopes.chain scope') := by
  refine ⟨fun tokens program h htokens => Grammar.avoids_of_parse h htokens, ?_⟩
  intro setting pairing session session' scope scope' program hprogram hfunctions h
  obtain ⟨hreport, hafter⟩ := run_unmentioned setting hprogram hfunctions h
  exact ⟨hreport, hreport.text?_eq fun ht => congrArg Leaf.place ht, hafter⟩

/-- A token of a name. -/
def nameToken (text : String) : Leaf :=
  Grammar.textToken .identifier text

/-- The tokens of `x = f;`. -/
def assigningTokens : List Leaf :=
  [nameToken "x", Grammar.textToken .equal "=", nameToken "f", Grammar.textToken .semicolon ";"]

/-- The tree of these tokens. -/
def assigningProgram : List Node :=
  [.exprStmt (.assign (.token (nameToken "x")) (.ident (.token (nameToken "f"))))]

/-- A session in which the function of `fun f() { print x; }` was made after some others, and in which there is a
variable `x` besides some more. -/
def withFunction (made : ℕ) (others : Frame) : Session :=
  let f : UserFunction := ⟨made, "f", .list [], .list [.printStmt (.ident (.token (nameToken "x")))]⟩
  ⟨[⟨others ++ [(.ofText "x", .nil), (.ofText "f", .function f)], none⟩], 0, made + 1, 0, ⟨0, false⟩⟩

/-- It does not matter to `x = f;` that there is a variable `y` and that more functions were made. -/
theorem assigning_spares_others :
    let N : Set Key := {Key.text "y"}
    let session := withFunction 0 []
    let session' := withFunction 5 [(.ofText "y", .bool true)]
    let run := session.run ⟨9, 9, fun _ => 0⟩ 0 assigningProgram
    let run' := session'.run ⟨9, 9, fun _ => 0⟩ 0 assigningProgram
    (Grammar.parse assigningTokens = .ok assigningProgram ∧ ∀ s ∈ assigningProgram, s.Avoids N .stray) ∧
      run.1.Embraced (.renumbering fun i j => i + 5 = j) False run'.1 ∧
      run.1.failure?.bind Failure.text? = run'.1.failure?.bind Failure.text? ∧
      run.2.AgreesBut N (fun i j => i + 5 = j) 0 run'.2 0 ∧ (run.2.scopes.chain 0).Avoids N ∧
      (session.scopes.chain 0).Spares N (run.2.scopes.chain 0) ∧
      (session'.scopes.chain 0).Spares N (run'.2.scopes.chain 0) := by
  intro N session session' run run'
  have hname : ∀ {text : String}, text ≠ "y" → (nameToken text).Avoids N := by
    rintro text hne name ⟨⟩ hmem
    exact hne (Key.text.inj hmem)
  have hparse : Grammar.parse assigningTokens = .ok assigningProgram := rfl
  have hprogram : ∀ s ∈ assigningProgram, s.Avoids N .stray := by
    refine (unmentioned_variables_do_not_matter N).1 _ _ hparse fun t ht hkind => ?_
    simp only [assigningTokens, List.mem_cons, List.not_mem_nil, or_false] at ht
    rcases ht with rfl | rfl | rfl | rfl
    · exact hname (by decide)
    · cases hkind
    · exact hname (by decide)
    · cases hkind
  have hfunctions : (session.scopes.chain 0).Avoids N := by
    refine List.forall_mem_singleton.mpr fun x hx v hv => ?_
    simp only [List.nil_append, Frame.find?] at hv
    split at hv
    · cases hv
      trivial
    · split at hv
      · cases hv
        constructor
        · intro t ht
          cases ht
        · intro t ht
          obtain rfl : t = nameToken "x" := by simpa [Node.uses, Node.usesOfAll] using ht
          exact hname (by decide)
      · cases hv
  have hagree : session.AgreesBut N (fun i j => i + 5 = j) 0 session' 0 := by
    refine ⟨.cons (fun x hx => ?_) .nil, rfl, rfl, by omega, fun k => ?_⟩
    · have hne : (Name.ofText "y").key ≠ x.key := fun hkey => hx hkey.symm
      simp only [List.nil_append, List.cons_append, Frame.find?, if_neg hne]
      split
      · exact .some (.same fun f hf => by cases hf)
      · split
        · refine .some (.function "f" rfl .nil ?_)
          exact (Node.corresponds_refl (fun _ _ => rfl) .stray _).embraced
        · exact .none
    · change 0 + 1 + k + 5 = 5 + 1 + k
      omega
  exact ⟨⟨hparse, hprogram⟩, (unmentioned_variables_do_not_matter N).2 ⟨9, 9, fun _ => 0⟩ _ session session' 0 0
    assigningProgram hprogram hfunctions hagree⟩

end Session

end Scriptlet
