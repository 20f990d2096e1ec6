import Scriptlet.Proofs.Comparison
import Scriptlet.Proofs.Variables

/-!
# Empty scopes

An empty scope among the scopes that a computation sees is not noticed: names are found and assigned to past
it, and it is neither declared in nor dropped while there are other scopes inside it.  So a computation that
declares nothing in the scope that it begins in does the same in a fresh scope inside it, however it ends
(`Exec.inFreshScope_eq`).

The calls that the computation makes have scopes of their own, so in general the empty scope is one in the
middle.  Scopes are entered and left at the inner end of a chain, which is why the place of the empty scope is
counted from the outer end (`Chain.widen`).
-/

namespace Scriptlet

/-! ## One more scope -/

namespace Chain

/-- The chain with one more scope, an empty one inside the outermost `k` scopes, or inside all of them if there
are not so many. -/
def widen (k : ℕ) : Chain → Chain
  | [] => [[]]
  | frame :: outer => if k ≤ outer.length then frame :: widen k outer else [] :: frame :: outer

variable {k : ℕ} {chain outer : Chain} {frame : Frame} {name : Name} {value : Value}

/-- The empty scope lies further out if there are scopes enough outside the first. -/
lemma widen_cons (h : k ≤ outer.length) : widen k (frame :: outer) = frame :: widen k outer := by
  rw [widen, if_pos h]

/-- In a chain that is too short the empty scope lies inside all others. -/
lemma widen_of_length_le (h : chain.length ≤ k) : chain.widen k = [] :: chain := by
  cases chain with
  | nil => rfl
  | cons frame outer => rw [widen, if_neg (Nat.not_le_of_lt h)]

/-- The empty scope stays where it is when a scope inside it is left. -/
lemma tail_widen (h : k < chain.length) : (chain.widen k).tail = Chain.widen k chain.tail := by
  cases chain with
  | nil => cases h
  | cons frame outer =>
    rw [widen_cons (Nat.le_of_lt_succ h)]
    rfl

/-- Names are found past the empty scope. -/
lemma find?_widen (k : ℕ) (chain : Chain) (name : Name) : (chain.widen k).find? name = chain.find? name := by
  induction chain with
  | nil => rfl
  | cons frame outer ih =>
    unfold widen
    split
    · simp only [find?, List.findSome?_cons] at ih ⊢
      rw [ih]
    · rfl

/-- Names are assigned to past the empty scope. -/
lemma assign?_widen (k : ℕ) (chain : Chain) (name : Name) (value : Value) :
    (chain.widen k).assign? name value = (chain.assign? name value).map (widen k) := by
  induction chain with
  | nil => rfl
  | cons frame outer ih =>
    by_cases hk : k ≤ outer.length
    · rw [widen_cons hk, assign?, assign?, ih]
      split
      · rw [Option.map_some, widen_cons hk]
      · rw [Option.map_map, Option.map_map]
        refine Option.map_congr fun after hafter => ?_
        exact (widen_cons (length_of_assign? hafter ▸ hk)).symm
    · have hle : (frame :: outer).length ≤ k := Nat.lt_of_not_le hk
      rw [widen_of_length_le hle]
      change (assign? name value (frame :: outer)).map ([] :: ·) = _
      refine Option.map_congr fun after hafter => ?_
      exact (widen_of_length_le (length_of_assign? hafter ▸ hle)).symm

/-- A declaration goes to the first scope, which lies inside the empty one. -/
lemma declare?_widen (h : k < chain.length) (name : Name) (value : Value) :
    (chain.widen k).declare? name value = (chain.declare? name value).map (widen k) := by
  cases chain with
  | nil => cases h
  | cons frame outer =>
    have hk : k ≤ outer.length := Nat.le_of_lt_succ h
    rw [widen_cons hk, declare?, declare?]
    split
    · rfl
    · rw [Option.map_some, widen_cons hk]

end Chain

/-- The state with one more scope. -/
def State.widen (k : ℕ) (s : State) : State :=
  { s with scopes := s.scopes.widen k }

namespace Exec

variable {α β : Type} {k least : ℕ}

/-! ## Computations that overlook a scope -/

/-- An outcome in another state. -/
def onState (f : State → State) : EStateM.Result Stop State α → EStateM.Result Stop State α
  | .ok a s => .ok a (f s)
  | .error stop s => .error stop (f s)

/-- If there are at least `least` scopes, then a computation does the same with an empty one inside the
outermost `k` of them, and leaves as many scopes as there were. -/
def Overlooks (k least : ℕ) (act : Exec α) : Prop :=
  ∀ s, least ≤ s.scopes.length →
    act (s.widen k) = onState (State.widen k) (act s) ∧ (final (act s)).scopes.length = s.scopes.length

/-- A run is compared with itself, with one more scope.  Within the scopes that are opened later it may declare. -/
def widening (k : ℕ) : Comparison ℕ where
  likeness := .same
  braces := False
  aside := False
  scopes inner chain chain' := chain.length = k + inner ∧ chain' = chain.widen k
  fresh inner := inner + 1
  declares inner := 0 < inner
  calls _ := Eq
  returns _ := True
  log := Eq

/-- Comparing a run with the same run past an empty scope is lawful. -/
lemma lawful_widening (k : ℕ) : (widening k).Lawful where
  meansSame := Likeness.meansSame_same
  aside_of_braces := id
  find? {_ chain _ _ _ name} h _ _ := by
    obtain ⟨-, rfl⟩ := h
    rw [Chain.find?_widen]
    cases chain.find? name with
    | none => exact .none
    | some v => exact .some (v.embraced_refl (fun _ _ => rfl) fun _ => rfl)
  assign? {_ chain _ _ _ name v _} h _ _ hv := by
    obtain ⟨hlength, rfl⟩ := h
    obtain rfl := hv.eq
    rw [Chain.assign?_widen]
    cases hafter : chain.assign? name v with
    | none => exact .none
    | some after => exact .some ⟨(Chain.length_of_assign? hafter).trans hlength, rfl⟩
  declare? {inner chain _ _ _ name v _} hinner h _ _ hv := by
    obtain ⟨hlength, rfl⟩ := h
    obtain rfl := hv.eq
    have hlt : k < chain.length := hlength ▸ Nat.lt_add_of_pos_right hinner
    rw [Chain.declare?_widen hlt]
    cases hafter : chain.declare? name v with
    | none => exact .none
    | some after =>
      have hgrows := Chain.grows_of_declare (Chain.declare_eq_ok.mpr hafter)
      exact .some ⟨hgrows.length_eq.trans hlength, rfl⟩
  declares_fresh inner := Nat.succ_pos inner
  enter h := by
    obtain ⟨hlength, rfl⟩ := h
    refine ⟨congrArg (· + 1) hlength, (Chain.widen_cons ?_).symm⟩
    exact hlength ▸ Nat.le_add_right _ _
  leave h := by
    obtain ⟨hlength, rfl⟩ := h
    refine ⟨?_, Chain.tail_widen ?_⟩
    · rw [List.length_tail, hlength]
      rfl
    · exact hlength ▸ Nat.lt_add_of_pos_right (Nat.succ_pos _)
  enterCall h := congrArg (· + 1) h
  leaveCall h := congrArg (· - 1) h
  returns_succ _ := trivial
  eq_zero_iff _ h := by rw [h]
  prints hv hlog := congrArg₂ (Event.printed · :: ·) hv.eq hlog

/-- States are compared if they differ in the empty scope only, which lies where it should. -/
lemma states_widening {k inner c : ℕ} {s s' : State} :
    (widening k).States inner c s s' ↔ s.scopes.length = k + inner ∧ s' = s.widen k := by
  constructor
  · intro h
    obtain ⟨hlength, hscopes⟩ := h.scopes
    obtain ⟨scopes, log, callDepth, made, readings⟩ := s'
    obtain rfl := hscopes
    obtain rfl := h.log
    obtain rfl := h.calls
    obtain rfl := h.made 0
    obtain rfl := h.readings
    exact ⟨hlength, rfl⟩
  · rintro ⟨hlength, rfl⟩
    exact ⟨⟨hlength, rfl⟩, rfl, rfl, fun _ => rfl, rfl⟩

/-- What does the same with one more scope, wherever this is, overlooks it. -/
lemma overlooks_of_compares {act : Exec Unit} (hle : k ≤ least)
    (h : ∀ inner, (widening k).Compares inner 0 (fun _ _ => True) act act) : Overlooks k least act := by
  intro s hs
  obtain ⟨inner, hlength⟩ := Nat.exists_eq_add_of_le (hle.trans hs)
  have hact := h inner (states_widening.mpr ⟨hlength, rfl⟩)
  generalize act s = outcome, act (s.widen k) = outcome' at hact
  cases hact with
  | ok _ ht =>
    obtain ⟨hlength', rfl⟩ := states_widening.mp ht
    exact ⟨rfl, hlength'.trans hlength.symm⟩
  | error hstop _ ht =>
    obtain ⟨hlength', rfl⟩ := states_widening.mp ht
    rw [hstop.eq]
    exact ⟨rfl, hlength'.trans hlength.symm⟩
  | left haside _ | right haside _ => exact haside.elim

/-- Statements that declare nothing overlook every empty scope. -/
lemma overlooks_forM_execute (k : ℕ) (setting : Setting) (depth : ℕ) {statements : List Node}
    (h : ∀ stmt ∈ statements, stmt.declares = false) :
    Overlooks k k (statements.forM (execute setting depth)) := by
  have hrecord : (widening k).Surroundings record record setting setting :=
    Comparison.surroundings_record rfl rfl (fun he hlog => congrArg₂ List.cons he.eq hlog) nofun
  have halike := Comparison.alike (lawful_widening k) hrecord (.inl (Eq.refl depth))
  have hstmt : ∀ {inner : ℕ} {stmt stmt' : Node}, stmt ∈ statements → stmt.Embraced (fun _ => Eq) False stmt' →
      (widening k).Compares inner 0 (fun _ _ => True) (execute setting depth stmt)
        (execute setting depth stmt') := by
    intro inner stmt stmt' hmem hself
    have hadmits : (widening k).Admits inner 0 stmt :=
      ⟨fun hdeclares => absurd hdeclares (by rw [h stmt hmem]; exact Bool.false_ne_true), fun _ => trivial⟩
    simpa only [executeWith_record] using halike.execute hadmits hself
  have hself : List.Forall₂ (Node.Embraced (fun _ => Eq) False) statements statements :=
    List.forall₂_same.mpr fun stmt _ => (Node.corresponds_refl (fun _ _ => rfl) .stray stmt).embraced
  exact overlooks_of_compares le_rfl fun inner => Comparison.compares_forM hself hstmt

/-! ## Fresh scopes in which nothing is declared -/

/-- A computation that overlooks every empty scope may as well run without a fresh one. -/
theorem inFreshScope_eq {act : Exec α} (h : ∀ k, Overlooks k k act) : inFreshScope act = act := by
  funext s
  obtain ⟨hrun, hlength⟩ := h s.scopes.length s le_rfl
  have hpush : { s with scopes := [] :: s.scopes } = s.widen s.scopes.length := by
    rw [State.widen, Chain.widen_of_length_le le_rfl]
  have hpop : ∀ t : State, t.scopes.length = s.scopes.length →
      { t.widen s.scopes.length with scopes := (t.widen s.scopes.length).scopes.tail } = t := by
    intro t ht
    rw [State.widen, Chain.widen_of_length_le ht.le]
    rfl
  unfold inFreshScope
  rw [hpush, hrun]
  cases hact : act s with
  | ok a t =>
    rw [hact] at hlength
    exact congrArg (EStateM.Result.ok a) (hpop t hlength)
  | error stop t =>
    rw [hact] at hlength
    exact congrArg (EStateM.Result.error stop) (hpop t hlength)

/-- A block of statements that declare nothing is its statements, one after the other. -/
theorem execute_block_of_declares_eq_false (setting : Setting) (depth : ℕ) {statements : List Node}
    (h : ∀ stmt ∈ statements, stmt.declares = false) :
    execute setting (depth + 1) (.block (.list statements)) = statements.forM (execute setting depth) := by
  have hstatements : ∀ k, Overlooks k k (statements.forM (execute setting depth)) :=
    fun k => overlooks_forM_execute k setting depth h
  exact inFreshScope_eq hstatements

end Exec

end Scriptlet
