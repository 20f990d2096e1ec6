import Scriptlet.Proofs.Correspondence
import Scriptlet.Proofs.Watching

/-!
# Runs that are compared

To compare two runs is to say which tokens of the two programs correspond and which functions of the two runs
are counted as the same one.  Both are left open here, as long as nothing is confused: tokens correspond only if
they mean the same, and functions one to one.

When both runs fail, it is for one cause, which is blamed on corresponding tokens.  So it has to be known what a
cause says of the token that it is blamed on, and in particular that the operators blame themselves.
-/

namespace Scriptlet

/-- How two runs are compared. -/
structure Likeness where
  /-- Which tokens correspond, if they are there for a purpose. -/
  token : Role → Leaf → Leaf → Prop
  /-- The numbers of the functions that correspond. -/
  function : ℕ → ℕ → Prop

/-- Tokens correspond only if they mean the same, and functions one to one. -/
structure Likeness.MeansSame (T : Likeness) : Prop where
  kind_eq {r : Role} {t u : Leaf} : T.token r t u → t.kind = u.kind
  lexeme_eq {r : Role} {t u : Leaf} : T.token r t u → t.lexeme = u.lexeme
  id_iff {i i' j j' : ℕ} : T.function i i' → T.function j j' → (i = j ↔ i' = j')

/-- Each thing corresponds to itself alone. -/
def Likeness.same : Likeness :=
  ⟨fun _ => Eq, Eq⟩

/-- Whether a cause may be blamed on a token that is there for a purpose.  Causes that show a name or an
operator blame the token that it is the text of. -/
def RuntimeCause.Blames : RuntimeCause → Role → Leaf → Prop
  | unknownIdentifier x, .name, t | unknownVariable x, .name, t | redeclaration x, .name, t =>
    t.lexeme.inText = x
  | unsupportedPlus _ _, .binary, t => t.kind = .plus
  | expectsNumbers x _, .binary, t =>
    t.lexeme.inText = x ∧ t.kind ∉ [.plus, .equalEqual, .bangEqual]
  | expectsNumbers x _, .unary, t => t.lexeme.inText = x ∧ t.kind = .minus
  | unknownOperator x, .binary, t => t.lexeme.inText = x ∧ t.kind ∉ Operator.binaryKinds
  | unsupportedUnary x, .unary, t => t.lexeme.inText = x ∧ Grammar.isUnaryOperator t.kind = false
  | divisionByZero, .binary, t => t.kind = .slash
  | notCallable _, .closing, _ | arity _ _ _, .closing, _ | callsTooDeep, .closing, _ => True
  | returnOutside, .keyword, _ => True
  | _, _, _ => False

/-- Equal tokens mean the same. -/
lemma Likeness.meansSame_same : Likeness.same.MeansSame :=
  ⟨fun h => h ▸ rfl, fun h => h ▸ rfl, fun hi hj => by rw [hi, hj]⟩

/-! ## Names -/

/-- A token names a variable only if its text shows the name. -/
lemma Leaf.inText_of_name? {t : Leaf} {name : Name} (h : t.name? = .ok name) : t.lexeme.inText = name.text := by
  unfold Leaf.name? at h
  split at h
  next found hfound =>
    obtain rfl := Except.ok.inj h
    unfold Name.ofJson? at hfound
    split at hfound
    · cases hfound
      rfl
    · cases hfound
  next => cases h

/-- There is no fault about a name but that a token holds none. -/
lemma Leaf.name?_eq_error {t : Leaf} {fault : Fault} (h : t.name? = .error fault) : fault = .noName := by
  unfold Leaf.name? at h
  split at h
  · cases h
  · exact (Except.error.inj h).symm

namespace Likeness.MeansSame

variable {T : Likeness} {r : Role} {t u : Leaf}

/-- Corresponding tokens name one variable. -/
lemma name?_eq (hT : T.MeansSame) (h : T.token r t u) : t.name? = u.name? := by
  unfold Leaf.name?
  rw [hT.lexeme_eq h]

end Likeness.MeansSame

/-! ## Operators -/

/-- Values that are neither functions nor trees: what operators give, and what a script can write down. -/
inductive Value.IsPlain : Value → Prop
  | nil : IsPlain .nil
  | bool (b : Bool) : IsPlain (.bool b)
  | number (x : Float) : IsPlain (.number x)
  | string (s : String) : IsPlain (.string s)

/-- A plain value is no function. -/
lemma Value.IsPlain.ne_function {v : Value} (h : v.IsPlain) (f : UserFunction) : v ≠ .function f := by
  cases h <;> nofun

namespace Operator

variable {a b : Value}

/-- A binary operator gives no function. -/
lemma isPlain_of_binary {kind : Kind} {lexeme : String} {v : Value} (h : binary kind lexeme a b = .ok v) :
    v.IsPlain := by
  have hnumbers : ∀ {x y : Float}, onNumbers kind lexeme x y = .ok v → v.IsPlain := by
    intro x y h
    unfold onNumbers at h
    split at h
    · cases h
      exact .number _
    · cases h
      exact .number _
    · split at h
      · cases h
      · cases h
        exact .number _
    · split at h
      · cases h
        exact .bool _
      · cases h
  unfold binary at h
  split at h
  · split at h
    · cases h
      exact .number _
    · cases h
      exact .string _
    · cases h
  · cases h
    exact .bool _
  · cases h
    exact .bool _
  · split at h
    · exact hnumbers h
    · cases h

/-- Unary operators give plain values. -/
lemma isPlain_of_unary {kind : Kind} {lexeme : String} {v : Value} (h : unary kind lexeme a = .ok v) :
    v.IsPlain := by
  unfold unary at h
  split at h
  · cases h
    exact .bool _
  · split at h
    · cases h
      exact .number _
    · cases h
  · cases h

/-- What goes wrong with a binary operator is blamed on it. -/
lemma blames_binary {t : Leaf} {cause : RuntimeCause}
    (h : binary t.kind t.lexeme.inText a b = .error cause) : cause.Blames .binary t := by
  have hkinds : ∀ kind ∈ binaryKinds, kind ∈ [.plus, .equalEqual, .bangEqual] ∨ kind ∈ [.minus, .star, .slash] ∨
      (comparison? kind).isSome := by decide
  have hnumbers : ∀ {x y : Float}, t.kind ∉ [.plus, .equalEqual, .bangEqual] →
      onNumbers t.kind t.lexeme.inText x y = .error cause → cause.Blames .binary t := by
    intro x y hother h
    unfold onNumbers at h
    split at h
    · cases h
    · cases h
    next hslash =>
      split at h
      · cases h
        exact hslash
      · cases h
    next hminus hstar hslash =>
      split at h
      · cases h
      next hnone =>
        cases h
        refine ⟨rfl, fun hmem => ?_⟩
        rcases hkinds t.kind hmem with hk | hk | hk
        · exact hother hk
        · simp only [List.mem_cons, List.not_mem_nil, or_false] at hk
          rcases hk with hk | hk | hk
          exacts [hminus hk, hstar hk, hslash hk]
        · simp [hnone] at hk
  unfold binary at h
  split at h
  next hplus =>
    split at h
    · cases h
    · cases h
    · cases h
      exact hplus
  · cases h
  · cases h
  next hplus hequal hbang =>
    have hother : t.kind ∉ [.plus, .equalEqual, .bangEqual] := by
      simpa using ⟨hplus, hequal, hbang⟩
    split at h
    · exact hnumbers hother h
    · cases h
      exact ⟨rfl, hother⟩

/-- What goes wrong with a unary operator is blamed on it. -/
lemma blames_unary {t : Leaf} {cause : RuntimeCause}
    (h : unary t.kind t.lexeme.inText a = .error cause) : cause.Blames .unary t := by
  unfold unary at h
  split at h
  · cases h
  next hminus =>
    split at h
    · cases h
    · cases h
      exact ⟨rfl, hminus⟩
  next hbang hminus =>
    cases h
    exact ⟨rfl, by simpa [Grammar.isUnaryOperator] using ⟨hbang, hminus⟩⟩

end Operator

end Scriptlet
