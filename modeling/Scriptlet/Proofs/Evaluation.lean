import Scriptlet.Proofs.Runs

/-!
# Evaluating what was parsed

Expressions of an accepted program evaluate to sound values, its statements are executed without a
fault, and calls of sound functions give sound values.  The three facts are one induction on the number
of constructs and calls that may still be nested, with one case for each form of an expression or a
statement; calls need no more than that the function is sound, whichever source it comes from.
-/

namespace Scriptlet

open Grammar (IsExpression IsStatement)

/-! ## Operators -/

/-- The value of a literal that a token of a source denotes is sound. -/
lemma Leaf.IsScanned.isSound_ofNode {t : Leaf} {v : Node} (ht : t.IsScanned) (h : t.denoted? = some v) :
    (Value.ofNode v).IsSound := by
  rcases ht.cases_of_denoted h with rfl | ⟨b, rfl⟩ | ⟨x, rfl⟩ | ⟨text, rfl⟩
  · exact .nil
  · exact .bool b
  · exact .number x
  · exact .string text

namespace Operator

/-- The kinds of the operators that are for two numbers alone. -/
def numberKinds : List Kind :=
  [.greater, .greaterEqual, .less, .lessEqual, .minus, .slash, .star]

/-- The kinds of the binary operators that are no logical ones. -/
def binaryKinds : List Kind :=
  .plus :: .equalEqual :: .bangEqual :: numberKinds

/-- An operator gives a sound value or fails for a reason that a script can bring about. -/
def EndsWell : Except RuntimeCause Value → Prop
  | .ok value => value.IsSound
  | .error cause => cause.IsPlain

/-- The operators on numbers end well on every pair of numbers. -/
lemma endsWell_onNumbers {kind : Kind} (h : kind ∈ numberKinds) (lexeme : String) (x y : Float) :
    EndsWell (onNumbers kind lexeme x y) := by
  simp only [numberKinds, List.mem_cons, List.not_mem_nil, or_false] at h
  rcases h with rfl | rfl | rfl | rfl | rfl | rfl | rfl
  · exact Value.IsSound.bool (y < x)
  · exact Value.IsSound.bool (y ≤ x)
  · exact Value.IsSound.bool (x < y)
  · exact Value.IsSound.bool (x ≤ y)
  · exact Value.IsSound.number (x - y)
  · unfold onNumbers
    dsimp only
    split
    · trivial
    · exact Value.IsSound.number (x / y)
  · exact Value.IsSound.number (x * y)

/-- A binary operator ends well on any two values. -/
theorem endsWell_binary {kind : Kind} (h : kind ∈ binaryKinds) (lexeme : String) (a b : Value) :
    EndsWell (binary kind lexeme a b) := by
  unfold binary
  split
  · split
    · exact Value.IsSound.number _
    · exact Value.IsSound.string _
    · trivial
  · exact Value.IsSound.bool _
  · exact Value.IsSound.bool _
  next hplus hequal hbang =>
    have hnumbers : kind ∈ numberKinds := by
      simp only [binaryKinds, List.mem_cons] at h
      exact ((h.resolve_left hplus).resolve_left hequal).resolve_left hbang
    split
    · exact endsWell_onNumbers hnumbers lexeme _ _
    · trivial

/-- A unary operator ends well on any value. -/
theorem endsWell_unary {kind : Kind} (h : Grammar.isUnaryOperator kind = true) (lexeme : String)
    (a : Value) : EndsWell (unary kind lexeme a) := by
  simp only [Grammar.isUnaryOperator, Bool.or_eq_true, decide_eq_true_eq] at h
  unfold unary
  split
  · exact Value.IsSound.bool _
  · split
    · exact Value.IsSound.number _
    · trivial
  next hbang hminus => exact absurd h (not_or.mpr ⟨hbang, hminus⟩)

end Operator

namespace Exec

variable {active : ℕ}

/-- What ends well as a value does so as a computation, which leaves the state. -/
lemma keeps_result {operator : Leaf} {outcome : Except RuntimeCause Value}
    (h : Operator.EndsWell outcome) : Keeps active (result operator outcome) Value.IsSound := by
  cases outcome with
  | ok value => exact .pure h
  | error cause => exact keeps_fail h operator

/-- A binary operator of the grammar ends well on any two values. -/
lemma keeps_applyBinary {operator : Leaf} (h : operator.kind ∈ Operator.binaryKinds) (a b : Value) :
    Keeps active (applyBinary operator a b) Value.IsSound :=
  keeps_result (Operator.endsWell_binary h _ a b)

/-- A unary operator of the grammar ends well on any value. -/
lemma keeps_applyUnary {operator : Leaf} (h : Grammar.isUnaryOperator operator.kind = true) (a : Value) :
    Keeps active (applyUnary operator a) Value.IsSound :=
  keeps_result (Operator.endsWell_unary h _ a)

/-- The operators of the levels that do not build logical expressions are binary ones. -/
lemma build_logical_or_binary {level : Grammar.Level} {kind : Kind} (h : level ∈ Grammar.levels)
    (hkind : kind ∈ level.operators) :
    level.build = .logical ∨ level.build = .binary ∧ kind ∈ Operator.binaryKinds := by
  have hlevels : ∀ l ∈ Grammar.levels.drop 2, ∀ k ∈ l.operators, k ∈ Operator.binaryKinds := by decide
  simp only [Grammar.levels, List.mem_cons, List.not_mem_nil, or_false] at h
  rcases h with rfl | rfl | rfl | rfl | rfl | rfl
  · exact .inl rfl
  · exact .inl rfl
  all_goals exact .inr ⟨rfl, hlevels _ (by simp [Grammar.levels]) _ hkind⟩

/-- A call with the wrong number of arguments fails soundly. -/
lemma keeps_checkArity {callee : Value} (h : callee.IsSound) (expected got : ℕ) (paren : Leaf) :
    Keeps active (checkArity callee expected got (.token paren)) fun _ => True := by
  unfold checkArity
  split
  · exact keeps_failAt (by trivial) paren
  · exact keeps_record (by simpa [Event.values] using h)

/-! ## Expressions, calls and statements -/

section Step

variable {setting : Setting} {depth : ℕ}
  (hevaluate : ∀ {active : ℕ} {e : Node}, IsExpression Leaf.IsScanned e →
    Keeps active (evaluate setting depth e) Value.IsSound)
  (hcall : ∀ {active : ℕ} {callee : Value} {args : List Value} (paren : Leaf), callee.IsSound →
    (∀ value ∈ args, value.IsSound) →
    Keeps active (call setting depth callee args (.token paren)) Value.IsSound)
  (hexecute : ∀ {active : ℕ} {s : Node}, IsStatement Leaf.IsScanned s →
    Keeps active (execute setting depth s) fun _ => True)

include hevaluate hcall in
/-- An expression keeps the state sound if everything that is one level deeper does. -/
lemma keeps_evaluate_succ {e : Node} (h : IsExpression Leaf.IsScanned e) :
    Keeps active (evaluate setting (depth + 1) e) Value.IsSound := by
  cases h with
  | literal ht hv => exact .pure (ht.isSound_ofNode hv)
  | always => exact .pure (.bool true)
  | grouping he => exact hevaluate he
  | ident ht _ => exact keeps_lookUp ht
  | call hcallee _ _ _ hargs =>
    simp only [evaluate, Node.items?, part_ok, pure_bind]
    refine .bind (hevaluate hcallee) fun f hf => ?_
    refine .bind (keeps_mapM fun e he => hevaluate (hargs e he)) fun values hvalues => ?_
    exact hcall _ hf hvalues
  | unary _ hoperator he _ =>
    simp only [evaluate, Node.leaf?, part_ok, pure_bind]
    exact .bind (hevaluate he) fun a _ => keeps_applyUnary hoperator a
  | operator hlevel _ hkind hleft _ hright _ =>
    rcases build_logical_or_binary hlevel hkind with hb | ⟨hb, hbinary⟩
    · rw [hb]
      simp only [evaluate, Node.leaf?, part_ok, pure_bind]
      refine .bind (hevaluate hleft) fun value hvalue => ?_
      split
      · exact .pure hvalue
      · exact hevaluate hright
    · rw [hb]
      simp only [evaluate, Node.leaf?, part_ok, pure_bind]
      refine .bind (hevaluate hleft) fun a _ => .bind (hevaluate hright) fun b _ => ?_
      exact keeps_applyBinary hbinary a b
  | assign ht _ he =>
    simp only [evaluate, Node.leaf?, part_ok, pure_bind]
    refine .bind (hevaluate he) fun value hvalue => ?_
    exact .bind (keeps_assign ht hvalue) fun _ _ => .pure hvalue

include hexecute in
/-- A call keeps the state sound if everything that is one level deeper does. -/
lemma keeps_call_succ {callee : Value} {args : List Value} (paren : Leaf) (hcallee : callee.IsSound)
    (hargs : ∀ value ∈ args, value.IsSound) :
    Keeps active (call setting (depth + 1) callee args (.token paren)) Value.IsSound := by
  cases hcallee with
  | function id name hparams hbody =>
    simp only [call, Node.items?, part_ok, pure_bind]
    refine .bind (keeps_checkArity (.function id name hparams hbody) _ _ paren) fun _ _ => ?_
    refine keeps_asCall paren (keeps_inFreshScope (.bind (keeps_declareAll hparams hargs) fun _ _ => ?_))
    exact keeps_forM fun s hs => hexecute (hbody s hs)
  | clock => exact .bind (keeps_checkArity .clock 0 _ paren) fun _ _ => keeps_readClock setting.clock
  | _ => exact keeps_failAt (by trivial) paren

include hevaluate hexecute in
/-- A statement keeps the state sound if everything that is one level deeper does. -/
lemma keeps_execute_succ {s : Node} (h : IsStatement Leaf.IsScanned s) :
    Keeps active (execute setting (depth + 1) s) fun _ => True := by
  cases h with
  | exprStmt he => exact .bind (hevaluate he) fun _ _ => .pure trivial
  | printStmt he =>
    exact .bind (hevaluate he) fun value hvalue => keeps_record (by simpa [Event.values] using hvalue)
  | varDecl ht _ =>
    simp only [execute, Node.leaf?, part_ok, pure_bind]
    refine .bind (keeps_declare ht .nil) fun _ _ => keeps_record ?_
    simpa [Event.values] using Value.IsSound.nil
  | varInit ht _ he =>
    have hnull := he.ne_null
    simp only [execute, Node.leaf?, part_ok, pure_bind]
    refine .bind (hevaluate he) fun value hvalue => .bind (keeps_declare ht hvalue) fun _ _ => ?_
    exact keeps_record (by simpa [Event.values] using hvalue)
  | block hbody =>
    simp only [execute, Node.items?, part_ok, pure_bind]
    exact keeps_inFreshScope (keeps_forM fun s hs => hexecute (hbody s hs))
  | ifStmt hcondition hthen _ _ =>
    simp only [execute]
    refine .bind (hevaluate hcondition) fun value hvalue => ?_
    refine .bind (keeps_record (by simpa [Event.values] using hvalue)) fun _ _ => ?_
    split
    · exact hexecute hthen
    · exact .pure trivial
  | ifElse hcondition hthen _ _ _ helse _ =>
    simp only [execute]
    refine .bind (hevaluate hcondition) fun value hvalue => ?_
    refine .bind (keeps_record (by simpa [Event.values] using hvalue)) fun _ _ => ?_
    split
    · exact hexecute hthen
    · split
      · exact .pure trivial
      · exact hexecute helse
  | whileStmt hcondition hbody _ _ =>
    refine keeps_repeatWhile (.bind (hevaluate hcondition) fun value hvalue => ?_) (hexecute hbody) _
    exact .bind (keeps_record (by simpa [Event.values] using hvalue)) fun _ _ => .pure trivial
  | funDecl ht _ hparams hbody =>
    simp only [execute, Node.leaf?, part_ok, pure_bind]
    refine .bind (keeps_makeFunction _ (fun t ht => (hparams t ht).1) hbody) fun f hf => ?_
    exact .bind (keeps_declare ht hf) fun _ _ => keeps_record (by simp [Event.values])
  | returnStmt _ _ =>
    simp only [execute]
    refine .get fun s hs hdepth => ?_
    split
    next => exact keeps_failAt (by trivial) _ s hs hdepth
    next hactive =>
      have hvalue : Keeps active (pure Value.nil) Value.IsSound := .pure .nil
      exact hvalue.bind (fun value hv => keeps_returned (by omega) hv) s hs hdepth
  | returnValue _ _ he =>
    simp only [execute]
    refine .get fun s hs hdepth => ?_
    split
    next => exact keeps_failAt (by trivial) _ s hs hdepth
    next hactive =>
      split
      next => exact absurd rfl he.ne_null
      next => exact (hevaluate he).bind (fun value hv => keeps_returned (by omega) hv) s hs hdepth

end Step

/-- Expressions evaluate to sound values, calls of sound functions give sound values, and statements are
executed without a fault. -/
theorem keeps_evaluate_call_execute (setting : Setting) (depth : ℕ) :
    (∀ {active : ℕ} {e : Node}, IsExpression Leaf.IsScanned e →
      Keeps active (evaluate setting depth e) Value.IsSound) ∧
    (∀ {active : ℕ} {callee : Value} {args : List Value} (paren : Leaf), callee.IsSound →
      (∀ value ∈ args, value.IsSound) →
      Keeps active (call setting depth callee args (.token paren)) Value.IsSound) ∧
    ∀ {active : ℕ} {s : Node}, IsStatement Leaf.IsScanned s →
      Keeps active (execute setting depth s) fun _ => True := by
  induction depth with
  | zero => exact ⟨fun _ => .throw trivial, fun _ _ _ => .throw trivial, fun _ => .throw trivial⟩
  | succ depth ih =>
    obtain ⟨hevaluate, hcall, hexecute⟩ := ih
    refine ⟨fun he => ?_, fun paren hcallee hargs => ?_, fun hs => ?_⟩
    · exact keeps_evaluate_succ hevaluate hcall he
    · exact keeps_call_succ hexecute paren hcallee hargs
    · exact keeps_execute_succ hevaluate hexecute hs

/-- What is no expression cannot be evaluated, so the sort of a tree does matter. -/
example (setting : Setting) (s : State) :
    evaluate setting 1 (.exprStmt .null) s = .error (.fault (.noExpression (.exprStmt .null))) s := rfl

/-- Evaluating an expression keeps the state sound, at every depth. -/
lemma keeps_evaluate (setting : Setting) (depth : ℕ) {e : Node} (h : IsExpression Leaf.IsScanned e) :
    Keeps active (evaluate setting depth e) Value.IsSound :=
  (keeps_evaluate_call_execute setting depth).1 h

/-- Calling a sound value with sound arguments keeps the state sound, at every depth. -/
lemma keeps_call (setting : Setting) (depth : ℕ) {callee : Value} {args : List Value} (paren : Leaf)
    (hcallee : callee.IsSound) (hargs : ∀ value ∈ args, value.IsSound) :
    Keeps active (call setting depth callee args (.token paren)) Value.IsSound :=
  (keeps_evaluate_call_execute setting depth).2.1 paren hcallee hargs

/-- Executing a statement keeps the state sound, at every depth. -/
lemma keeps_execute (setting : Setting) (depth : ℕ) {s : Node} (h : IsStatement Leaf.IsScanned s) :
    Keeps active (execute setting depth s) fun _ => True :=
  (keeps_evaluate_call_execute setting depth).2.2 h

end Exec

end Scriptlet
