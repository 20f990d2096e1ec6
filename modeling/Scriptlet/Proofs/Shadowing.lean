import Scriptlet.Proofs.Returns
import Scriptlet.Proofs.Variables

/-!
# Shadowing

Functions run inside the scope of their caller, so a function that is called, and all that it calls in turn,
can reach the variables of the call site.  What protects these is that a name means the nearest variable:
as long as some scope binds a name, no assignment from inside of it gets to the variables of this name
further out.

A variable is never taken away while its scope is there, so this protection lasts from the moment at which
the variable is declared to the moment at which its scope is dropped.  For the scope that a task runs in, that
is the whole task.  For a variable in the scope of a call, it is the rest of the call, whatever the call is
busy with at that moment: one follows the tasks that wait from the innermost one outwards (`LeadsTo.kept`).
-/

namespace Scriptlet

open Exec
open Chain (Shadows)

variable {setting : Setting} {depth d : ℕ} {task task' : Task} {s s' u : State} {x : Name} {m n : ℕ}

/-! ## Tasks that are waited for -/

/-- Leaving the innermost scope leaves the values in the others. -/
lemma Chain.valueIn?_tail {chain : Chain} (h : m < chain.tail.length) :
    Chain.valueIn? x m chain.tail = chain.valueIn? x m := by
  cases chain with
  | nil => rfl
  | cons frame outer => exact (Chain.valueIn?_cons h.ne).symm

/-- A task leaves the scopes as they were when all that it does inside had come to a result, but for the one
that it has opened. -/
lemma Task.scopes_leave (task : Task) (result : EStateM.Result Stop State (Option Value)) :
    (final (task.leave result)).scopes = (final result).scopes ∨
      (final (task.leave result)).scopes = (final result).scopes.tail := by
  cases task with
  | evaluate e => exact .inl rfl
  | call callee args paren =>
    cases result with
    | ok value? t => exact .inr rfl
    | error stop t =>
      cases stop with
      | tooDeep =>
        have hfail : Respects Eq (some <$> (failAt .callsTooDeep paren : Exec Value)) :=
          (respects_failAt _ paren).map some
        exact .inr (hfail _).1.symm
      | _ => exact .inr rfl
  | execute stmt =>
    cases stmt with
    | block statements => cases result <;> exact .inr rfl
    | _ => exact .inl rfl

lemma length_perform (setting : Setting) (depth : ℕ) (task : Task) (s : State) :
    (final (task.perform setting depth s)).scopes.length = s.scopes.length :=
  (respects_perform setting depth task s).1.length_eq

/-- A task that is started sees all the scopes that the task that starts it sees. -/
lemma Starts.length_le (h : Starts setting depth task s task' s') : s.scopes.length ≤ s'.scopes.length := by
  have hlength := (h.enters discipline_sameNames_grows).1.length_eq
  rw [hlength]
  cases task with
  | execute stmt => cases stmt <;> simp [Task.enter]
  | _ => simp [Task.enter]

/-- A variable that is there when a task has come to its result has hidden, and hides until the task that
waits for this one has come to its own result, the variables of its name further out; and it is still there
then, unless its scope is dropped. -/
lemma Starts.kept (h : Starts setting depth task s task' s')
    (hends : Ends (task.perform setting (depth + 1) s)) (hn : n ≤ s.scopes.length)
    (hbound : ((final (task'.perform setting depth s')).scopes.valueIn? x n).isSome = true) :
    (n < s.scopes.length → ((final (task.perform setting (depth + 1) s)).scopes.valueIn? x n).isSome = true) ∧
      ∀ m < n, (final (task.perform setting (depth + 1) s)).scopes.valueIn? x m =
        (final (task'.perform setting depth s')).scopes.valueIn? x m := by
  have hlength := length_perform setting (depth + 1) task s
  obtain ⟨result, hperform, next, hnext, rfl⟩ := h.resumes (Chain.discipline_shadows x).manner hends
  rw [hperform] at hlength ⊢
  have hafter : Shadows x (final (task'.perform setting depth s')).scopes
      (final ((task'.perform setting depth >>= next) s')).scopes := scopes_bind hnext s'
  have hdropped : ∀ k < s.scopes.length,
      (final (task.leave ((task'.perform setting depth >>= next) s'))).scopes.valueIn? x k =
        (final ((task'.perform setting depth >>= next) s')).scopes.valueIn? x k := by
    intro k hk
    rcases task.scopes_leave ((task'.perform setting depth >>= next) s') with hsame | htail
    · rw [hsame]
    · rw [htail] at hlength ⊢
      exact Chain.valueIn?_tail (hlength.symm ▸ hk)
  obtain ⟨hstill, hkept⟩ := hafter.2 n hbound
  refine ⟨fun hlt => ?_, fun m hm => ?_⟩
  · rw [hdropped n hlt]
    exact hstill
  · rw [hdropped m (by omega)]
    exact hkept m hm

/-! ## Tasks that are started by way of others -/

/-- What a task leads to has at least its scopes. -/
lemma LeadsTo.length_le (h : LeadsTo setting depth task s d task' s') : s.scopes.length ≤ s'.scopes.length := by
  induction h with
  | refl => exact le_rfl
  | tail _ hstarts ih => exact ih.trans hstarts.length_le

/-- A variable that is there when a task has come to its result, in a scope that was there when another task
has led to this one, hides the variables of its name further out until that other task has come to its
result. -/
lemma LeadsTo.kept (h : LeadsTo setting depth task s d task' s') (hends : Ends (task.perform setting depth s))
    (hn : n < s.scopes.length)
    (hbound : ((final (task'.perform setting d s')).scopes.valueIn? x n).isSome = true) :
    ((final (task.perform setting depth s)).scopes.valueIn? x n).isSome = true ∧
      ∀ m < n, (final (task.perform setting depth s)).scopes.valueIn? x m =
        (final (task'.perform setting d s')).scopes.valueIn? x m := by
  induction h with
  | refl => exact ⟨hbound, fun _ _ => rfl⟩
  | tail hleads hstarts ih =>
    have hlt := hn.trans_le hleads.length_le
    obtain ⟨hstill, hkept⟩ := hstarts.kept (hleads.ends hends) hlt.le hbound
    obtain ⟨hstill', hkept'⟩ := ih (hstill hlt)
    exact ⟨hstill', fun m hm => (hkept' m hm).trans (hkept m hm)⟩

/-! ## Parameters -/

/-- A parameter is bound as soon as the parameters are declared. -/
lemma isSome_of_declareAll {params : List Node} {args : List Value} {t : Leaf} {u : State}
    (hlength : params.length ≤ args.length) (hmem : .token t ∈ params) (hname : t.name? = .ok x)
    (hs : s.scopes.length = n + 1) (h : declareAll params args s = .ok () u) :
    (u.scopes.valueIn? x n).isSome = true := by
  induction params generalizing args s with
  | nil => cases hmem
  | cons p params ih =>
    cases args with
    | nil => simp at hlength
    | cons a args =>
      obtain ⟨_, v, hfirst, hrest⟩ := bind_eq_ok.mp h
      have hrest : declareAll params args v = .ok () u := hrest
      obtain ⟨leaf, w, hpart, hdeclare⟩ := bind_eq_ok.mp hfirst
      obtain ⟨hleaf, rfl⟩ := part_eq_ok.mp hpart
      have hstays := ((Chain.discipline_shadows x).respects_declareAll params args).of_ok hrest
      rcases declare_cases leaf a s with ⟨name, scopes, hleafName, hscopes, hok⟩ | ⟨stop, herror⟩
      · rw [hok] at hdeclare
        cases hdeclare
        obtain ⟨frame, outer, hbefore, rfl⟩ := Chain.exists_of_declare hscopes
        have houter : outer.length = n := by simpa [hbefore] using hs
        rcases List.mem_cons.mp hmem with rfl | hmem
        · obtain rfl := Except.ok.inj hleaf
          obtain rfl := Except.ok.inj (hname.symm.trans hleafName)
          have hbound : (Chain.valueIn? x n (((x, a) :: frame) :: outer)).isSome = true := by
            rw [← houter, Chain.valueIn?_length]
            simp [Frame.find?]
          exact (hstays.1.2 n hbound).1
        · exact ih (by simpa using hlength) hmem (by simp [houter]) hrest
      · rw [herror] at hdeclare
        cases hdeclare

section Parameters

variable {f : UserFunction} {args : List Value} {paren stmt : Node} {params : List Node} {t : Leaf}

/-- The statements in the body of a function are executed where all parameters are bound. -/
lemma Starts.isSome_parameter
    (h : Starts setting depth (.call (.function f) args paren) s (.execute stmt) s')
    (hparams : f.params.items? = .ok params) (hmem : .token t ∈ params) (hname : t.name? = .ok x) :
    (s'.scopes.valueIn? x s.scopes.length).isSome = true := by
  cases h with
  | @body _ _ _ _ params' before _ _ _ _ hparams' _ harity hbefore =>
    obtain rfl : params = params' := Except.ok.inj (hparams.symm.trans hparams')
    obtain ⟨hlength, rfl⟩ := of_checkArity harity
    obtain ⟨_, v, hdeclared, hprefix⟩ := bind_eq_ok.mp hbefore
    have hopened : ([] :: s.scopes).length = s.scopes.length + 1 := rfl
    have hbound := isSome_of_declareAll hlength.ge hmem hname hopened hdeclared
    have hstatements : Respects (Shadows x) (before.forM (execute setting depth)) :=
      respects_forM fun stmt _ => (Chain.discipline_shadows x).respects_execute setting depth stmt
    exact ((hstatements.of_ok hprefix).1.2 _ hbound).1

/-- No call changes the variables of the call site that have the name of a parameter. -/
lemma valueIn?_of_call (hparams : f.params.items? = .ok params) (hmem : .token t ∈ params)
    (hname : t.name? = .ok x) (hn : n < s.scopes.length) :
    (final ((Task.call (.function f) args paren).perform setting depth s)).scopes.valueIn? x n =
      s.scopes.valueIn? x n := by
  cases depth with
  | zero => rfl
  | succ depth =>
    refine (respectsFrom_map.mpr
      ((Chain.scoping_keepsValue x n).respectsFrom_call fun {stmt s'} hstarts => ?_)).1.2
    have hbound := hstarts.isSome_parameter hparams hmem hname
    obtain ⟨hshadows, hdepth⟩ := (Chain.discipline_shadows x).respects_execute setting depth stmt s'
    exact ⟨⟨hshadows.1, fun _ => (hshadows.2 _ hbound).2 n hn⟩, hdepth⟩

end Parameters

/-- What a call has in its own scope is hidden from the call site until the call has come to its result. -/
lemma valueIn?_of_bound_in_call {callee : Value} {args : List Value} {paren : Node}
    (h : LeadsTo setting depth (.call callee args paren) s d task u)
    (hends : Ends ((Task.call callee args paren).perform setting depth s))
    (hbound : (u.scopes.valueIn? x s.scopes.length).isSome = true) (hn : n < s.scopes.length) :
    (final ((Task.call callee args paren).perform setting depth s)).scopes.valueIn? x n =
      u.scopes.valueIn? x n := by
  obtain ⟨hstill, hkept⟩ := ((Chain.discipline_shadows x).respects_perform setting d task u).1.2 _ hbound
  rcases h.eq_or_head with ⟨-, -, rfl⟩ | ⟨depth', first, t, rfl, hfirst, hleads⟩
  · -- the call itself begins where its scope is not yet opened
    exact absurd (Chain.lt_length_of_valueIn? hbound) (lt_irrefl _)
  · have hopened : t.scopes.length = s.scopes.length + 1 := by
      have hlength := (hfirst.enters discipline_sameNames_grows).1.length_eq
      simpa [Task.enter] using hlength
    obtain ⟨hstill', hkept'⟩ := hleads.kept (hfirst.ends hends) (by omega) hstill
    obtain ⟨-, hkept''⟩ := hfirst.kept hends le_rfl hstill'
    rw [hkept'' n hn, hkept' n hn, hkept n hn]

/-- Shadowing is airtight.  If the innermost scope binds a name, then whatever runs in it, and however it
ends, the variables of this name in the scopes around it keep their values.  So a call of a function does not
change the variables of the call site, and of the scopes around that, that have the name of a parameter.  And
whatever a call is busy with, in its body or in any function that is called from there: from the moment at
which a name is bound in the scope of the call, the variables of this name at the call site keep their values
until the call has come to its end. -/
theorem shadowing_is_airtight (setting : Setting) (depth : ℕ) :
    (∀ (task : Task) (s : State) (x : Name) (frame : Frame) (outer : Chain), s.scopes = frame :: outer →
      frame.binds x = true → ∀ n < outer.length,
        (final (task.perform setting depth s)).scopes.valueIn? x n = s.scopes.valueIn? x n) ∧
    ∀ (f : UserFunction) (args : List Value) (paren : Node) (s : State),
      let call := Task.call (.function f) args paren
      let after := (final (call.perform setting depth s)).scopes
      (∀ (params : List Node) (t : Leaf) (x : Name), f.params.items? = .ok params → .token t ∈ params →
        t.name? = .ok x → ∀ n < s.scopes.length, after.valueIn? x n = s.scopes.valueIn? x n) ∧
      (Ends (call.perform setting depth s) → ∀ (d : ℕ) (task : Task) (u : State),
        LeadsTo setting depth call s d task u → ∀ x : Name,
          (u.scopes.valueIn? x s.scopes.length).isSome = true →
            ∀ n < s.scopes.length, after.valueIn? x n = u.scopes.valueIn? x n) := by
  refine ⟨fun task s x frame outer hscopes hbinds n hn => ?_, fun f args paren s => ⟨?_, ?_⟩⟩
  · have hbound : (s.scopes.valueIn? x outer.length).isSome = true := by
      rw [hscopes, Chain.valueIn?_length]
      exact hbinds
    have hshadows := ((Chain.discipline_shadows x).respects_perform setting depth task s).1
    exact (hshadows.2 _ hbound).2 n hn
  · intro params t x hparams hmem hname n hn
    exact valueIn?_of_call hparams hmem hname hn
  · intro hends d task u hleads x hbound n hn
    exact valueIn?_of_bound_in_call hleads hends hbound hn

/-- A function with a parameter `x` that assigns to it. -/
def overwritingParameter : UserFunction :=
  ⟨0, "f", .list [markOf .identifier "x"],
    .list [.exprStmt (.assign (markOf .identifier "x") (.literal (.bool true)))]⟩

/-- The variable of the call site keeps its value, in the whole call and from the moment on at which the
assignment is begun. -/
theorem overwritingParameter_keeps_argument :
    let setting := Session.limits fun _ => 0
    let x := Name.ofText "x"
    let start : State := ⟨[[(x, .bool false)]], [], 0, 1, 0⟩
    let call := Task.call (.function overwritingParameter) [.nil] (markOf .rightParen ")")
    let after := (final (call.perform setting 5 start)).scopes
    after = [[(x, .bool false)]] ∧ after.valueIn? x 0 = start.scopes.valueIn? x 0 ∧
      ∃ d task u, LeadsTo setting 5 call start d task u ∧ (u.scopes.valueIn? x 1).isSome = true ∧
        after.valueIn? x 0 = u.scopes.valueIn? x 0 := by
  intro setting x start call after
  have hitems : overwritingParameter.body.items? =
      .ok ([] ++ .exprStmt (.assign (markOf .identifier "x") (.literal (.bool true))) :: []) := rfl
  have hstarts : Starts setting 4 call start (.execute (.exprStmt _)) _ := .body rfl hitems rfl rfl
  obtain ⟨-, hcalls⟩ := shadowing_is_airtight setting 5
  obtain ⟨hparams, hbound⟩ := hcalls overwritingParameter [.nil] (markOf .rightParen ")") start
  have hkept := hbound trivial _ _ _ (.head hstarts .refl) x rfl 0 (by decide)
  refine ⟨rfl, hparams _ _ _ rfl (List.mem_singleton.mpr rfl) rfl 0 (by decide), ?_⟩
  exact ⟨_, _, _, .head hstarts .refl, rfl, hkept⟩

end Scriptlet
