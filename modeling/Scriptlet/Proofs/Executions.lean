import Scriptlet.Proofs.Origins
import Scriptlet.Proofs.Returns

/-!
# One thing after another

A run does one thing at a time.  Of any two tasks that it comes to, one is started in the course of the other, or one
has come to its result before the other begins (`Activity.InRun.ordered`).

The count of the functions made keeps up with this order.  It never goes back, and every execution of a declaration
makes it grow; so two executions that find the same count are one (`Activity.InRun.eq_of_makes`).
-/

namespace Scriptlet

open Exec

/-! ## Counting the functions made -/

namespace Exec

variable {α β : Type} {act : Exec α} {next : α → Exec β} {s t : State}

/-- A computation that unmakes no functions. -/
def Counts (act : Exec α) : Prop :=
  ∀ s, s.made ≤ (final (act s)).made

/-- What succeeds has not lowered the count. -/
lemma Counts.of_ok (h : Counts act) {a : α} (hrun : act s = .ok a t) : s.made ≤ t.made := by
  have hs := h s
  rwa [hrun] at hs

/-- Going on does not unmake functions. -/
lemma made_le_bind (hnext : ∀ a, Counts (next a)) (s : State) :
    (final (act s)).made ≤ (final ((act >>= next) s)).made := by
  rw [bind_apply]
  cases act s with
  | ok a t => exact hnext a t
  | error stop t => exact le_rfl

lemma final_map (f : α → β) (s : State) : final ((f <$> act) s) = final (act s) := by
  rw [← bind_pure_comp, bind_apply]
  cases act s <;> rfl

/-- Whatever draws its functions from the counter never lowers it. -/
lemma counts_of_draws {post : α → Prop} (h : ∀ s, Draws (fun _ => True) s act post) : Counts act :=
  fun s => ((h s).final fun _ _ _ _ => Value.from_true _).2

/-- Nothing that a run is made of unmakes functions. -/
lemma manner_counts : Manner Counts where
  pure _ _ := le_rfl
  throw _ _ := le_rfl
  bind hact hnext s := (hact s).trans (made_le_bind hnext s)
  record _ _ := le_rfl
  assign _ value := counts_of_draws fun _ => draws_assign value.from_true
  declare _ value := counts_of_draws fun _ => draws_declare value.from_true
  evaluate _ _ _ := counts_of_draws fun _ => draws_evaluate.mp (Task.draws fun _ => trivial)
  call _ _ callee _ _ := counts_of_draws fun _ =>
    draws_call.mp (Task.draws fun _ => trivial) callee.from_true fun v _ => v.from_true
  execute _ _ _ := counts_of_draws fun _ => draws_execute.mp (Task.draws fun _ => trivial)

variable {a a' : α} {before before' after after' : List α}

/-- One after the other: the first of two computations comes to its result before the second one begins. -/
lemma forM_ordered {f : α → Exec Unit} {t' : State} (hcounts : ∀ a, Counts (f a))
    (hfirst : before.forM f s = .ok () t) (hsecond : before'.forM f s = .ok () t')
    (hsplit : before ++ a :: after = before' ++ a' :: after') :
    (a = a' ∧ t = t') ∨ (∃ u, f a t = .ok () u ∧ u.made ≤ t'.made) ∨ ∃ u, f a' t' = .ok () u ∧ u.made ≤ t.made := by
  -- by induction on what comes before the first one; whichever of the two is met at the head comes earlier
  induction before generalizing before' s with
  | nil =>
    cases hfirst
    cases before' with
    | nil =>
      cases hsecond
      exact .inl ⟨(List.cons.inj hsplit).1, rfl⟩
    | cons b before' =>
      obtain ⟨rfl, -⟩ := List.cons.inj hsplit
      obtain ⟨_, u, ha, hrest⟩ := bind_eq_ok.mp hsecond
      exact .inr (.inl ⟨u, ha, (manner_counts.forM hcounts before').of_ok hrest⟩)
  | cons b before ih =>
    obtain ⟨_, u, hb, hrest⟩ := bind_eq_ok.mp hfirst
    cases before' with
    | nil =>
      cases hsecond
      obtain ⟨rfl, -⟩ := List.cons.inj hsplit
      exact .inr (.inr ⟨u, hb, (manner_counts.forM hcounts before).of_ok hrest⟩)
    | cons b' before' =>
      obtain ⟨rfl, hrests⟩ := List.cons.inj hsplit
      obtain ⟨_, u', hb', hrest'⟩ := bind_eq_ok.mp hsecond
      cases hb.symm.trans hb'
      exact ih hrest hrest' hrests

/-- A sequence of values comes about by a sequence of computations. -/
lemma forM_of_mapM {f : α → Exec β} {as : List α} {bs : List β} (h : as.mapM f s = .ok bs t) :
    (as.forM fun a => do let _ ← f a : Exec Unit) s = .ok () t := by
  induction as generalizing s bs with
  | nil =>
    cases h
    rfl
  | cons a as ih =>
    rw [List.mapM_cons] at h
    obtain ⟨b, u, ha, hrest⟩ := bind_eq_ok.mp h
    obtain ⟨bs, v, hbs, hend⟩ := bind_eq_ok.mp hrest
    cases hend
    have hone : (do let _ ← f a : Exec Unit) s = .ok () u := bind_of_ok ha
    exact (bind_of_ok hone).trans (ih hbs)

/-- Two items of one list come one after the other: either they are the same item, which starts in one state, or
one of them was done, with all that it made, before the other began. -/
lemma mapM_ordered {f : α → Exec β} {bs bs' : List β} {t' : State} (hcounts : ∀ a, Counts (f a))
    (hfirst : before.mapM f s = .ok bs t) (hsecond : before'.mapM f s = .ok bs' t')
    (hsplit : before ++ a :: after = before' ++ a' :: after') :
    (a = a' ∧ t = t') ∨ (∃ b u, f a t = .ok b u ∧ u.made ≤ t'.made) ∨
      ∃ b u, f a' t' = .ok b u ∧ u.made ≤ t.made := by
  have hvalue : ∀ {a : α} {t t' : State}, (∃ u, (do let _ ← f a : Exec Unit) t = .ok () u ∧ u.made ≤ t'.made) →
      ∃ b u, f a t = .ok b u ∧ u.made ≤ t'.made := by
    rintro a t t' ⟨u, hrun, hle⟩
    obtain ⟨b, v, ha, hend⟩ := bind_eq_ok.mp hrun
    cases hend
    exact ⟨b, u, ha, hle⟩
  have hdiscard : ∀ a, Counts (do let _ ← f a : Exec Unit) :=
    fun a => manner_counts.bind (hcounts a) fun _ => manner_counts.pure ()
  exact (forM_ordered hdiscard (forM_of_mapM hfirst) (forM_of_mapM hsecond) hsplit).imp_right
    (Or.imp hvalue hvalue)

/-- What is computed in a sequence is over when the sequence is. -/
lemma exists_ok_of_mapM {f : α → Exec β} {bs cs : List β} {u : State} (hcounts : ∀ a, Counts (f a))
    (hbefore : before.mapM f s = .ok bs t) (hall : (before ++ a :: after).mapM f s = .ok cs u) :
    ∃ b v, f a t = .ok b v ∧ v.made ≤ u.made := by
  rw [List.mapM_append] at hall
  obtain ⟨_, t', hbefore', hrest⟩ := bind_eq_ok.mp hall
  cases hbefore.symm.trans hbefore'
  obtain ⟨others, v, hothers, hend⟩ := bind_eq_ok.mp hrest
  cases hend
  rw [List.mapM_cons] at hothers
  obtain ⟨b, w, ha, hrest⟩ := bind_eq_ok.mp hothers
  have hcount : Counts (do let bs ← after.mapM f; pure (b :: bs) : Exec (List β)) :=
    manner_counts.bind (manner_counts.mapM hcounts after) fun _ => manner_counts.pure _
  exact ⟨b, w, ha, hcount.of_ok hrest⟩

variable {test : Exec Bool} {body : Exec Unit} {u t' : State}

/-- One turn of a loop from a state leads to one state. -/
lemma turn_unique (h : Turn test body s t) (h' : Turn test body s t') : t = t' := by
  obtain ⟨m, htest, hbody⟩ := h
  obtain ⟨m', htest', hbody'⟩ := h'
  cases htest.symm.trans htest'
  cases hbody.symm.trans hbody'
  rfl

/-- Over any number of turns of a loop the count is not lowered. -/
lemma made_le_of_turns (htest : Counts test) (hbody : Counts body)
    (h : Relation.ReflTransGen (Turn test body) s t) : s.made ≤ t.made := by
  induction h with
  | refl => exact le_rfl
  | tail _ hturn ih =>
    obtain ⟨m, hm, ht⟩ := hturn
    exact ih.trans ((htest.of_ok hm).trans (hbody.of_ok ht))

/-- Of two turns of a loop, one is over before the other begins, unless they are the same. -/
lemma turns_ordered (htest : Counts test) (hbody : Counts body)
    (h : Relation.ReflTransGen (Turn test body) s t) (h' : Relation.ReflTransGen (Turn test body) s t') :
    t = t' ∨ (∃ u, Turn test body t u ∧ u.made ≤ t'.made) ∨ ∃ u, Turn test body t' u ∧ u.made ≤ t.made := by
  have hlater : ∀ {t t'}, Relation.ReflTransGen (Turn test body) t t' →
      t = t' ∨ ∃ u, Turn test body t u ∧ u.made ≤ t'.made := by
    intro t t' hturns
    refine hturns.cases_head.imp_right ?_
    rintro ⟨u, hturn, hrest⟩
    exact ⟨u, hturn, made_le_of_turns htest hbody hrest⟩
  have hunique : Relator.RightUnique (Turn test body) := fun _ _ _ => turn_unique
  rcases Relation.ReflTransGen.total_of_right_unique hunique h h' with hforth | hback
  · exact (hlater hforth).imp_right .inl
  · rcases hlater hback with rfl | hturn
    · exact .inl rfl
    · exact .inr (.inr hturn)

end Exec

/-! ## The order of what a task starts -/

namespace Activity

/-- The first activity comes to its result before the second one begins, and functions are not unmade between them. -/
def Precedes (setting : Setting) (first second : Activity) : Prop :=
  Ends (first.outcome setting) ∧ (final (first.outcome setting)).made ≤ second.state.made

/-- Two activities are the same, or one precedes the other. -/
def Sequential (setting : Setting) (first second : Activity) : Prop :=
  first = second ∨ first.Precedes setting second ∨ second.Precedes setting first

end Activity

section Order

variable {setting : Setting} {depth : ℕ} {task first second : Task} {s t u : State} {later : Activity}

/-- An evaluation that is done by the time something later starts precedes it. -/
lemma precedes_of_evaluate {e : Node} {value : Value} (h : evaluate setting depth e s = .ok value t)
    (hle : t.made ≤ later.state.made) : Activity.Precedes setting ⟨depth, .evaluate e, s⟩ later := by
  have houtcome : Activity.outcome setting ⟨depth, .evaluate e, s⟩ = .ok (some value) t := map_congr h
  unfold Activity.Precedes
  rw [houtcome]
  exact ⟨trivial, hle⟩

/-- An execution that is done by the time something later starts precedes it. -/
lemma precedes_of_execute {stmt : Node} (h : execute setting depth stmt s = .ok () t)
    (hle : t.made ≤ later.state.made) : Activity.Precedes setting ⟨depth, .execute stmt, s⟩ later := by
  have houtcome : Activity.outcome setting ⟨depth, .execute stmt, s⟩ = .ok none t := map_congr h
  unfold Activity.Precedes
  rw [houtcome]
  exact ⟨trivial, hle⟩

/-- A test that has ended well has evaluated the condition, and makes no function beyond that. -/
lemma exists_ok_of_whileTest {condition : Node} {b : Bool} (h : whileTest setting depth condition s = .ok b t) :
    ∃ value u, evaluate setting depth condition s = .ok value u ∧ u.made = t.made := by
  obtain ⟨value, u, hvalue, hrest⟩ := bind_eq_ok.mp h
  cases hrest
  exact ⟨value, u, hvalue, rfl⟩

/-- The callee of a call comes first, then the arguments come in their order, and the call itself comes last. -/
lemma Starts.sequential_of_call {callee paren arguments : Node}
    (h : Starts setting depth (.evaluate (.call callee paren arguments)) s first t)
    (h' : Starts setting depth (.evaluate (.call callee paren arguments)) s second u) :
    Activity.Sequential setting ⟨depth, first, t⟩ ⟨depth, second, u⟩ := by
  have hcounts : ∀ e, Counts (evaluate setting depth e) := manner_counts.evaluate setting depth
  have hle : ∀ {es : List Node} {values : List Value} {s t : State},
      es.mapM (evaluate setting depth) s = .ok values t → s.made ≤ t.made :=
    fun hrun => (manner_counts.mapM hcounts _).of_ok hrun
  cases h with
  | callee =>
    cases h' with
    | callee => exact .inl rfl
    | argument _ hf hargs => exact .inr (.inl (precedes_of_evaluate hf (hle hargs)))
    | call _ hf hargs => exact .inr (.inl (precedes_of_evaluate hf (hle hargs)))
  | argument hitems hf hargs =>
    cases h' with
    | callee => exact .inr (.inr (precedes_of_evaluate hf (hle hargs)))
    | argument hitems' hf' hargs' =>
      cases hf.symm.trans hf'
      have hsplit := Except.ok.inj (hitems.symm.trans hitems')
      rcases mapM_ordered hcounts hargs hargs' hsplit with ⟨rfl, rfl⟩ | ⟨_, v, he, hv⟩ | ⟨_, v, he, hv⟩
      · exact .inl rfl
      · exact .inr (.inl (precedes_of_evaluate he hv))
      · exact .inr (.inr (precedes_of_evaluate he hv))
    | call hitems' hf' hargs' =>
      cases hf.symm.trans hf'
      obtain rfl := Except.ok.inj (hitems.symm.trans hitems')
      obtain ⟨_, v, he, hv⟩ := exists_ok_of_mapM hcounts hargs hargs'
      exact .inr (.inl (precedes_of_evaluate he hv))
  | call hitems hf hargs =>
    cases h' with
    | callee => exact .inr (.inr (precedes_of_evaluate hf (hle hargs)))
    | argument hitems' hf' hargs' =>
      cases hf.symm.trans hf'
      obtain rfl := Except.ok.inj (hitems'.symm.trans hitems)
      obtain ⟨_, v, he, hv⟩ := exists_ok_of_mapM hcounts hargs' hargs
      exact .inr (.inr (precedes_of_evaluate he hv))
    | call hitems' hf' hargs' =>
      cases hf.symm.trans hf'
      obtain rfl := Except.ok.inj (hitems.symm.trans hitems')
      cases hargs.symm.trans hargs'
      exact .inl rfl

/-- The statements of a list are executed in their order. -/
lemma sequential_of_forM {before before' after after' : List Node} {stmt stmt' : Node}
    (h : before.forM (execute setting depth) s = .ok () t) (h' : before'.forM (execute setting depth) s = .ok () u)
    (hsplit : before ++ stmt :: after = before' ++ stmt' :: after') :
    Activity.Sequential setting ⟨depth, .execute stmt, t⟩ ⟨depth, .execute stmt', u⟩ := by
  rcases forM_ordered (manner_counts.execute setting depth) h h' hsplit with ⟨rfl, rfl⟩ | ⟨v, hv, hle⟩ | ⟨v, hv, hle⟩
  · exact .inl rfl
  · exact .inr (.inl (precedes_of_execute hv hle))
  · exact .inr (.inr (precedes_of_execute hv hle))

/-- The turns of a loop are made in their order, and in each of them the condition comes before the body. -/
lemma Starts.sequential_of_while {condition body : Node}
    (h : Starts setting depth (.execute (.whileStmt condition body)) s first t)
    (h' : Starts setting depth (.execute (.whileStmt condition body)) s second u) :
    Activity.Sequential setting ⟨depth, first, t⟩ ⟨depth, second, u⟩ := by
  have htests : Counts (whileTest setting depth condition) := manner_counts.whileTest setting depth condition
  have hbodies : Counts (execute setting depth body) := manner_counts.execute setting depth body
  have hmade : ∀ {t v}, WhileTurn setting depth condition body t v → t.made ≤ v.made :=
    fun hturn => made_le_of_turns htests hbodies (.single hturn)
  -- what is done in a turn is over when the turn is
  have hcondition : ∀ {t m b later}, whileTest setting depth condition t = .ok b m →
      m.made ≤ later.state.made → Activity.Precedes setting ⟨depth, .evaluate condition, t⟩ later := by
    intro t m b later htest hle
    obtain ⟨value, v, hvalue, hv⟩ := exists_ok_of_whileTest htest
    exact precedes_of_evaluate hvalue (hv.trans_le hle)
  have hturnCondition : ∀ {t v later}, WhileTurn setting depth condition body t v → v.made ≤ later.state.made →
      Activity.Precedes setting ⟨depth, .evaluate condition, t⟩ later := by
    rintro t v later ⟨m, htest, hrun⟩ hle
    exact hcondition htest ((hbodies.of_ok hrun).trans hle)
  have hturnBody : ∀ {t m v later}, WhileTurn setting depth condition body t v →
      whileTest setting depth condition t = .ok true m → v.made ≤ later.state.made →
      Activity.Precedes setting ⟨depth, .execute body, m⟩ later := by
    rintro t m v later ⟨m', htest, hrun⟩ htest' hle
    cases htest.symm.trans htest'
    exact precedes_of_execute hrun hle
  cases h with
  | whileCondition hturns =>
    cases h' with
    | whileCondition hturns' =>
      rcases turns_ordered htests hbodies hturns hturns' with rfl | ⟨v, hv, hle⟩ | ⟨v, hv, hle⟩
      · exact .inl rfl
      · exact .inr (.inl (hturnCondition hv hle))
      · exact .inr (.inr (hturnCondition hv hle))
    | whileBody hturns' htest' =>
      rcases turns_ordered htests hbodies hturns hturns' with rfl | ⟨v, hv, hle⟩ | ⟨v, hv, hle⟩
      · exact .inr (.inl (hcondition htest' le_rfl))
      · exact .inr (.inl (hturnCondition hv (hle.trans (htests.of_ok htest'))))
      · exact .inr (.inr (hturnBody hv htest' hle))
  | whileBody hturns htest =>
    cases h' with
    | whileCondition hturns' =>
      rcases turns_ordered htests hbodies hturns hturns' with rfl | ⟨v, hv, hle⟩ | ⟨v, hv, hle⟩
      · exact .inr (.inr (hcondition htest le_rfl))
      · exact .inr (.inl (hturnBody hv htest hle))
      · exact .inr (.inr (hturnCondition hv (hle.trans (htests.of_ok htest))))
    | whileBody hturns' htest' =>
      rcases turns_ordered htests hbodies hturns hturns' with rfl | ⟨v, hv, hle⟩ | ⟨v, hv, hle⟩
      · cases htest.symm.trans htest'
        exact .inl rfl
      · exact .inr (.inl (hturnBody hv htest (hle.trans (htests.of_ok htest'))))
      · exact .inr (.inr (hturnBody hv htest' (hle.trans (htests.of_ok htest))))

/-- What a task starts, it starts one after the other. -/
theorem Starts.sequential (h : Starts setting depth task s first t) (h' : Starts setting depth task s second u) :
    Activity.Sequential setting ⟨depth, first, t⟩ ⟨depth, second, u⟩ := by
  cases h with
  -- What a call and a loop start is ordered in lemmas of their own.  Elsewhere two different parts of one task are
  -- ordered because the later one starts from where the earlier one has ended.
  | callee => exact Starts.sequential_of_call .callee h'
  | argument hitems hf hargs => exact Starts.sequential_of_call (.argument hitems hf hargs) h'
  | call hitems hf hargs => exact Starts.sequential_of_call (.call hitems hf hargs) h'
  | whileCondition hturns => exact Starts.sequential_of_while (.whileCondition hturns) h'
  | whileBody hturns htest => exact Starts.sequential_of_while (.whileBody hturns htest) h'
  | logicalLeft =>
    cases h' with
    | logicalLeft => exact .inl rfl
    | logicalRight hleft _ => exact .inr (.inl (precedes_of_evaluate hleft le_rfl))
  | logicalRight hleft _ =>
    cases h' with
    | logicalLeft => exact .inr (.inr (precedes_of_evaluate hleft le_rfl))
    | logicalRight hleft' _ =>
      cases hleft.symm.trans hleft'
      exact .inl rfl
  | binaryLeft =>
    cases h' with
    | binaryLeft => exact .inl rfl
    | binaryRight hleft => exact .inr (.inl (precedes_of_evaluate hleft le_rfl))
  | binaryRight hleft =>
    cases h' with
    | binaryLeft => exact .inr (.inr (precedes_of_evaluate hleft le_rfl))
    | binaryRight hleft' =>
      cases hleft.symm.trans hleft'
      exact .inl rfl
  | body hparams hbody harity hbefore =>
    cases h' with
    | body hparams' hbody' harity' hbefore' =>
      obtain rfl := Except.ok.inj (hparams.symm.trans hparams')
      cases harity.symm.trans harity'
      obtain ⟨_, v, hdeclared, hstatements⟩ := bind_eq_ok.mp hbefore
      obtain ⟨_, v', hdeclared', hstatements'⟩ := bind_eq_ok.mp hbefore'
      cases hdeclared.symm.trans hdeclared'
      exact sequential_of_forM hstatements hstatements' (Except.ok.inj (hbody.symm.trans hbody'))
  | block hitems hbefore =>
    cases h' with
    | block hitems' hbefore' =>
      exact sequential_of_forM hbefore hbefore' (Except.ok.inj (hitems.symm.trans hitems'))
  | ifCondition =>
    cases h' with
    | ifCondition => exact .inl rfl
    | thenBranch hcondition _ => exact .inr (.inl (precedes_of_evaluate hcondition le_rfl))
    | elseBranch hcondition _ _ => exact .inr (.inl (precedes_of_evaluate hcondition le_rfl))
  | thenBranch hcondition htruthy =>
    cases h' with
    | ifCondition => exact .inr (.inr (precedes_of_evaluate hcondition le_rfl))
    | thenBranch hcondition' _ =>
      cases hcondition.symm.trans hcondition'
      exact .inl rfl
    | elseBranch hcondition' hfalsy _ =>
      -- One value of the condition cannot choose both branches.
      cases hcondition.symm.trans hcondition'
      exact absurd htruthy (by simp [hfalsy])
  | elseBranch hcondition hfalsy _ =>
    cases h' with
    | ifCondition => exact .inr (.inr (precedes_of_evaluate hcondition le_rfl))
    | thenBranch hcondition' htruthy =>
      cases hcondition.symm.trans hcondition'
      exact absurd htruthy (by simp [hfalsy])
    | elseBranch hcondition' _ _ =>
      cases hcondition.symm.trans hcondition'
      exact .inl rfl
  | _ =>
    cases h'
    exact .inl rfl

end Order

/-! ## What is started in the course of a task -/

section Course

variable {setting : Setting} {depth d : ℕ} {task task' : Task} {s s' : State}

/-- What a task does last makes no functions. -/
lemma Task.made_leave (task : Task) (result : EStateM.Result Stop State (Option Value)) :
    (final (task.leave result)).made = (final result).made := by
  cases task with
  | evaluate e => rfl
  | call callee args paren =>
    cases result with
    | ok value? t => rfl
    | error stop t =>
      cases stop with
      | tooDeep =>
        unfold Task.leave Task.receive failAt
        cases paren <;> rfl
      | _ => rfl
  | execute stmt =>
    cases stmt with
    | block statements => cases result <;> rfl
    | _ => rfl

/-- A task that is started begins and ends in the course of the one that starts it. -/
lemma Starts.made_le (h : Starts setting depth task s task' s') (hends : Ends (task.perform setting (depth + 1) s)) :
    (final (task'.perform setting depth s')).made ≤ (final (task.perform setting (depth + 1) s)).made := by
  obtain ⟨result, hperform, next, hnext, rfl⟩ := h.resumes manner_counts hends
  rw [hperform, task.made_leave]
  exact made_le_bind hnext s'

/-- When a task has ended, the count is at least what it was behind everything that the task led to. -/
lemma LeadsTo.made_le (h : LeadsTo setting depth task s d task' s') (hends : Ends (task.perform setting depth s)) :
    (final (task'.perform setting d s')).made ≤ (final (task.perform setting depth s)).made := by
  induction h with
  | refl => exact le_rfl
  | tail hleads hstarts ih => exact (hstarts.made_le (hleads.ends hends)).trans ih

/-- A task that is started begins where no fewer functions are made. -/
lemma Starts.le_made (h : Starts setting depth task s task' s') : s.made ≤ s'.made :=
  (h.given (P := fun _ => True) (fun _ => Task.draws fun _ => trivial) (fun v _ => v.from_true)
    fun _ _ _ _ => Value.from_true _).2.2

/-- What a task leads to starts with at least the count that the task started with. -/
lemma LeadsTo.le_made (h : LeadsTo setting depth task s d task' s') : s.made ≤ s'.made := by
  induction h with
  | refl => exact le_rfl
  | tail _ hstarts ih => exact ih.trans hstarts.le_made

end Course

namespace Activity

variable {setting : Setting} {whole first second inner last : Activity}

/-- The second activity is started in the course of the first one, or is the first one itself. -/
def Comprises (setting : Setting) (first second : Activity) : Prop :=
  LeadsTo setting first.depth first.task first.state second.depth second.task second.state

/-- Of two activities one is started in the course of the other, or one precedes the other. -/
def Ordered (setting : Setting) (first second : Activity) : Prop :=
  (first.Comprises setting second ∨ second.Comprises setting first) ∨
    first.Precedes setting second ∨ second.Precedes setting first

/-- What is done in the course of an activity precedes what is done in the course of a later one. -/
lemma Precedes.inside (h : first.Precedes setting second) (hinner : first.Comprises setting inner)
    (hlast : second.Comprises setting last) : inner.Precedes setting last :=
  ⟨hinner.ends h.1, (hinner.made_le h.1).trans (h.2.trans hlast.le_made)⟩

/-- Activities that come one after the other, and all that is done in the course of them. -/
lemma Sequential.inside (h : first.Sequential setting second) (hinner : first.Comprises setting inner)
    (hlast : second.Comprises setting last)
    (hsame : first = second → inner.Ordered setting last) : inner.Ordered setting last := by
  rcases h with hequal | hprecedes | hprecedes
  · exact hsame hequal
  · exact .inr (.inl (hprecedes.inside hinner hlast))
  · exact .inr (.inr (hprecedes.inside hlast hinner))

/-- An activity comprises itself and what is comprised in the activities that it starts. -/
lemma Comprises.eq_or_starts {depth : ℕ} {task : Task} {s : State} (h : Comprises setting ⟨depth, task, s⟩ inner) :
    inner = ⟨depth, task, s⟩ ∨ ∃ depth' started t, depth = depth' + 1 ∧ Starts setting depth' task s started t ∧
      Comprises setting ⟨depth', started, t⟩ inner := by
  refine h.eq_or_head.imp_left ?_
  obtain ⟨d, task', s'⟩ := inner
  rintro ⟨hdepth, htask, hs⟩
  exact Activity.mk.injEq .. ▸ ⟨hdepth, htask, hs⟩

/-- In the course of an activity one thing is done at a time. -/
theorem Comprises.ordered (h : whole.Comprises setting first) (h' : whole.Comprises setting second) :
    first.Ordered setting second := by
  obtain ⟨depth, task, s⟩ := whole
  -- by induction on the nesting that is left, down to the task in which the ways to the two activities part
  induction depth generalizing task s with
  | zero =>
    rcases h.eq_or_starts with rfl | ⟨_, _, _, hdepth, -⟩
    · exact .inl (.inl h')
    · cases hdepth
  | succ depth ih =>
    rcases h.eq_or_starts with rfl | ⟨_, started, t, hdepth, hstarts, hinner⟩
    · exact .inl (.inl h')
    rcases h'.eq_or_starts with rfl | ⟨_, started', t', hdepth', hstarts', hinner'⟩
    · exact .inl (.inr h)
    cases hdepth
    cases hdepth'
    -- they part here if they are inside of two tasks that are started one after the other
    refine (hstarts.sequential hstarts').inside hinner hinner' fun hequal => ?_
    cases hequal
    exact ih started t hinner hinner'

end Activity

/-! ## Runs -/

section Runs

variable {setting : Setting} {statements : List Node} {start : State} {first second activity : Activity}

/-- What a run comes to is done in the course of one of its statements. -/
lemma Reached.exists_statement {depth : ℕ} {task : Task} {s : State}
    (h : Reached setting statements start depth task s) :
    ∃ before stmt after t, statements = before ++ stmt :: after ∧
      (do record .runStart; before.forM (execute setting setting.depth) : Exec Unit) start = .ok () t ∧
      Activity.Comprises setting ⟨setting.depth, .execute stmt, t⟩ ⟨depth, task, s⟩ := by
  induction h with
  | statement hsplit hbefore => exact ⟨_, _, _, _, hsplit, hbefore, .refl⟩
  | task _ hstarts ih =>
    obtain ⟨before, stmt, after, t, hsplit, hbefore, hleads⟩ := ih
    exact ⟨before, stmt, after, t, hsplit, hbefore, .tail hleads hstarts⟩

/-- A run comes to an activity. -/
def Activity.InRun (setting : Setting) (statements : List Node) (start : State) (activity : Activity) : Prop :=
  Reached setting statements start activity.depth activity.task activity.state

/-- A run does one thing at a time: of two things that it does, one is done in the course of the other, or one comes
to its result before the other begins. -/
theorem Activity.InRun.ordered (h : first.InRun setting statements start)
    (h' : second.InRun setting statements start) : first.Ordered setting second := by
  obtain ⟨before, stmt, after, t, hsplit, hbefore, hinner⟩ := h.exists_statement
  obtain ⟨before', stmt', after', t', hsplit', hbefore', hinner'⟩ := h'.exists_statement
  refine (sequential_of_forM hbefore hbefore' (hsplit.symm.trans hsplit')).inside hinner hinner' fun hequal => ?_
  cases hequal
  exact hinner.ordered hinner'

/-- What a run comes to begins where no fewer functions are made than at the beginning. -/
lemma Activity.InRun.le_made (h : activity.InRun setting statements start) : start.made ≤ activity.state.made := by
  obtain ⟨before, stmt, after, t, -, hbefore, hinner⟩ := h.exists_statement
  have hcounts : Counts (do record .runStart; before.forM (execute setting setting.depth) : Exec Unit) :=
    manner_counts.bind (manner_counts.record _) fun _ =>
      manner_counts.forM (manner_counts.execute setting setting.depth) before
  exact (hcounts.of_ok hbefore).trans hinner.le_made

/-- Turning the nesting limit into an error of the program makes no function. -/
lemma made_outermost (act : Exec Unit) (s : State) : (final (outermost act s)).made = (final (act s)).made := by
  unfold outermost
  cases act s with
  | ok u t => rfl
  | error stop t => cases stop <;> rfl

/-- What a run comes to ends where no more functions are made than at the end of the run, if that comes to an end. -/
lemma Activity.InRun.made_le (h : activity.InRun setting statements start)
    (hends : Ends (run setting statements start)) :
    (final (activity.outcome setting)).made ≤ (final (run setting statements start)).made := by
  obtain ⟨before, stmt, after, t, rfl, hbefore, hinner⟩ := h.exists_statement
  obtain ⟨outer, hrunning⟩ := reached_iff_running.mp (.statement rfl hbefore)
  obtain ⟨_, u, hrecord, hstatements⟩ := bind_eq_ok.mp hbefore
  have hafter : Counts (after.forM (execute setting setting.depth)) :=
    manner_counts.forM (manner_counts.execute setting setting.depth) after
  have hrun : run setting (before ++ stmt :: after) start =
      (do outermost ((before ++ stmt :: after).forM (execute setting setting.depth)); record .runEnd : Exec Unit) u :=
    bind_of_ok hrecord
  calc (final (activity.outcome setting)).made
      ≤ (final ((Task.execute stmt).perform setting setting.depth t)).made :=
        hinner.made_le (hrunning.ends_of_run hends)
    _ = (final (execute setting setting.depth stmt t)).made := by rw [Task.perform, final_map]
    _ ≤ (final ((before ++ stmt :: after).forM (execute setting setting.depth) u)).made := by
        rw [forM_of_ok hstatements]
        exact made_le_bind (fun _ => hafter) t
    _ = (final (outermost ((before ++ stmt :: after).forM (execute setting setting.depth)) u)).made :=
        (made_outermost _ u).symm
    _ ≤ (final (run setting (before ++ stmt :: after) start)).made := by
        rw [hrun]
        exact made_le_bind (fun _ => manner_counts.record _) u

end Runs

/-! ## Executions of declarations -/

/-- An activity that executes the declaration of a function, and the function that it makes. -/
inductive Activity.Makes : Activity → UserFunction → Prop
  | funDecl {depth : ℕ} {t : Leaf} {params body : Node} {s : State} :
      Makes ⟨depth + 1, .execute (.funDecl (.token t) params body), s⟩ ⟨s.made, t.lexeme.inText, params, body⟩

namespace Activity

variable {setting : Setting} {statements : List Node} {start : State} {first second activity : Activity}
  {f g : UserFunction}

/-- The identity of a function is the count at the moment when it was made. -/
lemma Makes.id_eq (h : activity.Makes f) : f.id = activity.state.made := by
  cases h
  rfl

/-- One moment makes one function. -/
lemma Makes.unique (h : activity.Makes f) (h' : activity.Makes g) : f = g := by
  cases h
  cases h'
  rfl

/-- Whatever else comes of it, when a declaration has been executed one more function is made. -/
lemma Makes.made_lt (h : activity.Makes f) (setting : Setting) :
    activity.state.made < (final (activity.outcome setting)).made := by
  obtain @⟨depth, t, params, body, s⟩ := h
  have hcounts : Counts (do declare t (.function ⟨s.made, t.lexeme.inText, params, body⟩)
                            record (.defined t.lexeme.inText) : Exec Unit) :=
    manner_counts.bind (manner_counts.declare _ _) fun _ => manner_counts.record _
  have hmade := hcounts { s with made := s.made + 1 }
  rw [Activity.outcome, Task.perform, final_map]
  exact hmade

/-- Nothing else is done in the course of the execution of a declaration. -/
lemma Makes.eq_of_comprises (h : first.Makes f) (hinner : first.Comprises setting second) : first = second := by
  cases h
  rcases hinner.eq_or_starts with rfl | ⟨_, _, _, _, hstarts, -⟩
  · rfl
  · cases hstarts

/-- Functions made one after the other differ in their identity. -/
lemma Makes.ne_of_precedes (h : first.Makes f) (h' : second.Makes g) (hprecedes : first.Precedes setting second) :
    f.id ≠ g.id := by
  rw [h.id_eq, h'.id_eq]
  exact ((h.made_lt setting).trans_le hprecedes.2).ne

/-- Two executions of declarations in a run that make functions with the same number are one. -/
theorem InRun.eq_of_makes (h : first.InRun setting statements start) (h' : second.InRun setting statements start)
    (hfirst : first.Makes f) (hsecond : second.Makes g) (hid : f.id = g.id) : first = second := by
  rcases h.ordered h' with (hinner | hinner) | hprecedes | hprecedes
  · exact hfirst.eq_of_comprises hinner
  · exact (hsecond.eq_of_comprises hinner).symm
  · exact absurd hid (hfirst.ne_of_precedes hsecond hprecedes)
  · exact absurd hid.symm (hsecond.ne_of_precedes hfirst hprecedes)

end Activity

end Scriptlet
