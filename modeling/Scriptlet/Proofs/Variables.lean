import Scriptlet.Proofs.Footprints

/-!
# Variables of the scopes around

A scope that is seen from another one is known by the number of scopes around it.  It keeps this number
whatever scopes are opened and dropped inside of it, so that one can follow a single variable through all
that a task does.

Two things decide what becomes of it.  A variable keeps its value unless an assignment is made to a name that
means this very variable (`Task.keepsValue_or_assignsTo`).  And a name means the variable of the nearest scope
that binds it, so a variable hides those of the same name further out: as long as it is there, nothing can
change them (`Chain.discipline_shadows`).
-/

namespace Scriptlet

open Exec

/-- Names with one key are bound to the same value. -/
lemma Frame.find?_of_key_eq {x y : Name} (h : x.key = y.key) (frame : Frame) :
    frame.find? x = frame.find? y := by
  induction frame with
  | nil => rfl
  | cons b rest ih =>
    rw [find?, find?, h, ih]

namespace Chain

/-- The value of a name in one scope of a chain, the one that has `n` scopes around it. -/
def valueIn? (x : Name) (n : ℕ) : Chain → Option Value
  | [] => none
  | frame :: outer => if n = outer.length then frame.find? x else valueIn? x n outer

/-- The scope whose variable a name means, by the number of scopes around it: the nearest scope that binds
the name. -/
def holder? (x : Name) : Chain → Option ℕ
  | [] => none
  | frame :: outer => if frame.binds x then some outer.length else holder? x outer

variable {x name : Name} {n m : ℕ} {value : Value} {frame : Frame} {chain outer before after : Chain}

/-- In the innermost scope a name has the value that its frame gives it. -/
lemma valueIn?_length : valueIn? x outer.length (frame :: outer) = frame.find? x := by
  rw [valueIn?, if_pos rfl]

/-- A further scope does not change the values in those around it. -/
lemma valueIn?_cons (h : n ≠ outer.length) : valueIn? x n (frame :: outer) = outer.valueIn? x n := by
  rw [valueIn?, if_neg h]

/-- A variable lies in a scope of the chain. -/
lemma lt_length_of_valueIn? (h : (chain.valueIn? x n).isSome = true) : n < chain.length := by
  induction chain with
  | nil => cases h
  | cons frame outer ih =>
    rw [List.length_cons]
    by_cases hn : n = outer.length
    · omega
    · rw [valueIn?_cons hn] at h
      exact (ih h).trans (Nat.lt_succ_self _)

/-- Where there is no scope it has none. -/
lemma valueIn?_eq_none (h : chain.length ≤ n) : chain.valueIn? x n = none := by
  by_contra hsome
  have hlt := lt_length_of_valueIn? (Option.isSome_iff_ne_none.mpr hsome)
  omega

/-- A scope that binds a name is not nearer than the one whose variable the name means. -/
lemma le_holder (hkey : name.key = x.key) (hholder : chain.holder? name = some m)
    (h : (chain.valueIn? x n).isSome = true) : n ≤ m := by
  induction chain with
  | nil => cases h
  | cons frame outer ih =>
    have hlt := lt_length_of_valueIn? h
    rw [List.length_cons] at hlt
    rw [holder?] at hholder
    by_cases hbinds : frame.binds name = true
    · rw [if_pos hbinds] at hholder
      obtain rfl := Option.some.inj hholder
      omega
    · rw [if_neg hbinds] at hholder
      have hn : n ≠ outer.length := by
        rintro rfl
        rw [valueIn?_length, ← Frame.find?_of_key_eq hkey] at h
        exact hbinds h
      rw [valueIn?_cons hn] at h
      exact ih hholder h

/-! ## Assignments -/

lemma length_of_assign? (h : chain.assign? name value = some after) : after.length = chain.length := by
  simpa using congrArg List.length (names_of_assign? h)

/-- An assignment leaves every variable alone that the name does not mean. -/
lemma valueIn?_of_assign? (hother : ¬ (name.key = x.key ∧ chain.holder? name = some n))
    (h : chain.assign? name value = some after) : after.valueIn? x n = chain.valueIn? x n := by
  induction chain generalizing after with
  | nil => cases h
  | cons frame outer ih =>
    rw [assign?] at h
    rw [holder?] at hother
    by_cases hbinds : frame.binds name = true
    · rw [if_pos hbinds] at h hother
      obtain rfl := Option.some.inj h
      by_cases hn : n = outer.length
      · have hkey : x.key ≠ name.key := fun hkey => hother ⟨hkey.symm, congrArg some hn.symm⟩
        rw [hn, valueIn?_length, valueIn?_length, Frame.find?_assign, if_neg hkey]
      · rw [valueIn?_cons hn, valueIn?_cons hn]
    · rw [if_neg hbinds] at h hother
      obtain ⟨outer', houter, rfl⟩ := Option.map_eq_some_iff.mp h
      rw [valueIn?, valueIn?, length_of_assign? houter, ih hother houter]

/-- An assignment leaves all variables where they are. -/
lemma isSome_valueIn?_of_assign? (h : chain.assign? name value = some after) :
    (after.valueIn? x n).isSome = (chain.valueIn? x n).isSome := by
  induction chain generalizing after with
  | nil => cases h
  | cons frame outer ih =>
    rw [assign?] at h
    by_cases hbinds : frame.binds name = true
    · rw [if_pos hbinds] at h
      obtain rfl := Option.some.inj h
      by_cases hn : n = outer.length
      · rw [hn, valueIn?_length, valueIn?_length, Frame.find?_assign]
        by_cases hkey : x.key = name.key
        · rw [if_pos hkey, Option.isSome_map, Frame.find?_of_key_eq hkey]
        · rw [if_neg hkey]
      · rw [valueIn?_cons hn, valueIn?_cons hn]
    · rw [if_neg hbinds] at h
      obtain ⟨outer', houter, rfl⟩ := Option.map_eq_some_iff.mp h
      rw [valueIn?, valueIn?, length_of_assign? houter]
      split
      · rfl
      · exact ih houter

/-! ## Keeping one value -/

/-- The chain has as many scopes as before, and the variable in one of them has the value that it had. -/
def KeepsValue (x : Name) (n : ℕ) (before after : Chain) : Prop :=
  after.length = before.length ∧ after.valueIn? x n = before.valueIn? x n

/-- The chain has as many scopes as before, and the variable in one of them has the value that it had, unless this is
the first scope. -/
def KeepsOuterValue (x : Name) (n : ℕ) (before after : Chain) : Prop :=
  after.length = before.length ∧ (n + 1 ≠ before.length → after.valueIn? x n = before.valueIn? x n)

instance : Std.Refl (KeepsValue x n) := ⟨fun _ => ⟨rfl, rfl⟩⟩

instance : IsTrans Chain (KeepsValue x n) :=
  ⟨fun _ _ _ h h' => ⟨h'.1.trans h.1, h'.2.trans h.2⟩⟩

instance : Std.Refl (KeepsOuterValue x n) := ⟨fun _ => ⟨rfl, fun _ => rfl⟩⟩

instance : IsTrans Chain (KeepsOuterValue x n) where
  trans _ _ _ h h' := by
    refine ⟨h'.1.trans h.1, fun hn => (h'.2 ?_).trans (h.2 hn)⟩
    rwa [h.1]

/-- A declaration changes a value in the first scope only, and what is kept inside a fresh scope is kept when it
is dropped. -/
lemma scoping_keepsValue (x : Name) (n : ℕ) : Scoping (KeepsValue x n) (KeepsOuterValue x n) where
  weaken h := ⟨h.1, fun _ => h.2⟩
  declare h := by
    obtain ⟨frame, outer, rfl, rfl⟩ := exists_of_declare h
    refine ⟨rfl, fun hn => ?_⟩
    have hne : n ≠ outer.length := fun heq => hn (congrArg Nat.succ heq)
    rw [valueIn?_cons hne, valueIn?_cons hne]
  leave {outer after} h := by
    obtain ⟨hlength, hvalue⟩ := h
    cases after with
    | nil => cases hlength
    | cons frame rest =>
      have hrest : rest.length = outer.length := Nat.succ.inj hlength
      refine ⟨hrest, ?_⟩
      by_cases hn : n = outer.length
      · rw [List.tail_cons, valueIn?_eq_none hn.ge, valueIn?_eq_none (by omega)]
      · have hkept := hvalue fun heq => hn (Nat.succ.inj heq)
        rwa [valueIn?_cons (by omega), valueIn?_cons hn] at hkept

/-! ## Hiding variables -/

/-- Every variable of a name is still there, and those of the same name in scopes further out have the
values that they had. -/
def Shadows (x : Name) (before after : Chain) : Prop :=
  after.length = before.length ∧ ∀ n, (before.valueIn? x n).isSome = true →
    (after.valueIn? x n).isSome = true ∧ ∀ m < n, after.valueIn? x m = before.valueIn? x m

instance : Std.Refl (Shadows x) := ⟨fun _ => ⟨rfl, fun _ h => ⟨h, fun _ _ => rfl⟩⟩⟩

instance : IsTrans Chain (Shadows x) where
  trans _ _ _ h h' := by
    refine ⟨h'.1.trans h.1, fun n hn => ?_⟩
    obtain ⟨hbound, hkept⟩ := h.2 n hn
    obtain ⟨hbound', hkept'⟩ := h'.2 n hbound
    exact ⟨hbound', fun m hm => (hkept' m hm).trans (hkept m hm)⟩

/-- An assignment changes the nearest variable of its name, and none further out. -/
lemma shadows_of_assign (h : before.assign name value = .ok after) : Shadows x before after := by
  have hassign := assign_eq_ok.mp h
  refine ⟨length_of_assign? hassign, fun n hn => ⟨?_, fun m hm => valueIn?_of_assign? ?_ hassign⟩⟩
  · rw [isSome_valueIn?_of_assign? hassign]
    exact hn
  · rintro ⟨hkey, hholder⟩
    have hle := le_holder hkey hholder hn
    omega

/-- A declaration changes no variable further out than the first scope. -/
lemma shadows_of_declare (h : before.declare name value = .ok after) : Shadows x before after := by
  obtain ⟨frame, outer, rfl, rfl⟩ := exists_of_declare h
  refine ⟨rfl, fun n hn => ?_⟩
  have hlt := lt_length_of_valueIn? hn
  rw [List.length_cons] at hlt
  refine ⟨?_, fun m hm => by rw [valueIn?_cons (by omega), valueIn?_cons (by omega)]⟩
  by_cases hfirst : n = outer.length
  · rw [hfirst, valueIn?_length] at hn ⊢
    rw [Frame.find?]
    split
    · rfl
    · exact hn
  · rw [valueIn?_cons hfirst] at hn ⊢
    exact hn

/-- A fresh scope binds nothing, so it hides nothing, and dropping it uncovers nothing. -/
lemma Shadows.tail (h : Shadows x ([] :: outer) after) : Shadows x outer after.tail := by
  obtain ⟨hlength, hkept⟩ := h
  cases after with
  | nil => cases hlength
  | cons frame rest =>
    have hrest : rest.length = outer.length := Nat.succ.inj hlength
    refine ⟨hrest, fun n hn => ?_⟩
    have hlt := lt_length_of_valueIn? hn
    have hvalue : ∀ {k}, k ≤ n → valueIn? x k ([] :: outer) = outer.valueIn? x k ∧
        valueIn? x k (frame :: rest) = valueIn? x k rest :=
      fun hk => ⟨valueIn?_cons (by omega), valueIn?_cons (by omega)⟩
    obtain ⟨hbefore, hafter⟩ := hvalue le_rfl
    obtain ⟨hbound, hothers⟩ := hkept n (by rw [hbefore]; exact hn)
    rw [hafter] at hbound
    refine ⟨hbound, fun m hm => ?_⟩
    obtain ⟨hbefore, hafter⟩ := hvalue hm.le
    rw [List.tail_cons, ← hafter, ← hbefore]
    exact hothers m hm

/-- Variables hide those of the same name further out, from all that runs. -/
lemma discipline_shadows (x : Name) : Discipline (Shadows x) (Shadows x) where
  weaken := id
  declare := shadows_of_declare
  leave := Shadows.tail
  assign := shadows_of_assign

end Chain

/-- A declaration is made in the first scope, or fails and changes nothing. -/
lemma Exec.declare_cases (t : Leaf) (value : Value) (s : State) :
    (∃ name scopes, t.name? = .ok name ∧ s.scopes.declare name value = .ok scopes ∧
      declare t value s = .ok () { s with scopes }) ∨
    ∃ stop, declare t value s = .error stop s := by
  unfold declare
  cases t.name? with
  | error fault => exact .inr ⟨.fault fault, rfl⟩
  | ok name =>
    rw [part_ok, pure_bind, get_bind]
    cases hdeclare : s.scopes.declare name value with
    | error cause => exact .inr ⟨.failed ⟨cause, some t.place⟩, rfl⟩
    | ok scopes => exact .inl ⟨name, scopes, rfl, hdeclare, rfl⟩

/-- A task comes to assign to a variable in one of the scopes that it sees, the one that has `n` scopes
around it: it evaluates an assignment to a name that means this variable. -/
def Task.AssignsTo (setting : Setting) (depth : ℕ) (task : Task) (s : State) (x : Name) (n : ℕ) : Prop :=
  ∃ d t e s' value u name, LeadsTo setting depth task s (d + 1) (.evaluate (.assign (.token t) e)) s' ∧
    Exec.evaluate setting d e s' = .ok value u ∧ t.name? = .ok name ∧ name.key = x.key ∧
    u.scopes.holder? name = some n

/-- A variable of a scope keeps its value in all that a task does, unless the task comes to assign to it;
only in the innermost scope a statement may declare it. -/
theorem Task.keepsValue_or_assignsTo (setting : Setting) (depth : ℕ) (task : Task) (s : State) (x : Name)
    (n : ℕ) :
    RespectsFrom (task.effect (Chain.KeepsValue x n) (Chain.KeepsOuterValue x n)) s
      (task.perform setting depth) ∨ task.AssignsTo setting depth s x n := by
  by_cases hassigns : task.AssignsTo setting depth s x n
  · exact .inr hassigns
  · refine .inl ((Chain.scoping_keepsValue x n).respectsFrom_perform fun {_ _ _ _ _ u} hleads hvalue => ?_)
    refine respectsFrom_assign fun {name after} hname hassign => ?_
    have hother : ¬ (name.key = x.key ∧ u.scopes.holder? name = some n) :=
      fun hmeans => hassigns ⟨_, _, _, _, _, _, name, hleads, hvalue, hname, hmeans⟩
    have hassign := Chain.assign_eq_ok.mp hassign
    exact ⟨Chain.length_of_assign? hassign, Chain.valueIn?_of_assign? hother hassign⟩

end Scriptlet
