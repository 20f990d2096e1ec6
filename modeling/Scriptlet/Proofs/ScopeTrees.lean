import Scriptlet.Proofs.ScopeFrames
import Scriptlet.Proofs.Variables

/-!
# Variables in a tree of scopes

Reading, assigning and declaring walk a tree of scopes outwards, each on its own.  Here it is said what they
do to one another, in terms of the tree alone.  On the *clear way* of a name from a scope outwards no scope
has been passed yet that binds the name; the *holder* of the name is the scope on this way that binds it.

An assignment changes the value in the holder and nothing else, and a declaration adds a variable to one
scope and nothing else.  So in either case one scope has changed, and what a name means in another scope has
changed exactly if the clear way from there comes to this one (`ScopeTree.read_of_change`).
-/

namespace Scriptlet

namespace ScopeTree

/-- A scope of the tree binds a name itself. -/
def Binds (tree : ScopeTree) (n : ℕ) (x : Name) : Prop :=
  ∃ scope, tree.scope? n = some scope ∧ scope.frame.binds x = true

/-- On the way from the scope `n` outwards to the scope `m`, no scope in front of `m` binds the name. -/
def ClearWay (tree : ScopeTree) (x : Name) : (n m : ℕ) → Prop :=
  Relation.ReflTransGen fun n p => tree.LiesIn n p ∧ ¬ tree.Binds n x

/-- The scope `m` is the nearest one, from the scope `n` outwards, that binds the name. -/
def Holder (tree : ScopeTree) (x : Name) (n m : ℕ) : Prop :=
  tree.ClearWay x n m ∧ tree.Binds m x

/-- From two scopes outwards, the name is bound by the same nearest scope. -/
def SameHolder (tree : ScopeTree) (x : Name) (n n' : ℕ) : Prop :=
  ∃ m, tree.Holder x n m ∧ tree.Holder x n' m

/-- The name has been given a value, which is read from the scopes in `concerned`.  Whatever else is read is
read as before, an error included, and no scope has moved. -/
structure GivesValue (tree : ScopeTree) (x : Name) (value : Value) (concerned : ℕ → Prop)
    (after : ScopeTree) : Prop where
  found {n : ℕ} {y : Name} : y.key = x.key → concerned n → after.read n y = .ok value
  elsewhere {n : ℕ} {y : Name} : ¬ (y.key = x.key ∧ concerned n) → after.read n y = tree.read n y
  parent_eq (n : ℕ) : (after.scope? n).map (·.parent?) = (tree.scope? n).map (·.parent?)

variable {tree older after : ScopeTree} {scope inner : Scope} {n m k p : ℕ} {x y : Name} {value : Value}
  {frame : Frame} {outer chain : Chain}

/-! ## The chain of a scope -/

/-- Each number below the length of the tree names a scope. -/
lemma exists_scope? (h : n < tree.length) : ∃ scope, tree.scope? n = some scope := by
  refine ⟨tree.reverse.get ⟨n, by simpa using h⟩, ?_⟩
  unfold scope?
  exact List.getElem?_eq_getElem _

/-- A scope is younger than the one that it lies in. -/
lemma LiesIn.lt (h : tree.LiesIn n p) : p < n := by
  obtain ⟨_, -, -, hlt⟩ := h
  exact hlt

/-- A new scope does not change the chains of the older ones. -/
lemma chain_cons_of_ne (h : n ≠ older.length) : ScopeTree.chain (scope :: older) n = older.chain n := by
  rw [ScopeTree.chain, if_neg h]

/-- Nothing is seen from a scope that was never opened. -/
lemma chain_of_length_le (h : tree.length ≤ n) : tree.chain n = [] := by
  induction tree with
  | nil => rfl
  | cons scope older ih =>
    rw [List.length_cons] at h
    rw [chain_cons_of_ne (by omega), ih (by omega)]

/-- A number that names no scope has an empty chain. -/
lemma chain_of_scope?_eq_none (h : tree.scope? n = none) : tree.chain n = [] := by
  refine chain_of_length_le ?_
  simpa [scope?] using h

/-- A scope is seen from inside itself, and behind it whatever is seen from the scope that it lies in. -/
lemma chain_of_liesIn (hscope : tree.scope? n = some scope) (h : tree.LiesIn n p) :
    tree.chain n = scope.frame :: tree.chain p := by
  induction tree with
  | nil => cases hscope
  | cons newest older ih =>
    obtain ⟨inner, hinner, hparent, hlt⟩ := h
    obtain rfl := Option.some.inj (hscope.symm.trans hinner)
    have hne : p ≠ older.length := by
      have hlength := lt_length_of_scope? hscope
      rw [List.length_cons] at hlength
      omega
    rw [scope?_cons] at hscope
    rw [chain_cons_of_ne hne]
    split_ifs at hscope with hn
    · obtain rfl := Option.some.inj hscope
      rw [ScopeTree.chain, if_pos hn, hparent]
    · rw [chain_cons_of_ne hn]
      exact ih hscope ⟨scope, hscope, hparent, hlt⟩

/-- A scope that lies in no other one names no scope that was opened before it. -/
lemma le_parent_of_outermost (hscope : tree.scope? n = some scope) (h : ∀ p, ¬ tree.LiesIn n p) :
    ∀ p, scope.parent? = some p → n ≤ p :=
  fun p hparent => Nat.le_of_not_lt fun hlt => h p ⟨scope, hscope, hparent, hlt⟩

/-- Only a scope that lies in no other one is seen alone. -/
lemma chain_of_outermost (hscope : tree.scope? n = some scope) (h : ∀ p, ¬ tree.LiesIn n p) :
    tree.chain n = [scope.frame] := by
  induction tree with
  | nil => cases hscope
  | cons newest older ih =>
    have hparent := le_parent_of_outermost hscope h
    rw [scope?_cons] at hscope
    split_ifs at hscope with hn
    · obtain rfl := Option.some.inj hscope
      rw [ScopeTree.chain, if_pos hn]
      cases hp : newest.parent? with
      | none => rfl
      | some p =>
        have hle := hparent p hp
        exact congrArg (newest.frame :: ·) (chain_of_length_le (hn ▸ hle))
    · rw [chain_cons_of_ne hn]
      exact ih hscope fun p hp => h p hp.cons

/-- Frames are written back behind the newest scope, unless they are those that are seen from it. -/
lemma write_cons_of_ne (h : n ≠ older.length) :
    ScopeTree.write (scope :: older) n chain = scope :: ScopeTree.write older n chain := by
  cases chain with
  | nil => cases older <;> rfl
  | cons frame outer => rw [ScopeTree.write, if_neg h]

/-- The first frame is written back to the scope itself, and those behind it to the scope that it lies in. -/
lemma scope?_write_of_liesIn (hscope : tree.scope? n = some scope) (h : tree.LiesIn n p) :
    (tree.write n (frame :: outer)).scope? k =
      if k = n then some { scope with frame } else (tree.write p outer).scope? k := by
  induction tree with
  | nil => cases hscope
  | cons newest older ih =>
    obtain ⟨inner, hinner, hparent, hlt⟩ := h
    obtain rfl := Option.some.inj (hscope.symm.trans hinner)
    have hlength := lt_length_of_scope? hscope
    rw [List.length_cons] at hlength
    rw [scope?_cons] at hscope
    rw [write_cons_of_ne (by omega : p ≠ older.length), scope?_cons, length_write]
    split_ifs at hscope with hn
    · obtain rfl := Option.some.inj hscope
      simp only [ScopeTree.write, if_pos hn, hparent]
      rw [scope?_cons, length_write, ← hn]
      split_ifs <;> rfl
    · rw [write_cons_of_ne hn, scope?_cons, length_write, ih hscope ⟨scope, hscope, hparent, hlt⟩]
      split_ifs with hk hkn <;> first | rfl | omega

/-- The frame of a scope that lies in no other one is written back to it. -/
lemma scope?_write_of_outermost (hscope : tree.scope? n = some scope) (h : ∀ p, ¬ tree.LiesIn n p) :
    (tree.write n [frame]).scope? k = if k = n then some { scope with frame } else tree.scope? k := by
  induction tree with
  | nil => cases hscope
  | cons newest older ih =>
    have hparent := le_parent_of_outermost hscope h
    rw [scope?_cons] at hscope
    split_ifs at hscope with hn
    · obtain rfl := Option.some.inj hscope
      rw [ScopeTree.write, if_pos hn]
      cases hp : newest.parent? with
      | none =>
        simp only [scope?_cons, ← hn]
        split_ifs <;> rfl
      | some p =>
        have hle := hn ▸ hparent p hp
        simp only [write_of_length_le hle, scope?_cons, ← hn]
        split_ifs <;> rfl
    · rw [write_cons_of_ne hn, scope?_cons, scope?_cons, length_write,
        ih hscope fun p hp => h p hp.cons]
      split_ifs with hk hkn <;> first | rfl | omega

/-! ## Holders -/

/-- A scope that does not bind a name has no entry under its key. -/
lemma not_binds (hscope : tree.scope? n = some scope) (h : ¬ tree.Binds n x) (hkey : y.key = x.key) :
    scope.frame.find? y = none := by
  rw [Frame.find?_of_key_eq hkey]
  by_contra hfind
  exact h ⟨scope, hscope, Option.isSome_iff_ne_none.mpr hfind⟩

/-- In a scope a name is looked up there first, and then in the scope that it lies in. -/
lemma find?_of_liesIn (hscope : tree.scope? n = some scope) (h : tree.LiesIn n p) :
    (tree.chain n).find? x = (scope.frame.find? x).or ((tree.chain p).find? x) := by
  rw [chain_of_liesIn hscope h, Chain.find?, List.findSome?_cons]
  cases scope.frame.find? x <;> rfl

/-- In an outermost scope a name is looked up in this scope only. -/
lemma find?_of_outermost (hscope : tree.scope? n = some scope) (h : ∀ p, ¬ tree.LiesIn n p) :
    (tree.chain n).find? x = scope.frame.find? x := by
  rw [chain_of_outermost hscope h, Chain.find?, List.findSome?_cons]
  cases scope.frame.find? x <;> rfl

/-- A way leads to scopes that were opened before. -/
lemma ClearWay.le (h : tree.ClearWay x n m) : m ≤ n := by
  induction h with
  | refl => exact le_rfl
  | tail _ hstep ih => exact hstep.1.lt.le.trans ih

/-- The clear way of a name from a scope leads to scopes around it. -/
lemma ClearWay.reaches (h : tree.ClearWay x n m) : Relation.ReflTransGen tree.LiesIn n m := by
  induction h with
  | refl => exact .refl
  | tail _ hstep ih => exact ih.tail hstep.1

/-- A scope has at most one holder of a name. -/
lemma Holder.unique (h : tree.Holder x n m) (h' : tree.Holder x n k) : m = k := by
  obtain ⟨hway, hm⟩ := h
  obtain ⟨hway', hk⟩ := h'
  induction hway using Relation.ReflTransGen.head_induction_on with
  | refl =>
    rcases hway'.cases_head with heq | ⟨p, hstep, -⟩
    · exact heq
    · exact absurd hm hstep.2
  | head hstep _ ih =>
    rcases hway'.cases_head with rfl | ⟨p, hstep', hway'⟩
    · exact absurd hk hstep.2
    · obtain ⟨inner, hinner, hparent, -⟩ := hstep.1
      obtain ⟨inner', hinner', hparent', -⟩ := hstep'.1
      obtain rfl := Option.some.inj (hinner.symm.trans hinner')
      obtain rfl := Option.some.inj (hparent.symm.trans hparent')
      exact ih hway'

/-- If a scope or one around it binds a name, then one of them is the nearest. -/
lemma exists_holder_iff :
    (∃ m, tree.Holder x n m) ↔ ∃ m, Relation.ReflTransGen tree.LiesIn n m ∧ tree.Binds m x := by
  constructor
  · rintro ⟨m, hway, hm⟩
    exact ⟨m, hway.reaches, hm⟩
  · rintro ⟨m, hreach, hm⟩
    induction hreach using Relation.ReflTransGen.head_induction_on with
    | refl => exact ⟨m, .refl, hm⟩
    | @head n p hstep _ ih =>
      obtain ⟨k, hway, hk⟩ := ih
      by_cases hn : tree.Binds n x
      · exact ⟨n, .refl, hn⟩
      · exact ⟨k, .head ⟨hstep, hn⟩ hway, hk⟩

/-! ## Reading from trees that agree -/

/-- What a scope lies in is its recorded parent, if that is older. -/
lemma liesIn_iff : tree.LiesIn n p ↔ (tree.scope? n).map (·.parent?) = some (some p) ∧ p < n := by
  simp only [LiesIn, Option.map_eq_some_iff]
  exact ⟨fun ⟨scope, hscope, hparent, hlt⟩ => ⟨⟨scope, hscope, hparent⟩, hlt⟩,
    fun ⟨⟨scope, hscope, hparent⟩, hlt⟩ => ⟨scope, hscope, hparent, hlt⟩⟩

/-- A name is found alike in two trees if the scopes agree on it as far as the search comes: `P` holds of the
scope that it begins in, and with a scope that does not bind the name also of the scope around it. -/
lemma find?_congr {P : ℕ → Prop}
    (hparent : ∀ k, (after.scope? k).map (·.parent?) = (tree.scope? k).map (·.parent?))
    (hframe : ∀ k, P k → (after.scope? k).map (·.frame.find? y) = (tree.scope? k).map (·.frame.find? y))
    (houtwards : ∀ k p, P k → tree.LiesIn k p → ¬ tree.Binds k y → P p) (hn : P n) :
    (after.chain n).find? y = (tree.chain n).find? y := by
  have hlies : ∀ k p, after.LiesIn k p ↔ tree.LiesIn k p := fun k p => by
    rw [liesIn_iff, liesIn_iff, hparent]
  induction n using Nat.strong_induction_on with
  | _ n ih =>
    have hsame := hframe n hn
    cases hscope : tree.scope? n with
    | none =>
      rw [hscope, Option.map_none, Option.map_eq_none_iff] at hsame
      rw [chain_of_scope?_eq_none hscope, chain_of_scope?_eq_none hsame]
    | some scope =>
      rw [hscope, Option.map_some, Option.map_eq_some_iff] at hsame
      obtain ⟨scope', hscope', hfind⟩ := hsame
      by_cases hp : ∃ p, tree.LiesIn n p
      · obtain ⟨p, hp⟩ := hp
        rw [find?_of_liesIn hscope hp, find?_of_liesIn hscope' ((hlies n p).mpr hp), hfind]
        cases hvalue : scope.frame.find? y with
        | some value => rfl
        | none =>
          have hbinds : ¬ tree.Binds n y := by
            rintro ⟨inner, hinner, hbinds⟩
            obtain rfl := Option.some.inj (hscope.symm.trans hinner)
            simp [Frame.binds, hvalue] at hbinds
          exact ih p hp.lt (houtwards n p hn hp hbinds)
      · have hp' : ∀ p, ¬ after.LiesIn n p := fun p h => hp ⟨p, (hlies n p).mp h⟩
        rw [find?_of_outermost hscope (not_exists.mp hp), find?_of_outermost hscope' hp', hfind]

/-- After a change in one scope, the name is found there in the scopes from which the clear way comes to it, and as
before in all others. -/
lemma find?_of_change (hother : ∀ k, k ≠ m → after.scope? k = tree.scope? k)
    (hparent : ∀ k, (after.scope? k).map (·.parent?) = (tree.scope? k).map (·.parent?))
    (hchanged : (after.scope? m).bind (·.frame.find? y) = some value) (hkey : y.key = x.key) :
    (tree.ClearWay x n m → (after.chain n).find? y = some value) ∧
      (¬ tree.ClearWay x n m → (after.chain n).find? y = (tree.chain n).find? y) := by
  have hbinds : ∀ k, tree.Binds k y ↔ tree.Binds k x := fun k => by
    simp only [Binds, Frame.binds, Frame.find?_of_key_eq hkey]
  constructor
  · intro hway
    induction hway using Relation.ReflTransGen.head_induction_on with
    | refl =>
      obtain ⟨scope, hscope, hfind⟩ := Option.bind_eq_some_iff.mp hchanged
      by_cases hp : ∃ p, after.LiesIn m p
      · obtain ⟨p, hp⟩ := hp
        rw [find?_of_liesIn hscope hp, hfind]
        rfl
      · rw [find?_of_outermost hscope (not_exists.mp hp), hfind]
    | @head k p hstep hway ih =>
      obtain ⟨hlies, hk⟩ := hstep
      -- the scope that has changed lies further out
      have hle : m ≤ p := ClearWay.le hway
      obtain ⟨scope, hscope, hp, hlt⟩ := hlies
      have hscope' := (hother k (by omega)).trans hscope
      rw [find?_of_liesIn hscope' ⟨scope, hscope', hp, hlt⟩, not_binds hscope hk hkey, ih]
      rfl
  · intro hway
    refine find?_congr (P := fun k => ¬ tree.ClearWay x k m) hparent (fun k hk => ?_)
      (fun k p hk hlies hy hp => hk (.head ⟨hlies, mt (hbinds k).mpr hy⟩ hp)) hway
    have hne : k ≠ m := by
      rintro rfl
      exact hk .refl
    rw [hother k hne]

/-! ## Assigning and declaring -/

/-- A read gives the same, error or value, where the chain gives the same. -/
lemma read_eq (h : (after.chain n).find? y = (tree.chain n).find? y) : after.read n y = tree.read n y := by
  unfold read Chain.read
  rw [h]

/-- A read gives the value that the chain holds. -/
lemma read_eq_ok (h : (tree.chain n).find? y = some value) : tree.read n y = .ok value := by
  unfold read
  exact Chain.read_eq_ok.mpr h

/-- After a change in the frame of one scope that concerns one name, this name has the new value where the
clear way comes to the scope. -/
lemma givesValue_of_change (hother : ∀ k, k ≠ m → after.scope? k = tree.scope? k)
    (hscope : tree.scope? m = some scope) (hafter : after.scope? m = some { scope with frame })
    (hsame : ∀ y : Name, y.key = x.key → frame.find? y = some value)
    (helse : ∀ y : Name, y.key ≠ x.key → frame.find? y = scope.frame.find? y) :
    tree.GivesValue x value (tree.ClearWay x · m) after := by
  have hparent : ∀ k, (after.scope? k).map (·.parent?) = (tree.scope? k).map (·.parent?) := by
    intro k
    by_cases hk : k = m
    · rw [hk, hscope, hafter]
      rfl
    · rw [hother k hk]
  have hfind : ∀ y : Name, y.key = x.key → (after.scope? m).bind (·.frame.find? y) = some value := by
    intro y hkey
    rw [hafter]
    exact hsame y hkey
  refine ⟨fun {n y} hkey hway => ?_, fun {n y} hmiss => ?_, hparent⟩
  · exact read_eq_ok ((find?_of_change hother hparent (hfind y hkey) hkey).1 hway)
  · refine read_eq ?_
    by_cases hkey : y.key = x.key
    · exact (find?_of_change hother hparent (hfind y hkey) hkey).2 fun hway => hmiss ⟨hkey, hway⟩
    · refine find?_congr (P := fun _ => True) hparent (fun k _ => ?_) (fun _ _ _ _ _ => trivial) trivial
      by_cases hk : k = m
      · rw [hk, hscope, hafter, Option.map_some, Option.map_some, helse y hkey]
      · rw [hother k hk]

/-- An assignment is made in the holder of the name. -/
lemma exists_holder_of_assign? (h : (tree.chain n).assign? x value = some chain) :
    ∃ m scope, tree.Holder x n m ∧ tree.scope? m = some scope ∧
      ∀ k, (tree.write n chain).scope? k =
        if k = m then some { scope with frame := scope.frame.assign x value } else tree.scope? k := by
  induction n using Nat.strong_induction_on generalizing chain with
  | _ n ih =>
    cases hscope : tree.scope? n with
    | none =>
      rw [chain_of_scope?_eq_none hscope] at h
      cases h
    | some scope =>
      have hbinds : tree.Binds n x ↔ scope.frame.binds x = true := by
        simp [Binds, hscope]
      by_cases hp : ∃ p, tree.LiesIn n p
      · obtain ⟨p, hp⟩ := hp
        rw [chain_of_liesIn hscope hp, Chain.assign?] at h
        split_ifs at h with hx
        · obtain rfl := Option.some.inj h
          refine ⟨n, scope, ⟨.refl, hbinds.mpr hx⟩, hscope, fun k => ?_⟩
          rw [scope?_write_of_liesIn hscope hp, write_chain]
        · obtain ⟨outer, houter, rfl⟩ := Option.map_eq_some_iff.mp h
          obtain ⟨m, holder, ⟨hway, hm⟩, hholder, hwrite⟩ := ih p hp.lt houter
          refine ⟨m, holder, ⟨.head ⟨hp, mt hbinds.mp hx⟩ hway, hm⟩, hholder, fun k => ?_⟩
          have hle : m ≤ p := ClearWay.le hway
          have hlt := hp.lt
          rw [scope?_write_of_liesIn hscope hp, hwrite k]
          split_ifs with hk hkm <;> first | rfl | omega | rw [hk, hscope]
      · have hnone := not_exists.mp hp
        rw [chain_of_outermost hscope hnone, Chain.assign?] at h
        split_ifs at h with hx
        · obtain rfl := Option.some.inj h
          exact ⟨n, scope, ⟨.refl, hbinds.mpr hx⟩, hscope, fun k => scope?_write_of_outermost hscope hnone⟩
        · cases h

/-- A declaration is made in the scope itself, which does not bind the name yet. -/
lemma write_of_declare? (h : (tree.chain n).declare? x value = some chain) :
    ∃ scope, tree.scope? n = some scope ∧ scope.frame.binds x = false ∧
      ∀ k, (tree.write n chain).scope? k =
        if k = n then some { scope with frame := (x, value) :: scope.frame } else tree.scope? k := by
  cases hscope : tree.scope? n with
  | none =>
    rw [chain_of_scope?_eq_none hscope] at h
    cases h
  | some scope =>
    by_cases hp : ∃ p, tree.LiesIn n p
    · obtain ⟨p, hp⟩ := hp
      rw [chain_of_liesIn hscope hp, Chain.declare?] at h
      split_ifs at h with hx
      obtain rfl := Option.some.inj h
      refine ⟨scope, rfl, Bool.eq_false_iff.mpr hx, fun k => ?_⟩
      rw [scope?_write_of_liesIn hscope hp, write_chain]
    · have hnone := not_exists.mp hp
      rw [chain_of_outermost hscope hnone, Chain.declare?] at h
      split_ifs at h with hx
      obtain rfl := Option.some.inj h
      exact ⟨scope, rfl, Bool.eq_false_iff.mpr hx, fun k => scope?_write_of_outermost hscope hnone⟩

/-- An assignment succeeds if the chain takes it, and writes the chain back. -/
lemma assign_eq_ok :
    tree.assign n x value = .ok after ↔
      ∃ chain, (tree.chain n).assign? x value = some chain ∧ tree.write n chain = after := by
  unfold assign Chain.assign
  cases (tree.chain n).assign? x value <;> simp [Except.map]

/-- A declaration succeeds if the chain takes it, and writes the chain back. -/
lemma declare_eq_ok :
    tree.declare n x value = .ok after ↔
      ∃ chain, (tree.chain n).declare? x value = some chain ∧ tree.write n chain = after := by
  unfold declare Chain.declare
  cases (tree.chain n).declare? x value <;> simp [Except.map]

/-- An assignment succeeds exactly when the name has a holder. -/
lemma exists_assign_iff :
    (∃ after, tree.assign n x value = .ok after) ↔ ∃ m, tree.Holder x n m := by
  constructor
  · rintro ⟨after, h⟩
    obtain ⟨chain, hchain, -⟩ := assign_eq_ok.mp h
    obtain ⟨m, -, hholder, -⟩ := exists_holder_of_assign? hchain
    exact ⟨m, hholder⟩
  · rintro ⟨m, hway, scope, hscope, hbinds⟩
    obtain ⟨old, hold⟩ := Option.isSome_iff_exists.mp hbinds
    have hbound : (tree.scope? m).bind (·.frame.find? x) = some old := by
      rw [hscope]
      exact hold
    have hfind : (tree.chain n).find? x = some old :=
      (find?_of_change (fun _ _ => rfl) (fun _ => rfl) hbound rfl).1 hway
    have hsome : ((tree.chain n).assign? x value).isSome = true := by
      rw [Chain.isSome_assign?, hfind]
      rfl
    obtain ⟨chain, hchain⟩ := Option.isSome_iff_exists.mp hsome
    exact ⟨_, assign_eq_ok.mpr ⟨chain, hchain, rfl⟩⟩

/-- After an assignment the name has the value in all scopes that have the same holder for it. -/
lemma givesValue_of_assign (h : tree.assign n x value = .ok after) :
    tree.GivesValue x value (tree.SameHolder x n) after := by
  obtain ⟨chain, hchain, rfl⟩ := assign_eq_ok.mp h
  obtain ⟨m, scope, hholder, hscope, hwrite⟩ := exists_holder_of_assign? hchain
  have hconcerned : tree.SameHolder x n = (tree.ClearWay x · m) := by
    funext k
    refine propext ⟨?_, fun hway => ⟨m, hholder, hway, hholder.2⟩⟩
    rintro ⟨m', hholder', hway, -⟩
    rwa [hholder.unique hholder']
  have hbound : (scope.frame.find? x).isSome = true := by
    obtain ⟨inner, hinner, hbinds⟩ := hholder.2
    obtain rfl := Option.some.inj (hscope.symm.trans hinner)
    exact hbinds
  obtain ⟨old, hold⟩ := Option.isSome_iff_exists.mp hbound
  have hafter := hwrite m
  rw [if_pos rfl] at hafter
  rw [hconcerned]
  refine givesValue_of_change (fun k hk => ?_) hscope hafter (fun y hkey => ?_) fun y hkey => ?_
  · rw [hwrite, if_neg hk]
  · rw [Frame.find?_assign, if_pos hkey, hold, Option.map_some]
  · rw [Frame.find?_assign, if_neg hkey]

/-- An assignment binds no name and unbinds none. -/
lemma names?_of_assign (h : tree.assign n x value = .ok after) (m : ℕ) : after.names? m = tree.names? m := by
  obtain ⟨chain, hchain, rfl⟩ := assign_eq_ok.mp h
  exact names?_write (Chain.names_of_assign? hchain) m

/-- A declaration succeeds exactly in a scope that does not bind the name. -/
lemma exists_declare_iff :
    (∃ after, tree.declare n x value = .ok after) ↔ n < tree.length ∧ ¬ tree.Binds n x := by
  constructor
  · rintro ⟨after, h⟩
    obtain ⟨chain, hchain, -⟩ := declare_eq_ok.mp h
    obtain ⟨scope, hscope, hbinds, -⟩ := write_of_declare? hchain
    refine ⟨lt_length_of_scope? hscope, ?_⟩
    rintro ⟨inner, hinner, hx⟩
    obtain rfl := Option.some.inj (hscope.symm.trans hinner)
    rw [hbinds] at hx
    cases hx
  · rintro ⟨hlt, hbinds⟩
    obtain ⟨scope, hscope⟩ := exists_scope? hlt
    have hx : ¬ scope.frame.binds x = true := fun hx => hbinds ⟨scope, hscope, hx⟩
    obtain ⟨outer, hchain⟩ : ∃ outer, tree.chain n = scope.frame :: outer := by
      by_cases hp : ∃ p, tree.LiesIn n p
      · exact ⟨_, chain_of_liesIn hscope hp.choose_spec⟩
      · exact ⟨[], chain_of_outermost hscope (not_exists.mp hp)⟩
    refine ⟨_, declare_eq_ok.mpr ⟨((x, value) :: scope.frame) :: outer, ?_, rfl⟩⟩
    rw [hchain, Chain.declare?, if_neg hx]

/-- After a declaration the name has the value in all scopes from which nothing hides the new variable. -/
lemma givesValue_of_declare (h : tree.declare n x value = .ok after) :
    tree.GivesValue x value (tree.ClearWay x · n) after := by
  obtain ⟨chain, hchain, rfl⟩ := declare_eq_ok.mp h
  obtain ⟨scope, hscope, hbinds, hwrite⟩ := write_of_declare? hchain
  have hafter := hwrite n
  rw [if_pos rfl] at hafter
  refine givesValue_of_change (fun k hk => ?_) hscope hafter (fun y hkey => ?_) fun y hkey => ?_
  · rw [hwrite, if_neg hk]
  · rw [Frame.find?, if_pos hkey.symm]
  · rw [Frame.find?, if_neg (Ne.symm hkey)]

/-- A declaration binds one name in one scope, and unbinds none. -/
lemma names?_of_declare (h : tree.declare n x value = .ok after) (m : ℕ) :
    after.names? m = if m = n then (tree.names? n).map (x :: ·) else tree.names? m := by
  obtain ⟨chain, hchain, rfl⟩ := declare_eq_ok.mp h
  obtain ⟨scope, hscope, -, hwrite⟩ := write_of_declare? hchain
  unfold names?
  rw [hwrite]
  split_ifs
  · rw [hscope]
    rfl
  · rfl

/-- A scope that is opened binds nothing, and leaves all others alone. -/
lemma scope?_extend (parent? : Option ℕ) (m : ℕ) :
    (tree.extend [] parent?).scope? m = if m = tree.length then some ⟨[], parent?⟩ else tree.scope? m :=
  scope?_cons

end ScopeTree

/-- What a script does to the scopes with an assignment or a declaration is what is done to the tree; if that
fails, nothing is done to any scope. -/
lemma Session.scopes_of_attempt (session : Session) (n : ℕ) {t : Leaf} {x : Name} (ht : t.name? = .ok x)
    (value : Value) :
    (session.resume n (Exec.final (Exec.assign t value (session.state n)))).scopes =
        ((session.scopes.assign n x value).toOption.getD session.scopes) ∧
      (session.resume n (Exec.final (Exec.declare t value (session.state n)))).scopes =
        ((session.scopes.declare n x value).toOption.getD session.scopes) := by
  have hkept := session.scopes.write_chain n
  constructor
  · unfold Exec.assign ScopeTree.assign
    rw [ht, Exec.part_ok, pure_bind, Exec.get_bind]
    cases hresult : (session.scopes.chain n).assign x value with
    | ok scopes =>
      simp only [Session.state, hresult]
      rfl
    | error cause =>
      simp only [Session.state, hresult]
      exact hkept
  · unfold Exec.declare ScopeTree.declare
    rw [ht, Exec.part_ok, pure_bind, Exec.get_bind]
    cases hresult : (session.scopes.chain n).declare x value with
    | ok scopes =>
      simp only [Session.state, hresult]
      rfl
    | error cause =>
      simp only [Session.state, hresult]
      exact hkept

/-- The laws of a tree of scopes, whatever it is like.  Assigning to a name in a scope succeeds exactly if this
scope or one around it binds the name.  Then the name has the new value in all scopes that have the same holder
for it, and whatever else is read anywhere is read as before.  Declaring a name in a scope succeeds exactly if
the scope does not bind it.  Then the name has its value in this scope and in those inside it from which no
scope on the way binds the name, and whatever else is read anywhere is read as before.  The declared name is
the only one that is bound anew, in this scope alone; and a script whose assignment or declaration fails
leaves the whole tree as it was. -/
theorem scope_tree_laws (tree : ScopeTree) (n : ℕ) (x : Name) (value : Value) :
    ((∃ after, tree.assign n x value = .ok after) ↔
      ∃ m, Relation.ReflTransGen tree.LiesIn n m ∧ tree.Binds m x) ∧
    (∀ after, tree.assign n x value = .ok after →
      tree.GivesValue x value (tree.SameHolder x n) after ∧ ∀ m, after.names? m = tree.names? m) ∧
    ((∃ after, tree.declare n x value = .ok after) ↔ n < tree.length ∧ ¬ tree.Binds n x) ∧
    (∀ after, tree.declare n x value = .ok after →
      tree.GivesValue x value (tree.ClearWay x · n) after ∧
        ∀ m, after.names? m = if m = n then (tree.names? n).map (x :: ·) else tree.names? m) ∧
    (∀ parent? m, (tree.extend [] parent?).scope? m =
      if m = tree.length then some ⟨[], parent?⟩ else tree.scope? m) ∧
    ∀ (session : Session) (t : Leaf), session.scopes = tree → t.name? = .ok x →
      (session.resume n (Exec.final (Exec.assign t value (session.state n)))).scopes =
          ((tree.assign n x value).toOption.getD tree) ∧
        (session.resume n (Exec.final (Exec.declare t value (session.state n)))).scopes =
          ((tree.declare n x value).toOption.getD tree) := by
  refine ⟨ScopeTree.exists_assign_iff.trans ScopeTree.exists_holder_iff,
    fun after h => ⟨ScopeTree.givesValue_of_assign h, ScopeTree.names?_of_assign h⟩,
    ScopeTree.exists_declare_iff,
    fun after h => ⟨ScopeTree.givesValue_of_declare h, ScopeTree.names?_of_declare h⟩,
    fun _ _ => ScopeTree.scope?_extend _ _, ?_⟩
  rintro session t rfl ht
  exact session.scopes_of_attempt n ht value

/-- A scope with two scopes in it, one of which has a scope in it in turn.  The outermost and the innermost
scope bind one name. -/
def siblings : ScopeTree :=
  [⟨[(.ofText "a", .bool true)], some 1⟩, ⟨[], some 0⟩, ⟨[], some 0⟩, ⟨[(.ofText "a", .nil)], none⟩]

/-- What is assigned in one of two scopes next to each other is read in the other one, but not in the scope
inside it that hides the variable. -/
theorem siblings_share_assignment :
    ∃ after, siblings.assign 1 (.ofText "a") (.number 1) = .ok after ∧
      after.read 2 (.ofText "a") = .ok (.number 1) ∧
      after.read 3 (.ofText "a") = siblings.read 3 (.ofText "a") := by
  obtain ⟨hsucceeds, hassign, -⟩ := scope_tree_laws siblings 1 (.ofText "a") (.number 1)
  have hempty : ∀ n, siblings.scope? n = some ⟨[], some 0⟩ → ¬ siblings.Binds n (.ofText "a") := by
    rintro n hn ⟨scope, hscope, hbinds⟩
    obtain rfl := Option.some.inj (hn.symm.trans hscope)
    cases hbinds
  have hroot : siblings.Binds 0 (.ofText "a") := ⟨⟨[(.ofText "a", .nil)], none⟩, rfl, rfl⟩
  have hinner : siblings.Binds 3 (.ofText "a") := ⟨⟨[(.ofText "a", .bool true)], some 1⟩, rfl, rfl⟩
  have hlies : siblings.LiesIn 1 0 ∧ siblings.LiesIn 2 0 :=
    ⟨⟨⟨[], some 0⟩, rfl, rfl, by decide⟩, ⟨[], some 0⟩, rfl, rfl, by decide⟩
  have hholder : siblings.Holder (.ofText "a") 1 0 := ⟨.single ⟨hlies.1, hempty 1 rfl⟩, hroot⟩
  have hholder' : siblings.Holder (.ofText "a") 2 0 := ⟨.single ⟨hlies.2, hempty 2 rfl⟩, hroot⟩
  obtain ⟨after, hafter⟩ := hsucceeds.mpr ⟨0, .single hlies.1, hroot⟩
  obtain ⟨hvalue, -⟩ := hassign after hafter
  refine ⟨after, hafter, hvalue.found rfl ⟨0, hholder, hholder'⟩, hvalue.elsewhere ?_⟩
  rintro ⟨-, m, hm, hm'⟩
  obtain rfl := hholder.unique hm
  exact absurd (hm'.unique ⟨.refl, hinner⟩) (by decide)

end Scriptlet
