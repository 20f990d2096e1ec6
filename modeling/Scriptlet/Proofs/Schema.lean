import Scriptlet.Proofs.Loading

/-!
# What can be loaded

Loading a tree has a schema.  A value is loaded exactly if everything that is reached from it, through the items
of lists and the declared fields of nodes, fits (`Json.Fits`): every object is a token with its fields or a node
of some class with its fields, and the integers that stand as values of literals are within the range of doubles.

What does not fit offends at a place.  The places are paths of indices, in the order in which the loader looks at
them: the items of a list as they stand, the fields of a node as its class declares them, each with everything
inside it, and the value of a literal once more behind its fields.  The error is that of the first offence.

What the loader does not look at does not matter: the order of the members of objects, members that are not
declared, and what the fields of tokens hold (`Json.Alike`).
-/

namespace Scriptlet

/-! ## Places -/

namespace Json

/-- The value that is reached along a path of indices. -/
def at? : Json → List ℕ → Option Json
  | o, [] => some o
  | o, k :: path => (o.child? k).bind fun c => c.at? path

/-- What is wrong at a place: the last index is that of an offence in the value that is reached along the
others. -/
def OffendsAt (o : Json) (place : List ℕ) (e : LoadError) : Prop :=
  ∃ path k o', place = path ++ [k] ∧ o.at? path = some o' ∧ o'.Offends k e

variable {o c : Json} {k : ℕ} {e e' : LoadError}

/-- A child is smaller than the value that it stands in, so induction on the size reaches it. -/
lemma sizeOf_child (h : o.child? k = some c) : sizeOf c < sizeOf o := by
  cases o with
  | list items =>
    have hmem := List.sizeOf_lt_of_mem (List.mem_of_getElem? h)
    simp only [list.sizeOf_spec]
    omega
  | object members =>
    simp only [child?] at h
    split at h
    · obtain ⟨key, -, hlookup⟩ := Option.bind_eq_some_iff.mp h
      obtain ⟨before, after, rfl, -⟩ := List.lookup_eq_some_iff.mp hlookup
      have hmem : sizeOf (key, c) < sizeOf (before ++ (key, c) :: after) := List.sizeOf_lt_of_mem (by simp)
      simp only [object.sizeOf_spec, Prod.mk.sizeOf_spec] at hmem ⊢
      omega
    · cases h
  | _ => cases h

/-- What holds of a value if it holds of its children holds of all values. -/
theorem child_induction {P : Json → Prop} (h : ∀ o : Json, (∀ k c, o.child? k = some c → P c) → P o)
    (o : Json) : P o :=
  h o fun _ c _ => child_induction h c
termination_by sizeOf o
decreasing_by exact sizeOf_child ‹_›

/-- A place is that of an offence in the value itself, or one in a child behind its index. -/
lemma offendsAt_cons {place : List ℕ} :
    o.OffendsAt (k :: place) e ↔
      place = [] ∧ o.Offends k e ∨ ∃ c, o.child? k = some c ∧ c.OffendsAt place e := by
  constructor
  · rintro ⟨path, j, o', hplace, hreach, hoffends⟩
    cases path with
    | nil =>
      obtain ⟨rfl, rfl⟩ := List.cons.inj hplace
      obtain rfl := Option.some.inj hreach
      exact .inl ⟨rfl, hoffends⟩
    | cons l path =>
      obtain ⟨rfl, rfl⟩ := List.cons.inj hplace
      obtain ⟨c, hc, hreach⟩ := Option.bind_eq_some_iff.mp hreach
      exact .inr ⟨c, hc, path, j, o', rfl, hreach, hoffends⟩
  · rintro (⟨rfl, hoffends⟩ | ⟨c, hc, path, j, o', rfl, hreach, hoffends⟩)
    · exact ⟨[], k, o, rfl, rfl, hoffends⟩
    · exact ⟨k :: path, j, o', rfl, by simp [at?, hc, hreach], hoffends⟩

lemma not_offendsAt_nil : ¬ o.OffendsAt [] e := by
  rintro ⟨path, k, o', hplace, -⟩
  simp at hplace

/-- At the index of a child there is no offence of the value itself. -/
lemma not_offends_of_child (h : o.child? k = some c) : ¬ o.Offends k e := by
  intro hoffends
  cases hoffends with
  | unknownKind hname _ => simp [child?, hname] at h
  | missingTokenField hsome _ _ =>
    obtain ⟨name, hname⟩ := Option.isSome_iff_exists.mp hsome
    simp [child?, hname] at h
  | unknownClass htoken hnone =>
    simp only [child?, htoken] at h
    split at h
    next s _ hs =>
      obtain ⟨key, hkey, -⟩ := Option.bind_eq_some_iff.mp h
      exact hnone s (mem_classNames (List.ne_nil_of_mem (List.mem_of_getElem? hkey))) hs
    next => cases h
  | missingField htoken hnode hkey hmissing => simp [child?, htoken, hnode, hkey, hmissing] at h
  | integerTooLarge htoken hnode _ _ => simp [child?, htoken, hnode, declaredFields] at h

/-- The first offence, in the order in which the loader looks at the places, is this one. -/
def OffendsFirst (o : Json) (e : LoadError) : Prop :=
  ∃ place, o.OffendsAt place e ∧ ∀ place' e', o.OffendsAt place' e' → place ≤ place'

/-- Places are compared as dictionaries do, by their first step before the others. -/
lemma cons_le_cons_iff {a b : ℕ} {p q : List ℕ} : a :: p ≤ b :: q ↔ a < b ∨ a = b ∧ p ≤ q := by
  rw [← not_lt, List.cons_lt_cons_iff, ← not_lt]
  rcases lt_trichotomy a b with h | rfl | h
  · simp [h, h.ne', h.not_gt]
  · simp
  · simp [h, h.ne', h.not_gt]

lemma nil_le (place : List ℕ) : [] ≤ place :=
  not_lt.mp (List.not_lt_nil place)

/-- Where there is an offence, a check fails that leads there. -/
lemma exists_stepFails {place : List ℕ} (h : o.OffendsAt (k :: place) e) : ∃ e', Node.StepFails o k e' := by
  induction place generalizing o k with
  | nil =>
    rcases offendsAt_cons.mp h with ⟨-, hoffends⟩ | ⟨c, -, hplace⟩
    · exact ⟨e, .inr hoffends⟩
    · exact absurd hplace not_offendsAt_nil
  | cons j place ih =>
    rcases offendsAt_cons.mp h with ⟨hnil, -⟩ | ⟨c, hc, hplace⟩
    · cases hnil
    · obtain ⟨e', he'⟩ := ih hplace
      obtain ⟨e'', he''⟩ := exists_first he'
      exact ⟨e'', .inl ⟨c, hc, Node.ofJson_eq_error_iff.mpr he''⟩⟩

/-- The error of a value is that of its first offence. -/
theorem ofJson_eq_error_iff_offendsFirst : Node.ofJson o = .error e ↔ o.OffendsFirst e := by
  induction o using child_induction generalizing e with
  | h o ih =>
    rw [Node.ofJson_eq_error_iff]
    constructor
    · rintro ⟨k, hk, hbefore⟩
      -- The check that fails first bounds the first index of every offence, and the hypothesis compares what is
      -- behind.
      have hindex : ∀ {j place e'}, o.OffendsAt (j :: place) e' → k ≤ j := by
        intro j place e' h
        by_contra hlt
        obtain ⟨e'', hstep⟩ := exists_stepFails h
        exact hbefore j (Nat.lt_of_not_le hlt) e'' hstep
      obtain ⟨place, hplace, hfirst⟩ : ∃ place, o.OffendsAt (k :: place) e ∧
          ∀ place' e', o.OffendsAt (k :: place') e' → place ≤ place' := by
        rcases hk with ⟨c, hc, he⟩ | hoffends
        · obtain ⟨place, hplace, hfirst⟩ := (ih k c hc).mp he
          refine ⟨place, offendsAt_cons.mpr (.inr ⟨c, hc, hplace⟩), fun place' e' h => ?_⟩
          rcases offendsAt_cons.mp h with ⟨-, hself⟩ | ⟨c', hc', h⟩
          · exact absurd hself (not_offends_of_child hc)
          · obtain rfl := Option.some.inj (hc.symm.trans hc')
            exact hfirst place' e' h
        · exact ⟨[], offendsAt_cons.mpr (.inl ⟨rfl, hoffends⟩), fun place' _ _ => nil_le place'⟩
      refine ⟨k :: place, hplace, fun place' e' h => ?_⟩
      cases place' with
      | nil => exact absurd h not_offendsAt_nil
      | cons j place' =>
        rw [cons_le_cons_iff]
        rcases (hindex h).lt_or_eq with hlt | rfl
        · exact .inl hlt
        · exact .inr ⟨rfl, hfirst place' e' h⟩
    · rintro ⟨place, hplace, hfirst⟩
      cases place with
      | nil => exact absurd hplace not_offendsAt_nil
      | cons k place =>
        refine ⟨k, ?_, fun j hj e' hstep => ?_⟩
        · rcases offendsAt_cons.mp hplace with ⟨-, hoffends⟩ | ⟨c, hc, hplace⟩
          · exact .inr hoffends
          · refine .inl ⟨c, hc, (ih k c hc).mpr ⟨place, hplace, fun place' e' h => ?_⟩⟩
            simpa [cons_le_cons_iff] using hfirst (k :: place') e' (offendsAt_cons.mpr (.inr ⟨c, hc, h⟩))
        · -- A check that fails before would make an offence at an earlier place.
          obtain ⟨place', hearlier⟩ : ∃ place', o.OffendsAt (j :: place') e' := by
            rcases hstep with ⟨c, hc, he⟩ | hoffends
            · obtain ⟨place', hplace', -⟩ := (ih j c hc).mp he
              exact ⟨place', offendsAt_cons.mpr (.inr ⟨c, hc, hplace'⟩)⟩
            · exact ⟨[], offendsAt_cons.mpr (.inl ⟨rfl, hoffends⟩)⟩
          have hle := hfirst (j :: place') e' hearlier
          rw [cons_le_cons_iff] at hle
          omega

/-- A value is loaded exactly if there is no offence anywhere. -/
lemma exists_ofJson_eq_ok : (∃ node, Node.ofJson o = .ok node) ↔ ∀ place e, ¬ o.OffendsAt place e := by
  constructor
  · rintro ⟨node, hload⟩ place e h
    cases place with
    | nil => exact not_offendsAt_nil h
    | cons k place =>
      obtain ⟨e', hstep⟩ := exists_stepFails h
      obtain ⟨e'', hfirst⟩ := exists_first hstep
      cases hload.symm.trans (Node.ofJson_eq_error_iff.mpr hfirst)
  · intro h
    cases hload : Node.ofJson o with
    | ok node => exact ⟨node, rfl⟩
    | error e =>
      obtain ⟨place, hplace, -⟩ := ofJson_eq_error_iff_offendsFirst.mp hload
      exact absurd hplace (h place e)

/-! ## Fitting values -/

/-- An object is a token: it names a kind and has the fields of a token, whatever they hold. -/
structure IsToken (members : List (String × Json)) : Prop where
  kind : ∃ kind : Kind, members.lookup "__token__" = some (.str kind.name)
  fields : ∀ name ∈ tokenFields, (members.lookup name).isSome

/-- An object is a node: it names a class and has the fields that the class declares.  If it is a literal of an
integer, then that is within the range of doubles. -/
structure IsNode (members : List (String × Json)) : Prop where
  no_token : members.lookup "__token__" = none
  fields : ∃ s ∈ classNames, members.lookup "__node__" = some (.str s) ∧
    ∀ name ∈ declaredFields s, (members.lookup name).isSome
  value : members.lookup "__node__" = some (.str "Literal") → ∀ i, members.lookup "value" = some (.int i) →
    Decimal.InRange i

/-- A value that is an object is a token or a node. -/
def Fits : Json → Prop
  | .object members => IsToken members ∨ IsNode members
  | _ => True

section Fits

variable {members : List (String × Json)}

/-- A stored token is read without an error of its own. -/
lemma IsToken.not_offends (h : IsToken members) : ¬ (Json.object members).Offends k e := by
  obtain ⟨kind, hkind⟩ := h.kind
  intro hoffends
  cases hoffends with
  | unknownKind hname hnone =>
    obtain rfl := Option.some.inj (hname.symm.trans hkind)
    exact hnone kind rfl
  | missingTokenField _ hname hmissing => simpa [hmissing] using h.fields _ (List.mem_of_getElem? hname)
  | unknownClass htoken _ | missingField htoken _ _ _ | integerTooLarge htoken _ _ _ =>
    cases hkind.symm.trans htoken

/-- A stored node is read without an error of its own. -/
lemma IsNode.not_offends (h : IsNode members) : ¬ (Json.object members).Offends k e := by
  obtain ⟨s, hs, hnode, hfields⟩ := h.fields
  intro hoffends
  cases hoffends with
  | unknownKind hname _ => cases h.no_token.symm.trans hname
  | missingTokenField hsome _ _ => simp [h.no_token] at hsome
  | unknownClass _ hnone => exact hnone s hs hnode
  | missingField _ hname hkey hmissing =>
    obtain rfl : _ = s := by simpa using hname.symm.trans hnode
    simpa [hmissing] using hfields _ (List.mem_of_getElem? hkey)
  | integerTooLarge _ hname hvalue hrange => exact hrange (h.value hname _ hvalue)

/-- Members marked as a token that cause no error are a stored token. -/
lemma isToken_of_not_offends {name : Json} (htoken : members.lookup "__token__" = some name)
    (h : ∀ k e, ¬ (Json.object members).Offends k e) : IsToken members where
  kind := by
    by_contra hnone
    refine h 0 _ (.unknownKind htoken fun kind hname => hnone ⟨kind, ?_⟩)
    rw [htoken, hname]
  fields key hkey := by
    obtain ⟨k, hk⟩ := List.mem_iff_getElem?.mp hkey
    by_contra hmissing
    exact h (k + 1) _ (.missingTokenField (by simp [htoken]) hk (Option.not_isSome_iff_eq_none.mp hmissing))

/-- Members not marked so that cause no error are a stored node. -/
lemma isNode_of_not_offends (htoken : members.lookup "__token__" = none)
    (h : ∀ k e, ¬ (Json.object members).Offends k e) : IsNode members where
  no_token := htoken
  fields := by
    by_contra hnone
    have hclass : ∃ s ∈ classNames, members.lookup "__node__" = some (.str s) := by
      by_contra hclass
      exact h 0 _ (.unknownClass htoken fun s hs hname => hclass ⟨s, hs, hname⟩)
    obtain ⟨s, hs, hname⟩ := hclass
    refine hnone ⟨s, hs, hname, fun key hkey => ?_⟩
    obtain ⟨k, hk⟩ := List.mem_iff_getElem?.mp hkey
    by_contra hmissing
    exact h k _ (.missingField htoken hname hk (Option.not_isSome_iff_eq_none.mp hmissing))
  value hname i hvalue := by
    by_contra hrange
    exact h 1 _ (.integerTooLarge htoken hname hvalue hrange)

/-- What fits is what does not offend. -/
lemma fits_iff : o.Fits ↔ ∀ k e, ¬ o.Offends k e := by
  cases o with
  | object members =>
    constructor
    · rintro (h | h) k e
      · exact h.not_offends
      · exact h.not_offends
    · intro h
      cases htoken : members.lookup "__token__" with
      | some name => exact .inl (isToken_of_not_offends htoken h)
      | none => exact .inr (isNode_of_not_offends htoken h)
  | _ => exact iff_of_true trivial fun k e hoffends => nomatch hoffends

end Fits

/-- A value is loaded exactly if everything that is reached from it fits. -/
lemma exists_ofJson_eq_ok_iff_fits :
    (∃ node, Node.ofJson o = .ok node) ↔ ∀ path o', o.at? path = some o' → o'.Fits := by
  rw [exists_ofJson_eq_ok]
  simp only [fits_iff]
  constructor
  · intro h path o' hreach k e hoffends
    exact h (path ++ [k]) e ⟨path, k, o', rfl, hreach, hoffends⟩
  · rintro h place e ⟨path, k, o', -, hreach, hoffends⟩
    exact h path o' hreach k e hoffends

/-! ## What does not matter -/

/-- Values that look the same but for what is reached from them: objects of the same kind or class, whatever
else they hold and in whatever order.  The fields of tokens are related. -/
inductive SameHead (R : Json → Json → Prop) : Json → Json → Prop
  | bare {o : Json} : (∀ items, o ≠ .list items) → (∀ members, o ≠ .object members) → SameHead R o o
  | list {items items' : List Json} : SameHead R (.list items) (.list items')
  | token {members members' : List (String × Json)} {name : Json} :
      members.lookup "__token__" = some name → members'.lookup "__token__" = some name →
      (∀ key ∈ tokenFields, Option.Rel R (members.lookup key) (members'.lookup key)) →
      R ((members.lookup "literal").getD .null) ((members'.lookup "literal").getD .null) →
      SameHead R (.object members) (.object members')
  | node {members members' : List (String × Json)} :
      members.lookup "__token__" = none → members'.lookup "__token__" = none →
      members.lookup "__node__" = members'.lookup "__node__" → SameHead R (.object members) (.object members')

/-- Values from which the same is reached, along the same paths, up to what tokens hold. -/
def Alike (R : Json → Json → Prop) (o o' : Json) : Prop :=
  ∀ path, Option.Rel (SameHead R) (o.at? path) (o'.at? path)

section Alike

variable {R : Json → Json → Prop} {o' : Json}

/-- Values that are alike have heads that are. -/
lemma Alike.head (h : o.Alike R o') : SameHead R o o' := by
  have hroot := h []
  simp only [at?] at hroot
  cases hroot with
  | some h => exact h

/-- The children of values that are alike correspond, and are alike. -/
lemma Alike.child (h : o.Alike R o') (k : ℕ) : Option.Rel (Alike R) (o.child? k) (o'.child? k) := by
  have hpath := fun path => h (k :: path)
  simp only [at?] at hpath
  cases hc : o.child? k with
  | none =>
    cases hc' : o'.child? k with
    | none => exact .none
    | some c' =>
      have hroot := hpath []
      simp only [hc, hc', Option.bind_none, Option.bind_some, at?] at hroot
      cases hroot
  | some c =>
    cases hc' : o'.child? k with
    | none =>
      have hroot := hpath []
      simp only [hc, hc', Option.bind_none, Option.bind_some, at?] at hroot
      cases hroot
    | some c' =>
      refine .some fun path => ?_
      simpa only [hc, hc', Option.bind_some] using hpath path

/-- Values are alike if they look the same and their children are alike. -/
lemma alike_iff : o.Alike R o' ↔ SameHead R o o' ∧ ∀ k, Option.Rel (Alike R) (o.child? k) (o'.child? k) := by
  refine ⟨fun h => ⟨h.head, h.child⟩, ?_⟩
  rintro ⟨hhead, hchildren⟩ path
  cases path with
  | nil => exact .some hhead
  | cons k path =>
    have hrel := hchildren k
    rw [at?, at?]
    generalize o.child? k = child, o'.child? k = child' at hrel
    cases hrel with
    | none => exact .none
    | some hchild => exact hchild path

/-- What is wrong with a value is wrong with those that look the same. -/
lemma Offends.of_alike (h : o.Alike R o') (hoffends : o.Offends k e) : o'.Offends k e := by
  have hnone : ∀ {S : Json → Json → Prop} {found : Option Json}, Option.Rel S none found → found = none := by
    rintro S _ ⟨⟩
    rfl
  cases h.head with
  | bare _ _ => exact hoffends
  | list => cases hoffends
  | token htoken htoken' hfields _ =>
    cases hoffends with
    | unknownKind hname hkind =>
      obtain rfl := Option.some.inj (hname.symm.trans htoken)
      exact .unknownKind htoken' hkind
    | missingTokenField _ hkey hmissing =>
      have hmissing' := hnone (hmissing ▸ hfields _ (List.mem_of_getElem? hkey))
      exact .missingTokenField (by simp [htoken']) hkey hmissing'
    | unknownClass hnot _ | missingField hnot _ _ _ | integerTooLarge hnot _ _ _ => cases htoken.symm.trans hnot
  | node htoken htoken' hname =>
    cases hoffends with
    | unknownKind hkind _ => cases htoken.symm.trans hkind
    | missingTokenField hsome _ _ => simp [htoken] at hsome
    | unknownClass _ hclass =>
      rw [hname] at hclass ⊢
      exact .unknownClass htoken' hclass
    | missingField _ hs hkey hmissing =>
      have hs' := hname ▸ hs
      have hrel := h.child k
      simp only [child?, htoken, htoken', hs, hs', hkey, Option.bind_some, hmissing] at hrel
      exact .missingField htoken' hs' hkey (hnone hrel)
    | integerTooLarge _ hs hvalue hrange =>
      have hs' := hname ▸ hs
      have hrel := h.child 0
      simp only [child?, htoken, htoken', hs, hs', declaredFields, List.getElem?_cons_zero, Option.bind_some,
        hvalue] at hrel
      generalize hvalue' : List.lookup "value" _ = found' at hrel
      cases hrel with
      | some hint =>
        cases hint.head
        exact .integerTooLarge htoken' hs' hvalue' hrange

lemma rel_flip {S : Json → Json → Prop} {found found' : Option Json} (h : Option.Rel S found found') :
    Option.Rel (flip S) found' found := by
  cases h with
  | none => exact .none
  | some h => exact .some h

lemma SameHead.flip (h : SameHead R o o') : SameHead (flip R) o' o := by
  cases h with
  | bare hlist hobject => exact .bare hlist hobject
  | list => exact .list
  | token htoken htoken' hfields hliteral =>
    exact .token htoken' htoken (fun key hkey => rel_flip (hfields key hkey)) hliteral
  | node htoken htoken' hname => exact .node htoken' htoken hname.symm

lemma Alike.flip (h : o.Alike R o') : o'.Alike (flip R) o := by
  intro path
  have hrel := h path
  generalize o.at? path = reached, o'.at? path = reached' at hrel
  cases hrel with
  | none => exact .none
  | some hhead => exact .some hhead.flip

/-- Values that look the same are rejected with the same error. -/
theorem ofJson_eq_error_of_alike (h : o.Alike R o') : Node.ofJson o = .error e ↔ Node.ofJson o' = .error e := by
  induction o using child_induction generalizing o' e with
  | h o ih =>
    rw [Node.ofJson_eq_error_iff, Node.ofJson_eq_error_iff]
    refine first_congr fun k e => or_congr ?_ ⟨.of_alike h, .of_alike h.flip⟩
    have hrel := h.child k
    generalize hc : o.child? k = child, o'.child? k = child' at hrel
    cases hrel with
    | none => simp
    | some hchild => simpa using ih k _ hc hchild

/-- Fields that are loaded with the same results make the same node. -/
lemma classOfFields_congr {name : Json} {results results' : List (String × Except LoadError Node)}
    (h : ∀ s, name = .str s → ∀ key ∈ declaredFields s, Node.field results key = Node.field results' key) :
    Node.classOfFields name results = Node.classOfFields name results' := by
  by_cases hclass : ∃ s ∈ classNames, name = .str s
  · obtain ⟨s, hs, rfl⟩ := hclass
    have hfields := h s rfl
    simp only [classNames, List.mem_cons, List.not_mem_nil, or_false] at hs
    rcases hs with rfl | rfl | rfl | rfl | rfl | rfl | rfl | rfl | rfl | rfl | rfl | rfl | rfl | rfl | rfl | rfl
    all_goals
      simp only [declaredFields, List.forall_mem_cons] at hfields
      simp only [Node.classOfFields, hfields]
  · have hnone : ∀ s ∈ classNames, name ≠ .str s := fun s hs heq => hclass ⟨s, hs, heq⟩
    rw [Node.classOfFields_of_noClass hnone, Node.classOfFields_of_noClass hnone]

section Equal

variable {members members' : List (String × Json)}

/-- A token is read from its fields only, and a missing literal counts as null. -/
lemma leafOfMembers_congr (hfields : ∀ key ∈ tokenFields, members.lookup key = members'.lookup key)
    (hliteral : (members.lookup "literal").getD .null = (members'.lookup "literal").getD .null) (name : Json) :
    Node.leafOfMembers name members = Node.leafOfMembers name members' := by
  have hraw : ∀ key ∈ tokenFields, Node.rawField members key = Node.rawField members' key := by
    intro key hkey
    unfold Node.rawField
    rw [hfields key hkey]
  simp only [tokenFields, List.forall_mem_cons] at hraw
  simp only [Node.leafOfMembers, hraw, hliteral]

/-- Lists whose items load alike load alike, errors included. -/
lemma mapM_ofJson_congr {items items' : List Json} (h : items.map Node.ofJson = items'.map Node.ofJson) :
    items.mapM Node.ofJson = items'.mapM Node.ofJson := by
  have hmap : ∀ xs : List Json, (xs.map Node.ofJson).mapM id = xs.mapM Node.ofJson := fun xs => List.mapM_map
  rw [← hmap items, h, hmap items']

end Equal

/-- Values that look the same, with the same in their tokens, are loaded as the same tree. -/
theorem ofJson_eq_of_alike (h : o.Alike Eq o') : Node.ofJson o = Node.ofJson o' := by
  induction o using child_induction generalizing o' with
  | h o ih =>
    cases h.head with
    | bare _ _ => rfl
    | @list items items' =>
      rw [Node.ofJson_list, Node.ofJson_list]
      refine congrArg _ (mapM_ofJson_congr (List.ext_getElem? fun k => ?_))
      have hrel := h.child k
      simp only [child?] at hrel
      rw [List.getElem?_map, List.getElem?_map]
      generalize hc : items[k]? = child, items'[k]? = child' at hrel
      cases hrel with
      | none => rfl
      | some hchild => exact congrArg some (ih k _ hc hchild)
    | @token members members' name htoken htoken' hfields hliteral =>
      have hsame : ∀ key ∈ tokenFields, members.lookup key = members'.lookup key := by
        intro key hkey
        have hrel := hfields key hkey
        generalize members.lookup key = found, members'.lookup key = found' at hrel
        cases hrel with
        | none => rfl
        | some heq => rw [heq]
      rw [Node.ofJson_object_token htoken, Node.ofJson_object_token htoken', leafOfMembers_congr hsame hliteral]
    | @node members members' htoken htoken' hname =>
      -- The fields have indices, under which the children of both objects are alike.
      rw [Node.ofJson_object htoken, Node.ofJson_object htoken', hname]
      refine classOfFields_congr fun s hs key hkey => ?_
      have hs' : members'.lookup "__node__" = some (.str s) := by
        cases hnode : members'.lookup "__node__" with
        | none => simp [hnode] at hs
        | some name => rw [← hs, hnode, Option.getD_some]
      obtain ⟨k, hk⟩ := List.mem_iff_getElem?.mp hkey
      have hchild : (Json.object members).child? k = members.lookup key := by
        simp only [child?, htoken, hname, hs', hk, Option.bind_some]
      have hchild' : (Json.object members').child? k = members'.lookup key := by
        simp only [child?, htoken', hs', hk, Option.bind_some]
      have hrel := h.child k
      rw [hchild, hchild'] at hrel
      rw [Node.field_eq_loadField, Node.field_eq_loadField, Node.loadField, Node.loadField]
      generalize hc : members.lookup key = found, members'.lookup key = found' at hrel
      cases hrel with
      | none => rfl
      | some hrel => exact ih k _ (hchild.trans hc) hrel

/-- The keys that matter in an object. -/
def declaredKeys (members : List (String × Json)) : List String :=
  "__token__" ::
    if (members.lookup "__token__").isSome then "literal" :: tokenFields
    else "__node__" ::
      match members.lookup "__node__" with
      | some (.str s) => declaredFields s
      | _ => []

section Keys

variable {members members' : List (String × Json)}

lemma rel_refl (found : Option Json) : Option.Rel Eq found found := by
  cases found with
  | none => exact .none
  | some o => exact .some rfl

lemma SameHead.refl (o : Json) : SameHead Eq o o := by
  cases o with
  | list items => exact .list
  | object members =>
    cases htoken : members.lookup "__token__" with
    | none => exact .node htoken htoken rfl
    | some name => exact .token htoken htoken (fun key _ => rel_refl _) rfl
  | _ => exact .bare nofun nofun

lemma Alike.refl (o : Json) : o.Alike Eq o := by
  intro path
  cases o.at? path with
  | none => exact .none
  | some reached => exact .some (.refl reached)

/-- Values that look the same and have the same children are alike. -/
lemma SameHead.alike (h : SameHead Eq o o') (hchildren : ∀ k, o.child? k = o'.child? k) : o.Alike Eq o' := by
  refine alike_iff.mpr ⟨h, fun k => ?_⟩
  rw [hchildren k]
  cases o'.child? k with
  | none => exact .none
  | some child => exact .some (.refl child)

/-- Objects with the same members under the keys that matter look the same. -/
lemma alike_of_lookup (h : ∀ key ∈ declaredKeys members, members.lookup key = members'.lookup key) :
    (Json.object members).Alike Eq (.object members') := by
  unfold declaredKeys at h
  obtain ⟨htoken, h⟩ := List.forall_mem_cons.mp h
  cases hname : members.lookup "__token__" with
  | some name =>
    rw [hname] at htoken
    rw [hname, Option.isSome_some, if_pos rfl] at h
    obtain ⟨hliteral, hfields⟩ := List.forall_mem_cons.mp h
    have hrel : ∀ key ∈ tokenFields, Option.Rel Eq (members.lookup key) (members'.lookup key) := by
      intro key hkey
      rw [hfields key hkey]
      exact rel_refl _
    refine SameHead.alike (.token hname htoken.symm hrel (by rw [hliteral])) fun k => ?_
    simp only [child?, hname, ← htoken]
  | none =>
    rw [hname] at htoken
    rw [hname, Option.isSome_none, if_neg Bool.false_ne_true] at h
    obtain ⟨hnode, hfields⟩ := List.forall_mem_cons.mp h
    refine SameHead.alike (.node hname htoken.symm hnode) fun k => ?_
    simp only [child?, hname, ← htoken, ← hnode]
    split
    next s _ hs =>
      rw [hs] at hfields
      cases hk : (declaredFields s)[k]? with
      | none => rfl
      | some key => exact hfields key (List.mem_of_getElem? hk)
    next => rfl

/-- The order of the members of an object does not matter. -/
lemma lookup_of_perm (h : members.Perm members') (hkeys : (members.map Prod.fst).Nodup) (key : String) :
    members.lookup key = members'.lookup key := by
  induction h with
  | nil => rfl
  | cons m _ ih =>
    obtain ⟨name, value⟩ := m
    rw [List.lookup_cons, List.lookup_cons, ih (List.nodup_cons.mp hkeys).2]
  | swap m m' ms =>
    obtain ⟨name, value⟩ := m
    obtain ⟨name', value'⟩ := m'
    simp only [List.map_cons, List.nodup_cons, List.mem_cons, not_or] at hkeys
    simp only [List.lookup_cons]
    cases hname : key == name with
    | false => cases key == name' <;> rfl
    | true =>
      have hother : (key == name') = false := by
        rw [eq_of_beq hname]
        exact beq_false_of_ne (Ne.symm hkeys.1.1)
      rw [hother]
  | trans hfirst _ ih ih' => exact (ih hkeys).trans (ih' ((hfirst.map Prod.fst).nodup_iff.mp hkeys))

/-- The order of the members of an object does not matter, as long as no key is doubled. -/
lemma alike_of_perm (h : members.Perm members') (hkeys : (members.map Prod.fst).Nodup) :
    (Json.object members).Alike Eq (.object members') :=
  alike_of_lookup fun key _ => lookup_of_perm h hkeys key

end Keys

end Alike

end Json

/-! ## Programs -/

namespace Node

/-- A program is loaded from a list, and from nothing else. -/
lemma programOfJson_eq_ok {o : Json} {statements : List Node} :
    programOfJson o = .ok statements ↔ ofJson o = .ok (list statements) := by
  unfold programOfJson
  cases ofJson o with
  | error e => exact iff_of_false nofun nofun
  | ok node =>
    cases node with
    | list nodes => exact ⟨fun h => congrArg (Except.ok ∘ list) (Except.ok.inj h), fun h => by cases h; rfl⟩
    | _ => exact iff_of_false nofun nofun

/-- A program is rejected for the error of the conversion, or else because it is no list. -/
lemma programOfJson_eq_error {o : Json} {e : LoadError} :
    programOfJson o = .error e ↔ ofJson o = .error e ∨
      e = .noProgram ∧ (∃ node, ofJson o = .ok node) ∧ ∀ items, o ≠ .list items := by
  unfold programOfJson
  cases hload : ofJson o with
  | error e' => simp [bind, Except.bind]
  | ok node =>
    have hlist := exists_list_iff hload
    cases node with
    | list nodes =>
      obtain ⟨items, rfl⟩ := hlist.mp ⟨nodes, rfl⟩
      simp [bind, Except.bind, pure, Except.pure]
    | _ =>
      have hnone : ∀ items, o ≠ .list items := fun items ho => by
        obtain ⟨nodes, hnodes⟩ := hlist.mpr ⟨items, ho⟩
        cases hnodes
      simp [bind, Except.bind, throw, throwThe, MonadExceptOf.throw, hnone, eq_comm]

/-- A token is loaded with its fields as they are. -/
lemma ofJson_token {members : List (String × Json)} {kind : Kind} {lexeme line start stop : Json}
    (hkind : members.lookup "__token__" = some (.str kind.name)) (hlexeme : members.lookup "lexeme" = some lexeme)
    (hline : members.lookup "line" = some line) (hstart : members.lookup "start" = some start)
    (hstop : members.lookup "end" = some stop) :
    ofJson (.object members) =
      .ok (token ⟨kind, lexeme, (members.lookup "literal").getD .null, line, start, stop⟩) := by
  rw [ofJson_object_token hkind]
  simp [leafOfMembers, Kind.ofName?_name, rawField, hlexeme, hline, hstart, hstop]
  rfl

end Node

/-- The loader accepts exactly what fits its schema, and rejects anything else for its first offence.

A value is loaded if and only if everything that is reached from it fits: through the items of lists and the
declared fields of nodes, every object is a token or a node with all its fields, and the integers of literals are
within the range of doubles.  Otherwise the error is that of the offence at the least place, in the lexicographic
order of paths.  The result is the same for values that are alike, which is to look the same and to have children
that are alike.  So neither the order of members matters, in the value or in any that is reached from it, nor what
stands under other keys than those that are declared; and what the fields of tokens hold is kept as it is, and
decides neither whether a value is loaded nor on the error.  A program must be a list besides, which is only
asked when it has been converted. -/
theorem loads_exactly_schema :
    (∀ o : Json, (∃ node, Node.ofJson o = .ok node) ↔ ∀ path o', o.at? path = some o' → o'.Fits) ∧
      (∀ (o : Json) e, Node.ofJson o = .error e ↔
        ∃ place, o.OffendsAt place e ∧ ∀ place' e', o.OffendsAt place' e' → place ≤ place') ∧
      (∀ o o' : Json, o.Alike Eq o' → Node.ofJson o = Node.ofJson o') ∧
      (∀ (R : Json → Json → Prop) (o o' : Json), o.Alike R o' ↔
        Json.SameHead R o o' ∧ ∀ k, Option.Rel (Json.Alike R) (o.child? k) (o'.child? k)) ∧
      (∀ members members' : List (String × Json), members.Perm members' → (members.map Prod.fst).Nodup →
        (Json.object members).Alike Eq (.object members')) ∧
      (∀ members members' : List (String × Json),
        (∀ key ∈ Json.declaredKeys members, members.lookup key = members'.lookup key) →
        (Json.object members).Alike Eq (.object members')) ∧
      (∀ o o' : Json, o.Alike (fun _ _ => True) o' →
        ∀ e, Node.ofJson o = .error e ↔ Node.ofJson o' = .error e) ∧
      (∀ (members : List (String × Json)) (kind : Kind) (lexeme line start stop : Json),
        members.lookup "__token__" = some (.str kind.name) → members.lookup "lexeme" = some lexeme →
        members.lookup "line" = some line → members.lookup "start" = some start →
        members.lookup "end" = some stop → Node.ofJson (.object members) =
          .ok (.token ⟨kind, lexeme, (members.lookup "literal").getD .null, line, start, stop⟩)) ∧
      (∀ (o : Json) statements, Node.programOfJson o = .ok statements ↔
        Node.ofJson o = .ok (.list statements)) ∧
      ∀ (o : Json) e, Node.programOfJson o = .error e ↔ Node.ofJson o = .error e ∨
        e = .noProgram ∧ (∃ node, Node.ofJson o = .ok node) ∧ ∀ items, o ≠ .list items :=
  ⟨fun _ => Json.exists_ofJson_eq_ok_iff_fits, fun _ _ => Json.ofJson_eq_error_iff_offendsFirst,
    fun _ _ => Json.ofJson_eq_of_alike, fun _ _ _ => Json.alike_iff, fun _ _ => Json.alike_of_perm,
    fun _ _ => Json.alike_of_lookup, fun _ _ h _ => Json.ofJson_eq_error_of_alike h,
    fun _ _ _ _ _ _ => Node.ofJson_token, fun _ _ => Node.programOfJson_eq_ok,
    fun _ _ => Node.programOfJson_eq_error⟩

/-- A binary expression without its operator, whose left operand is a literal without its value, and whose right
operand is an object of no class.  A note that is not declared holds such an object as well. -/
def twiceMalformed : Json :=
  .list [.object [("note", .object []), ("right", .object []), ("__node__", .str "BinaryOp"),
    ("left", .object [("__node__", .str "Literal")])]]

/-- Of all that is wrong with the expression, the left operand is reported, as it comes first. -/
theorem twiceMalformed_is_rejected_at_left :
    twiceMalformed.OffendsAt [0, 0, 0] (.missingField "value") ∧
      twiceMalformed.OffendsAt [0, 1] (.missingField "operator") ∧
      twiceMalformed.OffendsAt [0, 2, 0] (.unknownClass .null) ∧
      ∃ place, twiceMalformed.OffendsAt place (.missingField "value") ∧
        ∀ place' e', twiceMalformed.OffendsAt place' e' → place ≤ place' := by
  refine ⟨⟨[0, 0], 0, _, rfl, rfl, .missingField rfl rfl rfl rfl⟩,
    ⟨[0], 1, _, rfl, rfl, .missingField rfl rfl rfl rfl⟩,
    ⟨[0, 2], 0, _, rfl, rfl, .unknownClass rfl nofun⟩, ?_⟩
  exact (loads_exactly_schema.2.1 twiceMalformed _).mp rfl

end Scriptlet
