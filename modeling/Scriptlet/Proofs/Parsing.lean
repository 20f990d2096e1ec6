import Mathlib
import Scriptlet.Grammar.Program

/-!
# When parsers succeed

A parser is a function, and what has to be known about it is mostly when it succeeds and with which
result.  For every way of putting parsers together there is one equivalence here, which is read from
left to right to take a successful parse apart and from right to left to build one.

The two means of repetition are defined with a budget of turns.  The budget never matters: a step that
yields something takes a token (`Consuming`), so a loop is the same as its own unfolding (`loop_eq`),
and it succeeds exactly when a chain of steps ends with one that yields nothing (`Turns`).
-/

namespace Scriptlet.Grammar

variable {α β : Type} {ts rest : List Leaf}

/-! ## Taking tokens -/

/-- The next token, if there is one, is not of an accepted kind. -/
def NotNext (accepted : Kind → Bool) (ts : List Leaf) : Prop :=
  ∀ t ∈ ts.head?, accepted t.kind = false

@[simp] lemma notNext_nil (accepted : Kind → Bool) : NotNext accepted [] := by
  simp [NotNext]

/-- Whether a token comes next is told by the first one. -/
@[simp] lemma notNext_cons {accepted : Kind → Bool} {t : Leaf} :
    NotNext accepted (t :: ts) ↔ accepted t.kind = false := by
  simp [NotNext]

/-- What a sequence of two parsers does. -/
lemma bind_apply (p : Parse α) (q : α → Parse β) (ts : List Leaf) :
    (p >>= q) ts =
      match p ts with
      | .ok (a, mid) => q a mid
      | .error e => .error e := by
  change StateT.bind p q ts = _
  unfold StateT.bind
  cases p ts <;> rfl

@[simp] lemma pure_apply (a : α) (ts : List Leaf) : (pure a : Parse α) ts = .ok (a, ts) := rfl

@[simp] lemma throw_apply (e : SyntaxError) (ts : List Leaf) :
    (throw e : Parse α) ts = .error e := rfl

/-- A sequence succeeds exactly when its second part succeeds on what the first one leaves. -/
lemma bind_eq_ok {p : Parse α} {q : α → Parse β} {b : β} :
    (p >>= q) ts = .ok (b, rest) ↔ ∃ a mid, p ts = .ok (a, mid) ∧ q a mid = .ok (b, rest) := by
  rw [bind_apply]
  cases h : p ts with
  | error e => simp
  | ok r =>
    obtain ⟨a, mid⟩ := r
    simp

/-- A result without a parse leaves all tokens. -/
lemma pure_eq_ok {a b : α} : (pure a : Parse α) ts = .ok (b, rest) ↔ a = b ∧ ts = rest := by
  simp

/-- A mapped parser succeeds when the parser does. -/
lemma map_eq_ok {f : α → β} {p : Parse α} {b : β} :
    (f <$> p) ts = .ok (b, rest) ↔ ∃ a, p ts = .ok (a, rest) ∧ f a = b := by
  rw [← bind_pure_comp, bind_eq_ok]
  simp only [pure_eq_ok]
  constructor
  · rintro ⟨a, mid, hp, rfl, rfl⟩
    exact ⟨a, hp, rfl⟩
  · rintro ⟨a, hp, rfl⟩
    exact ⟨a, rest, hp, rfl, rfl⟩

/-- What a mapped parser does. -/
lemma map_apply (f : α → β) (p : Parse α) (ts : List Leaf) :
    (f <$> p) ts = (p ts).map (Prod.map f id) := by
  rw [← bind_pure_comp, bind_apply]
  cases p ts <;> rfl

/-- A required token is taken exactly when it is the next one. -/
lemma expect_eq_ok {wanted : Kind} {t : Leaf} :
    expect wanted ts = .ok (t, rest) ↔ t.kind = wanted ∧ ts = t :: rest := by
  cases ts with
  | nil => simp [expect]
  | cons u us =>
    by_cases h : u.kind = wanted
    · simp only [expect, h, if_true, Except.ok.injEq, Prod.mk.injEq, List.cons.injEq]
      constructor
      · rintro ⟨rfl, rfl⟩
        exact ⟨h, rfl, rfl⟩
      · rintro ⟨-, rfl, rfl⟩
        exact ⟨rfl, rfl⟩
    · simp only [expect, h, if_false, reduceCtorEq, List.cons.injEq, false_iff, not_and]
      rintro ht rfl
      exact absurd ht h

/-- What is closed by a required token is parsed exactly when that token comes next behind it. -/
lemma closedBy_eq_ok {p : Parse α} {wanted : Kind} {build : α → Leaf → β} {b : β} :
    (do let a ← p; let closing ← expect wanted; return build a closing) ts = .ok (b, rest) ↔
      ∃ a closing, p ts = .ok (a, closing :: rest) ∧ closing.kind = wanted ∧ build a closing = b := by
  simp only [bind_eq_ok, expect_eq_ok, pure_eq_ok]
  constructor
  · rintro ⟨a, _, hp, closing, _, ⟨hkind, rfl⟩, rfl, rfl⟩
    exact ⟨a, closing, hp, hkind, rfl⟩
  · rintro ⟨a, closing, hp, hkind, rfl⟩
    exact ⟨a, _, hp, closing, rest, ⟨hkind, rfl⟩, rfl, rfl⟩

/-- An optional token is taken exactly when it is the next one. -/
lemma accept?_eq_some {accepted : Kind → Bool} {t : Leaf} :
    accept? accepted ts = .ok (some t, rest) ↔ accepted t.kind = true ∧ ts = t :: rest := by
  cases ts with
  | nil => simp [accept?]
  | cons u us =>
    by_cases h : accepted u.kind = true
    · simp only [accept?, h, if_true, Except.ok.injEq, Prod.mk.injEq, Option.some.injEq,
        List.cons.injEq]
      constructor
      · rintro ⟨rfl, rfl⟩
        exact ⟨h, rfl, rfl⟩
      · rintro ⟨-, rfl, rfl⟩
        exact ⟨rfl, rfl⟩
    · simp only [accept?, h, Bool.false_eq_true, if_false, Except.ok.injEq, Prod.mk.injEq,
        reduceCtorEq, false_and, List.cons.injEq, false_iff, not_and]
      rintro ht rfl
      exact absurd ht h

/-- An optional token is left out exactly when it is not the next one. -/
lemma accept?_eq_none {accepted : Kind → Bool} :
    accept? accepted ts = .ok (none, rest) ↔ NotNext accepted ts ∧ ts = rest := by
  cases ts with
  | nil => simp [accept?, eq_comm]
  | cons u us => cases h : accepted u.kind <;> simp [accept?, h]

/-! ## Optional parts -/

/-- The result of a parser, or a default if the next token is of the given kind. -/
def unlessNext (kind : Kind) (default : α) (p : Parse α) : Parse α := do
  if ← isNext kind then pure default else p

/-- What an optional part does on no tokens and on a token. -/
lemma unlessNext_apply (kind : Kind) (default : α) (p : Parse α) (ts : List Leaf) :
    unlessNext kind default p ts =
      if ts.head?.any (·.kind = kind) = true then .ok (default, ts) else p ts := by
  unfold unlessNext
  rw [bind_apply]
  by_cases h : ts.head?.any (·.kind = kind) = true <;> simp [isNext, h]

/-- An optional part is left out when the next token tells so, and is parsed otherwise. -/
lemma unlessNext_eq_ok {kind : Kind} {default a : α} {p : Parse α} :
    unlessNext kind default p ts = .ok (a, rest) ↔
      ((∃ t ∈ ts.head?, t.kind = kind) ∧ a = default ∧ rest = ts) ∨
        (NotNext (· = kind) ts ∧ p ts = .ok (a, rest)) := by
  rw [unlessNext_apply]
  cases ts with
  | nil => simp
  | cons t us =>
    by_cases h : t.kind = kind
    · simp [h, eq_comm]
    · simp [h]

/-! ## Loops -/

/-- A step of a loop that takes a token whenever it yields something. -/
structure Consuming (step : α → Parse (Option α)) : Prop where
  /-- At the end of the program nothing is yielded. -/
  stops : ∀ a, step a [] = .ok (none, [])
  /-- Whenever something is yielded, tokens are taken. -/
  takes : ∀ {a b ts rest}, step a ts = .ok (some b, rest) → rest.length < ts.length

/-- The body of a loop: one step, and the loop again if the step yields something. -/
def turn (step : α → Parse (Option α)) (again : α → Parse α) (a : α) : Parse α := do
  match ← step a with
  | none => pure a
  | some b => again b

/-- Turns agree on tokens where what follows the step agrees. -/
lemma turn_congr {step : α → Parse (Option α)} {again again' : α → Parse α} {a : α}
    (h : ∀ b mid, step a ts = .ok (some b, mid) → again b mid = again' b mid) :
    turn step again a ts = turn step again' a ts := by
  unfold turn
  rw [bind_apply, bind_apply]
  cases hs : step a ts with
  | error e => rfl
  | ok r =>
    obtain ⟨o, mid⟩ := r
    cases o with
    | none => rfl
    | some b => exact h b mid hs

/-- A loop whose budget covers the tokens does not depend on the budget. -/
lemma repeatWithin_congr {step : α → Parse (Option α)} (hstep : Consuming step)
    (b₁ b₂ : List Leaf) (a : α) (h₁ : ts.length ≤ b₁.length) (h₂ : ts.length ≤ b₂.length) :
    repeatWithin step b₁ a ts = repeatWithin step b₂ a ts := by
  -- A budget that is used up leaves no tokens, and then the step yields nothing anyway.
  have idle : ∀ b : List Leaf, repeatWithin step b a [] = .ok (a, []) := by
    intro b
    cases b with
    | nil => rfl
    | cons _ b =>
      change turn step (repeatWithin step b) a [] = _
      unfold turn
      rw [bind_eq_ok]
      exact ⟨none, [], hstep.stops a, rfl⟩
  induction b₁ generalizing b₂ a ts with
  | nil =>
    obtain rfl : ts = [] := by simpa using h₁
    rw [idle, idle]
  | cons _ b₁ ih =>
    cases b₂ with
    | nil =>
      obtain rfl : ts = [] := by simpa using h₂
      rw [idle, idle]
    | cons _ b₂ =>
      change turn step (repeatWithin step b₁) a ts = turn step (repeatWithin step b₂) a ts
      refine turn_congr fun b mid hs => ?_
      have hlt := hstep.takes hs
      simp only [List.length_cons] at h₁ h₂
      refine ih b₂ b (by omega) (by omega) fun b' => ?_
      cases b' with
      | nil => rfl
      | cons _ b' =>
        change turn step (repeatWithin step b') b [] = _
        unfold turn
        rw [bind_eq_ok]
        exact ⟨none, [], hstep.stops b, rfl⟩

/-- A loop is one turn and the loop again. -/
lemma loop_eq {step : α → Parse (Option α)} (hstep : Consuming step) (a : α) :
    loop step a = turn step (loop step) a := by
  funext ts
  change repeatWithin step ts a ts = _
  have hgrow : repeatWithin step ts a ts = repeatWithin step (default :: ts) a ts :=
    repeatWithin_congr hstep _ _ a le_rfl (by simp)
  rw [hgrow]
  change turn step (repeatWithin step ts) a ts = _
  refine turn_congr fun b mid hs => ?_
  exact repeatWithin_congr hstep ts mid b (hstep.takes hs).le le_rfl

/-- The turns of a loop: from `a` on the tokens `ts` steps are taken until one yields nothing, which
leaves `b` and the tokens `rest`. -/
inductive Turns (step : α → Parse (Option α)) : α → List Leaf → α → List Leaf → Prop
  | stop {a : α} {ts rest : List Leaf} : step a ts = .ok (none, rest) → Turns step a ts a rest
  | turn {a b c : α} {ts mid rest : List Leaf} :
      step a ts = .ok (some b, mid) → Turns step b mid c rest → Turns step a ts c rest

/-- A loop succeeds exactly when its turns come to an end. -/
lemma loop_eq_ok {step : α → Parse (Option α)} (hstep : Consuming step) {a b : α} :
    loop step a ts = .ok (b, rest) ↔ Turns step a ts b rest := by
  constructor
  · intro h
    induction hn : ts.length using Nat.strong_induction_on generalizing a ts with
    | _ n ih =>
      rw [loop_eq hstep] at h
      obtain ⟨o, mid, hs, hrest⟩ := bind_eq_ok.mp h
      cases o with
      | none =>
        obtain ⟨rfl, rfl⟩ := pure_eq_ok.mp hrest
        exact .stop hs
      | some c => exact .turn hs (ih mid.length (hn ▸ hstep.takes hs) hrest rfl)
  · intro h
    induction h with
    | stop hs =>
      rw [loop_eq hstep]
      exact bind_eq_ok.mpr ⟨none, _, hs, rfl⟩
    | turn hs _ ih =>
      rw [loop_eq hstep]
      exact bind_eq_ok.mpr ⟨some _, _, hs, ih⟩

/-! ## What is left of the tokens -/

/-- A parser that leaves an end piece of the tokens. -/
def Leaves (p : Parse α) : Prop :=
  ∀ ⦃ts a rest⦄, p ts = .ok (a, rest) → rest <:+ ts

/-- A parser that leaves an end piece of the tokens and takes at least one of them. -/
def Takes (p : Parse α) : Prop :=
  ∀ ⦃ts a rest⦄, p ts = .ok (a, rest) → rest <:+ ts ∧ rest.length < ts.length

/-- What takes a token leaves an end of the tokens. -/
lemma Takes.leaves {p : Parse α} (h : Takes p) : Leaves p :=
  fun _ _ _ hp => (h hp).1

lemma Leaves.pure (a : α) : Leaves (pure a : Parse α) := by
  intro ts b rest h
  obtain ⟨-, rfl⟩ := pure_eq_ok.mp h
  exact List.suffix_rfl

/-- A sequence leaves an end of what its first part leaves. -/
lemma Leaves.bind {p : Parse α} {q : α → Parse β} (hp : Leaves p) (hq : ∀ a, Leaves (q a)) :
    Leaves (p >>= q) := by
  intro ts b rest h
  obtain ⟨a, mid, ha, hb⟩ := bind_eq_ok.mp h
  exact (hq a hb).trans (hp ha)

/-- A sequence takes a token if its first part does. -/
lemma Takes.bind {p : Parse α} {q : α → Parse β} (hp : Takes p) (hq : ∀ a, Leaves (q a)) :
    Takes (p >>= q) := by
  intro ts b rest h
  obtain ⟨a, mid, ha, hb⟩ := bind_eq_ok.mp h
  obtain ⟨hsuffix, hlt⟩ := hp ha
  exact ⟨(hq a hb).trans hsuffix, (hq a hb).length_le.trans_lt hlt⟩

/-- A sequence takes a token if its second part does. -/
lemma Leaves.bind_takes {p : Parse α} {q : α → Parse β} (hp : Leaves p) (hq : ∀ a, Takes (q a)) :
    Takes (p >>= q) := by
  intro ts b rest h
  obtain ⟨a, mid, ha, hb⟩ := bind_eq_ok.mp h
  obtain ⟨hsuffix, hlt⟩ := hq a hb
  exact ⟨hsuffix.trans (hp ha), hlt.trans_le (hp ha).length_le⟩

lemma Leaves.map {p : Parse α} (hp : Leaves p) (f : α → β) : Leaves (f <$> p) := by
  intro ts b rest h
  obtain ⟨a, ha, -⟩ := map_eq_ok.mp h
  exact hp ha

/-- A parser that never succeeds. -/
def Fails (p : Parse α) : Prop :=
  ∀ ⦃ts r⦄, p ts ≠ .ok r

/-- An error is no success. -/
lemma fails_throw (e : SyntaxError) : Fails (throw e : Parse α) :=
  fun _ _ => nofun

/-- Being beyond the nesting limit is no success. -/
lemma fails_beyondLimit : Fails (beyondLimit : Parse α) :=
  fun _ _ => nofun

/-- What never succeeds has every property that is about successes. -/
lemma Fails.takes {p : Parse α} (h : Fails p) : Takes p :=
  fun _ _ _ hp => absurd hp (@h _ _)

/-- A token that is needed is taken. -/
lemma takes_expect (kind : Kind) : Takes (expect kind) := by
  intro ts t rest h
  obtain ⟨-, rfl⟩ := expect_eq_ok.mp h
  exact ⟨List.suffix_cons t rest, by simp⟩

/-- An optional token is taken or left. -/
lemma leaves_accept? (accepted : Kind → Bool) : Leaves (accept? accepted) := by
  intro ts o rest h
  cases o with
  | none =>
    obtain ⟨-, rfl⟩ := accept?_eq_none.mp h
    exact List.suffix_rfl
  | some t =>
    obtain ⟨-, rfl⟩ := accept?_eq_some.mp h
    exact List.suffix_cons t rest

/-- Looking for a token takes none. -/
lemma Leaves.unlessNext {p : Parse α} (hp : Leaves p) (kind : Kind) (default : α) :
    Leaves (unlessNext kind default p) := by
  intro ts a rest h
  obtain ⟨-, -, rfl⟩ | ⟨-, h⟩ := unlessNext_eq_ok.mp h
  · exact List.suffix_rfl
  · exact hp h

/-- What sequences have if their parts have it, a loop has within every budget if all steps have it. -/
lemma repeatWithin_of_step {P : {α : Type} → Parse α → Prop}
    (hpure : ∀ {α : Type} (a : α), P (pure a : Parse α))
    (hbind : ∀ {α β : Type} {p : Parse α} {q : α → Parse β}, P p → (∀ a, P (q a)) → P (p >>= q))
    {step : α → Parse (Option α)} (hstep : ∀ a, P (step a)) (budget : List Leaf) (a : α) :
    P (repeatWithin step budget a) := by
  induction budget generalizing a with
  | nil => exact hpure a
  | cons _ budget ih =>
    refine hbind (hstep a) fun o => ?_
    cases o with
    | none => exact hpure a
    | some b => exact ih b

/-- A loop leaves an end piece if every step does. -/
lemma leaves_loop {step : α → Parse (Option α)} (hstep : ∀ a, Leaves (step a)) (a : α) :
    Leaves (loop step a) := by
  intro ts b rest h
  have hwithin : Leaves (repeatWithin step ts a) := repeatWithin_of_step .pure .bind hstep ts a
  exact hwithin h

/-! ## An optional token and something behind it -/

/-- A step that takes a token of an accepted kind and goes on from there, or else yields nothing. -/
def stepBy (accepted : Kind → Bool) (next : Leaf → Parse α) : Parse (Option α) := do
  match ← accept? accepted with
  | none => pure none
  | some t => some <$> next t

/-- A loop ends in front of a token that begins no turn. -/
lemma stepBy_eq_none {accepted : Kind → Bool} {next : Leaf → Parse α} :
    stepBy accepted next ts = .ok (none, rest) ↔ NotNext accepted ts ∧ rest = ts := by
  unfold stepBy
  rw [bind_eq_ok]
  constructor
  · rintro ⟨o, mid, ho, h⟩
    cases o with
    | none =>
      obtain ⟨hnot, rfl⟩ := accept?_eq_none.mp ho
      obtain ⟨-, rfl⟩ := pure_eq_ok.mp h
      exact ⟨hnot, rfl⟩
    | some t =>
      obtain ⟨a, -, ha⟩ := map_eq_ok.mp h
      simp at ha
  · rintro ⟨hnot, rfl⟩
    exact ⟨none, _, accept?_eq_none.mpr ⟨hnot, rfl⟩, rfl⟩

/-- A turn is a token that begins one, and what is parsed behind it. -/
lemma stepBy_eq_some {accepted : Kind → Bool} {next : Leaf → Parse α} {a : α} :
    stepBy accepted next ts = .ok (some a, rest) ↔
      ∃ t mid, ts = t :: mid ∧ accepted t.kind = true ∧ next t mid = .ok (a, rest) := by
  unfold stepBy
  rw [bind_eq_ok]
  constructor
  · rintro ⟨o, mid, ho, h⟩
    cases o with
    | none => simp at h
    | some t =>
      obtain ⟨hkind, rfl⟩ := accept?_eq_some.mp ho
      obtain ⟨b, hb, hab⟩ := map_eq_ok.mp h
      obtain rfl := Option.some.inj hab
      exact ⟨t, mid, rfl, hkind, hb⟩
  · rintro ⟨t, mid, rfl, hkind, h⟩
    exact ⟨some t, mid, accept?_eq_some.mpr ⟨hkind, rfl⟩, map_eq_ok.mpr ⟨a, h, rfl⟩⟩

/-- A turn leaves an end of the tokens. -/
lemma leaves_stepBy {accepted : Kind → Bool} {next : Leaf → Parse α}
    (hnext : ∀ t, Leaves (next t)) : Leaves (stepBy accepted next) := by
  refine (leaves_accept? accepted).bind fun o => ?_
  cases o with
  | none => exact .pure none
  | some t => exact (hnext t).map some

/-- A turn takes the token that it begins with. -/
lemma consuming_stepBy {accepted : Kind → Bool} {next : α → Leaf → Parse α}
    (hnext : ∀ a t, Leaves (next a t)) : Consuming fun a => stepBy accepted (next a) where
  stops a := stepBy_eq_none.mpr ⟨notNext_nil accepted, rfl⟩
  takes h := by
    obtain ⟨t, mid, rfl, -, hmid⟩ := stepBy_eq_some.mp h
    exact Nat.lt_succ_of_le (hnext _ _ hmid).length_le

/-! ## Lists of items -/

/-- A step that puts an item in front of the items so far, if there is one. -/
def collect (one : Parse (Option α)) (items : List α) : Parse (Option (List α)) :=
  Option.map (· :: items) <$> one

/-- The items that are found one after the other, until none is found. -/
inductive Gathers (one : Parse (Option α)) : List Leaf → List α → List Leaf → Prop
  | done {ts rest : List Leaf} : one ts = .ok (none, rest) → Gathers one ts [] rest
  | more {a : α} {as : List α} {ts mid rest : List Leaf} :
      one ts = .ok (some a, mid) → Gathers one mid as rest → Gathers one ts (a :: as) rest

/-- The items are complete when there is no other one. -/
lemma collect_eq_none {one : Parse (Option α)} {items : List α} :
    collect one items ts = .ok (none, rest) ↔ one ts = .ok (none, rest) := by
  unfold collect
  rw [map_eq_ok]
  constructor
  · rintro ⟨o, ho, hnone⟩
    rwa [Option.map_eq_none_iff.mp hnone] at ho
  · intro h
    exact ⟨none, h, rfl⟩

/-- One more item goes in front of those so far. -/
lemma collect_eq_some {one : Parse (Option α)} {items out : List α} :
    collect one items ts = .ok (some out, rest) ↔
      ∃ a, one ts = .ok (some a, rest) ∧ out = a :: items := by
  unfold collect
  rw [map_eq_ok]
  constructor
  · rintro ⟨o, ho, hsome⟩
    obtain ⟨a, rfl, rfl⟩ := Option.map_eq_some_iff.mp hsome
    exact ⟨a, ho, rfl⟩
  · rintro ⟨a, ho, rfl⟩
    exact ⟨some a, ho, rfl⟩

/-- Items that were collected before the loop end up behind those that the loop collects. -/
lemma loop_collect {one : Parse (Option α)} (hstep : Consuming (collect one)) (items : List α)
    (ts : List Leaf) :
    loop (collect one) items ts = (loop (collect one) [] ts).map (Prod.map (· ++ items) id) := by
  induction hn : ts.length using Nat.strong_induction_on generalizing items ts with
  | _ n ih =>
    rw [loop_eq hstep items, loop_eq hstep []]
    unfold turn
    rw [bind_apply, bind_apply]
    unfold collect
    rw [map_apply, map_apply]
    cases hone : one ts with
    | error e => rfl
    | ok r =>
      obtain ⟨o, mid⟩ := r
      cases o with
      | none => rfl
      | some a =>
        have htaken : collect one items ts = .ok (some (a :: items), mid) :=
          collect_eq_some.mpr ⟨a, hone, rfl⟩
        have hshorter : mid.length < n := hn ▸ hstep.takes htaken
        change loop (collect one) (a :: items) mid = (loop (collect one) [a] mid).map _
        rw [ih _ hshorter (a :: items) mid rfl, ih _ hshorter [a] mid rfl]
        cases loop (collect one) [] mid with
        | error e => rfl
        | ok r => simp [Except.map, Prod.map]

/-- Collecting items gathers them in reverse. -/
lemma turns_collect {one : Parse (Option α)} {items out : List α} :
    Turns (collect one) items ts out rest ↔
      ∃ as, out = as.reverse ++ items ∧ Gathers one ts as rest := by
  constructor
  · intro h
    induction h with
    | stop hs => exact ⟨[], rfl, .done (collect_eq_none.mp hs)⟩
    | turn hs _ ih =>
      obtain ⟨a, ha, rfl⟩ := collect_eq_some.mp hs
      obtain ⟨as, rfl, has⟩ := ih
      exact ⟨a :: as, by simp, .more ha has⟩
  · rintro ⟨as, rfl, has⟩
    induction has generalizing items with
    | done h => exact .stop (collect_eq_none.mpr h)
    | more ha _ ih =>
      refine .turn (collect_eq_some.mpr ⟨_, ha, rfl⟩) ?_
      simpa using ih

/-- An item that takes a token whenever there is one makes a consuming step. -/
lemma consuming_collect {one : Parse (Option α)} (hstop : one [] = .ok (none, []))
    (htake : ∀ {ts a rest}, one ts = .ok (some a, rest) → rest.length < ts.length) :
    Consuming (collect one) where
  stops _ := collect_eq_none.mpr hstop
  takes h := by
    obtain ⟨a, ha, -⟩ := collect_eq_some.mp h
    exact htake ha

/-- The next of several items with a separator before each of them. -/
def nextSeparated (separator : Kind) (item : Parse α) : Parse (Option α) :=
  stepBy (· = separator) fun _ => item

/-- Items with separators are one item, and then a loop over separators with items. -/
lemma separated_def (separator : Kind) (item : Parse α) :
    separated separator item = (do
      let first ← item
      List.reverse <$> loop (collect (nextSeparated separator item)) [first]) := by
  have hstep : ∀ items : List α, collect (nextSeparated separator item) items = (do
      match ← accept? (· = separator) with
      | none => return none
      | some _ => return some ((← item) :: items)) := by
    intro items
    funext ts
    simp only [collect, nextSeparated, stepBy, map_bind]
    rw [bind_apply, bind_apply]
    cases accept? (· = separator) ts with
    | error e => rfl
    | ok r =>
      obtain ⟨o, mid⟩ := r
      cases o with
      | none => rfl
      | some t => simp
  calc separated separator item
      = item >>= fun first =>
          loop (collect (nextSeparated separator item)) [first] >>= fun as => pure as.reverse :=
        congrArg (fun step => item >>= fun first => loop step [first] >>= fun as => pure as.reverse)
          (funext hstep).symm
    _ = item >>= fun first => List.reverse <$> loop (collect (nextSeparated separator item)) [first] :=
        congrArg (item >>= ·) (funext fun _ => (map_eq_pure_bind _ _).symm)

/-- One more item takes at least its separator. -/
lemma consuming_nextSeparated (separator : Kind) {item : Parse α} (hitem : Leaves item) :
    Consuming (collect (nextSeparated separator item)) :=
  consuming_collect (stepBy_eq_none.mpr ⟨notNext_nil _, rfl⟩) fun h => by
    obtain ⟨t, mid, rfl, -, hmid⟩ := stepBy_eq_some.mp h
    exact Nat.lt_succ_of_le (hitem hmid).length_le

/-- Separated items are a first item and the ones that are gathered behind it. -/
lemma separated_eq_ok {separator : Kind} {item : Parse α} (hitem : Leaves item) {as : List α} :
    separated separator item ts = .ok (as, rest) ↔
      ∃ a mid as', as = a :: as' ∧ item ts = .ok (a, mid) ∧
        Gathers (nextSeparated separator item) mid as' rest := by
  have hstep := consuming_nextSeparated separator hitem
  rw [separated_def, bind_eq_ok]
  constructor
  · rintro ⟨a, mid, ha, h⟩
    obtain ⟨out, hout, rfl⟩ := map_eq_ok.mp h
    obtain ⟨as', rfl, has⟩ := turns_collect.mp ((loop_eq_ok hstep).mp hout)
    exact ⟨a, mid, as', by simp, ha, has⟩
  · rintro ⟨a, mid, as', rfl, ha, has⟩
    refine ⟨a, mid, ha, map_eq_ok.mpr ⟨_, (loop_eq_ok hstep).mpr (turns_collect.mpr ⟨as', rfl, has⟩), ?_⟩⟩
    simp

/-- The next of the items before a token of the given kind. -/
def nextUntil (stop : Kind) (item : Parse α) : Parse (Option α) := fun ts =>
  match ts with
  | [] => .ok (none, [])
  | t :: _ => if t.kind = stop then .ok (none, ts) else (some <$> item) ts

/-- There are no more items at a closing token or at the end. -/
lemma nextUntil_eq_none {stop : Kind} {item : Parse α} :
    nextUntil stop item ts = .ok (none, rest) ↔ (∀ t ∈ ts.head?, t.kind = stop) ∧ rest = ts := by
  cases ts with
  | nil => simp [nextUntil, eq_comm]
  | cons t us =>
    by_cases h : t.kind = stop
    · simp [nextUntil, h, eq_comm]
    · simp [nextUntil, h, map_eq_ok]

/-- There is one more item at any other token. -/
lemma nextUntil_eq_some {stop : Kind} {item : Parse α} {a : α} :
    nextUntil stop item ts = .ok (some a, rest) ↔
      (∃ t ∈ ts.head?, t.kind ≠ stop) ∧ item ts = .ok (a, rest) := by
  cases ts with
  | nil => simp [nextUntil]
  | cons t us => by_cases h : t.kind = stop <;> simp [nextUntil, h, map_eq_ok]

/-- Items up to a closing token are a loop. -/
lemma itemsUntil_def (stop : Kind) (item : Parse α) :
    itemsUntil stop item = List.reverse <$> loop (collect (nextUntil stop item)) [] := by
  have hstep : ∀ items : List α, collect (nextUntil stop item) items = (do
      if (← get).isEmpty || (← isNext stop) then return none
      else return some ((← item) :: items)) := by
    intro items
    funext ts
    rw [bind_apply]
    change _ = (isNext stop >>= _) ts
    rw [bind_apply]
    cases ts with
    | nil => rfl
    | cons t us =>
      by_cases h : t.kind = stop
      · simp only [isNext, collect, ← bind_pure_comp]
        rw [bind_apply]
        simp [nextUntil, h]
      · simp only [isNext, collect, ← bind_pure_comp]
        rw [bind_apply]
        simp only [nextUntil, h, if_false, ← bind_pure_comp]
        rw [bind_apply]
        simp only [List.isEmpty_cons, List.head?_cons, Option.any_some, h, decide_false,
          Bool.or_self, Bool.false_eq_true, if_false]
        rw [bind_apply]
        cases item (t :: us) <;> rfl
  simp only [itemsUntil, funext hstep, map_eq_pure_bind]

/-- One more item takes a token if items do. -/
lemma consuming_nextUntil (stop : Kind) {item : Parse α} (hitem : Takes item) :
    Consuming (collect (nextUntil stop item)) :=
  consuming_collect rfl fun h => (hitem (nextUntil_eq_some.mp h).2).2

/-- The items up to a token are the ones that are gathered. -/
lemma itemsUntil_eq_ok {stop : Kind} {item : Parse α} (hitem : Takes item) {as : List α} :
    itemsUntil stop item ts = .ok (as, rest) ↔ Gathers (nextUntil stop item) ts as rest := by
  have hstep := consuming_nextUntil stop hitem
  rw [itemsUntil_def, map_eq_ok]
  constructor
  · rintro ⟨out, hout, rfl⟩
    obtain ⟨as', rfl, has⟩ := turns_collect.mp ((loop_eq_ok hstep).mp hout)
    simpa using has
  · intro h
    refine ⟨_, (loop_eq_ok hstep).mpr (turns_collect.mpr ⟨as, rfl, h⟩), ?_⟩
    simp

/-- The items up to a token are the next one and the items behind it. -/
lemma itemsUntil_of_next {stop : Kind} {item : Parse α} (hitem : Takes item) {a : α} {mid : List Leaf}
    (h : nextUntil stop item ts = .ok (some a, mid)) :
    itemsUntil stop item ts = (itemsUntil stop item mid).map (Prod.map (a :: ·) id) := by
  have hstep := consuming_nextUntil stop hitem
  have hcollect : collect (nextUntil stop item) [] ts = .ok (some [a], mid) :=
    collect_eq_some.mpr ⟨a, h, rfl⟩
  have hloop : loop (collect (nextUntil stop item)) [] ts = loop (collect (nextUntil stop item)) [a] mid := by
    rw [loop_eq hstep []]
    unfold turn
    rw [bind_apply, hcollect]
  rw [itemsUntil_def, map_apply, map_apply, hloop, loop_collect hstep [a]]
  cases loop (collect (nextUntil stop item)) [] mid with
  | error e => rfl
  | ok r => simp [Except.map, Prod.map]

/-- Items with separators take at least the first one. -/
lemma Takes.separated {item : Parse α} (hitem : Takes item) (separator : Kind) :
    Takes (separated separator item) := by
  rw [separated_def]
  refine hitem.bind fun first => (leaves_loop (fun items => ?_) [first]).map List.reverse
  exact (leaves_stepBy fun _ => hitem.leaves).map _

/-- Looking for one more item leaves an end of the tokens. -/
lemma Leaves.nextUntil {item : Parse α} (h : Leaves item) (stop : Kind) : Leaves (nextUntil stop item) := by
  intro ts o rest hp
  cases o with
  | none =>
    obtain ⟨-, rfl⟩ := nextUntil_eq_none.mp hp
    exact List.suffix_rfl
  | some a => exact h (nextUntil_eq_some.mp hp).2

/-- Items up to a closing token leave an end of the tokens. -/
lemma Leaves.itemsUntil {item : Parse α} (hitem : Leaves item) (stop : Kind) :
    Leaves (itemsUntil stop item) := by
  rw [itemsUntil_def]
  exact (leaves_loop (fun _ => (hitem.nextUntil stop).map _) []).map List.reverse

end Scriptlet.Grammar
