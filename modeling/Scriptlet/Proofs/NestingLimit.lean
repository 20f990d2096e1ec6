import Scriptlet.Proofs.CorrespondingPrograms

/-!
# The nesting limit

The limit on nesting is the only thing that parsing depends on besides the tokens.  A parser with a
smaller limit approximates the one with a larger limit: it either reports that constructs are nested too
deeply, or does the same.
-/

namespace Scriptlet.Grammar

variable {α : Type}

/-- On all tokens the first parser either runs into the nesting limit or does the same as the second. -/
def Approximates (p q : Parse α) : Prop :=
  ∀ ts, (∃ got, p ts = .error (@.tooDeep got)) ∨ p ts = q ts

/-- Trees that the parser may make of the same tokens are the same. -/
lemma SameTree.eq {s s' : Node} (h : SameTree Eq s s') : s = s' :=
  (h.mono fun ht => ht.1).eq

/-- Where alike means equal, errors that correspond are equal. -/
lemma SyntaxError.Corresponds.eq {e e' : SyntaxError} (h : e.Corresponds Eq e') : e = e' := by
  have hrel : ∀ {got got' : Option Leaf}, Option.Rel Eq got got' → got = got' := by
    intro got got' h
    cases h with
    | none => rfl
    | some ht => rw [ht]
  cases h with
  | expected wanted hgot => rw [hrel hgot]
  | expectedExpression hgot => rw [hrel hgot]
  | invalidTarget ht => rw [ht]
  | tooDeep hgot => rw [hrel hgot]
  | badNumber => rfl

/-- Lists of trees that the parser may make of the same tokens are the same. -/
lemma SameTree.list_eq {as bs : List Node} (h : List.Forall₂ (SameTree Eq) as bs) : as = bs :=
  List.forall₂_eq_eq_eq ▸ h.imp fun _ _ => SameTree.eq

/-- Equal tokens are parsed alike. -/
lemma parsesSame_eq : ParsesSame Eq :=
  ⟨congrArg Leaf.kind, congrArg Leaf.literal⟩

/-- Parsers that parse alike on the same tokens, with results that can only be the same, do the same. -/
lemma approximates_of_parsesAlike {Q : α → α → Prop} {p q : Parse α} (hQ : ∀ {a b}, Q a b → a = b)
    (h : ParsesAlike Eq True Q p q) : Approximates p q := by
  intro ts
  refine (h (List.forall₂_refl ts)).imp And.right fun hmatched => ?_
  generalize p ts = outcome, q ts = outcome' at hmatched
  cases hmatched with
  | error he => rw [he.eq]
  | @ok r r' hr =>
    have hrest : r.2 = r'.2 := List.forall₂_eq_eq_eq ▸ hr.2
    rw [Prod.ext (hQ hr.1) hrest]

section Limits

variable {n m : ℕ} (h : n ≤ m)

include h

/-- A declaration is approximated by what a lower limit lets the parser read. -/
lemma approximates_declaration : Approximates (declaration n) (declaration m) :=
  approximates_of_parsesAlike SameTree.eq
    ((congruence_parsesAlike parsesSame_eq True).declaration_statement h fun _ => anyBeyondLimit_parsesAlike).1

/-- A statement is approximated by what a lower limit lets the parser read. -/
lemma approximates_statement : Approximates (statement n) (statement m) :=
  approximates_of_parsesAlike SameTree.eq
    ((congruence_parsesAlike parsesSame_eq True).declaration_statement h fun _ => anyBeyondLimit_parsesAlike).2

/-- A program is approximated by what a lower limit lets the parser read. -/
lemma approximates_declarations :
    Approximates (itemsUntil .eof (declaration n)) (itemsUntil .eof (declaration m)) :=
  approximates_of_parsesAlike SameTree.list_eq
    ((congruence_parsesAlike parsesSame_eq True).program h fun _ => anyBeyondLimit_parsesAlike)

end Limits

/-- If a parser succeeds within some limit, then some limit separates those within which it is nested too deeply
from those within which it does the same. -/
lemma exists_depth {p : ℕ → Parse α} (hp : ∀ {n m : ℕ}, n ≤ m → Approximates (p n) (p m)) {n : ℕ}
    {ts rest : List Leaf} {a : α} (h : p n ts = .ok (a, rest)) :
    ∃ depth, ∃ got : ℕ → Option Leaf, ∀ limit,
      p limit ts = if depth ≤ limit then .ok (a, rest) else .error (@.tooDeep (got limit)) := by
  classical
  have hex : ∃ n, p n ts = .ok (a, rest) := ⟨n, h⟩
  have hleast := Nat.find_spec hex
  -- The least limit that is enough separates the limits that are from those that are not.
  have hlimits : ∀ limit, ∃ got : Option Leaf,
      p limit ts = if Nat.find hex ≤ limit then .ok (a, rest) else .error (@.tooDeep got) := by
    intro limit
    split_ifs with hle
    · rcases hp hle ts with ⟨got, hdeep⟩ | hsame
      · rw [hleast] at hdeep
        cases hdeep
      · exact ⟨none, hsame.symm.trans hleast⟩
    · have hlt := Nat.lt_of_not_le hle
      exact (hp hlt.le ts).resolve_right fun hsame => Nat.find_min hex hlt (hsame.trans hleast)
  exact ⟨Nat.find hex, Classical.axiomOfChoice hlimits⟩

/-- With a smaller limit a program is parsed in the same way, unless its constructs are found to be nested
too deeply. -/
theorem parseWithin_of_le {n m : Nat} (h : n ≤ m) (tokens : List Leaf) :
    (∃ got stop, parseWithin n tokens = .error ⟨@.tooDeep got, stop⟩) ∨
      parseWithin n tokens = parseWithin m tokens := by
  rw [parseWithin_apply, parseWithin_apply]
  cases endMark? (tokens.filter (·.kind ≠ .comment)) with
  | none => exact .inr rfl
  | some mark =>
    rcases approximates_declarations h (programTokens tokens) with ⟨got, hn⟩ | hn
    · rw [hn]
      exact .inl ⟨got, _, rfl⟩
    · rw [hn]
      exact .inr rfl

end Scriptlet.Grammar
