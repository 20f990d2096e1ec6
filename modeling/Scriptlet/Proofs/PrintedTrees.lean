import Scriptlet.Proofs.ShownTrees

/-!
# Printed trees are unambiguous

Trees are printed in a form that leaves parts out if they are not there, joins what belongs together with blanks,
and prints texts as they are, whatever they hold.  Different trees are told apart all the same, if they were
parsed from sources without infinite numbers.  Such a tree is printed as a legible bracketed text, which is
determined by its writing (`Bracketed.text_injective`), and the bracketed text determines the tree up to the
positions of its tokens (`exists_isShownBy_of_source`).  No more can be asked for, because trees that differ only
in positions are printed alike (`Node.Corresponds.print_eq`).
-/

namespace Scriptlet

/-! ## Positions are not printed -/

namespace Node

variable {r : Role} {n n' : Node}

/-- Tokens that are alike show the same text. -/
lemma text?_of_alike {t u : Leaf} (h : t.Alike u) : t.text? = u.text? := by
  unfold Leaf.text?
  rw [h.lexeme]

/-- What is made of a token, and depends on no position, is made of a token that is alike. -/
lemma Corresponds.leaf_bind {β : Type} (h : n.Corresponds (fun _ => Leaf.Alike) r n') {f : Leaf → Except Fault β}
    (hf : ∀ {t u : Leaf}, t.Alike u → f t = f u) : (n.leaf? >>= f) = (n'.leaf? >>= f) := by
  cases h with
  | token ht => exact hf ht
  | _ => rfl

/-- Of two nodes that correspond, both are lists or neither is. -/
lemma Corresponds.items_bind {β : Type} (h : n.Corresponds (fun _ => Leaf.Alike) r n') (next : Except Fault β) :
    (n.items? >>= fun _ => next) = (n'.items? >>= fun _ => next) := by
  cases h <;> rfl

/-- Parameters that correspond have the same names. -/
lemma Corresponds.paramNames_eq (h : n.Corresponds (fun _ => Leaf.Alike) r n') : n.paramNames = n'.paramNames := by
  have hmapM : ∀ {as bs : List Node}, List.Forall₂ (Corresponds (fun _ => Leaf.Alike) r) as bs →
      as.mapM (fun param => Leaf.lexeme <$> param.leaf?) = bs.mapM fun param => Leaf.lexeme <$> param.leaf? := by
    intro as bs hitems
    induction hitems with
    | nil => rfl
    | @cons a b _ _ ha _ ih =>
      have hlexeme : Leaf.lexeme <$> a.leaf? = Leaf.lexeme <$> b.leaf? := by
        simpa only [map_eq_pure_bind] using ha.leaf_bind fun ht => congrArg pure ht.lexeme
      rw [List.mapM_cons, List.mapM_cons, hlexeme, ih]
  cases h with
  | nil => rfl
  | cons ha has => exact hmapM (.cons ha (corresponds_list.mp has))
  | _ => rfl

/-- Positions are not printed. -/
lemma Corresponds.print_eq (h : n.Corresponds (fun _ => Leaf.Alike) r n') :
    n.print = n'.print ∧ n.printParts = n'.printParts := by
  induction h with
  | null | bool _ | int _ | float _ | str _ | object _ | nil | literal _ => exact ⟨rfl, rfl⟩
  | token _ => exact ⟨rfl, rfl⟩
  | @cons _ a b as bs _ _ ih ih' =>
    have hall : printAll (a :: as) = printAll (b :: bs) := by
      have htail : printAll as = printAll bs := ih'.2
      unfold printAll
      rw [ih.1, htail]
    refine ⟨?_, hall⟩
    unfold print
    rw [hall]
  | grouping _ ih | exprStmt _ ih | printStmt _ ih | block _ ih =>
    refine ⟨?_, rfl⟩
    unfold print
    first | rw [ih.1] | rw [ih.2]
  | unary hoperator _ _ ih =>
    refine ⟨?_, rfl⟩
    unfold print
    rw [ih.1]
    exact hoperator.leaf_bind fun ht => by rw [ht.lexeme]
  | binary _ hoperator _ ih _ ih' | logical _ hoperator _ ih _ ih' =>
    refine ⟨?_, rfl⟩
    unfold print
    rw [ih.1, ih'.1]
    exact hoperator.leaf_bind fun ht => by rw [ht.lexeme]
  | ident hname =>
    refine ⟨?_, rfl⟩
    unfold print
    exact hname.leaf_bind fun ht => by rw [ht.lexeme]
  | assign hname _ _ ih =>
    refine ⟨?_, rfl⟩
    unfold print
    rw [ih.1]
    exact hname.leaf_bind fun ht => by rw [text?_of_alike ht]
  | call _ _ harguments ih _ ih' =>
    refine ⟨?_, rfl⟩
    unfold print
    rw [ih.1, ih'.2]
    exact harguments.items_bind _
  | @varDecl _ name name' e e' hname he _ ih =>
    refine ⟨?_, rfl⟩
    -- Whether a part is missing decides between two forms.
    by_cases hnull : e = .null
    · obtain rfl := he.eq_null_iff.mp hnull
      subst hnull
      unfold print
      exact hname.leaf_bind fun ht => by rw [ht.lexeme]
    · rw [print_varInit hnull, print_varInit (mt he.eq_null_iff.mpr hnull), ih.1]
      exact hname.leaf_bind fun ht => by rw [text?_of_alike ht]
  | @ifStmt _ _ _ _ _ e e' _ _ he ih ih' ih'' =>
    refine ⟨?_, rfl⟩
    by_cases hnull : e = .null
    · obtain rfl := he.eq_null_iff.mp hnull
      subst hnull
      unfold print
      rw [ih.1, ih'.1]
    · rw [print_ifElse hnull, print_ifElse (mt he.eq_null_iff.mpr hnull), ih.1, ih'.1, ih''.1]
  | whileStmt _ _ ih ih' =>
    refine ⟨?_, rfl⟩
    unfold print
    rw [ih.1, ih'.1]
  | funDecl hname hparams _ _ _ ih =>
    refine ⟨?_, rfl⟩
    unfold print
    rw [hparams.paramNames_eq, ih.2]
    refine bind_congr fun names => bind_congr fun joined => ?_
    exact hname.leaf_bind fun ht => by rw [ht.lexeme]
  | @returnStmt _ _ _ e e' _ he _ ih =>
    refine ⟨?_, rfl⟩
    by_cases hnull : e = .null
    · obtain rfl := he.eq_null_iff.mp hnull
      subst hnull
      rfl
    · rw [print_returnValue hnull, print_returnValue (mt he.eq_null_iff.mpr hnull), ih.1]

end Node

/-! ## Sources -/

/-- A source whose number literals are all finite. -/
def HasFiniteNumbers (source : List UInt8) : Prop :=
  ∀ token ∈ (Scan.ofBytes source).tokens, ∀ x, token.kind = .number →
    Grammar.number? token.leaf.literal = some x → Decimal.IsFinite x

/-- The statements of a source without infinite numbers are shown by bracketed texts. -/
theorem exists_isShownBy_of_source {source : List UInt8} {statements : List Node}
    (h : (Scan.ofBytes source).statements = .ok statements) (hfinite : HasFiniteNumbers source) :
    ∀ s ∈ statements, ∃ b, s.IsShownBy b := by
  have hlexemes := isLexeme_of_scans (scans_ofBytes source)
  have htokens : ∀ t ∈ (Scan.ofBytes source).tokens.map Token.leaf, t.IsLexed := by
    intro t ht
    obtain ⟨token, htoken, rfl⟩ := List.mem_map.mp ht
    exact ⟨token, rfl, fun hkind => ⟨hlexemes token htoken hkind, hfinite token htoken⟩⟩
  have hstatements := (Grammar.reads_program htokens (Scan.statements_ok_iff.mp h).2).1
  exact fun s hs => Node.exists_isShownBy_of_isStatement (hstatements s hs)

/-- Statements of sources without infinite numbers have texts, and they have the same text if and only if they are
the same up to the positions of their tokens. -/
theorem printed_statements_are_unambiguous {source source' : List UInt8} {statements statements' : List Node}
    (h : (Scan.ofBytes source).statements = .ok statements)
    (h' : (Scan.ofBytes source').statements = .ok statements')
    (hfinite : HasFiniteNumbers source) (hfinite' : HasFiniteNumbers source') :
    ∀ s ∈ statements, ∀ s' ∈ statements',
      (∃ text, s.print = .ok (.str text)) ∧ (s.print = s'.print ↔ s.Alike s') := by
  intro s hs s' hs'
  obtain ⟨b, hb⟩ := exists_isShownBy_of_source h hfinite s hs
  obtain ⟨b', hb'⟩ := exists_isShownBy_of_source h' hfinite' s' hs'
  refine ⟨⟨b.text, hb.print⟩, fun hprint => ?_, fun halike => halike.print_eq.1⟩
  rw [hb.print, hb'.print] at hprint
  have htext : b.text = b'.text := by simpa using hprint
  obtain rfl := Bracketed.text_injective hb.legible hb'.legible htext
  exact hb.alike.join hb'.alike fun ht hu => ⟨ht.kind.trans hu.kind.symm, ht.lexeme.trans hu.lexeme.symm,
    ht.literal.trans hu.literal.symm⟩

/-- The tokens of `return "(" - 1;` with the operator at a given place. -/
def differenceTokens (line column : ℤ) : List Token :=
  [⟨.returnWord, "return", none, ⟨1, 0, 6⟩⟩, ⟨.string, "\"(\"", some "(", ⟨1, 7, 10⟩⟩,
    ⟨.minus, "-", none, ⟨line, column, column + 1⟩⟩, ⟨.number, "1", some "1", ⟨line, column + 2, column + 3⟩⟩,
    ⟨.semicolon, ";", none, ⟨line, column + 3, column + 4⟩⟩, .endOfSource (line + 1)]

/-- The tree of `return "(" - 1;` with the operator at a given place. -/
def differenceTree (line column : ℤ) : Node :=
  .returnStmt (.token (Token.leaf ⟨.returnWord, "return", none, ⟨1, 0, 6⟩⟩))
    (.binary (.literal (.str "(")) (.token (Token.leaf ⟨.minus, "-", none, ⟨line, column, column + 1⟩⟩))
      (.literal (.float 1)))

/-- The numbers of the sample are finite. -/
lemma hasFiniteNumbers_difference {source : List UInt8} {line column : ℤ}
    (h : (Scan.ofBytes source).tokens = differenceTokens line column) : HasFiniteNumbers source := by
  have hone : Decimal.read? "1" = some 1 := by decide +kernel
  have hfinite : Decimal.IsFinite 1 := ⟨false, 2 ^ 52, -52, by decide +kernel⟩
  intro token htoken x hkind hx
  rw [h] at htoken
  simp only [differenceTokens, List.mem_cons, List.not_mem_nil, or_false] at htoken
  rcases htoken with rfl | rfl | rfl | rfl | rfl | rfl
  case inr.inr.inr.inl =>
    obtain rfl : 1 = x := Option.some.inj (hone.symm.trans hx)
    exact hfinite
  all_goals cases hkind

/-- The difference is printed alike on one line and on two. -/
theorem difference_on_two_lines :
    let s := differenceTree 1 11
    let s' := differenceTree 2 0
    (Scan.ofText "return \"(\" - 1;").statements = .ok [s] ∧
      (Scan.ofText "return \"(\"\n- 1;").statements = .ok [s'] ∧
      s ≠ s' ∧ s.print = .ok (.str "(return (- \"(\" 1))") ∧ s.print = s'.print ∧ s.Alike s' := by
  have hscan : Scan.ofText "return \"(\" - 1;" = ⟨differenceTokens 1 11, []⟩ := by decide +kernel
  have hscan' : Scan.ofText "return \"(\"\n- 1;" = ⟨differenceTokens 2 0, []⟩ := by decide +kernel
  have hs : (Scan.ofText "return \"(\" - 1;").statements = .ok [differenceTree 1 11] := by
    rw [hscan]
    rfl
  have hs' : (Scan.ofText "return \"(\"\n- 1;").statements = .ok [differenceTree 2 0] := by
    rw [hscan']
    rfl
  have hne : differenceTree 1 11 ≠ differenceTree 2 0 := by simp [differenceTree, Token.leaf]
  have hprint : (differenceTree 1 11).print = (differenceTree 2 0).print := rfl
  have halike := printed_statements_are_unambiguous hs hs'
    (hasFiniteNumbers_difference (congrArg Scan.tokens hscan))
    (hasFiniteNumbers_difference (congrArg Scan.tokens hscan')) _ List.mem_cons_self _ List.mem_cons_self
  exact ⟨hs, hs', hne, rfl, hprint, halike.2.mp hprint⟩

end Scriptlet
