import Scriptlet.Proofs.Begins
import Scriptlet.Proofs.NestingLimit

/-!
# What is written is read

Tokens that write a well-shaped program are parsed as that program, if the nesting limit is large enough.
How large it has to be is not counted here: `Parses` says that a family of parsers succeeds for all large
limits, and puts parsers together without looking at the limits.

A chain of operators is parsed by a loop whose turns begin at the leftmost operand, while the tree is
built around the last operator.  `Passes` joins the two: a loop passes through a tree if, at some earlier
point, it was going to reach that tree with the tokens that are left now.  Passing through the left
operand, an operator and its right operand is passing through the whole.
-/

namespace Scriptlet.Grammar

open Filter

variable {α : Type} {T : Leaf → Prop} {ts rest : List Leaf}

/-! ## Large limits -/

/-- For all large limits the parser reads the tokens as `a` and leaves `rest`. -/
def Parses (p : ℕ → Parse α) (ts : List Leaf) (a : α) (rest : List Leaf) : Prop :=
  ∀ᶠ limit in atTop, p limit ts = .ok (a, rest)

/-- What holds of the successors of all large numbers holds of all large numbers. -/
lemma eventually_of_succ {P : ℕ → Prop} (h : ∀ᶠ n in atTop, P (n + 1)) : ∀ᶠ n in atTop, P n := by
  rw [← map_add_atTop_eq_nat 1]
  exact eventually_map.mpr h

/-! ## Passing through a tree -/

/-- The parser, followed by a loop, gets to a turn of the loop with `a` on the tokens `rest`. -/
def Passes (p : Parse α) (step : α → Parse (Option α)) (ts : List Leaf) (a : α) (rest : List Leaf) :
    Prop :=
  ∃ first mid, p ts = .ok (first, mid) ∧
    ∀ b left, Turns step a rest b left → Turns step first mid b left

namespace Passes

variable {p : Parse α} {step : α → Parse (Option α)} {a b : α} {mid : List Leaf}

/-- The loop starts with what the parser gives. -/
lemma start (h : p ts = .ok (a, rest)) : Passes p step ts a rest :=
  ⟨a, rest, h, fun _ _ hturns => hturns⟩

/-- A turn leads on from where those before it have led. -/
lemma turn (h : Passes p step ts a mid) (hstep : step a mid = .ok (some b, rest)) :
    Passes p step ts b rest := by
  obtain ⟨first, mid', hfirst, hturns⟩ := h
  exact ⟨first, mid', hfirst, fun c left hc => hturns c left (.turn hstep hc)⟩

/-- The loop ends where a turn yields nothing. -/
lemma stop (h : Passes p step ts a rest) (hconsuming : Consuming step)
    (hstep : step a rest = .ok (none, rest)) : (p >>= loop step) ts = .ok (a, rest) := by
  obtain ⟨first, mid, hfirst, hturns⟩ := h
  exact bind_eq_ok.mpr ⟨first, mid, hfirst, (loop_eq_ok hconsuming).mpr (hturns a rest (.stop hstep))⟩

end Passes

/-! ## Expressions -/

/-- Every level has an operator. -/
lemma exists_operator {level : Level} (h : level ∈ levels) : ∃ kind, kind ∈ level.operators := by
  simp only [levels, List.mem_cons, List.not_mem_nil, or_false] at h
  rcases h with rfl | rfl | rfl | rfl | rfl | rfl <;> exact ⟨_, List.mem_cons_self⟩

/-- Every binary operator is on one of the levels. -/
lemma rank_le_length {level : Level} (h : level ∈ levels) {kind : Kind}
    (hkind : kind ∈ level.operators) : rank kind ≤ levels.length :=
  List.findIdx_lt_length.mpr ⟨level, h, by simpa using hkind⟩

/-- The level of an operator is determined by its rank. -/
lemma level_eq_of_rank {level level' : Level} {kind : Kind} (hlevel : level ∈ levels)
    (hkind : kind ∈ level.operators) (hlevel' : level' ∈ levels)
    (hrank : ∀ kind' ∈ level'.operators, rank kind' = rank kind) : level' = level := by
  have hget : ∀ level ∈ levels, ∀ kind ∈ level.operators, levels[rank kind - 1]? = some level := by
    simp [levels, rank, List.findIdx_cons]
  obtain ⟨kind', hkind'⟩ := exists_operator hlevel'
  have h' := hget level' hlevel' kind' hkind'
  rw [hrank kind' hkind', hget level hlevel kind hkind] at h'
  exact (Option.some.inj h').symm

/-- An operator of a level is on no tighter level, and no parenthesis. -/
lemma Ladder.not_operatorOr {r : ℕ} {level : Level} {ls : List Level}
    (h : Ladder r (level :: ls)) {kind : Kind} (hkind : kind ∈ level.operators) :
    operatorOr ls (· = .leftParen) kind = false := by
  have hparen : ∀ level ∈ levels, ∀ kind ∈ level.operators, kind ≠ .leftParen := by
    simp [levels]
  -- All operators on the levels of a ladder have at least the rank of its first level.
  have hrank : ∀ {ls : List Level} {r : ℕ}, Ladder r ls → ∀ level ∈ ls, ∀ kind ∈ level.operators,
      r ≤ rank kind := by
    intro ls
    induction ls with
    | nil => simp
    | cons first ls ih =>
      intro r h level hmem kind hkind
      rcases List.mem_cons.mp hmem with rfl | hmem
      · exact (h.2.1 kind hkind).ge
      · exact Nat.le_of_succ_le (ih h.2.2 level hmem kind hkind)
  obtain ⟨hlevel, hkinds, hrest⟩ := h
  simp only [operatorOr, Bool.or_eq_false_iff, List.any_eq_false, decide_eq_false_iff_not]
  refine ⟨fun level' hmem hcontains => ?_, hparen level hlevel kind hkind⟩
  have hle := hrank hrest level' hmem kind (by simpa using hcontains)
  rw [hkinds kind hkind] at hle
  omega

/-- What the tokens of an expression are parsed as, each construct by the parser for its tightness.  An
operator and a call are what the loop over operators or argument lists passes through. -/
structure Parsable (e : Node) (ts : List Leaf) : Prop where
  assignment : tightness e = 0 → ∀ rest, NotNext continuing rest →
    Parses expression (ts ++ rest) e rest
  operator : ∀ {level ls}, Ladder (tightness e) (level :: ls) →
    ∀ rest, NotNext (operatorOr ls (· = .leftParen)) rest →
      ∀ᶠ n in atTop, Passes (binaries ls (unary n)) (level.step (binaries ls (unary n)))
        (ts ++ rest) e rest
  prefixed : tightness e = levels.length + 1 → ∀ rest, NotNext (· = .leftParen) rest →
    Parses unary (ts ++ rest) e rest
  callee : levels.length + 2 ≤ tightness e → ∀ rest,
    NotNext isUnaryOperator (ts ++ rest) ∧
      ∀ᶠ n in atTop, Passes (primary (expression n)) (callStep (expression n)) (ts ++ rest) e rest

namespace Parsable

variable {e : Node}

/-- A call or a primary is parsed as the operand of a unary operator. -/
lemma asUnary (h : Parsable e ts) (htight : levels.length + 1 ≤ tightness e) (rest : List Leaf)
    (hrest : NotNext (· = .leftParen) rest) : Parses unary (ts ++ rest) e rest := by
  rcases Nat.eq_or_lt_of_le htight with heq | hlt
  · exact h.prefixed heq.symm rest hrest
  · obtain ⟨hnot, hpasses⟩ := h.callee hlt rest
    refine eventually_of_succ ?_
    filter_upwards [hpasses] with n hn
    unfold unary
    refine bind_eq_ok.mpr ⟨none, _, accept?_eq_none.mpr ⟨hnot, rfl⟩, ?_⟩
    change call (expression n) (ts ++ rest) = _
    rw [call_def]
    refine hn.stop ?_ (stepBy_eq_none.mpr ⟨hrest, rfl⟩)
    exact consuming_stepBy fun _ _ => (takes_arguments (takes_expression n)).leaves.map _

/-- An expression is parsed as an operand on the levels that are as tight as it is. -/
lemma asOperand (h : Parsable e ts) {r : ℕ} {ls : List Level} (hladder : Ladder r ls)
    (htight : r ≤ tightness e) (rest : List Leaf)
    (hrest : NotNext (operatorOr ls (· = .leftParen)) rest) :
    Parses (fun n => binaries ls (unary n)) (ts ++ rest) e rest := by
  induction ls generalizing r with
  | nil =>
    obtain rfl : r = levels.length + 1 := hladder
    exact h.asUnary htight rest hrest
  | cons level ls ih =>
    rw [notNext_operatorOr_cons] at hrest
    have hpasses : ∀ᶠ n in atTop, Passes (binaries ls (unary n))
        (level.step (binaries ls (unary n))) (ts ++ rest) e rest := by
      rcases Nat.eq_or_lt_of_le htight with heq | hlt
      · exact h.operator (heq ▸ hladder) rest hrest.2
      · filter_upwards [ih hladder.2.2 hlt hrest.2] with n hn
        exact .start hn
    filter_upwards [hpasses] with n hn
    change level.chain (binaries ls (unary n)) (ts ++ rest) = _
    rw [level.chain_def]
    refine hn.stop ?_ (stepBy_eq_none.mpr ⟨hrest.1, rfl⟩)
    exact consuming_stepBy fun _ _ => (takes_binaries ls (takes_unary n)).leaves.map _

/-- The loop over the operators of a level passes through an operand on that level. -/
lemma asLeft (h : Parsable e ts) {r : ℕ} {level : Level} {ls : List Level}
    (hladder : Ladder r (level :: ls)) (htight : r ≤ tightness e) (rest : List Leaf)
    (hrest : NotNext (operatorOr ls (· = .leftParen)) rest) :
    ∀ᶠ n in atTop, Passes (binaries ls (unary n)) (level.step (binaries ls (unary n)))
      (ts ++ rest) e rest := by
  rcases Nat.eq_or_lt_of_le htight with heq | hlt
  · exact h.operator (heq ▸ hladder) rest hrest
  · filter_upwards [h.asOperand hladder.2.2 hlt rest hrest] with n hn
    exact .start hn

/-- An expression is parsed as one where nothing that continues it comes next. -/
lemma asExpression (h : Parsable e ts) (rest : List Leaf) (hrest : NotNext continuing rest) :
    Parses expression (ts ++ rest) e rest := by
  rcases Nat.eq_zero_or_pos (tightness e) with hzero | hpos
  · exact h.assignment hzero rest hrest
  · obtain ⟨hoperators, hequal⟩ := notNext_or.mp hrest
    refine eventually_of_succ ?_
    filter_upwards [h.asOperand ladder_levels hpos rest hoperators] with n hn
    unfold expression
    exact bind_eq_ok.mpr ⟨e, rest, hn,
      bind_eq_ok.mpr ⟨none, rest, accept?_eq_none.mpr ⟨hequal, rfl⟩, rfl⟩⟩

end Parsable

/-- What a primary is parsed by. -/
lemma Parsable.of_primary {e : Node} (htight : tightness e = levels.length + 3)
    (hfirst : ∀ rest, NotNext isUnaryOperator (ts ++ rest))
    (h : ∀ rest, Parses (fun n => primary (expression n)) (ts ++ rest) e rest) : Parsable e ts where
  assignment hzero := by omega
  operator hladder := by
    have := hladder.le
    omega
  prefixed hunary := by omega
  callee _ rest := by
    refine ⟨hfirst rest, ?_⟩
    filter_upwards [h rest] with n hn
    exact .start hn

/-- A token that denotes a value is the literal of that value. -/
lemma primary_of_denoted? (p : Parse Node) {t : Leaf} {v : Node} (h : t.denoted? = some v) :
    primary p (t :: rest) = .ok (.literal v, rest) := by
  unfold Leaf.denoted? at h
  unfold primary
  dsimp only
  split at h
  case h_4 hk =>
    obtain ⟨x, hx, rfl⟩ := Option.map_eq_some_iff.mp h
    simp [hk, numberOf, hx]
  case h_6 => cases h
  all_goals
    rename_i hk
    obtain rfl := Option.some.inj h
    simp [hk, textOf]

/-- A token that denotes a literal is parsed as that literal. -/
lemma parsable_literal {t : Leaf} {v : Node} (h : t.denoted? = some v) : Parsable (.literal v) [t] := by
  refine .of_primary rfl (fun rest => ?_) fun rest => .of_forall fun n => primary_of_denoted? _ h
  have hmem := Leaf.kind_of_denoted? h
  simp only [List.mem_cons, List.not_mem_nil, or_false] at hmem
  rcases hmem with hk | hk | hk | hk | hk <;> simp [hk, isUnaryOperator]

/-- A name is parsed as a variable. -/
lemma parsable_ident {name : Leaf} (hk : name.kind = .identifier) :
    Parsable (.ident (.token name)) [name] := by
  refine .of_primary rfl (fun rest => by simp [hk, isUnaryOperator]) fun rest => .of_forall fun n => ?_
  simp [primary, hk]

/-- An expression in parentheses is parsed as a grouping. -/
lemma parsable_grouping {e : Node} {opening closing : Leaf} (h : Parsable e ts)
    (hopening : opening.kind = .leftParen) (hclosing : closing.kind = .rightParen) :
    Parsable (.grouping e) (opening :: ts ++ [closing]) := by
  refine .of_primary rfl (fun rest => by simp [hopening, isUnaryOperator]) fun rest => ?_
  have hcloses : NotNext continuing (closing :: rest) := by
    simp [hclosing, continuing, operatorOr, levels]
  filter_upwards [h.asExpression _ hcloses] with n hn
  rw [List.append_assoc]
  simp only [primary, hopening, List.cons_append, List.nil_append]
  exact closedBy_eq_ok.mpr ⟨e, closing, hn, hclosing, rfl⟩

/-! ## Lists in parentheses -/

/-- Behind an item comes a comma or what follows the last item. -/
lemma notNext_of_items {flat : α → List Terminal} {more : Kind → Bool} {as : List α}
    (hw : Writes (as.flatMap (.mark .comma :: flat ·)) ts) (hcomma : more .comma = false)
    (hmore : NotNext more rest) : NotNext more (ts ++ rest) := by
  cases as with
  | nil =>
    obtain rfl := writes_nil.mp hw
    exact hmore
  | cons a as =>
    obtain ⟨t, us, ht, -, rfl⟩ := writes_cons.mp hw
    simpa [Terminal.matches_mark.mp ht] using hcomma

section Separated

variable {item : ℕ → Parse α} {flat : α → List Terminal} {more : Kind → Bool} {as : List α}
  (hitem : ∀ a ∈ as, ∀ ts rest, Writes (flat a) ts → NotNext more rest →
    Parses item (ts ++ rest) a rest)
  (hcomma : more .comma = false)

include hitem hcomma

/-- Items with a comma before each of them are gathered. -/
lemma gathers_of_writes (hw : Writes (as.flatMap (.mark .comma :: flat ·)) ts)
    (hmore : NotNext more rest) (hstop : NotNext (· = .comma) rest) :
    ∀ᶠ n in atTop, Gathers (nextSeparated .comma (item n)) (ts ++ rest) as rest := by
  induction as generalizing ts with
  | nil =>
    obtain rfl := writes_nil.mp hw
    exact .of_forall fun n => .done (stepBy_eq_none.mpr ⟨hstop, rfl⟩)
  | cons a as ih =>
    rw [List.flatMap_cons] at hw
    obtain ⟨front, others, rfl, hfront, hothers⟩ := writes_append.mp hw
    obtain ⟨comma, us, hkind, hus, rfl⟩ := writes_cons.mp hfront
    have hnext := notNext_of_items hothers hcomma hmore
    filter_upwards [hitem a (by simp) us (others ++ rest) hus hnext,
      ih (fun b hb => hitem b (by simp [hb])) hothers] with n ha has
    refine .more (stepBy_eq_some.mpr ⟨comma, us ++ (others ++ rest), by simp, ?_, ha⟩) has
    simpa using hkind

/-- Items with commas between them are parsed up to a closing parenthesis. -/
lemma parses_separated (rest : List Leaf) (hleaves : ∀ n, Leaves (item n)) (hparen : more .rightParen = false)
    (hfirst : ∀ a ∈ as, ∀ ts, Writes (flat a) ts → IsNext (fun kind => !(kind = .rightParen)) ts)
    (hw : Writes (commas (as.map flat)) ts) {closing : Leaf} (hclosing : closing.kind = .rightParen) :
    Parses (fun n => unlessNext .rightParen [] (separated .comma (item n)))
      (ts ++ closing :: rest) as (closing :: rest) := by
  cases as with
  | nil =>
    obtain rfl := writes_nil.mp hw
    exact .of_forall fun n => unlessNext_eq_ok.mpr (.inl ⟨⟨closing, rfl, hclosing⟩, rfl, rfl⟩)
  | cons a as =>
    rw [List.map_cons, commas_cons, List.flatMap_map] at hw
    obtain ⟨us, vs, rfl, hus, hvs⟩ := writes_append.mp hw
    have hmore : NotNext more (closing :: rest) := by simpa [hclosing] using hparen
    have hgathers := gathers_of_writes (fun b hb => hitem b (by simp [hb])) hcomma hvs hmore
      (by simp [hclosing])
    have hnext := notNext_of_items hvs hcomma hmore
    obtain ⟨t, us', rfl, ht⟩ := hfirst a (by simp) us hus
    filter_upwards [hitem a (by simp) _ _ hus hnext, hgathers] with n ha has
    refine unlessNext_eq_ok.mpr (.inr ⟨by simpa using ht, ?_⟩)
    rw [List.append_assoc]
    exact (separated_eq_ok (hleaves n)).mpr ⟨a, _, as, rfl, ha, has⟩

end Separated

/-! ## Expressions, continued -/

/-- What the tokens of an argument list are parsed as, with the closing parenthesis behind them. -/
lemma parses_arguments {es : List Node} (hshape : ∀ e ∈ es, IsExpression T e)
    (hes : ∀ e ∈ es, ∀ ts, Writes e.flatten ts → Parsable e ts)
    (hw : Writes (commas (es.map Node.flatten)) ts) {closing : Leaf}
    (hclosing : closing.kind = .rightParen) :
    Parses (fun n => arguments (expression n)) (ts ++ closing :: rest) (es, closing) rest := by
  have hitem : ∀ e ∈ es, ∀ ts rest, Writes e.flatten ts → NotNext continuing rest →
      Parses expression (ts ++ rest) e rest :=
    fun e he ts rest hw hrest => (hes e he ts hw).asExpression rest hrest
  have hfirst : ∀ e ∈ es, ∀ ts, Writes e.flatten ts →
      IsNext (fun kind => !(kind = .rightParen)) ts := by
    intro e he ts hw
    refine ((hshape e he).isNext hw).mono fun kind hkind => ?_
    cases kind <;> simp [beginsExpression] at hkind ⊢
  have hitems := parses_separated hitem rfl rest (fun n => (takes_expression n).leaves) rfl hfirst hw
    hclosing
  filter_upwards [hitems] with n hn
  rw [arguments_def]
  exact closedBy_eq_ok.mpr ⟨es, closing, hn, hclosing, rfl⟩

/-- A callee that binds tightly enough is parsed as such in front of its arguments. -/
lemma parsable_call {callee : Node} {paren opening : Leaf} {es : List Node} {us : List Leaf}
    (hcallee : Parsable callee ts) (htight : levels.length + 2 ≤ tightness callee)
    (hopening : opening.kind = .leftParen)
    (harguments : ∀ rest,
      Parses (fun n => arguments (expression n)) (us ++ paren :: rest) (es, paren) rest) :
    Parsable (.call callee (.token paren) (.list es)) (ts ++ opening :: us ++ [paren]) where
  assignment hzero := by simp [tightness] at hzero
  operator hladder := by
    have := hladder.le
    simp [tightness] at this
  prefixed hunary := by simp [tightness] at hunary
  callee _ rest := by
    obtain ⟨hnot, hpasses⟩ := hcallee.callee htight (opening :: us ++ paren :: rest)
    have htokens : ts ++ opening :: us ++ [paren] ++ rest = ts ++ (opening :: us ++ paren :: rest) := by
      simp
    rw [htokens]
    refine ⟨hnot, ?_⟩
    filter_upwards [hpasses, harguments rest] with n hn hargs
    refine hn.turn (stepBy_eq_some.mpr ⟨opening, us ++ paren :: rest, rfl, by simpa using hopening, ?_⟩)
    exact map_eq_ok.mpr ⟨(es, paren), hargs, rfl⟩

/-- An operand that binds tightly enough is parsed as such behind a unary operator. -/
lemma parsable_unary {e : Node} {operator : Leaf} (h : Parsable e ts)
    (hoperator : isUnaryOperator operator.kind = true) (htight : levels.length + 1 ≤ tightness e) :
    Parsable (.unary (.token operator) e) (operator :: ts) where
  assignment hzero := by simp [tightness] at hzero
  operator hladder := by
    have := hladder.2.2.le
    simp [tightness] at this
  prefixed _ rest hrest := by
    refine eventually_of_succ ?_
    filter_upwards [h.asUnary htight rest hrest] with n hn
    unfold unary
    refine bind_eq_ok.mpr ⟨some operator, ts ++ rest, accept?_eq_some.mpr ⟨hoperator, rfl⟩, ?_⟩
    exact bind_eq_ok.mpr ⟨e, rest, hn, rfl⟩
  callee hcallee := by simp [tightness] at hcallee

/-- The operands of a binary operator are parsed as such, where the left one may be on its own level. -/
lemma parsable_operator {level : Level} {left right : Node} {operator : Leaf} {us : List Leaf}
    (hlevel : level ∈ levels) (hmem : operator.kind ∈ level.operators)
    (hleft : Parsable left ts) (hleftTight : rank operator.kind ≤ tightness left)
    (hright : Parsable right us) (hrightTight : rank operator.kind < tightness right) :
    Parsable (level.build left (.token operator) right) (ts ++ operator :: us) where
  assignment hzero := by simp [tightness_build hlevel, rank] at hzero
  operator := by
    intro level' ls hladder rest hrest
    rw [tightness_build hlevel] at hladder
    obtain rfl : level' = level := level_eq_of_rank hlevel hmem hladder.1 hladder.2.1
    have hoperator : NotNext (operatorOr ls (· = .leftParen)) (operator :: us ++ rest) := by
      simpa using hladder.not_operatorOr hmem
    have hpasses := hleft.asLeft hladder hleftTight _ hoperator
    rw [List.append_assoc]
    filter_upwards [hpasses, hright.asOperand hladder.2.2 hrightTight rest hrest] with n hn hoperand
    refine hn.turn (stepBy_eq_some.mpr ⟨operator, us ++ rest, rfl, by simpa using hmem, ?_⟩)
    exact map_eq_ok.mpr ⟨right, hoperand, rfl⟩
  prefixed hunary := by
    have := rank_le_length hlevel hmem
    rw [tightness_build hlevel] at hunary
    omega
  callee hcallee := by
    have := rank_le_length hlevel hmem
    rw [tightness_build hlevel] at hcallee
    omega

/-- A name with a value is parsed as an assignment, whatever the value is. -/
lemma parsable_assign {name equals : Leaf} {value : Node} (hname : name.kind = .identifier)
    (hequals : equals.kind = .equal) (h : Parsable value ts) :
    Parsable (.assign (.token name) value) (name :: equals :: ts) where
  assignment _ rest hrest := by
    have hoperators : NotNext (operatorOr levels (· = .leftParen)) (equals :: ts ++ rest) := by
      simp [hequals, operatorOr, levels]
    have htarget := (parsable_ident hname).asOperand ladder_levels (by simp [tightness]) _ hoperators
    refine eventually_of_succ ?_
    filter_upwards [htarget, h.asExpression rest hrest] with n hn hvalue
    unfold expression
    refine bind_eq_ok.mpr ⟨.ident (.token name), _, hn, ?_⟩
    refine bind_eq_ok.mpr ⟨some equals, ts ++ rest, accept?_eq_some.mpr ⟨by simpa using hequals, rfl⟩, ?_⟩
    exact bind_eq_ok.mpr ⟨value, rest, hvalue, rfl⟩
  operator hladder := by
    obtain ⟨kind, hkind⟩ := exists_operator hladder.1
    have hrank := hladder.2.1 kind hkind
    simp [tightness, rank] at hrank
  prefixed hunary := by simp [tightness] at hunary
  callee hcallee := by simp [tightness] at hcallee

/-- The tokens of an expression are parsed as the expression. -/
theorem IsExpression.parsable {e : Node} (he : IsExpression T e) (hw : Writes e.flatten ts) :
    Parsable e ts := by
  induction he generalizing ts with
  | literal _ _ | always =>
    obtain ⟨t, ht, rfl⟩ := writes_singleton.mp hw
    exact parsable_literal ht
  | grouping _ ih =>
    obtain ⟨front, back, rfl, hfront, hback⟩ := writes_append.mp hw
    obtain ⟨opening, us, hopening, hus, rfl⟩ := writes_cons.mp hfront
    obtain ⟨closing, hclosing, rfl⟩ := writes_singleton.mp hback
    exact parsable_grouping (ih hus) hopening hclosing
  | ident _ hk =>
    obtain ⟨t, rfl, rfl⟩ := writes_singleton.mp hw
    exact parsable_ident hk
  | call _ htight _ hk hshape ihCallee ihArguments =>
    rw [Node.flatten, Node.flattenParts_list] at hw
    obtain ⟨front, back, rfl, hfront, hback⟩ := writes_append.mp hw
    obtain ⟨us, tail, rfl, hus, htail⟩ := writes_append.mp hfront
    obtain ⟨opening, vs, hopening, hvs, rfl⟩ := writes_cons.mp htail
    obtain ⟨paren, rfl, rfl⟩ := writes_singleton.mp hback
    exact parsable_call (ihCallee hus) htight hopening fun rest =>
      parses_arguments hshape (fun e he ts hw => ihArguments e he hw) hvs hk
  | unary _ hop _ htight ih =>
    obtain ⟨operator, us, rfl, hus, rfl⟩ := writes_cons.mp hw
    exact parsable_unary (ih hus) hop htight
  | operator hlevel _ hmem _ hleft _ hright ihLeft ihRight =>
    rw [flatten_build hlevel] at hw
    obtain ⟨us, tail, rfl, hus, htail⟩ := writes_append.mp hw
    obtain ⟨operator, vs, rfl, hvs, rfl⟩ := writes_cons.mp htail
    exact parsable_operator hlevel hmem (ihLeft hus) hleft (ihRight hvs) hright
  | assign _ hk _ ih =>
    obtain ⟨name, us, rfl, hus, rfl⟩ := writes_cons.mp hw
    obtain ⟨equals, vs, hequals, hvs, rfl⟩ := writes_cons.mp hus
    exact parsable_assign hk hequals (ih hvs)

/-! ## Statements -/

/-- If the statement ends in an `if` without an `else`, no `else` comes next. -/
def Closes (s : Node) (rest : List Leaf) : Prop :=
  endsOpen s = true → NotNext (· = .elseWord) rest

/-- What the tokens of a statement are parsed as. -/
structure ParsableStatement (s : Node) (ts : List Leaf) : Prop where
  asDeclaration : ∀ rest, Closes s rest → Parses declaration (ts ++ rest) s rest
  asStatement : isDeclaration s = false → ∀ rest, Closes s rest → Parses statement (ts ++ rest) s rest

variable {s : Node}

/-- Whatever is parsed as a statement is parsed as a declaration too. -/
lemma ParsableStatement.of_statement (hfirst : IsNext beginsStatement ts)
    (h : ∀ rest, Closes s rest → Parses statement (ts ++ rest) s rest) : ParsableStatement s ts where
  asStatement _ := h
  asDeclaration rest hrest := by
    obtain ⟨t, us, rfl, hkind⟩ := hfirst
    refine eventually_of_succ ?_
    filter_upwards [h rest hrest] with n hn
    cases hk : t.kind <;> simp [hk, beginsStatement, beginsExpression] at hkind <;>
      simpa [declaration, hk] using hn

/-- Of the tokens that begin a statement, only a parenthesis and a minus sign continue an expression. -/
lemma not_continuing_of_beginsStatement {kind : Kind} (h : beginsStatement kind = true)
    (hnot : kind ≠ .leftParen ∧ kind ≠ .minus) : continuing kind = false := by
  cases kind <;> simp [beginsStatement, beginsExpression] at h hnot <;> rfl

/-- A statement that follows a condition does not continue it. -/
lemma IsStatement.notNext_continuing (hs : IsStatement T s) (hplain : isDeclaration s = false)
    (hbegins : ¬ continuesCondition s) (hw : Writes s.flatten ts) :
    NotNext continuing (ts ++ rest) := by
  obtain ⟨t, us, rfl, hkind⟩ := hs.isNext_statement hplain hw
  exact notNext_cons.mpr
    (not_continuing_of_beginsStatement hkind (kind_of_not_continuesCondition hbegins hw t rfl))

/-- A semicolon continues no expression. -/
lemma notNext_continuing_semicolon {semicolon : Leaf} (h : semicolon.kind = .semicolon) :
    NotNext continuing (semicolon :: rest) := by
  simp [h, continuing, operatorOr, levels]

section Statements

variable {e : Node} {word semicolon : Leaf} (hsemicolon : semicolon.kind = .semicolon)
  (he : Parsable e ts)

include hsemicolon

/-- A variable may be declared without an initializer. -/
lemma parsable_varDecl {name : Leaf} (hword : word.kind = .varWord) (hname : name.kind = .identifier) :
    ParsableStatement (.varDecl (.token name) .null) [word, name, semicolon] where
  asStatement hplain := by simp [isDeclaration] at hplain
  asDeclaration rest _ := by
    refine eventually_of_succ (.of_forall fun n => ?_)
    simp only [declaration, hword, List.cons_append, List.nil_append]
    refine bind_eq_ok.mpr ⟨name, _, expect_eq_ok.mpr ⟨hname, rfl⟩, ?_⟩
    refine bind_eq_ok.mpr ⟨none, _, accept?_eq_none.mpr ⟨by simp [hsemicolon], rfl⟩, ?_⟩
    exact closedBy_eq_ok.mpr ⟨.null, semicolon, rfl, hsemicolon, rfl⟩

include he

/-- A variable may be declared with an initializer, which the semicolon ends. -/
lemma parsable_varInit {name equals : Leaf} (hword : word.kind = .varWord)
    (hname : name.kind = .identifier) (hequals : equals.kind = .equal) :
    ParsableStatement (.varDecl (.token name) e) (word :: name :: equals :: ts ++ [semicolon]) where
  asStatement hplain := by simp [isDeclaration] at hplain
  asDeclaration rest _ := by
    refine eventually_of_succ ?_
    filter_upwards [he.asExpression _ (notNext_continuing_semicolon hsemicolon)] with n hn
    rw [List.append_assoc]
    simp only [declaration, hword, List.cons_append, List.nil_append]
    refine bind_eq_ok.mpr ⟨name, _, expect_eq_ok.mpr ⟨hname, rfl⟩, ?_⟩
    refine bind_eq_ok.mpr ⟨some equals, _, accept?_eq_some.mpr ⟨by simpa using hequals, rfl⟩, ?_⟩
    exact closedBy_eq_ok.mpr ⟨e, semicolon, hn, hsemicolon, rfl⟩

/-- An expression with a semicolon is a statement. -/
lemma parses_exprStmt (hfirst : IsNext beginsExpression ts) (rest : List Leaf) :
    Parses statement (ts ++ [semicolon] ++ rest) (.exprStmt e) rest := by
  obtain ⟨t, us, rfl, hkind⟩ := hfirst
  refine eventually_of_succ ?_
  filter_upwards [he.asExpression _ (notNext_continuing_semicolon hsemicolon)] with n hn
  have hstatement : statement (n + 1) (t :: us ++ [semicolon] ++ rest) =
      expressionStatement (expression n) (t :: us ++ semicolon :: rest) := by
    rw [List.append_assoc]
    cases hk : t.kind <;> simp [hk, beginsExpression] at hkind <;> simp [statement, hk]
  rw [hstatement]
  exact closedBy_eq_ok.mpr ⟨e, semicolon, hn, hsemicolon, rfl⟩

/-- An expression with a semicolon is a print statement behind `print`. -/
lemma parses_printStmt (hword : word.kind = .printWord) (rest : List Leaf) :
    Parses statement (word :: ts ++ [semicolon] ++ rest) (.printStmt e) rest := by
  refine eventually_of_succ ?_
  filter_upwards [he.asExpression _ (notNext_continuing_semicolon hsemicolon)] with n hn
  rw [List.append_assoc]
  simp only [statement, hword, List.cons_append, List.nil_append]
  exact closedBy_eq_ok.mpr ⟨e, semicolon, hn, hsemicolon, rfl⟩

/-- An expression with a semicolon is a `return` statement behind `return`. -/
lemma parses_returnValue (hword : word.kind = .returnWord) (hfirst : IsNext beginsExpression ts)
    (rest : List Leaf) :
    Parses statement (word :: ts ++ [semicolon] ++ rest) (.returnStmt (.token word) e) rest := by
  have hnot : NotNext (· = .semicolon) (ts ++ semicolon :: rest) := by
    obtain ⟨t, us, rfl, hkind⟩ := hfirst
    cases hk : t.kind <;> simp [hk, beginsExpression] at hkind <;> simp [hk]
  refine eventually_of_succ ?_
  filter_upwards [he.asExpression _ (notNext_continuing_semicolon hsemicolon)] with n hn
  rw [List.append_assoc]
  simp only [statement, hword, List.cons_append, List.nil_append]
  rw [returnStatement_def]
  exact closedBy_eq_ok.mpr ⟨e, semicolon, unlessNext_eq_ok.mpr (.inr ⟨hnot, hn⟩), hsemicolon, rfl⟩

omit he in
/-- Behind `return` the expression may be missing. -/
lemma parses_returnStmt (hword : word.kind = .returnWord) (rest : List Leaf) :
    Parses statement (word :: [semicolon] ++ rest) (.returnStmt (.token word) .null) rest := by
  refine eventually_of_succ (.of_forall fun n => ?_)
  simp only [statement, hword, List.cons_append, List.nil_append]
  rw [returnStatement_def]
  refine closedBy_eq_ok.mpr ⟨.null, semicolon, ?_, hsemicolon, rfl⟩
  exact unlessNext_eq_ok.mpr (.inl ⟨⟨semicolon, rfl, hsemicolon⟩, rfl, rfl⟩)

end Statements

/-! ## Branches and blocks -/

section Branches

variable {condition thenBranch elseBranch body : Node} {word : Leaf} {us vs : List Leaf}

/-- An `if` statement without `else` is parsed if none comes next. -/
lemma parses_ifStmt (hword : word.kind = .ifWord)
    (hc : Parses expression (ts ++ (us ++ rest)) condition (us ++ rest))
    (ht : Parses statement (us ++ rest) thenBranch rest) (hrest : NotNext (· = .elseWord) rest) :
    Parses statement (word :: ts ++ us ++ rest) (.ifStmt condition thenBranch .null) rest := by
  refine eventually_of_succ ?_
  filter_upwards [hc, ht] with n hcn htn
  rw [List.append_assoc]
  simp only [statement, hword, List.cons_append]
  refine bind_eq_ok.mpr ⟨condition, _, hcn, ?_⟩
  refine bind_eq_ok.mpr ⟨thenBranch, _, htn, ?_⟩
  exact bind_eq_ok.mpr ⟨none, rest, accept?_eq_none.mpr ⟨hrest, rfl⟩, rfl⟩

/-- A `while` statement is parsed if its condition ends where its body begins. -/
lemma parses_whileStmt (hword : word.kind = .whileWord)
    (hc : Parses expression (ts ++ (us ++ rest)) condition (us ++ rest))
    (hb : Parses statement (us ++ rest) body rest) :
    Parses statement (word :: ts ++ us ++ rest) (.whileStmt condition body) rest := by
  refine eventually_of_succ ?_
  filter_upwards [hc, hb] with n hcn hbn
  rw [List.append_assoc]
  simp only [statement, hword, List.cons_append]
  refine bind_eq_ok.mpr ⟨condition, _, hcn, ?_⟩
  exact bind_eq_ok.mpr ⟨body, _, hbn, rfl⟩

variable (hcondition : Parsable condition ts) (hthen : ParsableStatement thenBranch us)
  (hthenPlain : isDeclaration thenBranch = false)
  (hbegins : ∀ rest, NotNext continuing (us ++ rest))

include hcondition hthen hthenPlain hbegins

/-- An `else` goes with the `if` in front of it if the branch between them is closed. -/
lemma parses_ifElse {other : Leaf} (hword : word.kind = .ifWord) (hother : other.kind = .elseWord)
    (hclosed : endsOpen thenBranch = false) (helse : ParsableStatement elseBranch vs)
    (helsePlain : isDeclaration elseBranch = false) (rest : List Leaf) (hrest : Closes elseBranch rest) :
    Parses statement (word :: ts ++ us ++ other :: vs ++ rest)
      (.ifStmt condition thenBranch elseBranch) rest := by
  have hc := hcondition.asExpression _ (hbegins (other :: vs ++ rest))
  have ht := hthen.asStatement hthenPlain (other :: vs ++ rest) (by simp [Closes, hclosed])
  refine eventually_of_succ ?_
  filter_upwards [hc, ht, helse.asStatement helsePlain rest hrest] with n hcn htn hen
  have htokens : word :: ts ++ us ++ other :: vs ++ rest =
      word :: (ts ++ (us ++ (other :: vs ++ rest))) := by simp
  rw [htokens]
  simp only [statement, hword]
  refine bind_eq_ok.mpr ⟨condition, _, hcn, ?_⟩
  refine bind_eq_ok.mpr ⟨thenBranch, _, htn, ?_⟩
  refine bind_eq_ok.mpr ⟨some other, vs ++ rest, accept?_eq_some.mpr ⟨by simpa using hother, rfl⟩, ?_⟩
  exact bind_eq_ok.mpr ⟨elseBranch, rest, hen, rfl⟩

end Branches

/-- Statements, one after the other, are gathered up to a token that is no part of a statement. -/
lemma gathers_statements {ss : List Node} {stop : Kind} (hstop : beginsDeclaration stop = false)
    (rest : List Leaf) (hshape : ∀ s ∈ ss, IsStatement T s)
    (hss : ∀ s ∈ ss, ∀ ts, Writes s.flatten ts → ParsableStatement s ts)
    (hw : Writes (ss.flatMap Node.flatten) ts) (hend : ∀ t ∈ rest.head?, t.kind = stop)
    (helse : NotNext (· = .elseWord) rest) :
    ∀ᶠ n in atTop, Gathers (nextUntil stop (declaration n)) (ts ++ rest) ss rest := by
  induction ss generalizing ts with
  | nil =>
    obtain rfl := writes_nil.mp hw
    exact .of_forall fun n => .done (nextUntil_eq_none.mpr ⟨hend, rfl⟩)
  | cons s ss ih =>
    rw [List.flatMap_cons] at hw
    obtain ⟨us, vs, rfl, hus, hvs⟩ := writes_append.mp hw
    obtain ⟨t, us', rfl, hkind⟩ := (hshape s (by simp)).isNext_declaration hus
    -- What follows the statement begins another one or ends the list.
    have hnext : NotNext (· = .elseWord) (vs ++ rest) := by
      cases ss with
      | nil =>
        obtain rfl := writes_nil.mp hvs
        exact helse
      | cons s' ss =>
        have hnext := Writes.isNext hvs fun us => (hshape s' (by simp)).isNext_declaration
        obtain ⟨t', vs', rfl, hkind'⟩ := hnext
        simp only [List.cons_append, notNext_cons, decide_eq_false_iff_not]
        rintro hk
        rw [hk] at hkind'
        cases hkind'
    have hs := (hss s (by simp) _ hus).asDeclaration (vs ++ rest) fun _ => hnext
    filter_upwards [hs, ih (fun s hs => hshape s (by simp [hs])) (fun s hs => hss s (by simp [hs])) hvs]
      with n hsn hssn
    rw [List.append_assoc]
    refine .more (nextUntil_eq_some.mpr ⟨⟨t, by simp, ?_⟩, hsn⟩) hssn
    rintro rfl
    rw [hkind] at hstop
    cases hstop

/-- A block is read once its statements are gathered. -/
lemma parses_block {body : List Node} {closing : Leaf} (hclosing : closing.kind = .rightBrace)
    (hgathers : ∀ᶠ n in atTop, Gathers (nextUntil .rightBrace (declaration n)) ts body (closing :: rest)) :
    Parses (fun n => block (declaration n)) ts body rest := by
  filter_upwards [hgathers] with n hn
  have hbody := (itemsUntil_eq_ok (takes_declaration n)).mpr hn
  exact closedBy_eq_ok.mpr ⟨body, closing, hbody, hclosing, rfl⟩

/-- A block may stand as a statement. -/
lemma parses_blockStatement {body : List Node} {opening : Leaf} (hopening : opening.kind = .leftBrace)
    (h : Parses (fun n => block (declaration n)) ts body rest) :
    Parses statement (opening :: ts) (.block (.list body)) rest := by
  refine eventually_of_succ ?_
  filter_upwards [h] with n hn
  simp only [statement, hopening]
  exact map_eq_ok.mpr ⟨body, hn, rfl⟩

/-- Statements that are parsed one by one are parsed as a block in front of a closing brace. -/
lemma parses_writtenBlock {body : List Node} {closing : Leaf} (rest : List Leaf)
    (hclosing : closing.kind = .rightBrace) (hshape : ∀ s ∈ body, IsStatement T s)
    (hbody : ∀ s ∈ body, ∀ ts, Writes s.flatten ts → ParsableStatement s ts)
    (hw : Writes (body.flatMap Node.flatten) ts) :
    Parses (fun n => block (declaration n)) (ts ++ closing :: rest) body rest :=
  parses_block hclosing <|
    gathers_statements rfl (closing :: rest) hshape hbody hw (by simpa using hclosing) (by simp [hclosing])

/-- Names with commas between them are parsed as parameters. -/
lemma parses_parameters {params : List Leaf} (rest : List Leaf) (hparams : ∀ t ∈ params, t.kind = .identifier)
    (hw : Writes (commas (params.map fun t => [.exact t])) ts) {closing : Leaf}
    (hclosing : closing.kind = .rightParen) :
    Parses (fun _ => parameters) (ts ++ closing :: rest) params rest := by
  have hitem : ∀ t ∈ params, ∀ us rest, Writes [.exact t] us → NotNext (fun _ => false) rest →
      Parses (fun _ => expect .identifier) (us ++ rest) t rest := by
    intro t ht us rest hus _
    obtain ⟨u, rfl, rfl⟩ := writes_singleton.mp hus
    exact .of_forall fun _ => expect_eq_ok.mpr ⟨hparams u ht, rfl⟩
  have hfirst : ∀ t ∈ params, ∀ us, Writes [.exact t] us →
      IsNext (fun kind => !(kind = .rightParen)) us := by
    intro t ht us hus
    obtain ⟨u, rfl, rfl⟩ := writes_singleton.mp hus
    exact ⟨u, [], rfl, by simp [hparams u ht]⟩
  have hitems := parses_separated hitem rfl rest (fun _ => (takes_expect _).leaves) rfl hfirst hw
    hclosing
  filter_upwards [hitems] with n hn
  rw [parameters_def]
  exact closedBy_eq_ok.mpr ⟨params, closing, hn, hclosing, rfl⟩

/-- The tokens of a statement are parsed as the statement. -/
theorem IsStatement.parsable (hs : IsStatement T s) (hw : Writes s.flatten ts) :
    ParsableStatement s ts := by
  induction hs generalizing ts with
  | exprStmt he =>
    obtain ⟨us, vs, rfl, hus, hvs⟩ := writes_append.mp hw
    obtain ⟨semicolon, hsemicolon, rfl⟩ := writes_singleton.mp hvs
    have hfirst := (IsStatement.exprStmt he).isNext_statement rfl hw
    exact .of_statement hfirst fun rest _ =>
      parses_exprStmt hsemicolon (he.parsable hus) (he.isNext hus) rest
  | printStmt he =>
    obtain ⟨front, vs, rfl, hfront, hvs⟩ := writes_append.mp hw
    obtain ⟨word, us, hword, hus, rfl⟩ := writes_cons.mp hfront
    obtain ⟨semicolon, hsemicolon, rfl⟩ := writes_singleton.mp hvs
    have hfirst := (IsStatement.printStmt he).isNext_statement rfl hw
    exact .of_statement hfirst fun rest _ =>
      parses_printStmt hsemicolon (he.parsable hus) hword rest
  | varDecl _ hk =>
    obtain ⟨word, us, hword, hus, rfl⟩ := writes_cons.mp hw
    obtain ⟨name, vs, rfl, hvs, rfl⟩ := writes_cons.mp hus
    obtain ⟨semicolon, hsemicolon, rfl⟩ := writes_singleton.mp hvs
    exact parsable_varDecl hsemicolon hword hk
  | varInit _ hk he =>
    rw [Node.flatten_varInit he.ne_null] at hw
    obtain ⟨front, tail, rfl, hfront, htail⟩ := writes_append.mp hw
    obtain ⟨semicolon, hsemicolon, rfl⟩ := writes_singleton.mp htail
    obtain ⟨word, us, hword, hus, rfl⟩ := writes_cons.mp hfront
    obtain ⟨name, vs, rfl, hvs, rfl⟩ := writes_cons.mp hus
    obtain ⟨equals, ts, hequals, hts, rfl⟩ := writes_cons.mp hvs
    exact parsable_varInit hsemicolon (he.parsable hts) hword hk hequals
  | block hshape ih =>
    -- The statements of a block are its declarations, so the hypothesis is about each of them.
    have hfirst := (IsStatement.block hshape).isNext_statement rfl hw
    rw [Node.flatten, Node.flattenParts_list, ← List.flatMap_def] at hw
    obtain ⟨front, tail, rfl, hfront, htail⟩ := writes_append.mp hw
    obtain ⟨opening, us, hopening, hus, rfl⟩ := writes_cons.mp hfront
    obtain ⟨closing, hclosing, rfl⟩ := writes_singleton.mp htail
    refine .of_statement hfirst fun rest _ => ?_
    rw [List.append_assoc]
    exact parses_blockStatement hopening
      (parses_writtenBlock rest hclosing hshape (fun s hs ts hw => ih s hs hw) hus)
  | ifStmt hc ht htPlain hbegins ih =>
    have hfirst := (IsStatement.ifStmt hc ht htPlain hbegins).isNext_statement rfl hw
    obtain ⟨front, us, rfl, hfront, hus⟩ := writes_append.mp hw
    obtain ⟨word, ts, hword, hts, rfl⟩ := writes_cons.mp hfront
    refine .of_statement hfirst fun rest hrest => ?_
    -- The branch may end with an `if`, and then no `else` may come next, which would go there.
    exact parses_ifStmt hword ((hc.parsable hts).asExpression _ (ht.notNext_continuing htPlain hbegins hus))
      ((ih hus).asStatement htPlain rest fun _ => hrest rfl) (hrest rfl)
  | ifElse hc ht htPlain hbegins hclosed he hePlain ihThen ihElse =>
    have hfirst := (IsStatement.ifElse hc ht htPlain hbegins hclosed he hePlain).isNext_statement rfl hw
    rw [Node.flatten_ifElse he.ne_null] at hw
    obtain ⟨front, tail, rfl, hfront, htail⟩ := writes_append.mp hw
    obtain ⟨front, us, rfl, hfront, hus⟩ := writes_append.mp hfront
    obtain ⟨word, ts, hword, hts, rfl⟩ := writes_cons.mp hfront
    obtain ⟨other, vs, hother, hvs, rfl⟩ := writes_cons.mp htail
    refine .of_statement hfirst fun rest hrest => ?_
    -- An `else` behind the whole statement would go to the branch behind `else`.
    unfold Closes at hrest
    rw [endsOpen_ifElse he.ne_null] at hrest
    exact parses_ifElse (hc.parsable hts) (ihThen hus) htPlain
      (fun rest => ht.notNext_continuing htPlain hbegins hus) hword hother hclosed (ihElse hvs) hePlain
      rest hrest
  | whileStmt hc hb hbPlain hbegins ih =>
    have hfirst := (IsStatement.whileStmt hc hb hbPlain hbegins).isNext_statement rfl hw
    obtain ⟨front, us, rfl, hfront, hus⟩ := writes_append.mp hw
    obtain ⟨word, ts, hword, hts, rfl⟩ := writes_cons.mp hfront
    refine .of_statement hfirst fun rest hrest => ?_
    exact parses_whileStmt hword ((hc.parsable hts).asExpression _ (hb.notNext_continuing hbPlain hbegins hus))
      ((ih hus).asStatement hbPlain rest hrest)
  | @funDecl name params body _ hk hparams hshape ih =>
    rw [Node.flatten, Node.flattenParts_list, Node.flattenParts_list, ← List.flatMap_def,
      List.map_map] at hw
    obtain ⟨front, tail, rfl, hfront, htail⟩ := writes_append.mp hw
    obtain ⟨closing, hclosing, rfl⟩ := writes_singleton.mp htail
    obtain ⟨front, tail, rfl, hfront, htail⟩ := writes_append.mp hfront
    obtain ⟨front, middle, rfl, hfront, hmiddle⟩ := writes_append.mp hfront
    obtain ⟨word, us, hword, hus, rfl⟩ := writes_cons.mp hfront
    obtain ⟨name, rfl, rfl⟩ := writes_singleton.mp hus
    obtain ⟨opening, ps, hopening, hps, rfl⟩ := writes_cons.mp hmiddle
    obtain ⟨paren, vs, hparen, hvs, rfl⟩ := writes_cons.mp htail
    obtain ⟨brace, bs, hbrace, hbs, rfl⟩ := writes_cons.mp hvs
    refine ⟨fun rest _ => eventually_of_succ ?_, fun hplain => by simp [isDeclaration] at hplain⟩
    have hblock := parses_writtenBlock rest hclosing hshape (fun s hs ts hw => ih s hs hw) hbs
    have hparameters := parses_parameters (brace :: bs ++ closing :: rest)
      (fun t ht => (hparams t ht).2) hps hparen
    filter_upwards [hblock, hparameters] with n hn hpn
    -- The same tokens, put together in the order in which the parser takes them.
    have htokens : word :: [name] ++ opening :: ps ++ paren :: brace :: bs ++ [closing] ++ rest =
        word :: name :: opening :: (ps ++ paren :: (brace :: bs ++ closing :: rest)) := by simp
    rw [htokens]
    simp only [declaration, Terminal.matches_mark.mp hword]
    refine bind_eq_ok.mpr ⟨name, _, expect_eq_ok.mpr ⟨hk, rfl⟩, ?_⟩
    refine bind_eq_ok.mpr ⟨opening, _, expect_eq_ok.mpr ⟨hopening, rfl⟩, ?_⟩
    refine bind_eq_ok.mpr ⟨params, _, hpn, ?_⟩
    refine bind_eq_ok.mpr ⟨brace, bs ++ closing :: rest, expect_eq_ok.mpr ⟨hbrace, rfl⟩, ?_⟩
    exact bind_eq_ok.mpr ⟨body, rest, hn, rfl⟩
  | returnStmt hT hk =>
    have hfirst := (IsStatement.returnStmt hT hk).isNext_statement rfl hw
    obtain ⟨word, us, rfl, hus, rfl⟩ := writes_cons.mp hw
    obtain ⟨semicolon, hsemicolon, rfl⟩ := writes_singleton.mp hus
    exact .of_statement hfirst fun rest _ => parses_returnStmt hsemicolon hk rest
  | returnValue hT hk he =>
    have hfirst := (IsStatement.returnValue hT hk he).isNext_statement rfl hw
    obtain ⟨front, tail, rfl, hfront, htail⟩ := writes_append.mp hw
    obtain ⟨word, us, rfl, hus, rfl⟩ := writes_cons.mp hfront
    obtain ⟨semicolon, hsemicolon, rfl⟩ := writes_singleton.mp htail
    exact .of_statement hfirst fun rest _ =>
      parses_returnValue hsemicolon (he.parsable hus) hk (he.isNext hus) rest

/-! ## Programs -/

/-- What parsing does to tokens with an end mark behind them. -/
lemma parseWithin_append_mark {tokens : List Leaf} {stop : Leaf}
    (hplain : ∀ t ∈ tokens, t.kind ≠ .comment ∧ t.kind ≠ .eof) (hstop : stop.kind = .eof)
    (limit : ℕ) :
    parseWithin limit (tokens ++ [stop]) =
      match itemsUntil .eof (declaration limit) tokens with
      | .ok (statements, _) => .ok statements
      | .error cause => .error ⟨cause, stop⟩ := by
  have hself : tokens.filter (·.kind ≠ .comment) = tokens :=
    List.filter_eq_self.mpr fun t ht => by simpa using (hplain t ht).1
  have hfilter : (tokens ++ [stop]).filter (·.kind ≠ .comment) = tokens ++ [stop] := by
    rw [List.filter_append, hself]
    simp [hstop]
  have hmark : endMark? (tokens ++ [stop]) = some stop := by
    simp [endMark?, hstop]
  have hends : ∀ t ∈ tokens, t.kind ≠ .eof := fun t ht => (hplain t ht).2
  have hnone : programTokens [stop] = [] := by
    simp [programTokens, hstop]
  have htokens : programTokens (tokens ++ [stop]) = tokens := by
    rw [programTokens_append hends, hnone, List.append_nil, hself]
  have hcut : (Input.cut stop (tokens ++ [stop])).stop = stop := by
    rw [stop_cut_append hends]
    simp [Input.cut, hstop]
  rw [parseWithin_apply, hfilter, hmark, htokens]
  dsimp only
  cases itemsUntil .eof (declaration limit) tokens with
  | ok r => rfl
  | error cause => exact congrArg (fun mark => Except.error (ParseError.mk cause mark)) hcut

/-- A well-shaped program is written by some tokens, and whatever tokens write it are parsed as that
program, with an end mark behind them.  Only constructs that are nested too deeply for the limit are in
the way, and some limit is enough. -/
theorem written_program_is_parsed {p : List Node} (hp : ∀ s ∈ p, IsStatement T s) :
    (∃ tokens, Writes (Node.flattenProgram p) tokens) ∧
      ∀ tokens stop, Writes (Node.flattenProgram p) tokens → stop.kind = .eof →
        ∃ depth, ∃ got : ℕ → Option Leaf, ∀ limit, parseWithin limit (tokens ++ [stop]) =
          if depth ≤ limit then .ok p else .error ⟨@.tooDeep (got limit), stop⟩ := by
  refine ⟨exists_writes hp, fun tokens stop hw hstop => ?_⟩
  obtain ⟨n, hlarge⟩ : ∃ n, itemsUntil .eof (declaration n) tokens = .ok (p, []) := by
    have hgathers := gathers_statements (rfl : beginsDeclaration .eof = false) [] hp
      (fun s hs ts hw => (hp s hs).parsable hw) hw (by simp) (notNext_nil _)
    obtain ⟨n, hn⟩ := hgathers.exists
    rw [List.append_nil] at hn
    exact ⟨n, (itemsUntil_eq_ok (takes_declaration n)).mpr hn⟩
  obtain ⟨depth, got, hdepth⟩ := exists_depth approximates_declarations hlarge
  refine ⟨depth, got, fun limit => ?_⟩
  rw [parseWithin_append_mark (kind_of_writes hp hw) hstop, hdepth]
  split_ifs <;> rfl

theorem nestedIf_is_parsed :
    (∀ s ∈ [nestedIf], IsStatement (· ∈ nestedIfTokens) s) ∧
      (∃ tokens, Writes (Node.flattenProgram [nestedIf]) tokens) ∧
      ∀ tokens stop, Writes (Node.flattenProgram [nestedIf]) tokens → stop.kind = .eof →
        ∃ depth, ∃ got : ℕ → Option Leaf, ∀ limit, parseWithin limit (tokens ++ [stop]) =
          if depth ≤ limit then .ok [nestedIf] else .error ⟨@.tooDeep (got limit), stop⟩ := by
  have hparse : parseWithin 9 nestedIfTokens = .ok [nestedIf] := rfl
  have hshape : ∀ s ∈ [nestedIf], IsStatement (· ∈ nestedIfTokens) s := (reads_program (fun _ ht => ht) hparse).1
  exact ⟨hshape, written_program_is_parsed hshape⟩

end Scriptlet.Grammar
