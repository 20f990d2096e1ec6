import Scriptlet.Proofs.Shape

/-!
# The tokens of a tree

What the tokens of a well-shaped tree can be, told from the shape alone: which kinds the first token may
have, and that neither comments nor end marks are among the tokens.  The first token is what the parser
looks at to choose between constructs, and what ends the construct before it.
-/

namespace Scriptlet

/-- Only a token of one of five kinds denotes a value. -/
lemma Leaf.kind_of_denoted? {t : Leaf} {v : Node} (h : t.denoted? = some v) :
    t.kind ∈ [Kind.falseWord, .trueWord, .nilWord, .number, .string] := by
  unfold Leaf.denoted? at h
  split at h
  case h_6 => cases h
  all_goals
    rename_i hk
    simp [hk]

/-- The token of a terminal that leaves the kind open denotes a value. -/
lemma Terminal.Matches.kind_mem {x : Terminal} {t : Leaf} (h : x.Matches t) (hx : x.kind? = none) :
    t.kind ∈ [Kind.falseWord, .trueWord, .nilWord, .number, .string] := by
  cases x with
  | exact u => cases hx
  | mark kind => cases hx
  | value v => exact Leaf.kind_of_denoted? h

/-- A terminal that admits a token, and neither comments nor end marks. -/
structure Terminal.IsPlain (x : Terminal) : Prop where
  admits : ∃ t, x.Matches t
  kind_ne : ∀ t, x.Matches t → t.kind ≠ .comment ∧ t.kind ≠ .eof

/-- A single token is plain if it neither is a comment nor ends the source. -/
@[simp] lemma Terminal.isPlain_exact {t : Leaf} :
    (exact t).IsPlain ↔ t.kind ≠ .comment ∧ t.kind ≠ .eof := by
  constructor
  · intro h
    exact h.kind_ne t rfl
  · intro h
    refine ⟨⟨t, rfl⟩, ?_⟩
    rintro _ rfl
    exact h

/-- A kind of tokens is plain if it neither is that of comments nor ends the source. -/
@[simp] lemma Terminal.isPlain_mark {kind : Kind} (h : kind ≠ .comment ∧ kind ≠ .eof) :
    (mark kind).IsPlain where
  admits := ⟨⟨kind, .null, .null, .null, .null, .null⟩, rfl⟩
  kind_ne := by
    rintro t rfl
    exact h

/-- Tokens that denote a value are neither comments nor do they end the source. -/
lemma Terminal.isPlain_value {t : Leaf} {v : Node} (h : t.denoted? = some v) :
    (value v).IsPlain where
  admits := ⟨t, h⟩
  kind_ne := by
    intro u hu
    have hmem := Leaf.kind_of_denoted? hu
    constructor <;> intro hk <;> simp [hk] at hmem

namespace Grammar

variable {T : Leaf → Prop} {e s : Node} {ts : List Leaf}

/-! ## First tokens -/

/-- Whether an expression can begin with a token of this kind. -/
def beginsExpression (kind : Kind) : Bool :=
  kind ∈ [Kind.falseWord, .trueWord, .nilWord, .number, .string, .identifier, .leftParen, .bang, .minus]

/-- Whether a statement can begin with a token of this kind, declarations left out. -/
def beginsStatement (kind : Kind) : Bool :=
  beginsExpression kind ||
    kind ∈ [Kind.ifWord, .printWord, .leftBrace, .whileWord, .returnWord]

/-- Whether a declaration or another statement can begin with a token of this kind. -/
def beginsDeclaration (kind : Kind) : Bool :=
  beginsStatement kind || kind ∈ [Kind.varWord, .funWord]

/-- The next token is of an accepted kind. -/
def IsNext (accepted : Kind → Bool) (ts : List Leaf) : Prop :=
  ∃ t us, ts = t :: us ∧ accepted t.kind = true

/-- Which token is next does not depend on what follows. -/
lemma IsNext.append {accepted : Kind → Bool} (h : IsNext accepted ts) (rest : List Leaf) :
    IsNext accepted (ts ++ rest) := by
  obtain ⟨t, us, rfl, hkind⟩ := h
  exact ⟨t, us ++ rest, rfl, hkind⟩

lemma IsNext.mono {accepted accepted' : Kind → Bool} (h : IsNext accepted ts)
    (himp : ∀ kind, accepted kind = true → accepted' kind = true) : IsNext accepted' ts := by
  obtain ⟨t, us, rfl, hkind⟩ := h
  exact ⟨t, us, rfl, himp _ hkind⟩

/-- The first of the tokens that a nonempty list of terminals and more are written by. -/
lemma Writes.isNext {accepted : Kind → Bool} {xs ys : List Terminal}
    (h : Writes (xs ++ ys) ts) (hxs : ∀ us, Writes xs us → IsNext accepted us) :
    IsNext accepted ts := by
  obtain ⟨us, vs, rfl, hus, -⟩ := writes_append.mp h
  exact (hxs us hus).append vs

/-- The tokens of an expression begin with one that can begin an expression. -/
lemma IsExpression.isNext (he : IsExpression T e) (hw : Writes e.flatten ts) :
    IsNext beginsExpression ts := by
  induction he generalizing ts with
  | literal _ _ | always =>
    obtain ⟨t, ht, rfl⟩ := writes_singleton.mp hw
    have hkind := Leaf.kind_of_denoted? ht
    refine ⟨t, [], rfl, ?_⟩
    simp only [List.mem_cons, List.not_mem_nil, or_false] at hkind
    rcases hkind with hk | hk | hk | hk | hk <;> simp [hk, beginsExpression]
  | grouping _ _ =>
    obtain ⟨t, us, ht, -, rfl⟩ := writes_cons.mp hw
    exact ⟨t, us, rfl, by simp [beginsExpression, Terminal.matches_mark.mp ht]⟩
  | ident _ hk =>
    obtain ⟨t, rfl, rfl⟩ := writes_singleton.mp hw
    exact ⟨t, [], rfl, by simp [beginsExpression, hk]⟩
  | call _ _ _ _ _ ih _ =>
    rw [Node.flatten, List.append_assoc] at hw
    exact Writes.isNext hw fun us hus => ih hus
  | unary _ hop _ _ _ =>
    obtain ⟨t, us, rfl, -, rfl⟩ := writes_cons.mp hw
    refine ⟨t, us, rfl, ?_⟩
    rcases Bool.or_eq_true _ _ ▸ hop with hk | hk <;> simp [of_decide_eq_true hk, beginsExpression]
  | operator hlevel _ _ _ _ _ _ ih _ =>
    rw [flatten_build hlevel] at hw
    exact Writes.isNext hw fun us hus => ih hus
  | assign _ hk _ _ =>
    obtain ⟨t, us, rfl, -, rfl⟩ := writes_cons.mp hw
    exact ⟨t, us, rfl, by simp [beginsExpression, hk]⟩

/-- The tokens of a statement begin with one that can begin a statement, or else a declaration. -/
lemma IsStatement.isNext (hs : IsStatement T s) (hw : Writes s.flatten ts) :
    IsNext (if isDeclaration s then (· ∈ [Kind.varWord, .funWord]) else beginsStatement) ts := by
  have mark : ∀ {kind : Kind} {xs : List Terminal} {accepted : Kind → Bool},
      Writes (.mark kind :: xs) ts → accepted kind = true → IsNext accepted ts := by
    intro kind xs accepted hw hkind
    obtain ⟨t, us, ht, -, rfl⟩ := writes_cons.mp hw
    exact ⟨t, us, rfl, Terminal.matches_mark.mp ht ▸ hkind⟩
  cases hs with
  | exprStmt he =>
    refine Writes.isNext hw fun us hus => (he.isNext hus).mono fun kind hk => ?_
    simp [isDeclaration, beginsStatement, hk]
  | printStmt _ | block _ | whileStmt _ _ _ _ | varDecl _ _ | funDecl _ _ _ _ | ifStmt _ _ _ _ =>
    exact mark hw rfl
  | varInit _ _ he =>
    rw [Node.flatten_varInit he.ne_null] at hw
    exact mark hw rfl
  | ifElse _ _ _ _ _ he _ =>
    rw [Node.flatten_ifElse he.ne_null] at hw
    exact mark hw rfl
  | returnStmt _ hk | returnValue _ hk _ =>
    obtain ⟨t, us, rfl, -, rfl⟩ := writes_cons.mp hw
    exact ⟨t, us, rfl, by simp [isDeclaration, beginsStatement, hk]⟩

/-- A statement that declares nothing begins as statements do. -/
lemma IsStatement.isNext_statement (hs : IsStatement T s) (hplain : isDeclaration s = false)
    (hw : Writes s.flatten ts) : IsNext beginsStatement ts := by
  simpa [hplain] using hs.isNext hw

/-- Every statement begins as declarations do. -/
lemma IsStatement.isNext_declaration (hs : IsStatement T s) (hw : Writes s.flatten ts) :
    IsNext beginsDeclaration ts := by
  refine (hs.isNext hw).mono fun kind hkind => ?_
  unfold beginsDeclaration
  cases h : isDeclaration s <;> simp [h] at hkind <;> simp [hkind]

/-- A statement that does not continue a condition begins with neither token that would. -/
lemma kind_of_not_continuesCondition (h : ¬ continuesCondition s) (hw : Writes s.flatten ts) :
    ∀ t ∈ ts.head?, t.kind ≠ .leftParen ∧ t.kind ≠ .minus := by
  intro t ht
  generalize hxs : s.flatten = xs at hw
  cases hw with
  | nil => simp at ht
  | @cons x u xs us hx _ =>
    obtain rfl : u = t := by simpa using ht
    cases hkind : x.kind? with
    | none =>
      have hmem := hx.kind_mem hkind
      constructor <;> intro hk <;> simp [hk] at hmem
    | some kind =>
      have hu := hx.kind_eq hkind
      have hnot : ¬ (x.kind? = some .leftParen ∨ x.kind? = some .minus) :=
        fun hor => h ⟨x, by simp [hxs], hor⟩
      rw [hu]
      constructor <;> rintro rfl <;> simp [hkind] at hnot

/-! ## No comments and no end marks -/

/-- What holds of pieces and of commas holds of pieces with commas between them. -/
lemma forall_mem_commas {P : Terminal → Prop} (pieces : List (List Terminal))
    (hcomma : P (.mark .comma)) (h : ∀ piece ∈ pieces, ∀ x ∈ piece, P x) :
    ∀ x ∈ commas pieces, P x := by
  cases pieces with
  | nil => simp
  | cons piece pieces =>
    rw [commas_cons]
    intro x hx
    rcases List.mem_append.mp hx with hx | hx
    · exact h piece (by simp) x hx
    · obtain ⟨next, hnext, hx⟩ := List.mem_flatMap.mp hx
      rcases List.mem_cons.mp hx with rfl | hx
      · exact hcomma
      · exact h next (by simp [hnext]) x hx

/-- The tokens of an expression are no comments and no end marks. -/
lemma IsExpression.plain (he : IsExpression T e) : ∀ x ∈ e.flatten, x.IsPlain := by
  induction he with
  | literal _ hv => simpa [Node.flatten] using Terminal.isPlain_value hv
  | always =>
    have htrue : Leaf.denoted? ⟨.trueWord, .null, .null, .null, .null, .null⟩ = some (.bool true) := rfl
    simpa [Node.flatten] using Terminal.isPlain_value htrue
  | grouping _ ih => simpa [Node.flatten, or_imp, forall_and] using ih
  | ident _ hk => simp [Node.flatten, hk]
  | @call callee paren arguments _ _ _ hk _ ihCallee ihArguments =>
    have hcommas := forall_mem_commas (P := Terminal.IsPlain) (arguments.map Node.flatten) (by simp)
      (by simpa using ihArguments)
    simp only [Node.flatten, Node.flattenParts_list, List.mem_append, List.mem_cons,
      List.not_mem_nil, or_false]
    rintro x ((hx | rfl | hx) | rfl)
    · exact ihCallee x hx
    · simp
    · exact hcommas x hx
    · simp [hk]
  | unary _ hop _ _ ih =>
    simp only [Node.flatten, List.mem_append, List.mem_cons, List.not_mem_nil, or_false]
    rintro x (rfl | hx)
    · rcases Bool.or_eq_true _ _ ▸ hop with hk | hk <;> simp [of_decide_eq_true hk]
    · exact ih x hx
  | operator hlevel _ hop _ _ _ _ ihLeft ihRight =>
    rw [flatten_build hlevel]
    simp only [List.mem_append, List.mem_cons]
    rintro x (hx | rfl | hx)
    · exact ihLeft x hx
    · have hkinds : ∀ level ∈ levels, ∀ kind ∈ level.operators, kind ≠ .comment ∧ kind ≠ .eof := by
        simp [levels]
      simpa using hkinds _ hlevel _ hop
    · exact ihRight x hx
  | assign _ hk _ ih =>
    simp only [Node.flatten, List.mem_append, List.mem_cons, List.not_mem_nil, or_false]
    rintro x (rfl | rfl | hx)
    · simp [hk]
    · simp
    · exact ih x hx

/-- The tokens of a statement are no comments and no end marks. -/
lemma IsStatement.plain (hs : IsStatement T s) : ∀ x ∈ s.flatten, x.IsPlain := by
  induction hs with
  | exprStmt he | printStmt he => simpa [Node.flatten, or_imp, forall_and] using he.plain
  | varDecl _ hk => simp [Node.flatten, hk]
  | varInit _ hk he =>
    rw [Node.flatten_varInit he.ne_null]
    simpa [Node.flatten, hk, or_imp, forall_and] using he.plain
  | block _ ih =>
    simp only [Node.flatten, Node.flattenParts_list, List.mem_append, List.mem_cons,
      List.not_mem_nil, or_false, List.mem_flatten, List.mem_map]
    rintro x ((rfl | ⟨-, ⟨s, hs, rfl⟩, hx⟩) | rfl)
    · simp
    · exact ih s hs x hx
    · simp
  | ifStmt hc _ _ _ ih =>
    simp only [Node.flatten, List.mem_append, List.mem_cons]
    rintro x ((rfl | hx) | hx)
    · simp
    · exact hc.plain x hx
    · exact ih x hx
  | ifElse hc _ _ _ _ he _ ihThen ihElse =>
    rw [Node.flatten_ifElse he.ne_null]
    simp only [List.mem_append, List.mem_cons]
    rintro x (((rfl | hx) | hx) | rfl | hx)
    · simp
    · exact hc.plain x hx
    · exact ihThen x hx
    · simp
    · exact ihElse x hx
  | whileStmt hc _ _ _ ih =>
    simp only [Node.flatten, List.mem_append, List.mem_cons]
    rintro x ((rfl | hx) | hx)
    · simp
    · exact hc.plain x hx
    · exact ih x hx
  | @funDecl name params body _ hk hparams _ ih =>
    have hpieces : ∀ piece ∈ params.map fun t => [Terminal.exact t], ∀ x ∈ piece, x.IsPlain := by
      simp only [List.mem_map]
      rintro _ ⟨t, ht, rfl⟩ x hx
      obtain rfl : x = .exact t := by simpa using hx
      simp [(hparams t ht).2]
    have hcommas := forall_mem_commas _ (by simp) hpieces
    simp only [Node.flatten, Node.flattenParts_list, List.map_map, Function.comp_def,
      List.mem_append, List.mem_cons, List.not_mem_nil, or_false, List.mem_flatten, List.mem_map]
    rintro x ((((rfl | rfl) | rfl | hx) | rfl | rfl | ⟨-, ⟨s, hs, rfl⟩, hx⟩) | rfl)
    · simp
    · simp [hk]
    · simp
    · exact hcommas x hx
    · simp
    · simp
    · exact ih s hs x hx
    · simp
  | returnStmt _ hk => simp [Node.flatten, hk]
  | returnValue _ hk he => simpa [Node.flatten, hk, or_imp, forall_and] using he.plain

/-- The tokens of a program are no comments and no end marks. -/
lemma kind_of_writes {p : List Node} {tokens : List Leaf} (hp : ∀ s ∈ p, IsStatement T s)
    (hw : Writes (Node.flattenProgram p) tokens) :
    ∀ t ∈ tokens, t.kind ≠ .comment ∧ t.kind ≠ .eof := by
  intro t ht
  obtain ⟨i, hi, rfl⟩ := List.mem_iff_getElem.mp ht
  obtain ⟨hlength, hmatch⟩ := List.forall₂_iff_get.mp hw
  have hmem := List.getElem_mem (hlength ▸ hi)
  obtain ⟨s, hs, hx⟩ := List.mem_flatMap.mp hmem
  exact ((hp s hs).plain _ hx).kind_ne _ (hmatch i (hlength ▸ hi) hi)

/-- Some tokens write a program. -/
lemma exists_writes {p : List Node} (hp : ∀ s ∈ p, IsStatement T s) :
    ∃ tokens, Writes (Node.flattenProgram p) tokens := by
  have hplain : ∀ x ∈ Node.flattenProgram p, ∃ t, x.Matches t := by
    intro x hx
    obtain ⟨s, hs, hx⟩ := List.mem_flatMap.mp hx
    exact ((hp s hs).plain x hx).admits
  generalize Node.flattenProgram p = xs at hplain
  induction xs with
  | nil => exact ⟨[], writes_nil.mpr rfl⟩
  | cons x xs ih =>
    obtain ⟨t, ht⟩ := hplain x (by simp)
    obtain ⟨ts, hts⟩ := ih fun y hy => hplain y (by simp [hy])
    exact ⟨t :: ts, .cons ht hts⟩

end Grammar

end Scriptlet
