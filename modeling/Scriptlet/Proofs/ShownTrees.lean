import Scriptlet.Proofs.BracketedTexts
import Scriptlet.Proofs.PrintedNumbers
import Scriptlet.Proofs.Spellings

/-!
# Trees shown by bracketed texts

The text of a tree that was parsed is a bracketed text.  Which tree it is can be read off it: what is in
quotes is the literal of a text; a word is the literal of a number if it begins like one, nothing or a
truth value if it is a word for one, and a name otherwise; and a list is the construct of its first word, or an
expression with that word as its operator.  Where a construct has optional parts, or an operator both a unary and
a binary form, the number of items tells.  So there is a function from bracketed texts to trees, `Bracketed.tree`,
which gives back every tree that was parsed, up to the positions of its tokens.

The tokens of the tree have to be lexemes for that, and the numbers finite, because an infinite number is printed
like a name.
-/

namespace Scriptlet

open Grammar (IsExpression IsStatement)

/-! ## Reading trees -/

namespace Bracketed

/-- Whether a word begins like a number. -/
def isNumeric (w : String) : Bool :=
  (w.toList.head?.map fun c => c = '-' || Decimal.isDigit c).getD false

/-- The tree of a word. -/
def wordTree (w : String) : Node :=
  if isNumeric w then .literal ((Decimal.read? w).elim .null .float)
  else if w = "nil" then .literal .null
  else if w = "true" then .literal (.bool true)
  else if w = "false" then .literal (.bool false)
  else .ident (.token (.ofSpelling w))

/-- The token that a word is. -/
def token : Bracketed → Node
  | word w => .token (.ofSpelling w)
  | _ => .null

/-- The tokens of a list of words. -/
def tokens : Bracketed → Node
  | list items => .list (items.map token)
  | _ => .null

/-- The tree of a list that begins with an operator, from the trees behind it. -/
def operation (operator : String) : List Node → Node
  | [e] => .unary (.token (.ofSpelling operator)) e
  | [left, right] =>
    if operator = "and" ∨ operator = "or" then .logical left (.token (.ofSpelling operator)) right
    else .binary left (.token (.ofSpelling operator)) right
  | _ => .null

/-- The tree of a list that begins with a word, from the items behind it and their trees. -/
def construct : (head : String) → List Bracketed → List Node → Node
  | "group", _, [e] => .grouping e
  | "call", _, callee :: arguments => .call callee (.token (.ofSpelling ")")) (.list arguments)
  | "=", name :: _, [_, e] => .assign name.token e
  | "expr", _, [e] => .exprStmt e
  | "print", _, [e] => .printStmt e
  | "var", [name], _ => .varDecl name.token .null
  | "var", name :: _, [_, e] => .varDecl name.token e
  | "block", _, statements => .block (.list statements)
  | "if", _, [condition, thenBranch] => .ifStmt condition thenBranch .null
  | "if", _, [condition, thenBranch, elseBranch] => .ifStmt condition thenBranch elseBranch
  | "while", _, [condition, body] => .whileStmt condition body
  | "fun", name :: params :: _, _ :: _ :: body => .funDecl name.token params.tokens (.list body)
  | "return", _, [] => .returnStmt (.token (.ofSpelling "return")) .null
  | "return", _, [e] => .returnStmt (.token (.ofSpelling "return")) e
  | operator, _, trees => operation operator trees

mutual

/-- The tree that a bracketed text shows. -/
def tree : Bracketed → Node
  | word w => wordTree w
  | quoted s => .literal (.str s)
  | list [] => .null
  | list (head :: rest) =>
    match head with
    | word w => construct w rest (trees rest)
    | _ => .null

/-- The trees that bracketed texts show. -/
def trees : List Bracketed → List Node
  | [] => []
  | item :: rest => tree item :: trees rest

end

example (a b : Bracketed) : (list [word "while", a, b]).tree = .whileStmt a.tree b.tree := rfl
example (a b : Bracketed) : (list [word "-", a, b]).tree = .binary a.tree (.token (.ofSpelling "-")) b.tree := rfl

/-! ## Words -/

/-- A name is legible, and the tree of it is the name. -/
lemma wordTree_of_isWord {text : String} (h : IsWord (Utf8.encode text))
    (hname : ∀ kind ∈ Kind.words, kind.name ≠ text) :
    (word text).Legible ∧ wordTree text = .ident (.token (.ofSpelling text)) := by
  have hnumeric : ∀ b : UInt8, IsLetterByte b →
      (Char.ofNat b.toNat = '-' || Decimal.isDigit (Char.ofNat b.toNat)) = false := by
    unfold IsLetterByte
    decide +kernel
  have hmarks : ∀ b : UInt8, IsLetterByte b ∨ IsDigitByte b → Char.ofNat b.toNat ∉ marks := by
    unfold IsLetterByte IsDigitByte
    decide +kernel
  obtain ⟨b, bytes, htext, hletter, hrest⟩ := toList_of_isWord h
  refine ⟨.word (isWord_iff.mpr ?_), ?_⟩
  · rw [htext]
    refine ⟨List.cons_ne_nil _ _, fun c hc => ?_⟩
    obtain ⟨d, hd, rfl⟩ := List.mem_map.mp hc
    rcases List.mem_cons.mp hd with rfl | hd
    · exact hmarks d (.inl hletter)
    · exact hmarks d (hrest d hd)
  · have hfirst : isNumeric text = false := by
      unfold isNumeric
      rw [htext]
      exact hnumeric b hletter
    have hnil : text ≠ "nil" := (hname .nilWord (by decide)).symm
    have htrue : text ≠ "true" := (hname .trueWord (by decide)).symm
    have hfalse : text ≠ "false" := (hname .falseWord (by decide)).symm
    simp [wordTree, hfirst, hnil, htrue, hfalse]

/-- A printed number is legible, and the tree of it is the number. -/
lemma wordTree_printed {x : Float} (hx : Decimal.IsFinite x) :
    (word (Decimal.printed x)).Legible ∧ wordTree (Decimal.printed x) = .literal (.float x) := by
  obtain ⟨negative, m, q, hdouble⟩ := hx
  obtain ⟨cs, v, hprinted, ⟨n, hspells, -⟩, -⟩ :=
    Decimal.spells_printed (Decimal.bits_of_finite hdouble).1 negative
  have htext : (Decimal.printed x).toList = Decimal.signed negative cs := by
    rw [Decimal.printed, hdouble, hprinted, String.toList_ofList]
  obtain ⟨d, ds, hcs, hd⟩ := hspells.head
  have hnumeric : isNumeric (Decimal.printed x) = true := by
    unfold isNumeric
    rw [htext, hcs]
    cases negative with
    | true => rfl
    | false => simp [Decimal.signed, Decimal.isDigit_of_mem hd]
  refine ⟨.word (isWord_iff.mpr ⟨?_, fun c hc => ?_⟩), ?_⟩
  · rw [htext, hcs]
    cases negative <;> exact List.cons_ne_nil _ _
  · have hnone : (Decimal.digits ++ Decimal.marks).all (fun c => c ∉ marks) = true := by decide
    have hmem : c ∈ Decimal.digits ++ Decimal.marks := by
      rw [htext] at hc
      exact List.mem_append.mpr (hspells.mem_signed negative c hc)
    simpa using List.all_eq_true.mp hnone c hmem
  · rw [wordTree, if_pos hnumeric, Decimal.read?_printed hdouble]
    rfl

/-! ## Operators -/

/-- A unary operator is spelled as a word, and a list that begins with it and has one more item shows what the
operator builds. -/
lemma operator_unary {kind : Kind} (h : Grammar.isUnaryOperator kind = true) :
    kind.isFixed = true ∧ isWord kind.spelling = true ∧ ∀ (items : List Bracketed) (e : Node),
      construct kind.spelling items [e] = .unary (.token (.ofSpelling kind.spelling)) e := by
  have hkind : kind = .bang ∨ kind = .minus := by simpa [Grammar.isUnaryOperator] using h
  rcases hkind with rfl | rfl
  · exact ⟨by decide, by decide, fun _ _ => rfl⟩
  · exact ⟨by decide, by decide, fun _ _ => rfl⟩

/-- A binary operator is spelled as a word, and a list that begins with it and has two more items shows what the
operator builds. -/
lemma operator_binary {level : Grammar.Level} (hlevel : level ∈ Grammar.levels) {kind : Kind}
    (hkind : kind ∈ level.operators) :
    kind.isFixed = true ∧ isWord kind.spelling = true ∧ ∀ (items : List Bracketed) (left right : Node),
      construct kind.spelling items [left, right] =
        level.build left (.token (.ofSpelling kind.spelling)) right := by
  have hspelled : ∀ level ∈ Grammar.levels, ∀ kind ∈ level.operators,
      kind.isFixed = true ∧ isWord kind.spelling = true := by
    decide
  obtain ⟨hfixed, hword⟩ := hspelled level hlevel kind hkind
  refine ⟨hfixed, hword, fun items left right => ?_⟩
  fin_cases hlevel <;> fin_cases hkind <;> rfl

end Bracketed

/-! ## Trees and their texts -/

namespace Node

/-- A tree is printed as a legible bracketed text, which shows the tree up to the positions of its tokens. -/
structure IsShownBy (n : Node) (b : Bracketed) : Prop where
  legible : b.Legible
  print : n.print = .ok (.str b.text)
  alike : n.Alike b.tree

/-- Items of a list that are joined to its head are items all the same. -/
lemma parenthesize_head (first : Bracketed) (rest : List Bracketed) {head : String}
    (hhead : head.toList = first.text.toList ++ Bracketed.later rest) (items : List Bracketed) :
    parenthesize (.str head) (items.map fun b => .str b.text) =
      .ok (.str (Bracketed.list (first :: (rest ++ items))).text) := by
  have htexts : items.map (fun b => Json.str b.text) = (items.map Bracketed.text).map .str := by
    rw [List.map_map]
    rfl
  unfold parenthesize
  rw [htexts, ← List.map_cons, join_texts]
  refine congrArg (fun text => Except.ok (Json.str text)) (String.toList_inj.mp ?_)
  rw [Bracketed.toList_text_cons, String.toList_append, String.toList_append, Bracketed.toList_intercalate_cons,
    hhead]
  simp [Bracketed.later, List.flatMap_map]

/-- Shown items in parentheses behind a word are shown as a list behind it. -/
lemma parenthesize_word (head : String) (items : List Bracketed) :
    parenthesize (.str head) (items.map fun b => .str b.text) =
      .ok (.str (Bracketed.list (.word head :: items)).text) :=
  parenthesize_head (.word head) [] (List.append_nil _).symm items

/-- A word and a name behind it, as the head of a list. -/
lemma parenthesize_named (head name : String) (items : List Bracketed) :
    parenthesize (.str (head ++ " " ++ name)) (items.map fun b => .str b.text) =
      .ok (.str (Bracketed.list (.word head :: .word name :: items)).text) := by
  refine parenthesize_head (.word head) [.word name] ?_ items
  simp [Bracketed.later, Bracketed.text]

/-- The word of a construct is legible. -/
lemma legible_construct {head : String} (hhead : Bracketed.isWord head = true)
    {items : List Bracketed} (hitems : ∀ b ∈ items, b.Legible) :
    (Bracketed.list (.word head :: items)).Legible := by
  rw [Bracketed.legible_list, List.forall_mem_cons]
  exact ⟨Bracketed.Legible.word hhead, hitems⟩

/-- Trees that are shown by bracketed texts, item by item. -/
lemma exists_forall₂_isShownBy {ns : List Node} (h : ∀ n ∈ ns, ∃ b, n.IsShownBy b) :
    ∃ bs, List.Forall₂ IsShownBy ns bs := by
  induction ns with
  | nil => exact ⟨[], .nil⟩
  | cons n ns ih =>
    obtain ⟨⟨b, hb⟩, hns⟩ := List.forall_mem_cons.mp h
    obtain ⟨bs, hbs⟩ := ih hns
    exact ⟨b :: bs, .cons hb hbs⟩

section Lists

variable {ns : List Node} {bs : List Bracketed}

/-- Items that are shown are shown one by one. -/
lemma printAll_of_isShownBy (h : List.Forall₂ IsShownBy ns bs) :
    printAll ns = .ok (bs.map fun b => .str b.text) := by
  induction h with
  | nil => rfl
  | cons hb _ ih =>
    unfold printAll
    rw [hb.print, ih]
    rfl

/-- The texts that nodes are shown by are legible. -/
lemma legible_of_isShownBy (h : List.Forall₂ IsShownBy ns bs) : ∀ b ∈ bs, b.Legible := by
  induction h with
  | nil => exact List.forall_mem_nil _
  | cons hb _ ih => exact List.forall_mem_cons.mpr ⟨hb.legible, ih⟩

/-- The list of shown nodes is alike to what is read from their texts. -/
lemma alike_of_isShownBy (h : List.Forall₂ IsShownBy ns bs) : (list ns).Alike (list (Bracketed.trees bs)) := by
  induction h with
  | nil => exact .nil
  | cons hb _ ih => exact .cons hb.alike ih

end Lists

/-! ## Expressions -/

/-- The value of a literal is shown by a word, or quoted if it is a text. -/
lemma exists_isShownBy_literal {t : Leaf} {v : Node} (h : t.IsLexed) (hv : t.denoted? = some v) :
    ∃ b, (literal v).IsShownBy b := by
  rcases h.cases_of_denoted hv with rfl | ⟨b, rfl⟩ | ⟨x, rfl, hx⟩ | ⟨s, rfl, hquote⟩
  · exact ⟨.word "nil", .word (by decide), rfl, .literal _⟩
  · cases b with
    | true => exact ⟨.word "true", .word (by decide), rfl, .literal _⟩
    | false => exact ⟨.word "false", .word (by decide), rfl, .literal _⟩
  · obtain ⟨hlegible, htree⟩ := Bracketed.wordTree_printed hx
    refine ⟨.word (Decimal.printed x), hlegible, rfl, ?_⟩
    change Alike _ (Bracketed.wordTree (Decimal.printed x))
    rw [htree]
    exact .literal _
  · exact ⟨.quoted s, .quoted hquote, rfl, .literal _⟩

/-- A token with a text shows it. -/
lemma text?_of_lexeme {t : Leaf} {w : String} (h : t.lexeme = .str w) : t.text? = .ok w := by
  unfold Leaf.text?
  rw [h]

/-- What an operator builds is printed with the operator first. -/
lemma print_build {level : Grammar.Level} (h : level ∈ Grammar.levels) (left right : Node) (operator : Leaf) :
    print (level.build left (.token operator) right) = (do
      let l ← print left
      parenthesize operator.lexeme [l, ← print right]) := by
  rcases Grammar.build_eq h with hbuild | hbuild
  · rw [hbuild]
    rfl
  · rw [hbuild]
    rfl

/-- Operators that are alike build alike trees of alike operands. -/
lemma alike_build {level : Grammar.Level} (h : level ∈ Grammar.levels) {left left' right right' : Node}
    {operator operator' : Leaf} (hleft : left.Alike left') (hoperator : operator.Alike operator')
    (hright : right.Alike right') :
    (level.build left (.token operator) right).Alike (level.build left' (.token operator') right') := by
  rcases Grammar.build_eq h with hbuild | hbuild
  · rw [hbuild]
    exact .logical hleft (.token hoperator) hright
  · rw [hbuild]
    exact .binary hleft (.token hoperator) hright

/-- Every expression of a source without infinite numbers is shown by a bracketed text. -/
theorem exists_isShownBy_of_isExpression {e : Node} (h : IsExpression Leaf.IsLexed e) : ∃ b, e.IsShownBy b := by
  induction h with
  | literal ht hv => exact exists_isShownBy_literal ht hv
  | always => exact ⟨.word "true", .word (by decide), rfl, .literal _⟩
  | grouping _ ih =>
    obtain ⟨b, hb⟩ := ih
    refine ⟨.list [.word "group", b], legible_construct (by decide) (by simpa using hb.legible), ?_,
      .grouping hb.alike⟩
    unfold print
    rw [hb.print]
    exact parenthesize_word "group" [b]
  | ident ht hkind =>
    -- A name is a word that is no other leaf of a tree.
    obtain ⟨w, hlexeme, halike, hword, hname⟩ := ht.of_identifier hkind
    obtain ⟨hlegible, htree⟩ := Bracketed.wordTree_of_isWord hword hname
    refine ⟨.word w, hlegible, congrArg Except.ok hlexeme, ?_⟩
    change Alike _ (Bracketed.wordTree w)
    rw [htree]
    exact .ident (.token halike)
  | call _ _ ht hkind _ ih iharguments =>
    obtain ⟨b, hb⟩ := ih
    obtain ⟨bs, hbs⟩ := exists_forall₂_isShownBy iharguments
    have halike := (ht.of_fixed hkind (by decide)).2
    refine ⟨.list (.word "call" :: b :: bs), legible_construct (by decide) ?_, ?_,
      .call hb.alike (.token halike) (alike_of_isShownBy hbs)⟩
    · exact List.forall_mem_cons.mpr ⟨hb.legible, legible_of_isShownBy hbs⟩
    · unfold print printParts
      rw [hb.print, printAll_of_isShownBy hbs]
      exact parenthesize_word "call" (b :: bs)
  | @unary operator e ht hoperator _ _ ih =>
    obtain ⟨b, hb⟩ := ih
    obtain ⟨hfixed, hlegible, hconstruct⟩ := Bracketed.operator_unary hoperator
    obtain ⟨hlexeme, halike⟩ := ht.of_fixed rfl hfixed
    refine ⟨.list [.word operator.kind.spelling, b],
      legible_construct hlegible (by simpa using hb.legible), ?_, ?_⟩
    · unfold print
      rw [hb.print]
      change parenthesize operator.lexeme _ = _
      rw [hlexeme]
      exact parenthesize_word _ [b]
    · change Alike _ (Bracketed.construct operator.kind.spelling [b] [b.tree])
      rw [hconstruct]
      exact .unary (.token halike) hb.alike
  | @operator level left right operator hlevel ht hmem _ _ _ _ ihleft ihright =>
    obtain ⟨l, hl⟩ := ihleft
    obtain ⟨r, hr⟩ := ihright
    obtain ⟨hfixed, hlegible, hconstruct⟩ := Bracketed.operator_binary hlevel hmem
    obtain ⟨hlexeme, halike⟩ := ht.of_fixed rfl hfixed
    refine ⟨.list [.word operator.kind.spelling, l, r],
      legible_construct hlegible (by simpa using ⟨hl.legible, hr.legible⟩), ?_, ?_⟩
    · rw [print_build hlevel, hl.print, hr.print, hlexeme]
      exact parenthesize_word _ [l, r]
    · change Alike _ (Bracketed.construct operator.kind.spelling [l, r] [l.tree, r.tree])
      rw [hconstruct]
      exact alike_build hlevel hl.alike halike hr.alike
  | @assign name value ht hkind _ ih =>
    obtain ⟨b, hb⟩ := ih
    obtain ⟨w, hlexeme, halike, hword, hname⟩ := ht.of_identifier hkind
    have hlegible := (Bracketed.wordTree_of_isWord hword hname).1
    refine ⟨.list [.word "=", .word w, b], legible_construct (by decide) ?_, ?_, .assign (.token halike) hb.alike⟩
    · exact List.forall_mem_cons.mpr ⟨hlegible, by simpa using hb.legible⟩
    · unfold print
      rw [hb.print]
      change (do
        let x ← name.text?
        parenthesize (.str ("= " ++ x)) [.str b.text]) = _
      rw [text?_of_lexeme hlexeme]
      exact parenthesize_named "=" w [b]

/-! ## Statements -/

/-- The names of parameters are words. -/
lemma exists_names {params : List Leaf} (h : ∀ t ∈ params, t.IsLexed ∧ t.kind = .identifier) :
    ∃ ws : List String, params.map Leaf.lexeme = ws.map .str ∧
      (∀ b ∈ ws.map Bracketed.word, b.Legible) ∧ List.Forall₂ Leaf.Alike params (ws.map .ofSpelling) := by
  induction params with
  | nil => exact ⟨[], rfl, List.forall_mem_nil _, .nil⟩
  | cons t params ih =>
    obtain ⟨⟨ht, hkind⟩, hparams⟩ := List.forall_mem_cons.mp h
    obtain ⟨ws, hlexemes, hlegible, halike⟩ := ih hparams
    obtain ⟨w, hlexeme, ht, hword, hname⟩ := ht.of_identifier hkind
    refine ⟨w :: ws, ?_, ?_, .cons ht halike⟩
    · rw [List.map_cons, List.map_cons, hlexeme, hlexemes]
    · exact List.forall_mem_cons.mpr ⟨(Bracketed.wordTree_of_isWord hword hname).1, hlegible⟩

/-- Every statement of a source without infinite numbers is shown by a bracketed text. -/
theorem exists_isShownBy_of_isStatement {s : Node} (h : IsStatement Leaf.IsLexed s) : ∃ b, s.IsShownBy b := by
  induction h with
  | exprStmt he =>
    obtain ⟨b, hb⟩ := exists_isShownBy_of_isExpression he
    refine ⟨.list [.word "expr", b], legible_construct (by decide) (by simpa using hb.legible), ?_,
      .exprStmt hb.alike⟩
    unfold print
    rw [hb.print]
    exact parenthesize_word "expr" [b]
  | printStmt he =>
    obtain ⟨b, hb⟩ := exists_isShownBy_of_isExpression he
    refine ⟨.list [.word "print", b], legible_construct (by decide) (by simpa using hb.legible), ?_,
      .printStmt hb.alike⟩
    unfold print
    rw [hb.print]
    exact parenthesize_word "print" [b]
  | @varDecl name ht hkind =>
    -- Without an initializer the text is made from the lexeme, and not as a list of parts.
    obtain ⟨w, hlexeme, halike, hword, hname⟩ := ht.of_identifier hkind
    have hlegible := (Bracketed.wordTree_of_isWord hword hname).1
    refine ⟨.list [.word "var", .word w], legible_construct (by decide) (by simpa using hlegible), ?_,
      .varDecl (.token halike) .null⟩
    change Except.ok (Json.str ("(var " ++ name.lexeme.inText ++ ")")) = _
    rw [hlexeme]
    refine congrArg (fun text => Except.ok (Json.str text)) (String.toList_inj.mp ?_)
    rw [Bracketed.toList_text_cons]
    simp [Bracketed.later, Bracketed.text, Json.inText]
  | @varInit name _ ht hkind he =>
    obtain ⟨b, hb⟩ := exists_isShownBy_of_isExpression he
    obtain ⟨w, hlexeme, halike, hword, hname⟩ := ht.of_identifier hkind
    have hlegible := (Bracketed.wordTree_of_isWord hword hname).1
    refine ⟨.list [.word "var", .word w, b], legible_construct (by decide) ?_, ?_,
      .varDecl (.token halike) hb.alike⟩
    · exact List.forall_mem_cons.mpr ⟨hlegible, by simpa using hb.legible⟩
    · rw [print_varInit he.ne_null, hb.print]
      change (do
        let x ← name.text?
        parenthesize (.str ("var " ++ x)) [.str b.text]) = _
      rw [text?_of_lexeme hlexeme]
      exact parenthesize_named "var" w [b]
  | block _ ih =>
    obtain ⟨bs, hbs⟩ := exists_forall₂_isShownBy ih
    refine ⟨.list (.word "block" :: bs), legible_construct (by decide) (legible_of_isShownBy hbs), ?_,
      .block (alike_of_isShownBy hbs)⟩
    unfold print printParts
    rw [printAll_of_isShownBy hbs]
    exact parenthesize_word "block" bs
  | ifStmt hcondition _ _ _ ihthen =>
    obtain ⟨c, hc⟩ := exists_isShownBy_of_isExpression hcondition
    obtain ⟨t, ht⟩ := ihthen
    refine ⟨.list [.word "if", c, t], legible_construct (by decide) (by simpa using ⟨hc.legible, ht.legible⟩), ?_,
      .ifStmt hc.alike ht.alike .null⟩
    unfold print
    rw [hc.print, ht.print]
    exact parenthesize_word "if" [c, t]
  | ifElse hcondition _ _ _ _ helse _ ihthen ihelse =>
    obtain ⟨c, hc⟩ := exists_isShownBy_of_isExpression hcondition
    obtain ⟨t, ht⟩ := ihthen
    obtain ⟨e, he⟩ := ihelse
    refine ⟨.list [.word "if", c, t, e],
      legible_construct (by decide) (by simpa using ⟨hc.legible, ht.legible, he.legible⟩), ?_,
      .ifStmt hc.alike ht.alike he.alike⟩
    rw [print_ifElse helse.ne_null, hc.print, ht.print, he.print]
    exact parenthesize_word "if" [c, t, e]
  | whileStmt hcondition _ _ _ ihbody =>
    obtain ⟨c, hc⟩ := exists_isShownBy_of_isExpression hcondition
    obtain ⟨b, hb⟩ := ihbody
    refine ⟨.list [.word "while", c, b],
      legible_construct (by decide) (by simpa using ⟨hc.legible, hb.legible⟩), ?_,
      .whileStmt hc.alike hb.alike⟩
    unfold print
    rw [hc.print, hb.print]
    exact parenthesize_word "while" [c, b]
  | @funDecl name params body ht hkind hparams _ ih =>
    obtain ⟨w, hlexeme, halike, hword, hname⟩ := ht.of_identifier hkind
    obtain ⟨ws, hlexemes, hnames, hnamed⟩ := exists_names hparams
    obtain ⟨bs, hbs⟩ := exists_forall₂_isShownBy ih
    have hlegible := (Bracketed.wordTree_of_isWord hword hname).1
    refine ⟨.list (.word "fun" :: ([.word w, .list (ws.map .word)] ++ bs)),
      legible_construct (by decide) ?_, ?_, ?_⟩
    · exact List.forall_mem_cons.mpr
        ⟨hlegible, List.forall_mem_cons.mpr ⟨.list hnames, legible_of_isShownBy hbs⟩⟩
    · unfold print printParts
      rw [paramNames_tokens, hlexemes, printAll_of_isShownBy hbs]
      change (do
        let names ← join (ws.map .str)
        parenthesize (.str ("fun " ++ name.lexeme.inText ++ " (" ++ names ++ ")")) _) = _
      rw [join_texts, hlexeme]
      -- The name and the parameters belong to the head of the list.
      refine parenthesize_head (.word "fun") [.word w, .list (ws.map .word)] ?_ bs
      simp [Bracketed.later, Bracketed.text, Bracketed.texts_eq_map, Json.inText, Function.comp_def]
    · have htokens : (Bracketed.list (ws.map .word)).tokens = list ((ws.map .ofSpelling).map .token) := by
        simp [Bracketed.tokens, Bracketed.token]
      refine .funDecl (.token halike) ?_ (alike_of_isShownBy hbs)
      rw [htokens]
      exact corresponds_params hnamed
  | returnStmt ht hkind =>
    refine ⟨.list [.word "return"], legible_construct (by decide) (List.forall_mem_nil _), ?_,
      .returnStmt (.token (ht.of_fixed hkind (by decide)).2) .null⟩
    exact congrArg (fun text => Except.ok (Json.str text)) (by decide)
  | returnValue ht hkind he =>
    obtain ⟨b, hb⟩ := exists_isShownBy_of_isExpression he
    refine ⟨.list [.word "return", b], legible_construct (by decide) (by simpa using hb.legible), ?_,
      .returnStmt (.token (ht.of_fixed hkind (by decide)).2) hb.alike⟩
    rw [print_returnValue he.ne_null, hb.print]
    exact parenthesize_word "return" [b]

end Node

end Scriptlet
