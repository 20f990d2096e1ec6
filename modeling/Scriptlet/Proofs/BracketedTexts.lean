import Mathlib

/-!
# Bracketed texts

A bracketed text is a word, a quoted text, or a list of bracketed texts in parentheses with one blank between any
two.  Nothing is escaped.  It is uniquely readable all the same, provided that words are not empty and hold no
blank, quote or parenthesis, and that quoted texts hold no quote; whatever else stands between the quotes, blanks,
parentheses and line feeds included, is seen to be quoted.

A word ends where the first blank or closing parenthesis stands, a quoted text at the next quote, and a list where
a parenthesis and no blank stands behind an item.  So what has to be shown is a little more than that different
bracketed texts have different writings: even with something behind them, as long as that could not continue a
word, they are told apart and so is what stands behind them.
-/

namespace Scriptlet

/-- A bracketed text. -/
inductive Bracketed where
  | word (text : String)
  | quoted (text : String)
  | list (items : List Bracketed)

namespace Bracketed

mutual

/-- How a bracketed text is written. -/
def text : Bracketed → String
  | word w => w
  | quoted s => "\"" ++ s ++ "\""
  | list items => "(" ++ " ".intercalate (texts items) ++ ")"

/-- How bracketed texts are written. -/
def texts : List Bracketed → List String
  | [] => []
  | item :: rest => text item :: texts rest

end

/-- The characters that end words. -/
def marks : List Char := [' ', '"', '(', ')']

/-- Whether a text can stand as a word. -/
def isWord (w : String) : Bool :=
  !w.toList.isEmpty && w.toList.all (· ∉ marks)

/-- A word has a character, and none that marks a bracket, a blank or a quotation. -/
lemma isWord_iff {w : String} : isWord w = true ↔ w.toList ≠ [] ∧ ∀ c ∈ w.toList, c ∉ marks := by
  simp [isWord]

/-- Words and quoted texts hold nothing that ends them. -/
inductive Legible : Bracketed → Prop
  | word {w : String} : isWord w = true → Legible (.word w)
  | quoted {s : String} : '"' ∉ s.toList → Legible (.quoted s)
  | list {items : List Bracketed} : (∀ item ∈ items, Legible item) → Legible (.list items)

/-- A word is legible if its characters are those of one. -/
@[simp] lemma legible_word {w : String} : (word w).Legible ↔ isWord w = true := by
  refine ⟨fun h => ?_, .word⟩
  cases h with
  | word hw => exact hw

/-- A quotation is legible if it does not hold the mark that ends it. -/
@[simp] lemma legible_quoted {s : String} : (quoted s).Legible ↔ '"' ∉ s.toList := by
  refine ⟨fun h => ?_, .quoted⟩
  cases h with
  | quoted hs => exact hs

/-- A list is legible if its items are. -/
@[simp] lemma legible_list {items : List Bracketed} : (list items).Legible ↔ ∀ item ∈ items, item.Legible := by
  refine ⟨fun h => ?_, .list⟩
  cases h with
  | list hitems => exact hitems

/-! ## Writing -/

/-- Texts with blanks between them are the first and, with a blank before each, the others. -/
lemma toList_intercalate_cons (first : String) (rest : List String) :
    (" ".intercalate (first :: rest)).toList = first.toList ++ rest.flatMap fun t => ' ' :: t.toList := by
  induction rest generalizing first with
  | nil => simp
  | cons second rest ih =>
    have htail := ih second
    rw [String.toList_intercalate] at htail ⊢
    rw [List.map_cons, List.intercalate_cons_of_ne_nil (by simp), htail]
    simp

/-- The characters of items behind others. -/
def later (items : List Bracketed) : List Char :=
  items.flatMap fun item => ' ' :: item.text.toList

/-- The later items of a list are one, with a blank before it, and those behind it. -/
lemma later_cons (item : Bracketed) (rest : List Bracketed) :
    later (item :: rest) = ' ' :: (item.text.toList ++ later rest) :=
  List.flatMap_cons

lemma texts_eq_map (items : List Bracketed) : texts items = items.map text := by
  induction items with
  | nil => rfl
  | cons item rest ih => rw [texts, ih, List.map_cons]

lemma toList_text_nil : (list []).text.toList = ['(', ')'] := by
  simp [text, texts]

lemma toList_text_cons (item : Bracketed) (rest : List Bracketed) :
    (list (item :: rest)).text.toList = '(' :: (item.text.toList ++ (later rest ++ [')'])) := by
  have hinner := toList_intercalate_cons item.text (rest.map text)
  rw [List.flatMap_map] at hinner
  rw [text, texts, texts_eq_map, String.toList_append, String.toList_append, hinner]
  simp [later]

lemma toList_text_quoted (s : String) : (quoted s).text.toList = '"' :: (s.toList ++ ['"']) := by
  simp [text]

/-! ## Reading -/

/-- What stands behind a bracketed text: nothing, or something that could not continue a word. -/
def Ends (rest : List Char) : Prop :=
  ∀ c ∈ rest.head?, c ∈ marks

lemma ends_nil : Ends [] := nofun

lemma ends_cons {c : Char} {rest : List Char} (h : c ∈ marks) : Ends (c :: rest) := by
  intro d hd
  obtain rfl := Option.some.inj hd
  exact h

/-- More items, and the parenthesis behind them. -/
lemma ends_later (items : List Bracketed) (rest : List Char) : Ends (later items ++ ')' :: rest) := by
  cases items with
  | nil => exact ends_cons (by decide)
  | cons item items => exact ends_cons (by decide)

/-- Characters in front of the first one that is of a class are determined by it. -/
lemma append_inj_of_class (inClass : Char → Prop) {as bs rest rest' : List Char}
    (has : ∀ c ∈ as, ¬ inClass c) (hbs : ∀ c ∈ bs, ¬ inClass c) (hrest : ∀ c ∈ rest.head?, inClass c)
    (hrest' : ∀ c ∈ rest'.head?, inClass c) (h : as ++ rest = bs ++ rest') : as = bs ∧ rest = rest' := by
  induction as generalizing bs with
  | nil =>
    cases bs with
    | nil => exact ⟨rfl, h⟩
    | cons b bs =>
      rw [List.nil_append, List.cons_append] at h
      exact absurd (hrest b (by rw [h]; rfl)) (hbs b List.mem_cons_self)
  | cons a as ih =>
    cases bs with
    | nil =>
      rw [List.nil_append, List.cons_append] at h
      exact absurd (hrest' a (by rw [← h]; rfl)) (has a List.mem_cons_self)
    | cons b bs =>
      obtain ⟨rfl, hmore⟩ := List.cons.inj h
      obtain ⟨rfl, rfl⟩ := ih (fun c hc => has c (List.mem_cons_of_mem a hc))
        (fun c hc => hbs c (List.mem_cons_of_mem a hc)) hmore
      exact ⟨rfl, rfl⟩

/-- What the first character of a bracketed text says about it. -/
inductive BeginsWith : Bracketed → Char → Prop
  | word {w : String} {c : Char} : c ∉ marks → BeginsWith (.word w) c
  | quoted {s : String} : BeginsWith (.quoted s) '"'
  | list {items : List Bracketed} : BeginsWith (.list items) '('

/-- No item begins with a closing parenthesis, so a list is never mistaken for a longer one. -/
lemma BeginsWith.ne {a : Bracketed} {c : Char} (h : a.BeginsWith c) : c ≠ ')' := by
  cases h with
  | word hc =>
    rintro rfl
    exact hc (by decide)
  | quoted | list => decide

/-- Each legible item begins with a character that tells which of the three it is. -/
lemma Legible.begins {a : Bracketed} (h : a.Legible) : ∃ c cs, a.text.toList = c :: cs ∧ a.BeginsWith c := by
  cases h with
  | @word w hw =>
    obtain ⟨hne, hw⟩ := isWord_iff.mp hw
    obtain ⟨c, cs, hcs⟩ := List.exists_cons_of_ne_nil hne
    exact ⟨c, cs, by rw [text, hcs], .word (hw c (by rw [hcs]; exact List.mem_cons_self))⟩
  | @quoted s _ => exact ⟨_, _, toList_text_quoted s, .quoted⟩
  | @list items _ =>
    cases items with
    | nil => exact ⟨_, _, toList_text_nil, .list⟩
    | cons item rest => exact ⟨_, _, toList_text_cons item rest, .list⟩

/-- Bracketed texts that are written alike, whatever stands behind them, begin with one character. -/
lemma Legible.begin_alike {a b : Bracketed} {rest rest' : List Char} (ha : a.Legible) (hb : b.Legible)
    (h : a.text.toList ++ rest = b.text.toList ++ rest') : ∃ c, a.BeginsWith c ∧ b.BeginsWith c := by
  obtain ⟨c, cs, hcs, hc⟩ := ha.begins
  obtain ⟨d, ds, hds, hd⟩ := hb.begins
  rw [hcs, hds] at h
  obtain ⟨rfl, -⟩ := List.cons.inj h
  exact ⟨c, hc, hd⟩

/-- No item is taken for the end of a list. -/
lemma Legible.ne_end {a : Bracketed} (h : a.Legible) (more rest : List Char) :
    a.text.toList ++ more ≠ ')' :: rest := by
  obtain ⟨c, cs, hcs, hc⟩ := h.begins
  rw [hcs]
  exact fun heq => hc.ne (List.cons.inj heq).1

/-- Bracketed texts are told apart, with what stands behind them, from their writing. -/
def Readable (a : Bracketed) : Prop :=
  ∀ ⦃b : Bracketed⦄ ⦃rest rest' : List Char⦄, b.Legible → Ends rest → Ends rest' →
    a.text.toList ++ rest = b.text.toList ++ rest' → a = b ∧ rest = rest'

/-- Items of a list that are readable are told apart up to the parenthesis that closes the list. -/
lemma later_inj {as bs : List Bracketed} {rest rest' : List Char} (has : ∀ a ∈ as, Readable a)
    (hbs : ∀ b ∈ bs, b.Legible) (h : later as ++ ')' :: rest = later bs ++ ')' :: rest') :
    as = bs ∧ rest = rest' := by
  induction as generalizing bs with
  | nil =>
    cases bs with
    | nil => exact ⟨rfl, (List.cons.inj h).2⟩
    | cons b bs => cases (List.cons.inj h).1
  | cons a as ih =>
    cases bs with
    | nil => cases (List.cons.inj h).1
    | cons b bs =>
      rw [later_cons, later_cons, List.cons_append, List.cons_append, List.append_assoc, List.append_assoc] at h
      obtain ⟨hfirst, hrest⟩ := List.forall_mem_cons.mp has
      obtain ⟨hfirst', hrest'⟩ := List.forall_mem_cons.mp hbs
      obtain ⟨rfl, hmore⟩ := hfirst hfirst' (ends_later as rest) (ends_later bs rest') (List.cons.inj h).2
      obtain ⟨rfl, rfl⟩ := ih hrest hrest' hmore
      exact ⟨rfl, rfl⟩

/-- Lists of readable items are told apart, with what stands behind them. -/
lemma list_inj {as bs : List Bracketed} {rest rest' : List Char} (has : ∀ a ∈ as, Readable a)
    (hlegible : ∀ a ∈ as, a.Legible) (hbs : ∀ b ∈ bs, b.Legible)
    (h : (list as).text.toList ++ rest = (list bs).text.toList ++ rest') : as = bs ∧ rest = rest' := by
  have hcons : ∀ (item : Bracketed) (items : List Bracketed) (rest : List Char),
      (list (item :: items)).text.toList ++ rest =
        '(' :: (item.text.toList ++ (later items ++ ')' :: rest)) := by
    intro item items rest
    rw [toList_text_cons]
    simp
  cases as with
  | nil =>
    cases bs with
    | nil =>
      rw [toList_text_nil] at h
      exact ⟨rfl, (List.cons.inj (List.cons.inj h).2).2⟩
    | cons b bs =>
      rw [toList_text_nil, hcons] at h
      exact absurd (List.cons.inj h).2.symm ((hbs b List.mem_cons_self).ne_end _ _)
  | cons a as =>
    cases bs with
    | nil =>
      rw [toList_text_nil, hcons] at h
      exact absurd (List.cons.inj h).2 ((hlegible a List.mem_cons_self).ne_end _ _)
    | cons b bs =>
      rw [hcons, hcons] at h
      obtain ⟨hfirst, hrest⟩ := List.forall_mem_cons.mp has
      obtain ⟨hfirst', hrest'⟩ := List.forall_mem_cons.mp hbs
      obtain ⟨rfl, hmore⟩ := hfirst hfirst' (ends_later as rest) (ends_later bs rest') (List.cons.inj h).2
      obtain ⟨rfl, rfl⟩ := later_inj hrest hrest' hmore
      exact ⟨rfl, rfl⟩

/-- Legible bracketed texts are readable. -/
lemma Legible.readable {a : Bracketed} (h : a.Legible) : Readable a := by
  induction h with
  | @word w hw =>
    intro b rest rest' hb hrest hrest' heq
    obtain ⟨c, hc, hc'⟩ := Legible.begin_alike (.word hw) hb heq
    cases hc with
    | word hmark =>
      cases hc' with
      | quoted | list => exact absurd (by decide) hmark
      | @word v _ _ =>
        obtain ⟨htext, hmore⟩ := append_inj_of_class (· ∈ marks) (isWord_iff.mp hw).2
          (isWord_iff.mp (legible_word.mp hb)).2 hrest hrest' heq
        exact ⟨congrArg Bracketed.word (String.toList_inj.mp htext), hmore⟩
  | @quoted s hs =>
    intro b rest rest' hb hrest hrest' heq
    obtain ⟨c, hc, hc'⟩ := Legible.begin_alike (.quoted hs) hb heq
    cases hc
    cases hc' with
    | word hmark => exact absurd (by decide) hmark
    | @quoted t =>
      -- Both quotations end with the first mark behind their beginning.
      rw [toList_text_quoted, toList_text_quoted] at heq
      have hbody : s.toList ++ '"' :: rest = t.toList ++ '"' :: rest' := by simpa using heq
      have hquote : ∀ {u : String}, '"' ∉ u.toList → ∀ c ∈ u.toList, ¬ c = '"' := by
        rintro u hu c hc rfl
        exact hu hc
      obtain ⟨htext, hmore⟩ := append_inj_of_class (· = '"') (hquote hs)
        (hquote (legible_quoted.mp hb))
        (by simp) (by simp) hbody
      exact ⟨congrArg Bracketed.quoted (String.toList_inj.mp htext), (List.cons.inj hmore).2⟩
  | @list items hitems ih =>
    intro b rest rest' hb hrest hrest' heq
    obtain ⟨c, hc, hc'⟩ := Legible.begin_alike (.list hitems) hb heq
    cases hc
    cases hc' with
    | word hmark => exact absurd (by decide) hmark
    | @list items' =>
      obtain ⟨rfl, hmore⟩ := list_inj ih hitems (legible_list.mp hb) heq
      exact ⟨rfl, hmore⟩

/-- Legible bracketed texts that are written alike are the same. -/
theorem text_injective {a b : Bracketed} (ha : a.Legible) (hb : b.Legible) (h : a.text = b.text) : a = b :=
  (ha.readable hb ends_nil ends_nil (by rw [h])).1

end Bracketed

end Scriptlet
