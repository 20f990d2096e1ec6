import Mathlib
import Scriptlet.Decimal.Read

/-!
# Reading numerals

A number may be written in many ways, with blanks around it, underscores in it and the digits of any script.
What the scanner takes for a number and what is written for one are much plainer: digits, perhaps a point with
digits behind it, and perhaps an exponent with its sign.  Such a text means what it spells, and none of the
liberties of reading changes anything about it.
-/

namespace Scriptlet.Decimal

/-! ## Characters of numerals -/

/-- The digits. -/
def digits : List Char := "0123456789".toList

/-- What stands in a numeral besides digits. -/
def marks : List Char := ".e+-".toList

/-- What is a digit here is one for the reader. -/
lemma isDigit_of_mem {c : Char} (h : c ∈ digits) : isDigit c = true := by
  have hall : digits.all isDigit = true := by decide
  exact List.all_eq_true.mp hall c h

/-- No character of a numeral is a blank. -/
lemma isPadding_eq_false {c : Char} (h : c ∈ digits ∨ c ∈ marks) : isPadding c = false := by
  have hall : (digits ++ marks).all (!isPadding ·) = true := by decide
  simpa using List.all_eq_true.mp hall c (List.mem_append.mpr h)

/-- No character of a numeral is replaced, as digits of other scripts are. -/
lemma plainDigit_eq_self {c : Char} (h : c ∈ digits ∨ c ∈ marks) : Text.plainDigit c = c := by
  have hall : (digits ++ marks).all (fun d => Text.plainDigit d = d) = true := by decide
  simpa using List.all_eq_true.mp hall c (List.mem_append.mpr h)

/-- Nothing is stripped off where nothing is of the class. -/
lemma strip_eq_self {inClass : Char → Bool} {cs : List Char} (h : ∀ c ∈ cs, inClass c = false) :
    Text.strip inClass cs = cs := by
  have hkeep : ∀ ds : List Char, (∀ c ∈ ds, inClass c = false) → ds.dropWhile inClass = ds := by
    intro ds hds
    cases ds with
    | nil => rfl
    | cons d ds => simp [hds d (by simp)]
  unfold Text.strip
  rw [hkeep cs h, hkeep cs.reverse (by simpa using h), List.reverse_reverse]

/-- Where there are no underscores, there are none to remove. -/
lemma joinDigits_eq_self {cs : List Char} (h : '_' ∉ cs) (after : Bool) :
    joinDigits after cs = some cs := by
  induction cs generalizing after with
  | nil => rfl
  | cons c cs ih =>
    rw [List.mem_cons, not_or] at h
    simp [joinDigits, Ne.symm h.1, ih h.2]

/-- Digits are read up to the first character that is none. -/
lemma takeWhile_digits {ds : List Char} (rest : List Char) (hds : ∀ c ∈ ds, c ∈ digits)
    (hrest : ∀ c ∈ rest.head?, isDigit c = false) :
    (ds ++ rest).takeWhile isDigit = ds ∧ (ds ++ rest).dropWhile isDigit = rest := by
  induction ds with
  | nil =>
    cases rest with
    | nil => exact ⟨rfl, rfl⟩
    | cons c rest =>
      have hc := hrest c rfl
      exact ⟨List.takeWhile_cons_of_neg (by simp [hc]), List.dropWhile_cons_of_neg (by simp [hc])⟩
  | cons d ds ih =>
    have hd := isDigit_of_mem (hds d (by simp))
    obtain ⟨htake, hdrop⟩ := ih fun c hc => hds c (by simp [hc])
    simp [hd, htake, hdrop]

/-! ## Plain numerals -/

/-- A point with digits behind it, if there is one, and these digits. -/
inductive IsFraction : List Char → List Char → Prop
  | none : IsFraction [] []
  | some {ds : List Char} (hds : ∀ c ∈ ds, c ∈ digits) : IsFraction ('.' :: ds) ds

/-- An exponent with its sign, if there is one, and its value. -/
inductive IsExponent : List Char → ℤ → Prop
  | none : IsExponent [] 0
  | up {ds : List Char} (hne : ds ≠ []) (hds : ∀ c ∈ ds, c ∈ digits) :
      IsExponent ('e' :: '+' :: ds) (valueFrom 0 ds)
  | down {ds : List Char} (hne : ds ≠ []) (hds : ∀ c ∈ ds, c ∈ digits) :
      IsExponent ('e' :: '-' :: ds) (-(valueFrom 0 ds : ℤ))

/-- A text that spells a numeral plainly: digits, perhaps a fraction and perhaps an exponent. -/
inductive Spells : List Char → Numeral → Prop
  | mk {whole point fraction mark : List Char} {e : ℤ} (hne : whole ≠ []) (hwhole : ∀ c ∈ whole, c ∈ digits)
      (hfraction : IsFraction point fraction) (hexponent : IsExponent mark e) :
      Spells (whole ++ (point ++ mark)) ⟨whole, fraction, e⟩

lemma IsFraction.mem {point fraction : List Char} (h : IsFraction point fraction) :
    ∀ c ∈ point, c ∈ digits ∨ c ∈ marks := by
  cases h with
  | none => nofun
  | some hds =>
    intro c hc
    rcases List.mem_cons.mp hc with rfl | hc
    · exact .inr (by decide)
    · exact .inl (hds c hc)

lemma IsExponent.mem {mark : List Char} {e : ℤ} (h : IsExponent mark e) :
    ∀ c ∈ mark, c ∈ digits ∨ c ∈ marks := by
  have hcons : ∀ (sign : Char) (ds : List Char), sign ∈ marks → (∀ c ∈ ds, c ∈ digits) →
      ∀ c ∈ 'e' :: sign :: ds, c ∈ digits ∨ c ∈ marks := by
    intro sign ds hsign hds c hc
    rcases List.mem_cons.mp hc with rfl | hc
    · exact .inr (by decide)
    · rcases List.mem_cons.mp hc with rfl | hc
      · exact .inr hsign
      · exact .inl (hds c hc)
  cases h with
  | none => nofun
  | up _ hds => exact hcons _ _ (by decide) hds
  | down _ hds => exact hcons _ _ (by decide) hds

lemma Spells.mem {cs : List Char} {n : Numeral} (h : Spells cs n) : ∀ c ∈ cs, c ∈ digits ∨ c ∈ marks := by
  obtain ⟨-, hwhole, hfraction, hexponent⟩ := h
  intro c hc
  rcases List.mem_append.mp hc with hc | hc
  · exact .inl (hwhole c hc)
  · rcases List.mem_append.mp hc with hc | hc
    · exact hfraction.mem c hc
    · exact hexponent.mem c hc

/-- A numeral begins with a digit. -/
lemma Spells.head {cs : List Char} {n : Numeral} (h : Spells cs n) : ∃ d ds, cs = d :: ds ∧ d ∈ digits := by
  obtain ⟨hne, hwhole, -, -⟩ := h
  obtain ⟨d, ds, rfl⟩ := List.exists_cons_of_ne_nil hne
  exact ⟨d, _, rfl, hwhole d (by simp)⟩

/-- An exponent is read as its value. -/
lemma IsExponent.read {mark : List Char} {e : ℤ} (h : IsExponent mark e) : exponent? mark = some e := by
  have hall : ∀ ds : List Char, (∀ c ∈ ds, c ∈ digits) → ds.all isDigit = true := fun ds hds =>
    List.all_eq_true.mpr fun c hc => isDigit_of_mem (hds c hc)
  cases h with
  | none => rfl
  | up hne hds => simp [exponent?, takeSign, hne, hall _ hds]
  | down hne hds => simp [exponent?, takeSign, hne, hall _ hds]

/-- A text that spells a numeral is taken apart into it. -/
lemma Spells.numeral {cs : List Char} {n : Numeral} (h : Spells cs n) : Numeral.of? cs = some n := by
  obtain ⟨hne, hwhole, hfraction, hexponent⟩ := h
  rename_i whole point fraction mark e
  have hwholeFalse : whole.isEmpty = false := by simp [hne]
  have hmark : ∀ c ∈ mark.head?, isDigit c = false := by
    cases hexponent <;> rintro c ⟨⟩ <;> decide
  have hread := hexponent.read
  cases hfraction with
  | none =>
    obtain ⟨htake, hdrop⟩ := takeWhile_digits mark hwhole hmark
    rw [List.nil_append]
    unfold Numeral.of?
    rw [htake, hdrop]
    cases hexponent <;> simp [hwholeFalse, hread]
  | some hds =>
    obtain ⟨htake, hdrop⟩ := takeWhile_digits ('.' :: fraction ++ mark) hwhole (by
      rintro c ⟨⟩
      decide)
    obtain ⟨htake', hdrop'⟩ := takeWhile_digits mark hds hmark
    unfold Numeral.of?
    rw [htake, hdrop]
    simp [htake', hdrop', hwholeFalse, hread]

/-! ## Reading them -/

/-- The sign of a negative number. -/
def signed (negative : Bool) (cs : List Char) : List Char :=
  if negative then '-' :: cs else cs

/-- A numeral with a sign is made of characters of numerals. -/
lemma Spells.mem_signed {cs : List Char} {n : Numeral} (h : Spells cs n) (negative : Bool) :
    ∀ c ∈ signed negative cs, c ∈ digits ∨ c ∈ marks := by
  intro c hc
  cases negative with
  | false => exact h.mem c hc
  | true =>
    rcases List.mem_cons.mp hc with rfl | hc
    · exact .inr (by decide)
    · exact h.mem c hc

/-- A text that spells a numeral is read as that numeral, rounded once. -/
theorem Spells.read {cs : List Char} {n : Numeral} (h : Spells cs n) (negative : Bool) :
    read? (String.ofList (signed negative cs)) = some (n.toFloat negative) := by
  obtain ⟨d, ds, hcs, hd⟩ := h.head
  have hmem := h.mem_signed negative
  have hstrip := strip_eq_self fun c hc => isPadding_eq_false (hmem c hc)
  have hplain : (signed negative cs).map Text.plainDigit = signed negative cs := by
    rw [List.map_congr_left fun c hc => plainDigit_eq_self (hmem c hc)]
    exact List.map_id' _
  have hjoin : joinDigits false (signed negative cs) = some (signed negative cs) := by
    refine joinDigits_eq_self (fun hbar => ?_) false
    exact absurd (hmem '_' hbar) (by decide)
  -- A digit in front is neither a sign nor the first letter of a word.
  have hsign : takeSign (signed negative cs) = (negative, cs) := by
    cases negative with
    | true => rfl
    | false =>
      have hd' : d ≠ '-' ∧ d ≠ '+' := by
        constructor <;>
        · rintro rfl
          exact absurd hd (by decide)
      change takeSign cs = (false, cs)
      rw [hcs]
      unfold takeSign
      split
      next heq => exact absurd (List.cons.inj heq).1 hd'.1
      next heq => exact absurd (List.cons.inj heq).1 hd'.2
      next => rfl
  have hword : ∀ c rest, c ∉ digits.map Char.toLower →
      String.ofList (cs.map Char.toLower) ≠ String.ofList (c :: rest) := by
    intro c rest hc heq
    rw [String.ofList_inj, hcs, List.map_cons] at heq
    obtain ⟨rfl, -⟩ := List.cons.inj heq
    exact hc (List.mem_map_of_mem hd)
  unfold read?
  rw [String.toList_ofList, hstrip, hplain, hjoin]
  simp only [Option.bind_eq_bind, Option.bind_some, hsign]
  split
  · exact absurd ‹_› (hword 'i' "nf".toList (by decide))
  · exact absurd ‹_› (hword 'i' "nfinity".toList (by decide))
  · exact absurd ‹_› (hword 'n' "an".toList (by decide))
  · rw [h.numeral]
    rfl

end Scriptlet.Decimal
