import Scriptlet.Decimal.Layout
import Scriptlet.Proofs.Numerals
import Scriptlet.Proofs.ShortestDigits

/-!
# Printed numbers read back

Whatever finite number is printed, reading the text gives that number again.  This is so because a printed text
spells a decimal that rounds to the number: the number itself if it is integral and not too large, and the
shortest digits otherwise, laid out with a point or an exponent.  Reading computes the decimal exactly and rounds
it once, and a decimal that is settled by its size alone is settled correctly.

So no two finite numbers are printed alike.  This includes the two zeros, which differ in their sign.
-/

namespace Scriptlet.Decimal

/-! ## The size of a decimal -/

section Size

variable {v : ℚ} {m : ℕ} {q : ℤ}

/-- What rounds to a positive double is not too small. -/
lemma RoundsTo.lower_bound (hm : 0 < m) (h : IsMagnitude m q) (hv : RoundsTo v m q) :
    (10 : ℚ) ^ (-400 : ℤ) ≤ v := by
  have hone : (1 : ℚ) ≤ m := by exact_mod_cast hm
  calc (10 : ℚ) ^ (-400 : ℤ) ≤ 2 ^ (-1 : ℤ) * 2 ^ leastExponent := by
        rw [← zpow_add₀ two_ne_zero, leastExponent]
        norm_num only [zpow_neg, zpow_ofNat, Int.reduceAdd]
        rw [inv_le_inv₀ (by positivity) (by positivity)]
        exact_mod_cast (by decide +kernel : 2 ^ 1075 ≤ 10 ^ 400)
    _ ≤ (m - 1 / 2) * 2 ^ q := by
        refine mul_le_mul ?_ (zpow_le_zpow_right₀ one_le_two h.le) (by positivity) (by linarith)
        norm_num
        linarith
    _ ≤ lowerEnd m q := half_le_lowerEnd m q
    _ ≤ v := hv.low

/-- What rounds to a finite double is not too large. -/
lemma RoundsTo.upper_bound (h : IsMagnitude m q) (hv : RoundsTo v m q) : v < (10 : ℚ) ^ (400 : ℤ) := by
  have hlt : (m : ℚ) + 1 ≤ 2 ^ 53 := by exact_mod_cast h.lt
  calc v ≤ upperEnd m q := hv.high
    _ ≤ 2 ^ (53 : ℤ) * 2 ^ (971 : ℤ) := by
        refine mul_le_mul ?_ (zpow_le_zpow_right₀ one_le_two h.finite) (by positivity) (by positivity)
        rw [zpow_ofNat]
        linarith
    _ < 10 ^ (400 : ℤ) := by
        rw [zpow_ofNat, zpow_ofNat, zpow_ofNat, ← pow_add]
        exact_mod_cast (by decide +kernel : 2 ^ (53 + 971) < 10 ^ 400)

/-- A decimal is below the power of ten that its size names. -/
lemma lt_pow_size (mantissa : ℕ) (exponent : ℤ) :
    (mantissa * 10 ^ exponent : ℚ) < 10 ^ (exponent + (digitCount mantissa : ℤ)) := by
  have hlt : (mantissa : ℚ) < 10 ^ digitCount mantissa := by exact_mod_cast lt_pow_digitCount mantissa
  rw [add_comm, zpow_add₀ (by norm_num), zpow_natCast]
  gcongr

/-- A positive decimal is not below the power of ten before that. -/
lemma pow_size_le {mantissa : ℕ} (h : mantissa ≠ 0) (exponent : ℤ) :
    (10 : ℚ) ^ (exponent + (digitCount mantissa : ℤ) - 1) ≤ mantissa * 10 ^ exponent := by
  have hle : (10 : ℚ) ^ (digitCount mantissa - 1) ≤ mantissa := by exact_mod_cast pow_digitCount_le h
  have hpos := digitCount_pos mantissa
  rw [show exponent + (digitCount mantissa : ℤ) - 1 = (digitCount mantissa - 1 : ℕ) + exponent by omega,
    zpow_add₀ (by norm_num), zpow_natCast]
  gcongr

/-- Reading a decimal is rounding it correctly, also where its size alone decides. -/
theorem ofDecimal_eq {x : Float} {negative : Bool} {mantissa : ℕ} {exponent : ℤ}
    (hx : Double.of x = .finite negative m q) (h : RoundsTo (mantissa * 10 ^ exponent) m q) :
    ofDecimal negative mantissa exponent = x := by
  have hm := (bits_of_finite hx).1
  have hten : (1 : ℚ) ≤ 10 := by norm_num
  unfold ofDecimal
  dsimp only
  change (if mantissa = 0 ∨ exponent + (digitCount mantissa : ℤ) < -400 then _ else
    if 400 < exponent + (digitCount mantissa : ℤ) then _ else _) = x
  split_ifs with hsmall hlarge
  · refine nearest_eq hx one_ne_zero ?_
    rw [Nat.cast_zero, zero_div]
    rcases hsmall with rfl | hsmall
    · simpa using h
    · rcases Nat.eq_zero_or_pos m with rfl | hpos
      · simpa using RoundsTo.self 0 q
      · have hbelow := (lt_pow_size mantissa exponent).trans_le (zpow_le_zpow_right₀ hten hsmall.le)
        exact absurd (h.lower_bound hpos hm) (not_le.mpr hbelow)
  · rw [not_or] at hsmall
    have habove := (zpow_le_zpow_right₀ hten (Int.le_sub_one_of_lt hlarge)).trans (pow_size_le hsmall.1 exponent)
    exact absurd (h.upper_bound hm) (not_lt.mpr habove)
  · refine nearest_eq hx (Nat.pow_pos (by norm_num)).ne' ?_
    have hscaled := scaled 10 (by norm_num) mantissa 1 exponent
    rw [one_mul, Nat.cast_one, div_one, Nat.cast_ofNat] at hscaled
    rw [hscaled]
    exact h

end Size

/-! ## Digits -/

lemma digitChars_ne_nil (n : ℕ) : digitChars n ≠ [] :=
  Nat.toDigits_ne_nil

lemma mem_digits_of_mem_digitChars {n : ℕ} : ∀ c ∈ digitChars n, c ∈ digits := by
  have hdigit : ∀ d < 10, Nat.digitChar d ∈ digits := by decide
  unfold digitChars
  induction n using Nat.strong_induction_on with
  | _ n ih =>
    intro c hc
    rw [Nat.toDigits_eq_if (by norm_num)] at hc
    split_ifs at hc with hlt
    · rw [List.mem_singleton.mp hc]
      exact hdigit n hlt
    · rcases List.mem_append.mp hc with hc | hc
      · exact ih (n / 10) (by omega) c hc
      · rw [List.mem_singleton.mp hc]
        exact hdigit _ (Nat.mod_lt n (by norm_num))

lemma mem_digits_of_mem_replicate {k : ℕ} : ∀ c ∈ List.replicate k '0', c ∈ digits := by
  intro c hc
  rw [List.eq_of_mem_replicate hc]
  decide

/-- Digits are read as the library reads them. -/
lemma valueFrom_eq (acc : ℕ) (cs : List Char) : valueFrom acc cs = Nat.ofDigitChars 10 cs acc := by
  simp only [valueFrom, Nat.ofDigitChars, Nat.mul_comm]

/-- Digits are read from the left to the right. -/
lemma valueFrom_append (acc : ℕ) (cs ds : List Char) :
    valueFrom acc (cs ++ ds) = valueFrom (valueFrom acc cs) ds :=
  List.foldl_append

/-- The digits of a number are read as that number. -/
lemma valueFrom_digitChars (n : ℕ) : valueFrom 0 (digitChars n) = n := by
  rw [valueFrom_eq]
  exact Nat.ofDigitChars_ten_toDigits

/-- Zeros multiply by powers of ten. -/
lemma valueFrom_replicate (acc k : ℕ) : valueFrom acc (List.replicate k '0') = 10 ^ k * acc := by
  rw [valueFrom_eq]
  exact Nat.ofDigitChars_replicate_zero

/-- Zeros in front of digits do not count. -/
lemma valueFrom_padded (k n : ℕ) : valueFrom 0 (List.replicate k '0' ++ digitChars n) = n := by
  rw [valueFrom_append, valueFrom_replicate, Nat.mul_zero, valueFrom_digitChars]

lemma mem_digits_of_mem_padded {k n : ℕ} : ∀ c ∈ List.replicate k '0' ++ digitChars n, c ∈ digits := by
  intro c hc
  rcases List.mem_append.mp hc with hc | hc
  · exact mem_digits_of_mem_replicate c hc
  · exact mem_digits_of_mem_digitChars c hc

/-! ## What a layout writes -/

/-- The number that a numeral denotes. -/
def Numeral.value (n : Numeral) : ℚ :=
  valueFrom (valueFrom 0 n.whole) n.fraction * 10 ^ (n.exponent - n.fraction.length)

/-- A text that spells a numeral of the given value. -/
def SpellsValue (cs : List Char) (v : ℚ) : Prop :=
  ∃ n, Spells cs n ∧ n.value = v

section Spelling

variable {whole point fraction mark : List Char} {e : ℤ} {v : ℚ}

/-- A numeral has the value of all its digits, shifted by its exponent and the length of its fraction. -/
lemma spellsValue (hne : whole ≠ []) (hwhole : ∀ c ∈ whole, c ∈ digits) (hfraction : IsFraction point fraction)
    (hexponent : IsExponent mark e)
    (hv : (valueFrom 0 (whole ++ fraction) : ℚ) * 10 ^ (e - fraction.length) = v) :
    SpellsValue (whole ++ (point ++ mark)) v := by
  rw [valueFrom_append] at hv
  exact ⟨_, .mk hne hwhole hfraction hexponent, hv⟩

/-- A numeral without an exponent. -/
lemma spellsValue_plain (hne : whole ≠ []) (hwhole : ∀ c ∈ whole, c ∈ digits) (hfraction : IsFraction point fraction)
    (hv : (valueFrom 0 (whole ++ fraction) : ℚ) * 10 ^ (-fraction.length : ℤ) = v) :
    SpellsValue (whole ++ point) v := by
  have hspells := spellsValue hne hwhole hfraction .none (v := v) (by rwa [zero_sub])
  rwa [List.append_nil] at hspells

/-- An integer spells itself. -/
lemma spells_digitChars (n : ℕ) : SpellsValue (digitChars n) n := by
  have hspells := spellsValue_plain (digitChars_ne_nil n) mem_digits_of_mem_digitChars .none (v := n)
    (by simp [valueFrom_digitChars])
  rwa [List.append_nil] at hspells

end Spelling

/-- A decimal with a point spells its value. -/
lemma spells_positional (d : Digits) : SpellsValue (canonicalLayout.positional d) d.value := by
  have hdigits := valueFrom_digitChars d.digits
  have hmem := mem_digits_of_mem_digitChars (n := d.digits)
  have hne := digitChars_ne_nil d.digits
  have hzero : ∀ c ∈ ['0'], c ∈ digits := mem_digits_of_mem_replicate (k := 1)
  unfold Layout.positional Digits.value
  dsimp only
  generalize digitChars d.digits = cs at hdigits hmem hne ⊢
  rw [← hdigits]
  split_ifs with hexponent hfraction
  · have hmark : canonicalLayout.integralMark.toList = ['.', '0'] := rfl
    have hlast : ∀ n, valueFrom n ['0'] = n * 10 := fun _ => rfl
    have hpow : (10 : ℚ) ^ d.exponent = 10 ^ d.exponent.toNat := by
      rw [← zpow_natCast, Int.toNat_of_nonneg hexponent]
    rw [hmark]
    refine spellsValue_plain (by simp [hne]) (fun c hc => ?_) (.some hzero) ?_
    · exact (List.mem_append.mp hc).elim (hmem c) (mem_digits_of_mem_replicate c)
    · rw [valueFrom_append, valueFrom_append, valueFrom_replicate, hlast, hpow]
      norm_num
      ring
  · refine spellsValue_plain (List.ne_nil_of_length_pos ?_) (fun c hc => hmem c (List.mem_of_mem_take hc))
      (.some fun c hc => hmem c (List.mem_of_mem_drop hc)) ?_
    · rw [List.length_take]
      omega
    · rw [List.take_append_drop, List.length_drop]
      congr 2
      omega
  · change SpellsValue (['0'] ++ '.' :: (List.replicate ((-d.exponent).toNat - cs.length) '0' ++ cs)) _
    refine spellsValue_plain (List.cons_ne_nil _ _) hzero (.some fun c hc => ?_) ?_
    · exact (List.mem_append.mp hc).elim (mem_digits_of_mem_replicate c) (hmem c)
    · rw [← List.append_assoc, List.singleton_append, ← List.replicate_succ, valueFrom_append,
        valueFrom_replicate, Nat.mul_zero, List.length_append, List.length_replicate]
      congr 2
      omega

/-- A written exponent has its value. -/
lemma isExponent_padded (width : ℕ) (e : ℤ) :
    IsExponent ('e' :: (if e < 0 then '-' else '+') :: padded width e.natAbs) e := by
  have hne : padded width e.natAbs ≠ [] := by simp [padded, digitChars_ne_nil]
  have hmem : ∀ c ∈ padded width e.natAbs, c ∈ digits := mem_digits_of_mem_padded
  have hvalue : valueFrom 0 (padded width e.natAbs) = e.natAbs := valueFrom_padded _ _
  split_ifs with hneg
  · have hdown := IsExponent.down hne hmem
    rwa [hvalue, show -((e.natAbs : ℕ) : ℤ) = e by omega] at hdown
  · have hup := IsExponent.up hne hmem
    rwa [hvalue, show ((e.natAbs : ℕ) : ℤ) = e by omega] at hup

/-- A decimal with an exponent spells its value. -/
lemma spells_scientific (l : Layout) (d : Digits) :
    SpellsValue (l.scientific d (d.exponent + (digitCount d.digits : ℤ) - 1)) d.value := by
  have hexponent := isExponent_padded l.exponentWidth (d.exponent + (digitCount d.digits : ℤ) - 1)
  have hdigits := valueFrom_digitChars d.digits
  have hmem := mem_digits_of_mem_digitChars (n := d.digits)
  have hcount : digitCount d.digits = (digitChars d.digits).length := rfl
  unfold Layout.scientific Digits.value
  rw [hcount] at hexponent ⊢
  generalize hcs : digitChars d.digits = cs at hexponent hdigits hmem ⊢
  rw [← hdigits]
  match cs with
  | [] => exact absurd hcs (digitChars_ne_nil d.digits)
  | [c] => exact spellsValue (List.cons_ne_nil _ _) hmem .none hexponent (by simp)
  | c :: c' :: rest =>
    have hwhole : ∀ b ∈ [c], b ∈ digits := fun b hb => hmem b (List.mem_cons.mpr (.inl (List.mem_singleton.mp hb)))
    have hrest : ∀ b ∈ c' :: rest, b ∈ digits := fun b hb => hmem b (List.mem_cons_of_mem c hb)
    refine spellsValue (List.cons_ne_nil _ _) hwhole (.some hrest) hexponent ?_
    rw [List.singleton_append, List.length_cons (a := c)]
    congr 2
    push_cast
    ring

/-- A written decimal spells its value. -/
lemma spells_write (d : Digits) : SpellsValue (canonicalLayout.write d) d.value := by
  unfold Layout.write
  dsimp only
  split_ifs
  · exact spells_positional d
  · exact spells_scientific _ d

/-! ## Printed texts -/

section Printed

variable {m : ℕ} {q : ℤ}

/-- A number that is found to be integral is what is found. -/
lemma natural?_eq_some {n : ℕ} (h : natural? m q = some n) : (n : ℚ) = m * 2 ^ q := by
  unfold natural? at h
  split_ifs at h with hq hdvd
  · obtain rfl := Option.some.inj h
    rw [Nat.pow_eq]
    push_cast
    rw [← zpow_natCast, Int.toNat_of_nonneg hq]
  · obtain rfl := Option.some.inj h
    rw [Nat.pow_eq] at hdvd ⊢
    have hpow : (2 : ℚ) ^ q = (2 ^ (-q).toNat)⁻¹ := by
      rw [← zpow_natCast, ← zpow_neg, Int.toNat_of_nonneg (by omega), neg_neg]
    rw [Nat.cast_div (Nat.dvd_of_mod_eq_zero hdvd) (by positivity), hpow]
    push_cast
    rw [div_eq_mul_inv]

/-- The sign in front of a canonical text and of an integer. -/
lemma text_finite (hm : 0 < m) (negative : Bool) :
    canonicalLayout.text (.finite negative m q) =
      String.ofList (signed negative (canonicalLayout.write (shortest m q))) := by
  cases negative <;> simp [Layout.text, hm.ne', signed]

/-- The printed text of a finite number is that of the integer that it is, or else of its shortest digits. -/
lemma printed_finite (m : ℕ) (q : ℤ) (negative : Bool) :
    (∃ n : ℕ, (n : ℚ) = m * 2 ^ q ∧
      (Double.finite negative m q).printed = String.ofList (signed negative (digitChars n))) ∨
    0 < m ∧ (Double.finite negative m q).printed =
      String.ofList (signed negative (canonicalLayout.write (shortest m q))) := by
  rcases Nat.eq_zero_or_pos m with rfl | hm
  · have hzero : natural? 0 q = some 0 := by
      unfold natural?
      split_ifs <;> simp_all
    refine .inl ⟨0, by simp, ?_⟩
    cases negative <;> simp [Double.printed, hzero, printedIntegerBound, signed]
  · unfold Double.printed
    dsimp only
    split
    next n hn =>
      split
      next => exact .inl ⟨n, natural?_eq_some hn, by cases negative <;> rfl⟩
      next => exact .inr ⟨hm, text_finite hm negative⟩
    next => exact .inr ⟨hm, text_finite hm negative⟩

/-- The printed text of a finite number spells a decimal that rounds to it, behind its sign. -/
theorem spells_printed (h : IsMagnitude m q) (negative : Bool) :
    ∃ cs v, (Double.finite negative m q).printed = String.ofList (signed negative cs) ∧
      SpellsValue cs v ∧ RoundsTo v m q := by
  rcases printed_finite m q negative with ⟨n, hn, hprinted⟩ | ⟨hm, hprinted⟩
  · exact ⟨_, n, hprinted, spells_digitChars n, hn ▸ RoundsTo.self m q⟩
  · exact ⟨_, _, hprinted, spells_write (shortest m q), (roundsTo_shortest hm h).2⟩

/-- What is printed for a finite number reads back as that number. -/
theorem read?_printed {x : Float} {negative : Bool} (hx : Double.of x = .finite negative m q) :
    read? (printed x) = some x := by
  obtain ⟨cs, v, hprinted, ⟨n, hspells, hvalue⟩, hrounds⟩ := spells_printed (bits_of_finite hx).1 negative
  rw [← hvalue] at hrounds
  rw [printed, hx, hprinted, hspells.read]
  exact congrArg some (ofDecimal_eq hx hrounds)

end Printed

end Scriptlet.Decimal
