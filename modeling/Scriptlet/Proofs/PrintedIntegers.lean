import Scriptlet.Proofs.Accepted
import Scriptlet.Proofs.Completeness
import Scriptlet.Proofs.PrintedNumbers

/-!
# Printed integers are tokens

Among the printed numbers the integers below `10 ^ 21` are special: their texts are plain decimals, so that they
are not only readable as numbers but also part of the language of scripts.  Such a text is one number token, and
the literal that is parsed from it is the double that was printed, however large the integer is and however many
of its digits are beyond the precision of doubles.  The text of a negative integer is two tokens, and is parsed
as the negation of the positive one.
-/

namespace Scriptlet

open Decimal

/-! ## Doubles that are integers -/

/-- The double that is the integer `n`, or with the sign set the integer `-n`. -/
def IsInteger (x : Float) (negative : Bool) (n : ℕ) : Prop :=
  ∃ m q, Double.of x = .finite negative m q ∧ (n : ℚ) = m * 2 ^ q

/-- A text that is the decimal representation of `n`: digits, and no zero in front of others. -/
structure IsDecimal (text : String) (n : ℕ) : Prop where
  nonempty : text.toList ≠ []
  digits : ∀ c ∈ text.toList, c ∈ digits
  leading : text.toList.head? = some '0' → text = "0"
  value : valueFrom 0 text.toList = n

namespace Decimal

/-- A magnitude that is an integer is found to be one. -/
lemma natural?_of_eq {m n : ℕ} {q : ℤ} (h : (n : ℚ) = m * 2 ^ q) : natural? m q = some n := by
  unfold natural?
  simp only [Nat.pow_eq]
  split_ifs with hq hdvd
  · have hpow : (2 : ℚ) ^ q = 2 ^ q.toNat := by rw [← zpow_natCast, Int.toNat_of_nonneg hq]
    rw [hpow] at h
    exact congrArg some (by exact_mod_cast h.symm)
  all_goals
    have hpow : (2 : ℚ) ^ q = (2 ^ (-q).toNat)⁻¹ := by
      rw [← zpow_natCast, ← zpow_neg, Int.toNat_of_nonneg (by omega), neg_neg]
    have hmul : n * 2 ^ (-q).toNat = m := by
      rw [hpow, ← div_eq_mul_inv, eq_div_iff (by positivity)] at h
      exact_mod_cast h
  · rw [← hmul, Nat.mul_div_cancel _ (by positivity)]
  · rw [← hmul, Nat.mul_mod_left] at hdvd
    exact absurd rfl hdvd

/-- The first digit of a positive number is not zero. -/
lemma head?_digitChars {n : ℕ} (hn : n ≠ 0) : (digitChars n).head? ≠ some '0' := by
  have hdigit : ∀ d < 10, d ≠ 0 → Nat.digitChar d ≠ '0' := by decide
  unfold digitChars
  induction n using Nat.strong_induction_on with
  | _ n ih =>
    rw [Nat.toDigits_eq_if (by norm_num)]
    split_ifs with hlt
    · intro hhead
      exact hdigit n hlt hn (Option.some.inj hhead)
    · rw [List.head?_append_of_ne_nil _ Nat.toDigits_ne_nil]
      exact ih (n / 10) (by omega) (by omega)

/-- The digits of a number are its decimal text. -/
lemma isDecimal_digitChars (n : ℕ) : IsDecimal (String.ofList (digitChars n)) n where
  nonempty := by
    rw [String.toList_ofList]
    exact digitChars_ne_nil n
  digits := by
    rw [String.toList_ofList]
    exact mem_digits_of_mem_digitChars
  leading := by
    rw [String.toList_ofList]
    rcases eq_or_ne n 0 with rfl | hn
    · exact fun _ => rfl
    · exact fun hhead => absurd hhead (head?_digitChars hn)
  value := by
    rw [String.toList_ofList]
    exact valueFrom_digitChars n

/-- An integer of fewer than 22 digits is printed as its digits, behind its sign. -/
lemma printed_integer {x : Float} {negative : Bool} {n : ℕ} (hx : IsInteger x negative n) (hn : n < 10 ^ 21) :
    printed x = String.ofList (signed negative (digitChars n)) := by
  obtain ⟨m, q, hdouble, hvalue⟩ := hx
  rw [printed, hdouble, Double.printed, natural?_of_eq hvalue]
  simp only [if_pos (show n < printedIntegerBound from hn)]
  cases negative <;> rfl

end Decimal

/-! ## Scanning digits -/

/-- A number token on the first line, from the given column on. -/
def numberToken (text : String) (start : ℕ) : Token :=
  ⟨.number, text, some text, ⟨1, start, (start + text.length : ℕ)⟩⟩

/-- The token of a minus sign in front of everything. -/
def minusToken : Token :=
  ⟨.minus, "-", none, ⟨1, 0, 1⟩⟩

namespace IsDecimal

variable {text : String} {n : ℕ}

/-- The bytes of digits are the bytes of their characters, one for each. -/
lemma byte_of_mem {c : Char} (hc : c ∈ Decimal.digits) :
    IsDigitByte (UInt8.ofNat c.toNat) ∧ String.utf8EncodeChar c = [UInt8.ofNat c.toNat] := by
  have hall : Decimal.digits.all (fun c => 0x30 ≤ c.toNat ∧ c.toNat ≤ 0x39) = true := by decide
  obtain ⟨hlow, hhigh⟩ := of_decide_eq_true (List.all_eq_true.mp hall c hc)
  have hnat : (UInt8.ofNat c.toNat).toNat = c.toNat := UInt8.toNat_ofNat_of_lt' (hhigh.trans_lt (by decide))
  have hbyte : IsDigitByte (UInt8.ofNat c.toNat) := by
    unfold IsDigitByte
    rw [UInt8.le_iff_toNat_le, UInt8.le_iff_toNat_le, hnat]
    exact ⟨hlow, hhigh⟩
  have hencode := Utf8.encode_ascii (Chunk.lt_of_isDigitByte hbyte)
  rw [hnat, Char.ofNat_toNat] at hencode
  exact ⟨hbyte, hencode⟩

/-- The bytes of a decimal text are digits. -/
lemma isDigitByte_of_mem (h : IsDecimal text n) : ∀ b ∈ Utf8.encode text, IsDigitByte b := by
  intro b hb
  rw [Utf8.encode_eq] at hb
  obtain ⟨c, hc, hb⟩ := List.mem_flatMap.mp hb
  obtain ⟨hbyte, hencode⟩ := byte_of_mem (h.digits c hc)
  rw [hencode, List.mem_singleton] at hb
  exact hb ▸ hbyte

/-- The bytes of digits are a number. -/
lemma isNumber (h : IsDecimal text n) : IsNumber (Utf8.encode text) := by
  refine .whole ?_ h.isDigitByte_of_mem
  obtain ⟨c, cs, hcs⟩ := List.exists_cons_of_ne_nil h.nonempty
  rw [Utf8.encode_eq, hcs, List.flatMap_cons]
  exact List.append_ne_nil_of_left_ne_nil String.utf8EncodeChar_ne_nil _

lemma length_encode (h : IsDecimal text n) : (Utf8.encode text).length = text.length := by
  rw [← String.length_toList, Utf8.toList_of_ascii (Chunk.lt_of_isNumber h.isNumber), List.length_map]

/-- A decimal text has no line break. -/
lemma newline_notMem (h : IsDecimal text n) : newline ∉ Utf8.encode text := by
  intro hmem
  have hnewline : ¬ IsDigitByte newline := by
    unfold IsDigitByte
    decide
  exact hnewline (h.isDigitByte_of_mem _ hmem)

/-- Digits behind other bytes of the first line are one number token, and the source ends with them. -/
lemma scans (h : IsDecimal text n) {before : List UInt8} (hbefore : ∀ b ∈ before, b ≠ newline) :
    Scans before (Utf8.encode text) [numberToken text before.length, .endOfSource 2] [] := by
  have hline : lineAfter before = 1 := by
    rw [lineAfter, List.count_eq_zero_of_not_mem fun hmem => hbefore _ hmem rfl]
  have hcolumn : columnAfter before = before.length := by
    rw [columnAfter, List.takeWhile_eq_self_iff.mpr (by simpa using hbefore), List.length_reverse]
  have hend : lineAfter (before ++ Utf8.encode text) + 1 = 2 := by
    rw [lineAfter, List.count_eq_zero_of_not_mem fun hmem => ?_]
    rcases List.mem_append.mp hmem with hmem | hmem
    · exact hbefore _ hmem rfl
    · exact h.newline_notMem hmem
  have hstop := @Scans.stop (before ++ Utf8.encode text)
  rw [hend] at hstop
  have hscans := Scans.token (.number h.isNumber) (fun _ hle => by simpa using hle.length_le) hstop
  rw [List.append_nil, Utf8.decodeLossy_encode, hline, hcolumn, h.length_encode] at hscans
  exact hscans

/-- A minus sign in front is a token of its own. -/
lemma scans_minus (h : IsDecimal text n) :
    Scans [] (Utf8.encode ("-" ++ text)) [minusToken, numberToken text 1, .endOfSource 2] [] := by
  have hsign : Utf8.encode "-" = [0x2D] := by decide +kernel
  have hlexeme : Utf8.decodeLossy [0x2D] = "-" := by decide +kernel
  have hminus : Chunk.single? (Chunk.char 0x2D) = some .minus := by decide
  obtain ⟨hmeasure, htoken⟩ := Chunk.operator_of_single? hminus ([] ++ Utf8.encode text)
  have hbefore : ∀ b ∈ ([] ++ [0x2D] : List UInt8), b ≠ newline := by simp [newline]
  have hlater := h.scans hbefore
  have hscans := Scans.token htoken (fun hother hle => length_le_of_measure hmeasure hother hle) hlater
  rw [hlexeme] at hscans
  rw [Utf8.encode_append, hsign]
  exact hscans

end IsDecimal

/-! ## Parsing the tokens -/

namespace Grammar

/-- What is parsed as an operand is parsed as a chain of operators where none of them comes next. -/
lemma binaries_of_operand {limit : ℕ} {ts rest : List Leaf} {e : Node} (h : unary limit ts = .ok (e, rest))
    (ls : List Level) (hrest : NotNext (operatorOr ls (· = .leftParen)) rest) :
    binaries ls (unary limit) ts = .ok (e, rest) := by
  induction ls with
  | nil => exact h
  | cons level ls ih =>
    rw [notNext_operatorOr_cons] at hrest
    change level.chain (binaries ls (unary limit)) ts = _
    rw [level.chain_def]
    refine (Passes.start (ih hrest.2)).stop ?_ (stepBy_eq_none.mpr ⟨hrest.1, rfl⟩)
    exact consuming_stepBy fun _ _ => (takes_binaries ls (takes_unary limit)).leaves.map _

/-- What is parsed as an operand of unary operators is an expression where nothing continues it. -/
lemma expression_of_unary {limit : ℕ} {ts rest : List Leaf} {e : Node} (h : unary limit ts = .ok (e, rest))
    (hrest : NotNext continuing rest) : expression (limit + 1) ts = .ok (e, rest) := by
  obtain ⟨hoperators, hequal⟩ := notNext_or.mp hrest
  unfold expression
  exact bind_eq_ok.mpr ⟨e, rest, binaries_of_operand h levels hoperators,
    bind_eq_ok.mpr ⟨none, rest, accept?_eq_none.mpr ⟨hequal, rfl⟩, rfl⟩⟩

/-- A token that denotes a value is an operand by itself. -/
lemma unary_of_denoted? {limit : ℕ} {t : Leaf} {rest : List Leaf} {v : Node} (h : t.denoted? = some v)
    (hrest : NotNext (· = .leftParen) rest) : unary (limit + 1) (t :: rest) = .ok (.literal v, rest) := by
  have hkind : NotNext isUnaryOperator (t :: rest) := by
    have hmem := Leaf.kind_of_denoted? h
    simp only [List.mem_cons, List.not_mem_nil, or_false] at hmem
    rcases hmem with hk | hk | hk | hk | hk <;> simp [hk, isUnaryOperator]
  unfold unary
  refine bind_eq_ok.mpr ⟨none, _, accept?_eq_none.mpr ⟨hkind, rfl⟩, ?_⟩
  change call (expression limit) (t :: rest) = _
  rw [call_def]
  refine (Passes.start (primary_of_denoted? _ h)).stop ?_ (stepBy_eq_none.mpr ⟨hrest, rfl⟩)
  exact consuming_stepBy fun _ _ => (takes_arguments (takes_expression limit)).leaves.map _

end Grammar

/-! ## Reading integers back -/

/-- The literal of a number token with the printed text of a finite number is that number. -/
lemma denoted?_numberToken {x : Float} {negative : Bool} {m : ℕ} {q : ℤ}
    (hx : Double.of x = .finite negative m q) (start : ℕ) :
    (numberToken (printed x) start).leaf.denoted? = some (.float x) :=
  congrArg (Option.map Node.float) (read?_printed hx)

/-- A printed integer is the decimal representation of the integer.  It scans as one number token, without
errors, and that token is parsed as the literal of the integer.  The text of the negative integer has a minus
sign in front and is parsed as the negation of that literal. -/
theorem printed_integer_reads_back {x : Float} {n : ℕ} (hx : IsInteger x false n) (hn : n < 10 ^ 21) :
    let text := (Value.number x).text
    let stop := Token.endOfSource 2
    IsDecimal text n ∧
    Scan.ofText text = ⟨[numberToken text 0, stop], []⟩ ∧
    (∀ limit, Grammar.expression (limit + 2) [(numberToken text 0).leaf, stop.leaf] =
      .ok (.literal (.float x), [stop.leaf])) ∧
    ∀ y, IsInteger y true n → 0 < n →
      (Value.number y).text = "-" ++ text ∧
      Scan.ofText (Value.number y).text = ⟨[minusToken, numberToken text 1, stop], []⟩ ∧
      ∀ limit, Grammar.expression (limit + 3) [minusToken.leaf, (numberToken text 1).leaf, stop.leaf] =
        .ok (.unary (.token minusToken.leaf) (.literal (.float x)), [stop.leaf]) := by
  intro text stop
  have hprinted : text = String.ofList (digitChars n) := printed_integer hx hn
  have hdecimal : IsDecimal text n := hprinted ▸ isDecimal_digitChars n
  have hstop : ∀ accepted : Kind → Bool, accepted .eof = false → Grammar.NotNext accepted [stop.leaf] := by
    intro accepted haccepted t ht
    obtain rfl := Option.some.inj ht
    exact haccepted
  have hdenoted : ∀ start, (numberToken text start).leaf.denoted? = some (.float x) := by
    obtain ⟨m, q, hdouble, -⟩ := hx
    exact denoted?_numberToken hdouble
  have hunary : ∀ limit start, Grammar.unary (limit + 1) [(numberToken text start).leaf, stop.leaf] =
      .ok (.literal (.float x), [stop.leaf]) := fun limit start =>
    Grammar.unary_of_denoted? (hdenoted start) (hstop _ (by decide))
  refine ⟨hdecimal, ofBytes_of_scans (hdecimal.scans (by simp)), fun limit => ?_, fun y hy hpos => ?_⟩
  · exact Grammar.expression_of_unary (hunary limit 0) (hstop _ (by decide))
  · have hminus : (Value.number y).text = "-" ++ text := by
      rw [hprinted, ← String.toList_inj]
      simp [Value.text, printed_integer hy hn, signed]
    refine ⟨hminus, ?_, fun limit => ?_⟩
    · rw [hminus]
      exact ofBytes_of_scans hdecimal.scans_minus
    · -- The minus is an operator of its own, in front of the number.
      refine Grammar.expression_of_unary ?_ (hstop _ (by decide))
      unfold Grammar.unary
      exact Grammar.bind_eq_ok.mpr ⟨some minusToken.leaf, _, Grammar.accept?_eq_some.mpr ⟨rfl, rfl⟩,
        Grammar.bind_eq_ok.mpr ⟨_, _, hunary limit 1, rfl⟩⟩

/-- The double `2 ^ 69` is printed with all of its digits, although fewer of them would tell it from other
doubles. -/
theorem large_integer_reads_back :
    IsInteger 590295810358705651712 false (2 ^ 69) ∧ IsInteger (-590295810358705651712) true (2 ^ 69) ∧
      2 ^ 69 < 10 ^ 21 ∧ 0 < 2 ^ 69 ∧
      IsDecimal (Value.number 590295810358705651712).text (2 ^ 69) ∧
      (Value.number (-590295810358705651712)).text = "-" ++ (Value.number 590295810358705651712).text := by
  have hdouble : Double.of 590295810358705651712 = .finite false (2 ^ 52) 17 := by decide +kernel
  have hnegative : Double.of (-590295810358705651712) = .finite true (2 ^ 52) 17 := by decide +kernel
  have hx : IsInteger 590295810358705651712 false (2 ^ 69) := ⟨_, _, hdouble, by norm_num⟩
  have hy : IsInteger (-590295810358705651712) true (2 ^ 69) := ⟨_, _, hnegative, by norm_num⟩
  have hn : 2 ^ 69 < 10 ^ 21 := by norm_num
  obtain ⟨hdecimal, -, -, hminus⟩ := printed_integer_reads_back hx hn
  exact ⟨hx, hy, hn, by norm_num, hdecimal, (hminus _ hy (by norm_num)).1⟩

end Scriptlet
