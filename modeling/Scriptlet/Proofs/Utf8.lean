import Mathlib
import Scriptlet.Text.Utf8

/-!
# Reading and writing UTF-8

The core library says how a character is written as bytes.  Here the reader of bytes is shown to be its
exact inverse: a piece that is a character consists of the bytes of that character, bytes that begin with
those of a character give that character as their first piece, and the strict reading of some bytes is
the text whose bytes they are, if there is one.
-/

namespace Scriptlet.Utf8

/-! ## The bytes of a text -/

/-- Listing the bytes of an array gives the list that the array holds. -/
lemma toList_eq (bytes : ByteArray) : bytes.toList = bytes.data.toList := by
  suffices hloop : ∀ (n i : ℕ) (acc : List UInt8), bytes.size - i = n →
      ByteArray.toList.loop bytes i acc = acc.reverse ++ bytes.data.toList.drop i by
    unfold ByteArray.toList
    rw [hloop _ 0 [] rfl]
    rfl
  intro n
  induction n with
  | zero =>
    intro i acc hn
    have hdrop : bytes.data.toList.drop i = [] := List.drop_eq_nil_of_le (Nat.le_of_sub_eq_zero hn)
    unfold ByteArray.toList.loop
    rw [if_neg (by omega), hdrop, List.append_nil]
  | succ n ih =>
    intro i acc hn
    have hi : i < bytes.data.toList.length := by
      change i < bytes.size
      omega
    have hsize : i < bytes.size := by omega
    unfold ByteArray.toList.loop
    rw [if_pos hsize, ih (i + 1) _ (by omega), List.drop_eq_getElem_cons hi]
    have hget : bytes.get! i = bytes.data.toList[i] := getElem!_pos bytes.data i hi
    simp [hget]

/-- The bytes of a text are those of its characters. -/
lemma encode_eq (text : String) : encode text = text.toList.flatMap String.utf8EncodeChar := by
  have hbytes : text.toUTF8 = (text.toList.flatMap String.utf8EncodeChar).toByteArray := by
    rw [String.toUTF8_eq_toByteArray, ← String.utf8Encode_toList, List.utf8Encode]
  unfold encode
  rw [toList_eq, hbytes, List.toList_data_toByteArray]

/-- A text is encoded one character after the other. -/
lemma encode_ofList (cs : List Char) :
    encode (String.ofList cs) = cs.flatMap String.utf8EncodeChar := by
  rw [encode_eq, String.toList_ofList]

/-- Texts are encoded one behind the other. -/
lemma encode_append (text more : String) : encode (text ++ more) = encode text ++ encode more := by
  rw [encode_eq, encode_eq, encode_eq, String.toList_append, List.flatMap_append]

/-! ## One character -/

/-- The bits of a leading byte that count are the lower ones. -/
lemma leadBits_eq (lead : UInt8) (n : ℕ) : leadBits lead n = lead.toNat % 2 ^ (7 - n) := rfl

/-- A following byte within its bounds adds its six bits to the code, and the bounds on the next are the usual
ones. -/
lemma follow_cons {need : ℕ} {lo hi b : UInt8} (code : ℕ) (rest : List UInt8)
    (h : lo ≤ b ∧ b ≤ hi) :
    follow (need + 1) lo hi code (b :: rest) =
      ((follow need 0x80 0xBF (code * 64 + b.toNat % 64) rest).1,
        (follow need 0x80 0xBF (code * 64 + b.toNat % 64) rest).2 + 1) := by
  simp [follow, h]

/-- Continuation bytes that were read are the ones at the front. -/
lemma follow_eq_some {need : ℕ} {lo hi : UInt8} {code code' used : ℕ} {rest : List UInt8}
    (h : follow (need + 1) lo hi code rest = (some code', used)) :
    ∃ b more used', rest = b :: more ∧ (lo ≤ b ∧ b ≤ hi) ∧ used = used' + 1 ∧
      follow need 0x80 0xBF (code * 64 + b.toNat % 64) more = (some code', used') := by
  cases rest with
  | nil => simp [follow] at h
  | cons b more =>
    by_cases hb : lo ≤ b ∧ b ≤ hi
    · rw [follow_cons code more hb] at h
      obtain ⟨h₁, rfl⟩ := Prod.mk.inj h
      exact ⟨b, more, _, rfl, hb, rfl, Prod.ext h₁ rfl⟩
    · simp [follow, hb] at h

/-- Where no byte is to follow, the code is complete. -/
lemma follow_zero_eq_some {lo hi : UInt8} {code code' used : ℕ} {rest : List UInt8}
    (h : follow 0 lo hi code rest = (some code', used)) : code' = code ∧ used = 0 := by
  obtain ⟨hcode, rfl⟩ := Prod.mk.inj h
  exact ⟨(Option.some.inj hcode).symm, rfl⟩

/-- A code point is valid exactly when it is below the surrogates, or above them and not too large. -/
lemma toNat_char (c : Char) : c.toNat < 0xD800 ∨ 0xDFFF < c.toNat ∧ c.toNat < 0x110000 := by
  have h := c.valid
  exact h

/-- A code outside the surrogates and within the range of characters is that of a character. -/
lemma toNat_ofNat_of_valid {n : ℕ} (h : n < 0xD800 ∨ 0xDFFF < n ∧ n < 0x110000) :
    (Char.ofNat n).toNat = n := by
  have hv : n.isValidChar := h
  simp [Char.ofNat, hv]

/-- How many bytes a lead byte announces. -/
lemma announced_eq (lead : UInt8) :
    announced lead =
      if 0xC2 ≤ lead.toNat ∧ lead.toNat ≤ 0xDF then 2
      else if 0xE0 ≤ lead.toNat ∧ lead.toNat ≤ 0xEF then 3
      else if 0xF0 ≤ lead.toNat ∧ lead.toNat ≤ 0xF4 then 4
      else 1 := by
  simp [announced, UInt8.le_iff_toNat_le]

/-- Which bytes may stand second after a lead byte. -/
lemma secondRange_iff (lead b : UInt8) :
    ((secondRange lead).1 ≤ b ∧ b ≤ (secondRange lead).2) ↔
      (0x80 ≤ b.toNat ∧ b.toNat ≤ 0xBF) ∧ (lead.toNat = 0xE0 → 0xA0 ≤ b.toNat) ∧
        (lead.toNat = 0xED → b.toNat ≤ 0x9F) ∧ (lead.toNat = 0xF0 → 0x90 ≤ b.toNat) ∧
        (lead.toNat = 0xF4 → b.toNat ≤ 0x8F) := by
  have heq : ∀ k : UInt8, lead = k ↔ lead.toNat = k.toNat := fun k => UInt8.toNat_inj.symm
  unfold secondRange
  simp only [heq 0xE0, heq 0xED, heq 0xF0, heq 0xF4, UInt8.reduceToNat]
  split_ifs <;> simp only [UInt8.le_iff_toNat_le, UInt8.reduceToNat] <;> omega

/-- A piece with a lead byte is a run of continuation bytes behind it. -/
lemma piece_eq {lead : UInt8} {n : ℕ} (h : announced lead = n + 2) (rest : List UInt8) :
    piece lead rest =
      ((follow (n + 1) (secondRange lead).1 (secondRange lead).2 (leadBits lead (n + 2)) rest).1.map
          Char.ofNat,
        (follow (n + 1) (secondRange lead).1 (secondRange lead).2 (leadBits lead (n + 2)) rest).2) := by
  have hlead : ¬ lead < 0x80 := by
    rw [announced_eq] at h
    simp only [UInt8.lt_iff_toNat_lt, UInt8.reduceToNat]
    split_ifs at h <;> omega
  simp [piece, hlead, h]

/-- The bytes of a code point, by its size. -/
lemma encode_ofNat {v : ℕ} (hv : v < 0xD800 ∨ 0xDFFF < v ∧ v < 0x110000) :
    String.utf8EncodeChar (Char.ofNat v) =
      if v ≤ 0x7F then [UInt8.ofNat v]
      else if v ≤ 0x7FF then [UInt8.ofNat (v / 64 + 0xC0), UInt8.ofNat (v % 64 + 0x80)]
      else if v ≤ 0xFFFF then
        [UInt8.ofNat (v / 4096 + 0xE0), UInt8.ofNat (v / 64 % 64 + 0x80), UInt8.ofNat (v % 64 + 0x80)]
      else
        [UInt8.ofNat (v / 262144 + 0xF0), UInt8.ofNat (v / 4096 % 64 + 0x80),
          UInt8.ofNat (v / 64 % 64 + 0x80), UInt8.ofNat (v % 64 + 0x80)] := by
  have hval : (Char.ofNat v).val.toNat = v := toNat_ofNat_of_valid hv
  unfold String.utf8EncodeChar
  dsimp only
  rw [hval]
  split_ifs with h₁ h₂ h₃
  · rfl
  · rw [Nat.mod_eq_of_lt (by omega : v / 64 < 32)]
  · rw [Nat.mod_eq_of_lt (by omega : v / 4096 < 16)]
  · rw [Nat.mod_eq_of_lt (by omega : v / 262144 < 8)]

/-- A byte that continues a character. -/
lemma continues_iff (b : UInt8) : (0x80 ≤ b ∧ b ≤ 0xBF) ↔ 0x80 ≤ b.toNat ∧ b.toNat ≤ 0xBF := by
  simp [UInt8.le_iff_toNat_le]

/-- The bytes of a character are read as the character. -/
theorem piece_of_encode {c : Char} {lead : UInt8} {tail : List UInt8}
    (h : String.utf8EncodeChar c = lead :: tail) (rest : List UInt8) :
    piece lead (tail ++ rest) = (some c, tail.length) := by
  obtain ⟨v, hv, rfl⟩ : ∃ v, (v < 0xD800 ∨ 0xDFFF < v ∧ v < 0x110000) ∧ Char.ofNat v = c :=
    ⟨c.toNat, toNat_char c, Char.ofNat_toNat c⟩
  have htoNat : ∀ {k : ℕ}, k < 256 → (UInt8.ofNat k).toNat = k := by
    intro k hk
    rw [UInt8.toNat_ofNat', Nat.mod_eq_of_lt hk]
  have hlast := htoNat (by omega : v % 64 + 0x80 < 256)
  have hmiddle := htoNat (by omega : v / 64 % 64 + 0x80 < 256)
  rw [encode_ofNat hv] at h
  -- The four cases are the numbers of bytes of a character.  In each of them the lead announces how many bytes
  -- follow, each of these is within its bounds, and together their bits are the code.
  split_ifs at h with h₁ h₂ h₃
  · obtain ⟨rfl, rfl⟩ := List.cons.inj h
    have hlead := htoNat (by omega : v < 256)
    have hlt : UInt8.ofNat v < 0x80 := by
      rw [UInt8.lt_iff_toNat_lt, hlead]
      exact Nat.lt_succ_of_le h₁
    simp [piece, hlt, hlead]
  · obtain ⟨rfl, rfl⟩ := List.cons.inj h
    have hlead := htoNat (by omega : v / 64 + 0xC0 < 256)
    have hannounced : announced (UInt8.ofNat (v / 64 + 0xC0)) = 0 + 2 := by
      rw [announced_eq, hlead]
      split_ifs <;> omega
    have hcode : (v / 64 + 0xC0) % 32 * 64 + (v % 64 + 0x80) % 64 = v := by omega
    rw [piece_eq hannounced, List.cons_append, follow_cons]
    · simp only [follow, leadBits_eq, hlead, hlast, Nat.reduceAdd, Nat.reduceSub, Nat.reducePow]
      rw [hcode]
      rfl
    · rw [secondRange_iff, hlead, hlast]
      omega
  · obtain ⟨rfl, rfl⟩ := List.cons.inj h
    have hlead := htoNat (by omega : v / 4096 + 0xE0 < 256)
    have hannounced : announced (UInt8.ofNat (v / 4096 + 0xE0)) = 1 + 2 := by
      rw [announced_eq, hlead]
      split_ifs <;> omega
    have hcode : ((v / 4096 + 0xE0) % 16 * 64 + (v / 64 % 64 + 0x80) % 64) * 64 + (v % 64 + 0x80) % 64 =
        v := by omega
    rw [piece_eq hannounced, List.cons_append, follow_cons, List.cons_append, follow_cons]
    · simp only [follow, leadBits_eq, hlead, hmiddle, hlast, Nat.reduceAdd, Nat.reduceSub, Nat.reducePow]
      rw [hcode]
      rfl
    · rw [continues_iff, hlast]
      omega
    · rw [secondRange_iff, hlead, hmiddle]
      omega
  · obtain ⟨rfl, rfl⟩ := List.cons.inj h
    have hlead := htoNat (by omega : v / 262144 + 0xF0 < 256)
    have hsecond := htoNat (by omega : v / 4096 % 64 + 0x80 < 256)
    have hannounced : announced (UInt8.ofNat (v / 262144 + 0xF0)) = 2 + 2 := by
      rw [announced_eq, hlead]
      split_ifs <;> omega
    have hcode : (((v / 262144 + 0xF0) % 8 * 64 + (v / 4096 % 64 + 0x80) % 64) * 64 +
        (v / 64 % 64 + 0x80) % 64) * 64 + (v % 64 + 0x80) % 64 = v := by omega
    rw [piece_eq hannounced, List.cons_append, follow_cons, List.cons_append, follow_cons,
      List.cons_append, follow_cons]
    · simp only [follow, leadBits_eq, hlead, hsecond, hmiddle, hlast, Nat.reduceAdd, Nat.reduceSub,
        Nat.reducePow]
      rw [hcode]
      rfl
    · rw [continues_iff, hlast]
      omega
    · rw [continues_iff, hmiddle]
      omega
    · rw [secondRange_iff, hlead, hsecond]
      omega

/-- A piece that is a character consists of the bytes of that character. -/
theorem encode_of_piece {lead : UInt8} {rest : List UInt8} {c : Char} {n : ℕ}
    (h : piece lead rest = (some c, n)) :
    ∃ tail more, rest = tail ++ more ∧ n = tail.length ∧ String.utf8EncodeChar c = lead :: tail := by
  have hbyte : ∀ {b : UInt8} {k : ℕ}, k = b.toNat → UInt8.ofNat k = b := by
    rintro b _ rfl
    exact UInt8.ofNat_toNat
  by_cases hlead : lead < 0x80
  · obtain ⟨rfl, rfl⟩ : Char.ofNat lead.toNat = c ∧ 0 = n := by simpa [piece, hlead] using h
    have hlt : lead.toNat < 128 := UInt8.lt_iff_toNat_lt.mp hlead
    refine ⟨[], rest, rfl, rfl, ?_⟩
    rw [encode_ofNat (.inl (by omega)), if_pos (by omega), UInt8.ofNat_toNat]
  have hannounced := announced_eq lead
  -- The bounds on the second byte are what excludes overlong forms and surrogates.
  split_ifs at hannounced with h₂ h₃ h₄
  · rw [piece_eq hannounced] at h
    obtain ⟨hcode, hn⟩ := Prod.mk.inj h
    obtain ⟨code, hsome, rfl⟩ := Option.map_eq_some_iff.mp hcode
    obtain ⟨b, more, _, rfl, hb, rfl, hdone⟩ := follow_eq_some (Prod.ext hsome hn)
    obtain ⟨hv, rfl⟩ := follow_zero_eq_some hdone
    simp only [leadBits_eq, Nat.reduceAdd, Nat.reduceSub, Nat.reducePow] at hv
    rw [secondRange_iff] at hb
    refine ⟨[b], more, rfl, rfl, ?_⟩
    rw [encode_ofNat (by omega), if_neg (by omega), if_pos (by omega), hbyte (b := lead) (by omega),
      hbyte (b := b) (by omega)]
  · rw [piece_eq hannounced] at h
    obtain ⟨hcode, hn⟩ := Prod.mk.inj h
    obtain ⟨code, hsome, rfl⟩ := Option.map_eq_some_iff.mp hcode
    obtain ⟨b, _, _, rfl, hb, rfl, hmore⟩ := follow_eq_some (Prod.ext hsome hn)
    obtain ⟨d, more, _, rfl, hd, rfl, hdone⟩ := follow_eq_some hmore
    obtain ⟨hv, rfl⟩ := follow_zero_eq_some hdone
    simp only [leadBits_eq, Nat.reduceAdd, Nat.reduceSub, Nat.reducePow] at hv
    rw [secondRange_iff] at hb
    rw [continues_iff] at hd
    refine ⟨[b, d], more, rfl, rfl, ?_⟩
    rw [encode_ofNat (by omega), if_neg (by omega), if_neg (by omega), if_pos (by omega),
      hbyte (b := lead) (by omega), hbyte (b := b) (by omega), hbyte (b := d) (by omega)]
  · rw [piece_eq hannounced] at h
    obtain ⟨hcode, hn⟩ := Prod.mk.inj h
    obtain ⟨code, hsome, rfl⟩ := Option.map_eq_some_iff.mp hcode
    obtain ⟨b, _, _, rfl, hb, rfl, hmore⟩ := follow_eq_some (Prod.ext hsome hn)
    obtain ⟨d, _, _, rfl, hd, rfl, hlast⟩ := follow_eq_some hmore
    obtain ⟨e, more, _, rfl, he, rfl, hdone⟩ := follow_eq_some hlast
    obtain ⟨hv, rfl⟩ := follow_zero_eq_some hdone
    simp only [leadBits_eq, Nat.reduceAdd, Nat.reduceSub, Nat.reducePow] at hv
    rw [secondRange_iff] at hb
    rw [continues_iff] at hd he
    refine ⟨[b, d, e], more, rfl, rfl, ?_⟩
    rw [encode_ofNat (by omega), if_neg (by omega), if_neg (by omega), if_neg (by omega),
      hbyte (b := lead) (by omega), hbyte (b := b) (by omega), hbyte (b := d) (by omega),
      hbyte (b := e) (by omega)]
  · simp [piece, hlead, hannounced] at h

/-- The piece is ill formed exactly when the bytes begin with those of no character. -/
theorem piece_eq_none_iff {lead : UInt8} {rest : List UInt8} :
    (piece lead rest).1 = none ↔ ∀ c, ¬ String.utf8EncodeChar c <+: lead :: rest := by
  constructor
  · rintro hnone c ⟨more, hmore⟩
    cases hc : String.utf8EncodeChar c with
    | nil => exact String.utf8EncodeChar_ne_nil hc
    | cons b tail =>
      rw [hc, List.cons_append] at hmore
      obtain ⟨rfl, rfl⟩ := List.cons.inj hmore
      rw [piece_of_encode hc] at hnone
      cases hnone
  · intro h
    cases hpiece : piece lead rest with
    | mk c? n =>
      cases c? with
      | none => rfl
      | some c =>
        obtain ⟨tail, more, rfl, -, hc⟩ := encode_of_piece hpiece
        exact absurd ⟨more, by rw [hc]; rfl⟩ (h c)

/-! ## Whole texts -/

/-- All pieces are characters exactly when the bytes are those of the characters. -/
lemma pieces_eq_map_some {bytes : List UInt8} {cs : List Char} :
    pieces bytes = cs.map some ↔ bytes = cs.flatMap String.utf8EncodeChar := by
  constructor
  · intro h
    induction cs generalizing bytes with
    | nil =>
      cases bytes with
      | nil => rfl
      | cons lead rest => simp [pieces] at h
    | cons c cs ih =>
      cases bytes with
      | nil => simp [pieces] at h
      | cons lead rest =>
        rw [pieces, List.map_cons] at h
        cases hpiece : piece lead rest with
        | mk c? n =>
          rw [hpiece] at h
          obtain ⟨rfl, hrest⟩ := List.cons.inj h
          obtain ⟨tail, more, rfl, rfl, hc⟩ := encode_of_piece hpiece
          rw [List.drop_left] at hrest
          rw [List.flatMap_cons, hc, ← ih hrest]
          rfl
  · rintro rfl
    induction cs with
    | nil => simp [pieces]
    | cons c cs ih =>
      cases hc : String.utf8EncodeChar c with
      | nil => exact absurd hc String.utf8EncodeChar_ne_nil
      | cons lead tail =>
        rw [List.flatMap_cons, hc, List.cons_append, pieces, piece_of_encode hc]
        simp [ih]

/-- The strict reading of bytes is the text whose bytes they are. -/
theorem decode?_eq_some {bytes : List UInt8} {text : String} :
    decode? bytes = some text ↔ bytes = encode text := by
  have hmapM : ∀ {ps : List (Option Char)} {cs : List Char},
      ps.mapM id = some cs ↔ ps = cs.map some := by
    intro ps
    induction ps with
    | nil => intro cs; cases cs <;> simp
    | cons p ps ih =>
      intro cs
      cases p with
      | none => cases cs <;> simp
      | some c =>
        rw [List.mapM_cons]
        cases cs with
        | nil => simp [Option.bind_eq_some_iff]
        | cons d ds => simp [Option.bind_eq_some_iff, ih, and_comm]
  rw [encode_eq, ← pieces_eq_map_some, ← hmapM]
  unfold decode?
  rw [Option.map_eq_some_iff]
  constructor
  · rintro ⟨cs, hcs, rfl⟩
    rwa [String.toList_ofList]
  · intro h
    exact ⟨_, h, String.ofList_toList⟩

/-- The lossy reading of the bytes of a text is the text. -/
theorem decodeLossy_encode (text : String) : decodeLossy (encode text) = text := by
  have hpieces := pieces_eq_map_some.mpr (encode_eq text)
  unfold decodeLossy
  rw [hpieces, List.map_map]
  simp [Function.comp_def]

/-- A byte below 0x80 is a character of its own. -/
lemma encode_ascii {b : UInt8} (h : b < 0x80) : String.utf8EncodeChar (Char.ofNat b.toNat) = [b] := by
  have hchar : ∀ b : UInt8, b < 0x80 → String.utf8EncodeChar (Char.ofNat b.toNat) = [b] := by
    decide +kernel
  exact hchar b h

/-- A character with an ASCII byte consists of that byte. -/
lemma encode_eq_of_mem {c : Char} {b : UInt8} (hb : b < 0x80) (h : b ∈ String.utf8EncodeChar c) :
    String.utf8EncodeChar c = [b] := by
  obtain ⟨v, hv, rfl⟩ : ∃ v, (v < 0xD800 ∨ 0xDFFF < v ∧ v < 0x110000) ∧ Char.ofNat v = c :=
    ⟨c.toNat, toNat_char c, Char.ofNat_toNat c⟩
  have hhigh : ∀ {k : ℕ}, 0x80 ≤ k → k < 256 → b ≠ UInt8.ofNat k := by
    rintro k hle hlt rfl
    rw [UInt8.lt_iff_toNat_lt, UInt8.toNat_ofNat', Nat.mod_eq_of_lt hlt] at hb
    exact absurd hb (Nat.not_lt.mpr hle)
  rw [encode_ofNat hv] at h ⊢
  -- A character of several bytes has none below 0x80.
  split_ifs at h ⊢ with h₁ h₂ h₃
  · rw [List.mem_singleton.mp h]
  all_goals
    simp only [List.mem_cons, List.not_mem_nil, or_false] at h
  · rcases h with h | h <;> exact absurd h (hhigh (by omega) (by omega))
  · rcases h with h | h | h <;> exact absurd h (hhigh (by omega) (by omega))
  · rcases h with h | h | h | h <;> exact absurd h (hhigh (by omega) (by omega))

/-- A byte below 128 is a character by itself. -/
lemma piece_ascii {b : UInt8} (h : b < 0x80) (rest : List UInt8) :
    piece b rest = (some (Char.ofNat b.toNat), 0) := by
  simp [piece, h]

/-- Bytes below 0x80 are those of the characters of the same numbers. -/
lemma encode_of_ascii {bytes : List UInt8} (h : ∀ b ∈ bytes, b < 0x80) :
    encode (String.ofList (bytes.map fun b => Char.ofNat b.toNat)) = bytes := by
  rw [encode_ofList]
  induction bytes with
  | nil => rfl
  | cons b bytes ih =>
    rw [List.map_cons, List.flatMap_cons, encode_ascii (h b (by simp)), ih fun d hd => h d (by simp [hd])]
    rfl

/-- Bytes below 0x80 are those of a text, which is also what the lossy reading makes of them. -/
theorem encode_decodeLossy {bytes : List UInt8} (h : ∀ b ∈ bytes, b < 0x80) :
    encode (decodeLossy bytes) = bytes := by
  rw [← encode_of_ascii h, decodeLossy_encode]

/-- The characters of a text whose bytes are below 0x80. -/
lemma toList_of_ascii {text : String} (h : ∀ b ∈ encode text, b < 0x80) :
    text.toList = (encode text).map fun b => Char.ofNat b.toNat := by
  have htext := congrArg decodeLossy (encode_of_ascii h)
  rw [decodeLossy_encode, decodeLossy_encode] at htext
  rw [← String.toList_ofList (l := (encode text).map fun b => Char.ofNat b.toNat), htext]

end Scriptlet.Utf8
