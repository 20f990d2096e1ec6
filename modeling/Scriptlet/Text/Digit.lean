/-!
# Decimal digits

Many scripts have decimal digits of their own.  Each set of them is ten consecutive code points, from
the digit zero upwards, and every digit means the same as the plain one of its value.
-/

namespace Scriptlet.Text

/-- The code points of the digits zero. -/
def zeroDigits : List Nat :=
  [0x30, 0x660, 0x6F0, 0x7C0, 0x966, 0x9E6, 0xA66, 0xAE6, 0xB66, 0xBE6, 0xC66, 0xCE6, 0xD66, 0xDE6,
   0xE50, 0xED0, 0xF20, 0x1040, 0x1090, 0x17E0, 0x1810, 0x1946, 0x19D0, 0x1A80, 0x1A90, 0x1B50, 0x1BB0,
   0x1C40, 0x1C50, 0xA620, 0xA8D0, 0xA900, 0xA9D0, 0xA9F0, 0xAA50, 0xABF0, 0xFF10, 0x104A0, 0x10D30,
   0x11066, 0x110F0, 0x11136, 0x111D0, 0x112F0, 0x11450, 0x114D0, 0x11650, 0x116C0, 0x11730, 0x118E0,
   0x11950, 0x11C50, 0x11D50, 0x11DA0, 0x16A60, 0x16AC0, 0x16B50, 0x1D7CE, 0x1D7D8, 0x1D7E2, 0x1D7EC,
   0x1D7F6, 0x1E140, 0x1E2F0, 0x1E950, 0x1FBF0]

/-- The value of a digit. -/
def digitValue? (c : Char) : Option Nat :=
  (zeroDigits.find? fun z => z ≤ c.toNat && c.toNat < z + 10).map (c.toNat - ·)

/-- Whether a character is a decimal digit of some script. -/
def isDigit (c : Char) : Bool :=
  (digitValue? c).isSome

/-- The plain digit of a digit's value; any other character stays as it is. -/
def plainDigit (c : Char) : Char :=
  match digitValue? c with
  | some value => Char.ofNat ('0'.toNat + value)
  | none => c

/-- The core library's digits are digits here, and plain ones. -/
theorem plainDigit_of_isDigit (c : Char) (h : c.isDigit = true) : plainDigit c = c := by
  have hc : 0x30 ≤ c.toNat ∧ c.toNat ≤ 0x39 := by
    simp only [Char.isDigit, Bool.and_eq_true, decide_eq_true_eq] at h
    exact ⟨UInt32.le_iff_toNat_le.1 h.1, UInt32.le_iff_toNat_le.1 h.2⟩
  have hv : digitValue? c = some (c.toNat - 0x30) := by
    rw [digitValue?, zeroDigits, List.find?_cons_of_pos (by simp; omega)]
    rfl
  have hz : '0'.toNat + (c.toNat - 0x30) = c.toNat := by
    have : '0'.toNat = 0x30 := rfl
    omega
  rw [plainDigit, hv]
  exact (congrArg Char.ofNat hz).trans (Char.ofNat_toNat c)

end Scriptlet.Text
