/-!
# White space

White space is the set of code points that Unicode counts as space, line or paragraph separators, with
the control characters that separate lines, segments and fields.
-/

namespace Scriptlet.Text

/-- The blank code points, as inclusive ranges. -/
def blankRanges : List (Nat × Nat) :=
  [(0x09, 0x0D), (0x1C, 0x20), (0x85, 0x85), (0xA0, 0xA0), (0x1680, 0x1680), (0x2000, 0x200A),
   (0x2028, 0x2029), (0x202F, 0x202F), (0x205F, 0x205F), (0x3000, 0x3000)]

/-- Whether a character is white space. -/
def isBlank (c : Char) : Bool :=
  blankRanges.any fun r => r.1 ≤ c.toNat && c.toNat ≤ r.2

/-- Every character of the core library's white space is blank here. -/
theorem isBlank_of_isWhitespace (c : Char) (h : c.isWhitespace = true) : isBlank c = true := by
  simp only [Char.isWhitespace, Bool.or_eq_true, decide_eq_true_eq] at h
  rcases h with ((rfl | rfl) | rfl) | rfl <;> decide

/-- A list of characters without those of a class at its two ends. -/
def strip (inClass : Char → Bool) (cs : List Char) : List Char :=
  ((cs.dropWhile inClass).reverse.dropWhile inClass).reverse

/-- A list of characters without the blanks at its two ends. -/
def trim (cs : List Char) : List Char :=
  strip isBlank cs

end Scriptlet.Text
