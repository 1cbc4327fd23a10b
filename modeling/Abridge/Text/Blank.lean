import Abridge.Text.Basic

/-!
Blank characters: the `White_Space` property of Unicode, 25 characters in ten ranges. A zero width
space (U+200B), a byte order mark (U+FEFF) and the separators U+001C to U+001F are not blank.
-/

namespace Abridge

/-- The first and last code point of each range of the property, in order. -/
def blankRanges : List (Nat × Nat) :=
  [(0x09, 0x0D), (0x20, 0x20), (0x85, 0x85), (0xA0, 0xA0), (0x1680, 0x1680), (0x2000, 0x200A), (0x2028, 0x2029),
    (0x202F, 0x202F), (0x205F, 0x205F), (0x3000, 0x3000)]

/-- Whether a character is blank. -/
def isBlank (c : Char) : Bool := blankRanges.any fun r => r.1 ≤ c.toNat && c.toNat ≤ r.2

example : (blankRanges.map fun r => r.2 + 1 - r.1).sum = 25 := by decide

namespace Text

/-- The text without the blanks it starts with. -/
def trimStart (t : Text) : Text := t.dropWhile isBlank

/-- Whether the text holds blanks only; the empty text does. -/
def isBlankLine (t : Text) : Bool := t.all isBlank

@[simp]
theorem isBlankLine_nil : isBlankLine [] = true := rfl

theorem trimStart_eq_nil_iff {t : Text} : t.trimStart = [] ↔ t.isBlankLine = true := by
  induction t with
  | nil => simp [trimStart]
  | cons c t ih =>
    simp only [trimStart, isBlankLine] at ih
    by_cases h : isBlank c = true <;> simp [trimStart, isBlankLine, h, ih]

end Text

end Abridge
