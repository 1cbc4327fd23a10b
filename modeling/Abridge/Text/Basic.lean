/-!
Texts are lists of characters, so that every pass over a document is a recursion on its data. A line
is a text of its own. This file holds the search for one text in another.
-/

namespace Abridge

/-- A document, or a piece of one. -/
abbrev Text := List Char

/-- What stands between two newlines of a document. -/
abbrev Line := Text

namespace Text

/-- The characters as a string, for printing. -/
def toString (t : Text) : String := String.ofList t

/-- Whether `part` occurs somewhere in the text. -/
def contains : Text → Text → Bool
  | [], part => part.isEmpty
  | c :: t, part => part.isPrefixOf (c :: t) || contains t part

theorem contains_iff {t part : Text} : t.contains part = true ↔ part <:+: t := by
  induction t with
  | nil => simp [contains]
  | cons c t ih => simp [contains, ih, List.infix_cons_iff]

/-- Whether the text ends in `part`. -/
def endsIn (t part : Text) : Bool := part.isSuffixOf t

end Text

end Abridge
