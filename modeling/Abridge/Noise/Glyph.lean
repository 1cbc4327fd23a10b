import Abridge.Vocabulary

/-!
Box-drawing characters. Two or more of them in a row are decoration and go, wherever they stand; one
on its own stays. A glyph belongs to such a run just if one of its two neighbours is a glyph too, so
one look behind and one ahead decide.
-/

namespace Abridge.Noise

def isGlyph (c : Char) : Bool := boxGlyphs.contains c

/-- Whether two glyphs stand side by side. -/
def hasGlyphRun : Text → Bool
  | a :: b :: t => (isGlyph a && isGlyph b) || hasGlyphRun (b :: t)
  | _ => false

/-- The text without its runs of glyphs, read after a glyph or after another character. -/
def stripGlyphsAfter (afterGlyph : Bool) : Text → Text
  | [] => []
  | c :: t =>
    if isGlyph c && (afterGlyph || t.head?.any isGlyph) then stripGlyphsAfter true t
    else c :: stripGlyphsAfter (isGlyph c) t

def stripGlyphs (t : Text) : Text := stripGlyphsAfter false t

/-- Nothing is put in and nothing changes place. -/
theorem stripGlyphsAfter_sublist (b : Bool) (t : Text) : (stripGlyphsAfter b t).Sublist t := by
  induction t generalizing b with
  | nil => exact List.Sublist.refl _
  | cons c t ih =>
    rw [stripGlyphsAfter]
    split
    · exact (ih _).cons _
    · exact (ih _).cons_cons _

theorem stripGlyphs_sublist (t : Text) : (stripGlyphs t).Sublist t := stripGlyphsAfter_sublist false t

end Abridge.Noise
