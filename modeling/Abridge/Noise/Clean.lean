import Abridge.Noise.Filter
import Abridge.Text.Lines

/-!
Cleaning a document of noise: the filter drops lines, then runs of glyphs go from what is left, then the
gaps close up. Three blank lines or more in a row become one empty line, and one or two stay as they are.
-/

namespace Abridge.Noise

/-! ### Runs of blank lines -/

/-- The length from which a run of blank lines is too long. -/
def blankRunLimit : Nat := 3

/-- What stays of a whole run of blank lines. -/
def shortened (run : List Line) : List Line := if blankRunLimit ≤ run.length then [[]] else run

/-- The lines with their runs shortened, read after the blank lines `run`. -/
def collapseAfter (run : List Line) : List Line → List Line
  | [] => shortened run
  | l :: ls => if l.isBlankLine then collapseAfter (run ++ [l]) ls else shortened run ++ l :: collapseAfter [] ls

/-- The lines with each long run of blank ones replaced by an empty line. -/
def collapseLines (ls : List Line) : List Line := collapseAfter [] ls

/-- The document with each long run of blank lines replaced by an empty line. -/
def collapse (t : Text) : Text := .ofLines (collapseLines t.lines)

/-! ### Clean documents -/

/-- The document without its noise. -/
def clean (t : Text) : Text := collapse (stripGlyphs (.ofLines (keptLines Rule.table t.lines)))

def cleanNotes (t : Text) : List Event := Filter.runNotes Rule.table {} t.lines

end Abridge.Noise
