import Abridge.Noise.Glyph
import Abridge.Text.Blank

/-!
Which single lines are noise. A rule is a name and a test; the first rule of a table that drops a line
decides, so a new kind of decoration is one more row. This file also holds the two tests by which a
section banner is told: its edges and its title.
-/

namespace Abridge.Noise

/-- A named reason to drop a line. -/
structure Rule where
  /-- The name in the journal. -/
  name : String
  /-- The lines that go. -/
  drops : Line → Bool

def isSeparatorChar (c : Char) : Bool := ['/', '=', '_', '-'].contains c || isBlank c

/-- A line of separator characters alone, and of no fewer than `separatorLength` of them. -/
def isSeparator (l : Line) : Bool := separatorLength ≤ l.length && l.all isSeparatorChar

/-- The line above or below the title of a section banner is a separator. -/
def isBannerEdge (l : Line) : Bool := isSeparator l

/-- A banner's title is a line comment that starts with a capital letter (A to Z). -/
def isBannerTitle (l : Line) : Bool :=
  match lineComment.isPrefixOf? l.trimStart with
  | some rest => (Text.trimStart rest).head?.any Char.isUpper
  | none => false

/-- The heading of an example, unless the line declares a function too. -/
def isExampleHeading (l : Line) : Bool := l.contains exampleWord && !l.contains functionWord

namespace Rule

def separator : Rule := ⟨"separator-run", isSeparator⟩

def glyphRun : Rule := ⟨"box-drawing-run", hasGlyphRun⟩

def exampleHeading : Rule := ⟨"verbose-example-header", isExampleHeading⟩

def table : List Rule := [separator, glyphRun, exampleHeading]

/-- The first rule of a table that drops the line. -/
def first? (rules : List Rule) (l : Line) : Option Rule := rules.find? (·.drops l)

theorem first?_eq_none_iff {rules : List Rule} {l : Line} :
    first? rules l = none ↔ ∀ r ∈ rules, r.drops l = false := by
  simp [first?, List.find?_eq_none]

end Rule

end Abridge.Noise
