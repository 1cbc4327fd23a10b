import Abridge.Text.Basic

/-!
The fixed words of a teaching snippet in Go: the marks that open and close its comments, the header of
its entry function, its package labels, and the phrases and glyphs that mark commentary. None of them
can be configured.
-/

namespace Abridge

/-! ### Code -/

/-- The declaration of the entry function, with its opening brace. -/
def entryHeader : Text := ['f', 'u', 'n', 'c', ' ', 'm', 'a', 'i', 'n', '(', ')', ' ', '{']

/-- What a function declaration starts with. -/
def functionWord : Text := ['f', 'u', 'n', 'c', ' ']

/-- Opens a comment that may run over several lines. -/
def commentOpen : Text := ['/', '*']

/-- Closes a comment that `commentOpen` opened. -/
def commentClose : Text := ['*', '/']

/-- Opens a comment that ends with its line. -/
def lineComment : Text := ['/', '/']

/-! ### Packages -/

/-- What a package declaration starts with. -/
def packageWord : Text := ['p', 'a', 'c', 'k', 'a', 'g', 'e']

/-- The label of a package as the snippet comes. -/
def sourceLabel : Text := ['m', 'a', 'i', 'n']

/-- The label that an abridged snippet gets. -/
def targetLabel : Text := ['i', 'n', 't', 'e', 'r', 'm', 'e', 'd', 'i', 'a', 't', 'e']

/-! ### Commentary -/

/-- Each opens a section that is skipped up to the next function declaration. -/
def sectionPhrases : List Text :=
  [['K', 'E', 'Y', ' ', 'T', 'A', 'K', 'E', 'A', 'W', 'A', 'Y', 'S'],
    ['C', 'O', 'M', 'P', 'R', 'E', 'H', 'E', 'N', 'S', 'I', 'V', 'E', ' ', 'G', 'U', 'I', 'D', 'E']]

/-- A comment block that holds one of these goes, however short it is. -/
def verbosePhrases : List Text := [['D', 'E', 'E', 'P', ' ', 'D', 'I', 'V', 'E']]

/-- Marks the heading of a worked example. -/
def exampleWord : Text := ['E', 'x', 'a', 'm', 'p', 'l', 'e']

/-- A comment block of this many lines or more goes. -/
def commentLimit : Nat := 4

/-- The least length of a separator line. -/
def separatorLength : Nat := 30

/-- The box-drawing characters that frame a heading. -/
def boxGlyphs : List Char := ['╔', '╗', '╚', '╝', '║', '═', '╞', '╡', '╤', '╪', '╟', '╢']

/-! ### Files -/

/-- How the names of snippet files end, unless the user says otherwise. -/
def defaultSuffix : Text := ['_', 'd', 'e', 't', 'a', 'i', 'l', 'e', 'd', '.', 'g', 'o']

end Abridge
