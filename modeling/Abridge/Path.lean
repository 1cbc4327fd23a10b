import Abridge.Text.Bytes

/-!
Paths as the user writes them, and places as the file tree knows them. A path is a text of names with
slashes between them, absolute or not; it may pass through `.` and `..`, through links and through
slashes without a name. A place is the plain list of names from the top of the tree.

A name is a text. Names whose bytes are not UTF-8 are left out, though a disk may have them: no search wants a
file with such a name, but it would go down into a directory with one.
-/

namespace Abridge

abbrev Name := Text

abbrev Path := Text

/-- The names from the top of the tree down to a file, a link or a directory. -/
abbrev Place := List Name

namespace Path

def here : Name := ['.']

def above : Name := ['.', '.']

/-- What stands between the slashes, empty names included. -/
def steps (p : Path) : List Name := p.splitOn '/'

/-- The path starts at the top of the tree. -/
def isAbsolute (p : Path) : Bool := p.head? = some '/'

/-- Two paths in a row. An absolute one stands for itself, and a slash that is there already serves. -/
def join (base p : Path) : Path :=
  if isAbsolute p then p
  else if base = [] || base.getLast? = some '/' then base ++ p
  else base ++ '/' :: p

/-- The path to a place that is seen from `base`. -/
def extend (base : Path) (names : Place) : Path := names.foldl join base

/-- The steps that lead anywhere. -/
def movingSteps (p : Path) : List Name := p.steps.filter fun n => n ≠ [] && n ≠ here

/-- The last name of a path; empty if there is none, as in `a/..`. -/
def fileName (p : Path) : Name :=
  match p.movingSteps.getLast? with
  | some n => if n = above then [] else n
  | none => []

end Path

namespace Place

/-- The absolute path to a place. -/
def path (p : Place) : Path := '/' :: ['/'].intercalate p

/-- Places in the order of their names, each compared by its bytes. -/
def precedes (p q : Place) : Bool := p.map Text.bytes ≤ q.map Text.bytes

end Place

end Abridge
