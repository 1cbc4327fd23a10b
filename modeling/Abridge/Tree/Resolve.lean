import Abridge.Tree.Fault
import Abridge.Tree.Listing

/-!
Where a path leads. One goes from directory to directory, name by name: `.` and an empty name stay, `..`
goes up, and a link is replaced by the steps of its target. A step other than the last one must lead to
a directory, also if what follows is a slash alone. At most forty links are followed, which bounds the
walk; between two links it is a recursion on the steps.
-/

namespace Abridge

/-- The most bytes that a name has. -/
def nameLimit : Nat := 255

/-- The number of bytes from which a path is too long. -/
def pathLimit : Nat := 4096

/-- The most links that are followed on one way. -/
def linkLimit : Nat := 40

/-- Where a path leads. -/
inductive Arrival where
  | directory (place : Place)
  | file (place : Place) (id : FileId)
  /-- The way ends in this directory, in which the first of these names is not there. -/
  | missing (place : Place) (names : List Name)
  | failed (fault : Fault)
  deriving DecidableEq, Repr

/-- How far one gets without following a link. -/
inductive Leg where
  | done (arrival : Arrival)
  /-- At a link in this directory, with these steps still to go behind it. -/
  | link (place : Place) (target : Path) (steps : List Name)
  deriving DecidableEq, Repr

namespace Listing

/-- Takes steps from a directory until a link comes. -/
def advance (top : Listing) : Place → List Name → Leg
  | place, [] => .done (.directory place)
  | place, n :: steps =>
    if n = [] ∨ n = Path.here then top.advance place steps
    else if n = Path.above then top.advance place.dropLast steps
    else if nameLimit < Text.byteSize n then .done (.failed .nameTooLong)
    else match top.at? (place ++ [n]) with
      | none => .done (.missing place (n :: steps))
      | some (.dir _) => top.advance (place ++ [n]) steps
      | some (.file id) =>
        if steps = [] then .done (.file (place ++ [n]) id) else .done (.failed .notDirectory)
      | some (.link target) => .link place target steps

/-- Takes steps from a directory, and follows up to so many links. -/
def follow (top : Listing) : (links : Nat) → Place → List Name → Arrival
  | links, place, steps =>
    match top.advance place steps with
    | .done arrival => arrival
    | .link place target steps =>
      match links with
      | 0 => .failed .tooManyLinks
      | links + 1 =>
        top.follow links (if Path.isAbsolute target then [] else place) (Path.steps target ++ steps)

end Listing

/-- A file tree, seen from a directory in it. -/
structure Tree where
  entries : Listing
  /-- The bytes of each file. -/
  contents : FileId → List Byte := fun _ => []
  cwd : Place := []

namespace Tree

/-- Takes steps from the top of the tree or from the directory one is in. -/
def walk (t : Tree) (fromTop : Bool) (steps : List Name) : Arrival :=
  t.entries.follow linkLimit (if fromTop then [] else t.cwd) steps

/-- Where a path leads. -/
def resolve (t : Tree) (p : Path) : Arrival :=
  if '\x00' ∈ p then .failed .holdsNul
  else if pathLimit ≤ Text.byteSize p then .failed .nameTooLong
  else if p = [] then .failed .notFound
  else t.walk (Path.isAbsolute p) (Path.steps p)

/-- The entries of the directory that a path leads to. -/
def listing? (t : Tree) (p : Path) : Option Listing :=
  match t.resolve p with
  | .directory place =>
    match t.entries.at? place with
    | some (.dir entries) => some entries
    | _ => none
  | _ => none

/-- The bytes of the file that a path leads to. -/
def readBytes (t : Tree) (p : Path) : Except Fault (List Byte) :=
  match t.resolve p with
  | .file _ id => .ok (t.contents id)
  | .directory _ => .error .isDirectory
  | .missing _ _ => .error .notFound
  | .failed fault => .error fault

/-- The text of the file that a path leads to. -/
def readText (t : Tree) (p : Path) : Except Fault Text :=
  match t.readBytes p with
  | .error fault => .error fault
  | .ok content =>
    match Text.ofBytes? content with
    | some text => .ok text
    | none => .error .notText

end Tree

end Abridge
