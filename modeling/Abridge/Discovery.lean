import Abridge.Tree.Resolve

/-!
Finding the snippet files under a directory: the files, not the links, whose name ends as wanted, each
with the path to it from the directory as the user named it. They come in the order of their names,
directory by directory. A directory whose path is too long for the system is passed over in silence; a file
whose path is too long is found, and fails when it is read. A file with two names is found under each of them.
Since every directory of a tree may be read and every name is a text, nothing else is passed over.
-/

namespace Abridge

/-- The search started at what is no directory. -/
structure NoSearchRoot where
  root : Path
  deriving DecidableEq, Repr

def NoSearchRoot.message (e : NoSearchRoot) : String := s!"Search root {e.root.toString} is not a directory"

/-- Whether a file is wanted: its name ends in the suffix, and it stands in the directory itself or
    subdirectories are searched too. -/
def wanted (suffix : Text) (recursive : Bool) (p : Place) : Bool :=
  (recursive || p.length = 1) && p.getLast?.any (Text.endsIn · suffix)

/-- The places of the wanted files of a directory, in order. -/
def Listing.search (l : Listing) (suffix : Text) (recursive : Bool) : List Place :=
  ((l.files.map (·.1)).filter (wanted suffix recursive)).mergeSort Place.precedes

/-- Whether the search comes by a place under `root`: the directory in which it stands has a path that is short
    enough, and so have the directories above, whose paths are shorter. -/
def withinReach (root : Path) (p : Place) : Bool := Text.byteSize (Path.extend root p.dropLast) < pathLimit

/-- The paths of the wanted files under `root`, in order. -/
def Tree.discover (t : Tree) (root : Path) (suffix : Text) (recursive : Bool) : Except NoSearchRoot (List Path) :=
  match t.listing? root with
  | some entries => .ok (((entries.search suffix recursive).filter (withinReach root)).map (Path.extend root))
  | none => .error ⟨root⟩

end Abridge
