import Abridge.Tree.Resolve

/-!
Changing a tree. Whoever writes through a link writes what it leads to; a link that is made or removed
is the link itself. What is written to a file shows under all its names. Directories that are missing on the
way are made.
-/

namespace Abridge

namespace Tree

/-- Puts a node at a place; the top of the tree stays what it is. -/
def putAt (t : Tree) (p : Place) (x : Node) : Tree :=
  match p with
  | [] => t
  | n :: q => { t with entries := t.entries.put x n q }

/-- Takes away what is at a place; the top of the tree stays. -/
def eraseAt (t : Tree) (p : Place) : Tree :=
  match p with
  | [] => t
  | n :: q => { t with entries := t.entries.erase n q }

/-- The names of missing directories that are to be made. -/
def newNames (names : List Name) : List Name := names.filter fun n => n ≠ [] && n ≠ Path.here && n ≠ Path.above

/-- The tree with these bytes in a file. -/
def setContent (t : Tree) (id : FileId) (content : List Byte) : Tree :=
  { t with contents := fun other => if other = id then content else t.contents other }

/-- The tree with a new file at a place. -/
def makeFile (t : Tree) (p : Place) (content : List Byte) : Tree :=
  (t.putAt p (.file t.entries.unusedId)).setContent t.entries.unusedId content

/-- The tree with these bytes in the file that the path leads to. -/
def writeBytes (t : Tree) (p : Path) (content : List Byte) : Tree :=
  match t.resolve p with
  | .file _ id => t.setContent id content
  | .missing place names => t.makeFile (place ++ newNames names) content
  | _ => t

/-- The tree with this text in the file that the path leads to. -/
def writeText (t : Tree) (p : Path) (text : Text) : Tree := t.writeBytes p text.bytes

/-- The tree with a directory at the path. -/
def makeDirectory (t : Tree) (p : Path) : Tree :=
  match t.resolve p with
  | .missing place names => t.putAt (place ++ newNames names) (.dir .empty)
  | _ => t

/-- The place that a path names, whatever is there: only the way to it follows links. -/
def entryPlace? (t : Tree) (p : Path) : Option Place :=
  match (Path.movingSteps p).getLast? with
  | none => none
  | some n =>
    match t.walk (Path.isAbsolute p) (Path.movingSteps p).dropLast with
    | .directory place => some (place ++ [n])
    | .missing place names => some (place ++ newNames names ++ [n])
    | _ => none

/-- The tree with a link at the path, in place of what is there. -/
def makeLink (t : Tree) (p target : Path) : Tree :=
  match t.entryPlace? p with
  | some place => t.putAt place (.link target)
  | none => t

/-- The tree without what is at the path. -/
def remove (t : Tree) (p : Path) : Tree :=
  match t.entryPlace? p with
  | some place => t.eraseAt place
  | none => t

end Tree

end Abridge
