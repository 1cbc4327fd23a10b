import Abridge.Path

/-!
What a directory holds: files, symbolic links with the path they lead to, and further directories. A file is
given by its number, under which the tree has its bytes, so that two names can be names of one file. A
listing gives its entries one after the other, so that a walk over a whole tree is one recursion. The first
entry of a name is the one that counts, and no other should have that name.

All files and directories may be read and written. Those that may not are left out, and so is what is neither
file, link nor directory.
-/

namespace Abridge

/-- What tells one file from another. Two names with the same number, in one directory or in two, are names of
    one file. -/
abbrev FileId := Nat

/-- The entries of a directory. -/
inductive Listing where
  | empty
  | file (name : Name) (id : FileId) (rest : Listing)
  | link (name : Name) (target : Path) (rest : Listing)
  | dir (name : Name) (entries rest : Listing)
  deriving DecidableEq, Repr

/-- What a name stands for. -/
inductive Node where
  | file (id : FileId)
  | link (target : Path)
  | dir (entries : Listing)
  deriving DecidableEq, Repr

namespace Listing

/-- The names of the entries. -/
def names : Listing → List Name
  | .empty => []
  | .file n _ rest | .link n _ rest | .dir n _ rest => n :: names rest

/-- No name stands twice in the same directory. -/
def Distinct : Listing → Prop
  | .empty => True
  | .file n _ rest | .link n _ rest => n ∉ rest.names ∧ rest.Distinct
  | .dir n entries rest => n ∉ rest.names ∧ entries.Distinct ∧ rest.Distinct

/-! ### Reading -/

/-- The entry of a name. -/
def find? : Listing → Name → Option Node
  | .empty, _ => none
  | .file n id rest, m => if n = m then some (.file id) else rest.find? m
  | .link n target rest, m => if n = m then some (.link target) else rest.find? m
  | .dir n entries rest, m => if n = m then some (.dir entries) else rest.find? m

/-- What is at a place. -/
def at? (l : Listing) : Place → Option Node
  | [] => some (.dir l)
  | n :: p =>
    match l.find? n with
    | some (.dir entries) => entries.at? p
    | some x => if p = [] then some x else none
    | none => none

/-- All files with their places, those of subdirectories included. Links are passed over. -/
def files : Listing → List (Place × FileId)
  | .empty => []
  | .file n id rest => ([n], id) :: rest.files
  | .link _ _ rest => rest.files
  | .dir n entries rest => entries.files.map (fun f => (n :: f.1, f.2)) ++ rest.files

/-- A number that no file of the listing has. -/
def unusedId : Listing → FileId
  | .empty => 0
  | .file _ id rest => max (id + 1) rest.unusedId
  | .link _ _ rest => rest.unusedId
  | .dir _ entries rest => max entries.unusedId rest.unusedId

/-! ### Writing -/

/-- The listing with one entry more. -/
def entry (n : Name) : Node → Listing → Listing
  | .file id, rest => .file n id rest
  | .link target, rest => .link n target rest
  | .dir entries, rest => .dir n entries rest

/-- The listing with one entry more: the node, at the end of a chain of new directories. -/
def chain (x : Node) : Name → Place → Listing → Listing
  | n, [], rest => entry n x rest
  | n, m :: p, rest => .dir n (chain x m p .empty) rest

/-- Puts a node at a place, in place of what is there. Directories on the way are made as needed. -/
def put (x : Node) : Listing → Name → Place → Listing
  | .empty, n, p => chain x n p .empty
  | .file m id rest, n, p => if m = n then chain x n p rest else .file m id (rest.put x n p)
  | .link m target rest, n, p => if m = n then chain x n p rest else .link m target (rest.put x n p)
  | .dir m entries rest, n, p =>
    if m = n then
      match p with
      | [] => entry n x rest
      | k :: q => .dir m (entries.put x k q) rest
    else .dir m entries (rest.put x n p)

/-- Takes away what is at a place, with all that is in it. -/
def erase : Listing → Name → Place → Listing
  | .empty, _, _ => .empty
  | .file m id rest, n, p => if m = n ∧ p = [] then rest else .file m id (rest.erase n p)
  | .link m target rest, n, p => if m = n ∧ p = [] then rest else .link m target (rest.erase n p)
  | .dir m entries rest, n, p =>
    if m = n then
      match p with
      | [] => rest
      | k :: q => .dir m (entries.erase k q) rest
    else .dir m entries (rest.erase n p)

end Listing

end Abridge
