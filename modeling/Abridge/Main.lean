import Abridge.Command.Run

/-!
The program. It takes the part of the file tree that a run looks at, hands it to `Command.run`, writes the
files that the run changed and prints what it says. Links below the search root are left out, since no
search follows them, and so are files that no search wants; links on the way to the root are kept.

A directory that may not be read is taken for an empty one, so that it is passed over. A file that may not be
read is taken for one that is no text, so that it is reported as failed; the reason in the report is then the
text's and not the disk's. Which names are names of one file the disk is not asked, so each comes with a file of
its own.
-/

namespace Abridge.Main

def placeOf (path : String) : Place := Path.movingSteps path.toList

/-- The bytes of a file, or bytes that are no text if it may not be read. -/
def loadBytes (path : String) : IO (List Byte) := do
  try return (← IO.FS.readBinFile path).toList catch _ => return [0xFF]

/-- Takes a directory, with the files in it that a run may want, into the tree. -/
partial def load (s : Command.Settings) (t : Tree) (path : String) : IO Tree := do
  let mut t := t.makeDirectory path.toList
  let entries ← try (← IO.FS.realPath path).readDir catch _ => pure #[]
  for e in entries do
    let place := placeOf e.path.toString
    let type ← try pure (some (← e.path.symlinkMetadata).type) catch _ => pure none
    match type with
    | some .dir => if s.recursive then t ← load s t e.path.toString
    | some .file => if wanted s.suffix true place then t := t.makeFile place (← loadBytes e.path.toString)
    | _ => pure ()
  return t

/-- Takes the links on the way to the search root into the tree, and then the directory that it leads to. -/
def loadRoot (s : Command.Settings) (t : Tree) : IO Tree := do
  let mut t := t
  let mut path := if Path.isAbsolute s.root then "/" else t.cwd.path.toString
  for n in Path.movingSteps s.root do
    let next := path ++ "/" ++ String.ofList n
    let real ← try pure (some (← IO.FS.realPath next).toString) catch _ => pure none
    match real with
    | none => return t
    | some real =>
      if n ≠ Path.above && placeOf real ≠ placeOf next then t := t.putAt (placeOf next) (.link real.toList)
      path := real
  if ← (← IO.FS.realPath path).isDir then load s t path else return t

def store (before after : Tree) : IO Unit := do
  for (place, id) in after.entries.files do
    if before.contents id ≠ after.contents id then
      IO.FS.writeBinFile place.path.toString (after.contents id).toByteArray

def run (args : List Text) : IO UInt32 := do
  let searchRoot := (← IO.getEnv "SIMPLIFY_ROOT").map fun s => Text.bytes s.toList
  let env : Command.Environment := { searchRoot, logLevel := (← IO.getEnv "RUST_LOG").map String.toList }
  let cwd ← IO.FS.realPath (← IO.currentDir)
  let bare : Tree := { entries := .empty, cwd := placeOf cwd.toString }
  let tree ← match Command.Request.ofArguments args with
    | .run a => loadRoot (.ofArguments a env bare.cwd.path) (bare.makeDirectory bare.cwd.path)
    | _ => pure bare
  let (said, after) := Command.run args env tree
  store tree after
  for line in said.out do IO.println line
  IO.eprint said.err.toString
  return said.code.toUInt32

end Abridge.Main

def main (args : List String) : IO UInt32 := Abridge.Main.run (args.map String.toList)
