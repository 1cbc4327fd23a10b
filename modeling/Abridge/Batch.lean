import Abridge.Snippet
import Abridge.Tree.Edit

/-!
Working through a list of files. Each is handled on its own: one that fails is reported with its reason
and the next one follows. What is done with a file is a parameter, and a state goes from file to file;
`abridgeFile` is what the program does, with the file tree for the state.
-/

namespace Abridge

namespace Batch

/-! ### One file -/

inductive Change where
  | updated
  | unchanged
  deriving DecidableEq, Repr

/-- Why a file could not be handled. -/
inductive Failure where
  /-- It could not be read. -/
  | unreadable (path : Path) (fault : Fault)
  /-- Another cause, in words: from what was being done down to what went wrong. -/
  | reported (chain : List Text)
  deriving DecidableEq, Repr

def Failure.message : Failure → String
  | .unreadable path fault => s!"Failed to read {path.toString}: {fault.message}"
  | .reported chain => ": ".intercalate (chain.map Text.toString)

/-- The result of handling one file, with what was noted on the way. -/
structure Attempt where
  result : Except Failure Change
  notes : List Event := []

/-- Abridges a file in place; in a dry run nothing is written. -/
def abridgeFile (o : Options) (dryRun : Bool) (t : Tree) (p : Path) : Attempt × Tree :=
  match t.readText p with
  | .error fault => (⟨.error (.unreadable p fault), []⟩, t)
  | .ok text =>
    let abridged := Snippet.abridge o text
    if abridged = text then (⟨.ok .unchanged, Snippet.notes o text ++ [.alreadySimple p]⟩, t)
    else
      (⟨.ok .updated, Snippet.notes o text ++ (if dryRun then [.writeWithheld p] else []) ++
          [.resized p text.byteSize abridged.byteSize]⟩,
        if dryRun then t else t.writeText p abridged)

/-! ### Reports -/

inductive Outcome where
  | updated
  | unchanged
  | failed (reason : String)
  deriving DecidableEq, Repr

/-- A file and what is reported of it. -/
structure Entry where
  path : Path
  outcome : Outcome
  deriving DecidableEq, Repr

def Entry.line (e : Entry) : String :=
  let name := (Path.fileName e.path).toString
  match e.outcome with
  | .updated => s!"✓ Updated: {name}"
  | .unchanged => s!"- Unchanged: {name}"
  | .failed reason => s!"✗ Error: {name}: {reason}"

/-- What is reported of all files, in order. -/
structure Report where
  entries : List Entry
  deriving DecidableEq, Repr

namespace Report

def total (r : Report) : Nat := r.entries.length

def updated (r : Report) : Nat := r.entries.countP (·.outcome = .updated)

def unchanged (r : Report) : Nat := r.entries.countP (·.outcome = .unchanged)

def failed (r : Report) : Nat := r.entries.countP (·.outcome matches .failed _)

def isSuccess (r : Report) : Bool := r.failed = 0

end Report

/-! ### All files -/

def Attempt.outcome (a : Attempt) : Outcome :=
  match a.result with
  | .ok .updated => .updated
  | .ok .unchanged => .unchanged
  | .error e => .failed e.message

/-- What is noted of an attempt: a failure comes last. -/
def Attempt.allNotes (a : Attempt) (p : Path) : List Event :=
  match a.result with
  | .ok _ => a.notes
  | .error e => a.notes ++ [.fileFailed p e.message]

/-- All that a batch leaves behind. -/
structure Result (σ : Type) where
  report : Report
  notes : List Event
  state : σ

/-- Handles file after file. -/
def run {σ : Type} (handle : σ → Path → Attempt × σ) (s : σ) : List Path → Result σ
  | [] => ⟨⟨[]⟩, [], s⟩
  | p :: ps =>
    let (attempt, s') := handle s p
    let later := run handle s' ps
    ⟨⟨⟨p, attempt.outcome⟩ :: later.report.entries⟩, attempt.allNotes p ++ later.notes, later.state⟩

/-- Abridges file after file. -/
def abridgeFiles (o : Options) (dryRun : Bool) (t : Tree) (ps : List Path) : Result Tree :=
  run (abridgeFile o dryRun) t ps

end Batch

end Abridge
