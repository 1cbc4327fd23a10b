import Abridge.Batch
import Abridge.Command.Settings
import Abridge.Discovery

/-!
One run of the program on a file tree: it looks for the snippet files, abridges each, and tells the user
line by line what became of them. What a run prints and what it leaves of the tree is a function of its
arguments, its environment and the tree.
-/

namespace Abridge.Command

/-- What a run says: its exit code, the lines it prints, and beside them the text of its journal and of what
    went wrong, whose lines may run into one another. -/
structure Transcript where
  code : Nat
  out : List String := []
  err : Text := []
  deriving DecidableEq, Repr

def line (s : String) : Text := (s ++ "\n").toList

def foundLine (s : Settings) (count : Nat) : String := s!"Found {count} file(s) to process in {s.root.toString}"

def dryRunLine : String := "Dry run: no files will be written"

def summaryLine (r : Batch.Report) : String := s!"✓ Successfully updated {r.updated}/{r.total} files"

def failureLine (r : Batch.Report) : String := s!"✗ {r.failed} file(s) failed"

/-- Runs with these settings, showing events up to a rank. -/
def runSettings (s : Settings) (rank : Nat) (t : Tree) : Transcript × Tree :=
  let begun := journal rank [.configured s.describe]
  match t.discover s.root s.suffix s.recursive with
  | .error e => ({ code := 1, err := begun ++ line s!"Error: {e.message}" }, t)
  | .ok files =>
    let result := Batch.abridgeFiles s.options s.dryRun t files
    let report := result.report
    ({ code := if report.isSuccess then 0 else 1
       out := foundLine s files.length :: (if s.dryRun then [dryRunLine] else []) ++
         report.entries.map Batch.Entry.line ++ ["", summaryLine report]
       err := begun ++ journal rank result.notes ++ (if report.isSuccess then [] else line (failureLine report)) },
      result.state)

def versionLine : String := "simplify_snippet 0.1.0"

def helpLines : List String :=
  ["Strips commentary from Go teaching snippets and truncates them after main()",
    "",
    "Usage: simplify_snippet [OPTIONS] [root]",
    "",
    "Arguments:",
    "  [root]  Directory containing the snippet files (defaults to $SIMPLIFY_ROOT or the current directory)",
    "",
    "Options:",
    "      --suffix <suffix>  Only process files whose name ends with this suffix [default: _detailed.go]",
    "      --recursive        Search subdirectories as well",
    "      --dry-run          Report what would change without writing any file",
    "      --ensure-header    Prepend a package declaration to files that lack one",
    "      --naive            Count every brace, including those inside strings and comments",
    "      --verbose          Enable verbose logging",
    "  -h, --help             Print help",
    "  -V, --version          Print version"]

def Misuse.message : Misuse → String
  | .unknownOption arg => s!"unexpected argument '{arg.toString}' found"
  | .secondRoot arg => s!"unexpected argument '{arg.toString}' found"
  | .repeated name => s!"the argument '--{name}' cannot be used multiple times"
  | .valueMissing name => s!"a value is required for '--{name}' but none was supplied"
  | .valueUnexpected name => s!"unexpected value for '--{name}' found; no more were expected"

def run (args : List Text) (env : Environment) (t : Tree) : Transcript × Tree :=
  match Request.ofArguments args with
  | .version => ({ code := 0, out := [versionLine] }, t)
  | .help => ({ code := 0, out := helpLines }, t)
  | .misuse cause => ({ code := 2, err := line s!"error: {cause.message}" }, t)
  | .run a =>
    let s := Settings.ofArguments a env t.cwd.path
    runSettings s (shownRank env s.verbose) t

end Abridge.Command
