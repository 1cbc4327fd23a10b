import Abridge.Command.Arguments
import Abridge.Journal
import Abridge.Path
import Abridge.Snippet
import Abridge.Text.Control
import Abridge.Text.Quoted
import Abridge.Vocabulary

/-!
The settings of a run, from its arguments and its environment. An argument for the search root comes
first, then the environment, then the working directory. The environment also says which events are
shown; without its word these are warnings, or with `--verbose` all but traces.
-/

namespace Abridge.Command

/-- What a run finds in its environment. -/
structure Environment where
  /-- The search root, in bytes as they were set. -/
  searchRoot : Option (List Byte) := none
  /-- The least level of the events to show. -/
  logLevel : Option Text := none
  deriving DecidableEq, Repr

structure Settings where
  root : Path
  suffix : Text
  recursive : Bool
  dryRun : Bool
  verbose : Bool
  options : Options
  deriving DecidableEq, Repr

/-- Where to search. An environment whose word is empty or no text says nothing. -/
def chooseRoot (argument : Option Path) (environment : Option (List Byte)) (cwd : Path) : Path :=
  match argument with
  | some root => root
  | none =>
    match environment.bind Text.ofBytes? with
    | none | some [] => cwd
    | some root => root

namespace Settings

def ofArguments (a : Arguments) (env : Environment) (cwd : Path) : Settings where
  root := chooseRoot a.root env.searchRoot cwd
  suffix := a.suffix.getD defaultSuffix
  recursive := a.flags.contains .recursive
  dryRun := a.flags.contains .dryRun
  verbose := a.flags.contains .verbose
  options := {
    strategy := if a.flags.contains .naive then .naive else .lexical
    ensureHeader := a.flags.contains .ensureHeader }

def describe (s : Settings) : String :=
  let root := (Text.quoted s.root).toString
  let suffix := (Text.quoted s.suffix).toString
  let strategy := match s.options.strategy with
    | .lexical => "Lexical"
    | .naive => "Naive"
  s!"AppConfig \x7b root: {root}, suffix: {suffix}, recursive: {s.recursive}, dry_run: {s.dryRun}, " ++
    s!"verbose: {s.verbose}, options: SimplifyOptions \x7b strategy: {strategy}, " ++
    s!"ensure_header: {s.options.ensureHeader} \x7d \x7d"

end Settings

/-! ### Which events are shown -/

/-- The highest rank that a word of the environment lets pass; letters of either case will do, an empty
    word lets errors pass and an unknown one nothing. -/
def rankOfWord (word : Text) : Nat :=
  match String.ofList (word.map Char.toLower) with
  | "" | "error" => Level.error.rank
  | "warn" => Level.warn.rank
  | "info" => Level.info.rank
  | "debug" => Level.debug.rank
  | "trace" => Level.trace.rank
  | _ => 0

/-- The highest rank of the events that are shown. -/
def shownRank (env : Environment) (verbose : Bool) : Nat :=
  match env.logLevel with
  | some word => rankOfWord word
  | none => if verbose then Level.debug.rank else Level.warn.rank

/-- A message with its further lines set in by four blanks. -/
def indented (message : String) : String := message.replace "\n" "\n    "

/-- The line that shows an event, its end included; names of levels take five places. -/
def eventLine (e : Event) : String :=
  let level := String.ofList (List.rightpad 5 ' ' e.level.name.toList)
  s!"[{level} {e.topic}] {indented e.message}\n"

/-- The journal of those events that are shown. Each line goes to the terminal without control sequences, and
    one that is still open where the line ends takes the end with it. -/
def journal (rank : Nat) (es : List Event) : Text :=
  (es.filter (·.level.rank ≤ rank)).flatMap fun e => Text.readable (eventLine e).toList

end Abridge.Command
