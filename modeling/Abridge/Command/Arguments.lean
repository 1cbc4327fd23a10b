import Abridge.Text.Basic

/-!
The arguments of the command line: at most one search root, the option `--suffix` with a value and five
flags, each at most once and in any order. An argument that starts with a dash is an option, except a
dash alone; after `--` none is. Arguments are read from the left, and the first one that asks for help or
for the version, or cannot be read, decides.
-/

namespace Abridge.Command

/-! ### What can be said -/

/-- An option without a value. -/
inductive Flag where
  | recursive
  | dryRun
  | ensureHeader
  | naive
  | verbose
  deriving DecidableEq, Repr

namespace Flag

def all : List Flag := [recursive, dryRun, ensureHeader, naive, verbose]

def name : Flag → String
  | recursive => "recursive"
  | dryRun => "dry-run"
  | ensureHeader => "ensure-header"
  | naive => "naive"
  | verbose => "verbose"

end Flag

/-- What was given on the command line. -/
structure Arguments where
  root : Option Text := none
  suffix : Option Text := none
  flags : List Flag := []
  deriving DecidableEq, Repr

inductive Misuse where
  | unknownOption (arg : Text)
  | secondRoot (arg : Text)
  | repeated (name : String)
  | valueMissing (name : String)
  | valueUnexpected (name : String)
  deriving DecidableEq, Repr

/-- What the user asks for. -/
inductive Request where
  | run (arguments : Arguments)
  | version
  | help
  | misuse (cause : Misuse)
  deriving DecidableEq, Repr

namespace Arguments

def withRoot (a : Arguments) (root : Text) : Except Misuse Arguments :=
  if a.root.isSome then .error (.secondRoot root) else .ok { a with root := some root }

def withSuffix (a : Arguments) (suffix : Text) : Except Misuse Arguments :=
  if a.suffix.isSome then .error (.repeated "suffix") else .ok { a with suffix := some suffix }

def withFlag (a : Arguments) (flag : Flag) : Except Misuse Arguments :=
  if flag ∈ a.flags then .error (.repeated flag.name) else .ok { a with flags := flag :: a.flags }

end Arguments

/-! ### Single arguments -/

/-- What a single argument says. -/
inductive Word where
  /-- The arguments behind it are no options. -/
  | endOfOptions
  /-- The suffix, with its value if that is attached. -/
  | suffix (value : Option Text)
  | flag (flag : Flag)
  | version
  | help
  /-- It is no option. -/
  | plain
  | unreadable (cause : Misuse)

namespace Word

/-- The word of an option that takes no value. -/
def alone (name : String) (value : Option Text) (w : Word) : Word :=
  if value.isSome then .unreadable (.valueUnexpected name) else w

/-- The word of a long option. -/
def ofLong (arg : Text) (name : String) (value : Option Text) : Word :=
  if name = "suffix" then .suffix value
  else if name = "version" then alone name value .version
  else if name = "help" then alone name value .help
  else match Flag.all.find? (·.name = name) with
    | some f => alone name value (.flag f)
    | none => .unreadable (.unknownOption arg)

/-- The value that is attached to a long option, by the first equals sign. -/
def attached? (option : Text) : Option Text :=
  match option.dropWhile (· ≠ '=') with
  | [] => none
  | _ :: value => some value

/-- What an argument says. Of short options the first letter decides. -/
def ofArgument : Text → Word
  | ['-', '-'] => .endOfOptions
  | '-' :: '-' :: option =>
    ofLong ('-' :: '-' :: option) (String.ofList (option.takeWhile (· ≠ '='))) (attached? option)
  | ['-'] => .plain
  | '-' :: 'V' :: _ => .version
  | '-' :: 'h' :: _ => .help
  | '-' :: option => .unreadable (.unknownOption ('-' :: option))
  | _ => .plain

end Word

/-- Whether an argument serves as the value of the option before it. -/
def isValue (arg : Text) : Bool := arg.head? ≠ some '-' || arg = ['-']

/-! ### All arguments -/

namespace Request

/-- Goes on from the arguments that could be read. -/
def after (a : Except Misuse Arguments) (next : Arguments → Request) : Request :=
  match a with
  | .ok a => next a
  | .error cause => .misuse cause

def readRoots (a : Arguments) : List Text → Request
  | [] => .run a
  | arg :: rest => after (a.withRoot arg) fun a => readRoots a rest

/-- Reads arguments, with those in `a` before them. -/
def read (a : Arguments) : List Text → Request
  | [] => .run a
  | arg :: rest =>
    match Word.ofArgument arg, rest with
    | .endOfOptions, rest => readRoots a rest
    | .version, _ => .version
    | .help, _ => .help
    | .unreadable cause, _ => .misuse cause
    | .plain, rest => after (a.withRoot arg) fun a => read a rest
    | .flag f, rest => after (a.withFlag f) fun a => read a rest
    | .suffix (some value), rest => after (a.withSuffix value) fun a => read a rest
    | .suffix none, [] => .misuse (.valueMissing "suffix")
    | .suffix none, value :: rest =>
      if isValue value then after (a.withSuffix value) fun a => read a rest
      else .misuse (.valueMissing "suffix")

def ofArguments (args : List Text) : Request := read {} args

end Request

end Abridge.Command
