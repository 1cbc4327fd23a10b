/-!
Why a file cannot be read, and how that is worded.
-/

namespace Abridge

/-- Why a path does not lead to a text. -/
inductive Fault where
  /-- A name on the way is not there. -/
  | notFound
  /-- The path goes on behind a file. -/
  | notDirectory
  /-- The path leads to a directory. -/
  | isDirectory
  /-- A name, or the path, is longer than the system allows. -/
  | nameTooLong
  /-- The way passes through more links than the system follows. -/
  | tooManyLinks
  /-- The path holds a NUL character, which no file name may. -/
  | holdsNul
  /-- The bytes of the file are not UTF-8. -/
  | notText
  deriving DecidableEq, Repr

namespace Fault

/-- The wording of a fault. -/
def message : Fault → String
  | .notFound => "No such file or directory (os error 2)"
  | .notDirectory => "Not a directory (os error 20)"
  | .isDirectory => "Is a directory (os error 21)"
  | .nameTooLong => "File name too long (os error 36)"
  | .tooManyLinks => "Too many levels of symbolic links (os error 40)"
  | .holdsNul => "file name contained an unexpected NUL byte"
  | .notText => "stream did not contain valid UTF-8"

end Fault

end Abridge
