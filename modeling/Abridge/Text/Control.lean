import Abridge.Text.Bytes

/-!
Control sequences: what a text says to a terminal and not to its reader. A sequence begins with ESC, and the
character behind it says of what kind the sequence is and so where it ends. `Text.readable` is the text
without its sequences and without the control characters that are no blanks.

A blank in a sequence that is still open is shown all the same, and with it the text that follows, up to the
next control character; there the sequence goes on. A character beyond ASCII in that text closes it.
-/

namespace Abridge

namespace Control

/-- Starts a sequence, and breaks off one that is open. -/
def escape : Char := '\x1b'

/-- Rings, and ends a command. -/
def bell : Char := '\x07'

/-- Whether a character breaks off a sequence. -/
def breaks (c : Char) : Bool := c = '\x18' || c = '\x1a'

/-- The byte that ends a string. It may stand alone as a control character or inside the bytes of another. -/
def terminator : Byte := 0x9C

/-- Whether the character lies between the two, which it may equal. -/
def isBetween (first last c : Char) : Bool := first ≤ c && c ≤ last

/-- Whether a control character is shown nonetheless. -/
def isLayout (c : Char) : Bool := c = '\t' || c = '\n' || c = '\x0c' || c = '\r'

/-- Whether a character is shown where no sequence is open. -/
def isReadable (c : Char) : Bool := (' ' ≤ c && c ≠ '\x7f') || isLayout c

/-- How far a sequence has come. -/
inductive Sequence where
  /-- Behind ESC. -/
  | escape
  /-- Behind ESC and marks, which one more character ends. -/
  | designation
  /-- Behind ESC and `[`: parameters up to a letter. -/
  | control
  /-- Behind ESC and `P`: the head of a string for the device. -/
  | deviceHead
  /-- In the parameters of such a head. -/
  | deviceParameters
  /-- In the marks of such a head. -/
  | deviceMarks
  /-- In a string that goes up to its terminator. -/
  | string
  /-- Behind ESC and `]`: a command up to a bell. -/
  | command
  deriving DecidableEq, Repr

/-- What one is reading. -/
inductive State where
  | text
  /-- A sequence that is open. -/
  | within (s : Sequence)
  /-- The text behind a blank in a sequence that is open. -/
  | paused (s : Sequence)
  deriving DecidableEq, Repr

namespace Sequence

/-- The state behind one more character of a sequence that does not break it off. -/
def goOn (s : Sequence) (c : Char) : State :=
  match s with
  | .escape =>
    if isBetween ' ' '/' c then .within .designation
    else if c = '[' then .within .control
    else if c = ']' then .within .command
    else if c = 'P' then .within .deviceHead
    else if c = 'X' || c = '^' || c = '_' then .within .string
    else if isBetween '0' '~' c then .text
    else .within s
  | .designation => if isBetween '0' '~' c then .text else .within s
  | .control => if isBetween '@' '~' c then .text else .within s
  | .deviceHead =>
    if isBetween ' ' '/' c then .within .deviceMarks
    else if isBetween '0' '?' c then .within .deviceParameters
    else if isBetween '@' '~' c then .within .string
    else .within s
  | .deviceParameters =>
    if isBetween ' ' '/' c then .within .deviceMarks
    else if isBetween '<' '~' c then .within .string
    else .within s
  | .deviceMarks => if isBetween '0' '~' c then .within .string else .within s
  | .string => if (Text.bytes [c]).contains terminator then .text else .within s
  | .command => if c = bell then .text else .within s

/-- The state behind one more character of a sequence. -/
def next (s : Sequence) (c : Char) : State :=
  if c = Control.escape then .within .escape
  else if breaks c then .text
  else s.goOn c

/-- Whether a control character in the sequence still does its work, so that blanks are shown. -/
def letsThrough : Sequence → Bool
  | .escape | .designation | .control => true
  | _ => false

end Sequence

/-- Whether a character is shown, and the state behind it. -/
def step : State → Char → Bool × State
  | .text, c => (isReadable c, if c = escape then .within .escape else .text)
  | .within s, c => if s.letsThrough && isLayout c then (true, .paused s) else (false, s.next c)
  | .paused s, c =>
    if isReadable c then (true, if c.toNat < 0x80 then .paused s else .text) else (false, s.next c)

/-- What is shown of a text, read from this state on. -/
def readableFrom : State → Text → Text
  | _, [] => []
  | s, c :: t => if (step s c).1 then c :: readableFrom (step s c).2 t else readableFrom (step s c).2 t

end Control

namespace Text

/-- The text without its control sequences and without the control characters that are no blanks. -/
def readable (t : Text) : Text := Control.readableFrom .text t

end Text

end Abridge
