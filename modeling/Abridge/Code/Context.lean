import Abridge.Text.Bytes

/-!
Telling code from comments and literals. Each byte of a document has one context. A pair of bytes that
opens or closes a comment, or that a backslash begins, is read as one, so reading is either within a
context or at the second byte of a pair. All marks are ASCII, so bytes are as good as characters.

A string or rune literal that does not close ends before the newline; a block comment or raw string
that does not close runs to the end.
-/

namespace Abridge.Code

/-! ### Marks -/

namespace Mark

def newline : Byte := 0x0A
def doubleQuote : Byte := 0x22
def singleQuote : Byte := 0x27
def star : Byte := 0x2A
def slash : Byte := 0x2F
def backslash : Byte := 0x5C
def backquote : Byte := 0x60
def openBrace : Byte := 0x7B
def closeBrace : Byte := 0x7D

end Mark

/-! ### Contexts -/

/-- What a byte is part of. -/
inductive Context where
  | code
  | lineComment
  | blockComment
  | stringLiteral
  | runeLiteral
  | rawString
  deriving DecidableEq, Repr

/-- How the bytes to come are read. -/
inductive Mode where
  /-- One by one, within a context. -/
  | within (c : Context)
  /-- The next byte is the second of a pair in context `c`; the bytes from there on are within `after`. -/
  | second (c after : Context)
  deriving DecidableEq, Repr

/-- A byte of a string or rune literal: an escape takes the next byte with it, unless that is a newline. -/
def stepQuoted (c : Context) (quote b : Byte) (next : Option Byte) : Context × Mode :=
  if b = Mark.backslash ∧ next.any (· ≠ Mark.newline) then (c, .second c c)
  else if b = Mark.newline then (.code, .within .code)
  else if b = quote then (c, .within .code)
  else (c, .within c)

/-- The context of a byte, from the byte after it too, and how the bytes to come are read. -/
def Mode.step (b : Byte) (next : Option Byte) : Mode → Context × Mode
  | .second c after => (c, .within after)
  | .within .code =>
    if b = Mark.slash ∧ next = some Mark.slash then (.lineComment, .second .lineComment .lineComment)
    else if b = Mark.slash ∧ next = some Mark.star then (.blockComment, .second .blockComment .blockComment)
    else if b = Mark.doubleQuote then (.stringLiteral, .within .stringLiteral)
    else if b = Mark.singleQuote then (.runeLiteral, .within .runeLiteral)
    else if b = Mark.backquote then (.rawString, .within .rawString)
    else (.code, .within .code)
  | .within .lineComment => if b = Mark.newline then (.code, .within .code) else (.lineComment, .within .lineComment)
  | .within .blockComment =>
    if b = Mark.star ∧ next = some Mark.slash then (.blockComment, .second .blockComment .code)
    else (.blockComment, .within .blockComment)
  | .within .stringLiteral => stepQuoted .stringLiteral Mark.doubleQuote b next
  | .within .runeLiteral => stepQuoted .runeLiteral Mark.singleQuote b next
  | .within .rawString => if b = Mark.backquote then (.rawString, .within .code) else (.rawString, .within .rawString)

def contextsFrom : Mode → List Byte → List Context
  | _, [] => []
  | m, b :: bs => (m.step b bs.head?).1 :: contextsFrom (m.step b bs.head?).2 bs

def contexts (t : Text) : List Context := contextsFrom (.within .code) t.bytes

theorem length_contextsFrom (m : Mode) (bs : List Byte) : (contextsFrom m bs).length = bs.length := by
  induction bs generalizing m with
  | nil => rfl
  | cons b bs ih => simp [contextsFrom, ih]

theorem length_contexts (t : Text) : (contexts t).length = t.byteSize := by
  rw [contexts, length_contextsFrom, Text.length_bytes]

end Abridge.Code
