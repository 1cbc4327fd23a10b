import Abridge.Text.Blank
import Abridge.Text.Lines
import Abridge.Vocabulary

/-!
Package declarations and their labels. A declaration starts a line with the word `package`, spaces or
tabs and a label; behind the label the line holds spaces, tabs and carriage returns at most. A label is
taken as it is, so it may hold blanks or newlines of its own: the longest gap before it that works is
the one, and what looks like a declaration within another is not read again.

A document that starts with the word `package` is left without a new declaration. Any other gets one and an
empty line in front, in place of the blank lines it starts with.
-/

namespace Abridge.Package

/-! ### Relabelling -/

/-- What stands between the word and the label. -/
def isGap (c : Char) : Bool := c = ' ' || c = '\t'

/-- What may follow the label. -/
def isTail (c : Char) : Bool := isGap c || c = '\r'

/-- A declaration that was read: its length, and what follows the label on its line. -/
structure Declaration where
  length : Nat
  tail : Text
  deriving DecidableEq, Repr

/-- What follows a label, if nothing else is left on the line. -/
def tail? (t : Text) : Option Text :=
  match t.dropWhile isTail with
  | [] => some (t.takeWhile isTail)
  | c :: _ => if c = '\n' then some (t.takeWhile isTail) else none

/-- Reads a gap, the label and a tail. -/
def labelled? (label : Text) : Text → Option Declaration
  | [] => none
  | c :: t =>
    if isGap c then
      match labelled? label t with
      | some d => some { d with length := d.length + 1 }
      | none => do
        let tail ← tail? (← label.isPrefixOf? t)
        return ⟨1 + label.length + tail.length, tail⟩
    else none

/-- Reads the declaration of a label. -/
def declaration? (label t : Text) : Option Declaration := do
  let d ← labelled? label (← packageWord.isPrefixOf? t)
  return { d with length := packageWord.length + d.length }

/-- The text with its declarations relabelled, after passing over `skip` characters; `fresh` says that a
    line starts here. -/
def relabelFrom (source target : Text) : (skip : Nat) → (fresh : Bool) → Text → Text
  | _, _, [] => []
  | skip + 1, _, c :: t => relabelFrom source target skip (c = '\n') t
  | 0, fresh, c :: t =>
    match if fresh then declaration? source (c :: t) else none with
    | some d => packageWord ++ ' ' :: target ++ d.tail ++ relabelFrom source target (d.length - 1) (c = '\n') t
    | none => c :: relabelFrom source target 0 (c = '\n') t

/-- The text with `target` in place of the label `source` in each of its declarations. -/
def relabel (source target t : Text) : Text := relabelFrom source target 0 true t

/-! ### A new declaration -/

/-- The lines from the first that is not blank; the last line stays in any case. -/
def dropBlankLines : List Line → List Line
  | l :: m :: ls => if l.isBlankLine then dropBlankLines (m :: ls) else l :: m :: ls
  | ls => ls

/-- The document with a declaration of the label, unless it starts with the word already. -/
def ensureHeader (label t : Text) : Text :=
  if packageWord.isPrefixOf t then t
  else packageWord ++ ' ' :: label ++ '\n' :: '\n' :: Text.ofLines (dropBlankLines t.lines)

end Abridge.Package
