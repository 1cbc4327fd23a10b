import Abridge.Code.Context
import Abridge.Journal

/-!
The block that a header opens, up to the brace that closes it. The search sees either all bytes or only
those of code; what it does not see neither starts a header nor counts as a brace. Places where the
header occurs are tried from the left, and the next one is looked for behind the last one tried.
-/

namespace Abridge.Code

/-- Which bytes the search sees. -/
inductive Strategy where
  /-- Only those of code. -/
  | lexical
  /-- All. -/
  | naive
  deriving DecidableEq, Repr

structure MarkedByte where
  byte : Byte
  seen : Bool
  deriving DecidableEq, Repr

/-- The bytes of a document as the search sees them. -/
def marked (s : Strategy) (t : Text) : List MarkedByte :=
  match s with
  | .naive => t.bytes.map fun b => ⟨b, true⟩
  | .lexical => List.zipWith (fun b c => ⟨b, c = Context.code⟩) t.bytes (contexts t)

theorem length_marked (s : Strategy) (t : Text) : (marked s t).length = t.byteSize := by
  cases s <;> simp [marked, length_contexts, Text.length_bytes]

/-- A block in bytes: where its header begins and where the brace that closes it stands. -/
structure Block where
  first : Nat
  last : Nat
  deriving DecidableEq, Repr

/-- What the search for a block finds. -/
inductive Scan where
  /-- There is no such header. -/
  | notFound
  /-- The header begins at that byte, but its block never closes. -/
  | unterminated (first : Nat)
  | closed (block : Block)
  deriving DecidableEq, Repr

def beginsWith : List Byte → List MarkedByte → Bool
  | [], _ => true
  | _ :: _, [] => false
  | h :: hs, m :: ms => h = m.byte && beginsWith hs ms

/-- Where the first header begins that the search sees, after passing over `skip` bytes at `offset`. -/
def headerFrom? (header : List Byte) : (skip offset : Nat) → List MarkedByte → Option Nat
  | _, _, [] => none
  | skip + 1, offset, _ :: ms => headerFrom? header skip (offset + 1) ms
  | 0, offset, m :: ms =>
    if beginsWith header (m :: ms) then
      if m.seen then some offset else headerFrom? header (header.length - 1) (offset + 1) ms
    else headerFrom? header 0 (offset + 1) ms

/-- Where the brace stands that closes `depth` open blocks and one more, from `offset` on. -/
def closeFrom? : (depth offset : Nat) → List MarkedByte → Option Nat
  | _, _, [] => none
  | depth, offset, m :: ms =>
    if m.seen && m.byte = Mark.openBrace then closeFrom? (depth + 1) (offset + 1) ms
    else if m.seen && m.byte = Mark.closeBrace then
      match depth with
      | 0 => some offset
      | depth + 1 => closeFrom? depth (offset + 1) ms
    else closeFrom? depth (offset + 1) ms

/-- The block that a header opens. The header holds the opening brace; an empty one is nowhere. -/
def search (header : List Byte) (ms : List MarkedByte) : Scan :=
  if header = [] then .notFound
  else match headerFrom? header 0 0 ms with
    | none => .notFound
    | some first =>
      match closeFrom? 0 (first + header.length) (ms.drop (first + header.length)) with
      | none => .unterminated first
      | some last => .closed ⟨first, last⟩

/-- The block that the header opens in a document. -/
def scan (s : Strategy) (header t : Text) : Scan := search header.bytes (marked s t)

/-- The document up to the end of the block; all of it when there is no such block. -/
def cut (s : Strategy) (header t : Text) : Text :=
  match scan s header t with
  | .closed block => t.takeBytes (block.last + 1)
  | _ => t

def cutNotes (s : Strategy) (header t : Text) : List Event :=
  match scan s header t with
  | .notFound => [.headerMissing header]
  | .unterminated first => [.blockUnclosed first]
  | .closed _ => []

end Abridge.Code
