import Abridge.Text.Basic

/-!
The UTF-8 form of a text. Offsets into a document count its bytes; `takeBytes` cuts a text at such an
offset and never splits a character. Reading accepts exactly the byte sequences that writing produces.
-/

namespace Abridge

/-- A byte of a document or of a file. -/
abbrev Byte := UInt8

namespace Text

/-- The bytes of a text. -/
def bytes (t : Text) : List Byte := t.flatMap String.utf8EncodeChar

/-- The number of bytes of a text. -/
def byteSize (t : Text) : Nat := t.foldr (fun c n => c.utf8Size + n) 0

/-- The text with the given bytes, if they are UTF-8. -/
def ofBytes? (bs : List Byte) : Option Text := bs.toByteArray.utf8Decode?.map Array.toList

/-- The longest start of a text that fits in `n` bytes. -/
def takeBytes : Nat → Text → Text
  | _, [] => []
  | n, c :: t => if c.utf8Size ≤ n then c :: takeBytes (n - c.utf8Size) t else []

@[simp]
theorem bytes_nil : bytes [] = [] := rfl

@[simp]
theorem bytes_cons (c : Char) (t : Text) : bytes (c :: t) = String.utf8EncodeChar c ++ bytes t := rfl

@[simp]
theorem bytes_append (s t : Text) : bytes (s ++ t) = bytes s ++ bytes t := List.flatMap_append

@[simp]
theorem byteSize_nil : byteSize [] = 0 := rfl

@[simp]
theorem byteSize_cons (c : Char) (t : Text) : byteSize (c :: t) = c.utf8Size + byteSize t := rfl

@[simp]
theorem byteSize_append (s t : Text) : byteSize (s ++ t) = byteSize s + byteSize t := by
  induction s with
  | nil => simp
  | cons c s ih => rw [List.cons_append, byteSize_cons, ih, byteSize_cons, Nat.add_assoc]

theorem length_bytes (t : Text) : (bytes t).length = byteSize t := by
  induction t with
  | nil => rfl
  | cons c t ih => simp [ih]

/-- What was written reads back. -/
theorem ofBytes?_bytes (t : Text) : ofBytes? (bytes t) = some t := by
  have h : (bytes t).toByteArray.utf8Decode? = some t.toArray := List.utf8Decode?_utf8Encode
  simp [ofBytes?, h]

/-- A start of a text is what fits in its own number of bytes. -/
theorem takeBytes_append (s t : Text) (n : Nat) : takeBytes (byteSize s + n) (s ++ t) = s ++ takeBytes n t := by
  induction s with
  | nil => simp
  | cons c s ih =>
    have hle : c.utf8Size ≤ c.utf8Size + byteSize s + n := by omega
    have hsub : c.utf8Size + byteSize s + n - c.utf8Size = byteSize s + n := by omega
    rw [byteSize_cons, List.cons_append, takeBytes, if_pos hle, hsub, ih, List.cons_append]

end Text

end Abridge
