import Abridge.Proofs.Code.Search
import Mathlib.Data.List.Intervals

/-! Offsets into a document. What the search sees at an offset is told by the byte and the context there
    (`getElem?_marked`), and what it sees from one offset up to another is counted by them (`countP_drop_take`).
    Where it finds a header, it ends as the braces behind that header have it (`scan_of_first?`). -/

namespace Abridge.Code

/-- The search sees the byte at the offset: it sees all of them, or this one is code. -/
def Relevant (s : Strategy) (t : Text) (i : Nat) : Prop := s = .naive ∨ (contexts t)[i]? = some .code

instance (s : Strategy) (t : Text) : DecidablePred (Relevant s t) := fun _ => inferInstanceAs (Decidable (_ ∨ _))

/-- How often the search sees a byte from one offset up to another. -/
def countSeen (s : Strategy) (t : Text) (b : Byte) (i j : Nat) : Nat :=
  (List.Ico i j).countP fun k => Relevant s t k ∧ t.bytes[k]? = some b

/-- Where the header begins that the search finds. -/
def Scan.first? : Scan → Option Nat
  | .notFound => none
  | .unterminated first => some first
  | .closed block => some block.first

variable {s : Strategy} {header t : Text}

/-! ### Bytes -/

theorem getElem?_marked (s : Strategy) (t : Text) (i : Nat) :
    (marked s t)[i]? = t.bytes[i]?.map fun b => ⟨b, decide (Relevant s t i)⟩ := by
  cases s with
  | naive => simp [marked, Relevant]
  | lexical =>
    have hlen : (contexts t).length = t.bytes.length := length_contextsFrom _ _
    rw [marked, List.getElem?_zipWith']
    by_cases hi : i < t.bytes.length
    · rw [List.getElem?_eq_getElem hi, List.getElem?_eq_getElem (hlen ▸ hi)]
      simp [Relevant, List.getElem?_eq_getElem (hlen ▸ hi)]
    · simp [List.getElem?_eq_none (Nat.le_of_not_lt hi)]

/-- Bytes that are counted from an offset on are counted at their offsets. -/
theorem countP_drop_take (p : MarkedByte → Bool) (ms : List MarkedByte) (i n : Nat) :
    ((ms.drop i).take n).countP p = (List.Ico i (i + n)).countP fun k => ms[k]?.any p := by
  induction n generalizing i with
  | zero => simp
  | succ n ih =>
    have hsplit : List.Ico i (i + (n + 1)) = i :: List.Ico (i + 1) (i + 1 + n) := by
      rw [List.Ico.eq_cons (by omega), Nat.add_right_comm, Nat.add_assoc i n 1]
    rw [hsplit, List.countP_cons, ← ih]
    by_cases hi : i < ms.length
    · rw [List.drop_eq_getElem_cons hi, List.take_succ_cons, List.countP_cons, List.getElem?_eq_getElem hi]
      rfl
    · have hle : ms.length ≤ i := Nat.le_of_not_lt hi
      simp [List.drop_eq_nil_of_le hle, List.drop_eq_nil_of_le (Nat.le_succ_of_le hle), List.getElem?_eq_none hle]

/-! ### Findings -/

theorem bytes_ne_nil (hne : header ≠ []) : header.bytes ≠ [] := fun h =>
  hne (Text.bytes_injective (h.trans Text.bytes_nil.symm))

theorem first?_scan (hne : header ≠ []) (s : Strategy) (t : Text) :
    (scan s header t).first? = headerFrom? header.bytes 0 0 (marked s t) := by
  rw [scan, search, if_neg (bytes_ne_nil hne)]
  split
  case h_1 hfirst => exact hfirst.symm
  case h_2 first hfirst =>
    rw [hfirst]
    split <;> rfl

theorem scan_of_first? {first : Nat} (h : (scan s header t).first? = some first) :
    scan s header t =
      (closeFrom? 0 (first + header.byteSize) ((marked s t).drop (first + header.byteSize))).elim (.unterminated first)
        fun last => .closed ⟨first, last⟩ := by
  have hne : header ≠ [] := by
    rintro rfl
    cases h
  rw [first?_scan hne] at h
  rw [scan, search, if_neg (bytes_ne_nil hne), h, Text.length_bytes]
  dsimp only
  split <;> simp [*]

end Abridge.Code
