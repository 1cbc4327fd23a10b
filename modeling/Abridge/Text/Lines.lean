import Abridge.Text.Basic

/-!
Lines of a document. A newline separates two lines, so a document has one line more than it has
newlines, the empty document included. Documents and non-empty lists of lines without newlines are in
correspondence: joining the lines of a document gives it back, and the other way round.
-/

namespace Abridge

namespace Text

/-- The lines of a document. -/
def lines (t : Text) : List Line := t.splitOn '\n'

/-- The document with the given lines; without a line it is empty. -/
def ofLines (ls : List Line) : Text := ['\n'].intercalate ls

theorem lines_ne_nil (t : Text) : t.lines ≠ [] := List.splitOn_ne_nil _ _

@[simp]
theorem lines_nil : lines [] = [[]] := rfl

theorem lines_append_newline (s t : Text) : lines (s ++ '\n' :: t) = lines s ++ lines t :=
  List.splitOn_append_cons_self s t

/-- Joining the lines of a document gives it back. -/
@[simp]
theorem ofLines_lines (t : Text) : ofLines t.lines = t := List.intercalate_splitOn '\n'

/-- A document has the lines that it was made of. -/
theorem lines_ofLines {ls : List Line} (hls : ls ≠ []) (h : ∀ l ∈ ls, '\n' ∉ l) : lines (ofLines ls) = ls :=
  List.splitOn_intercalate '\n' h hls

/-- No line holds a newline. -/
theorem not_mem_of_mem_lines {t : Text} : ∀ l ∈ t.lines, '\n' ∉ l := by
  induction t with
  | nil => simp
  | cons c t ih =>
    have hcons := List.splitOn_cons_eq_if_modifyHead (a := '\n') c t
    simp only [lines] at ih ⊢
    rw [hcons]
    split
    · simpa using ih
    · rename_i hc
      obtain ⟨l, ls, ht⟩ := List.exists_cons_of_ne_nil (List.splitOn_ne_nil '\n' t)
      rw [ht] at ih ⊢
      simp only [List.modifyHead_cons, List.mem_cons, forall_eq_or_imp, not_or] at ih ⊢
      exact ⟨⟨fun h => hc (by simp [← h]), ih.1⟩, ih.2⟩

end Text

end Abridge
