import Abridge.Package.Clause
import Abridge.Proofs.Noise.BlankRuns
import Abridge.Proofs.Text.Lines

/-! Putting a declaration in front. Only blanks make way for it (`dropBlankLines_split`), and with the empty
    line behind it there is still no long run of blank lines (`not_hasBlankRun_header`). -/

namespace Abridge.Package

/-- A new declaration of the label. -/
def headerLine (label : Text) : Line := packageWord ++ ' ' :: label

variable {label t : Text}

theorem ensureHeader_eq_self (h : packageWord <+: t) : ensureHeader label t = t := by
  rw [ensureHeader, if_pos (List.isPrefixOf_iff_prefix.mpr h)]

theorem ensureHeader_of_not_start (h : ¬packageWord <+: t) :
    ensureHeader label t = headerLine label ++ '\n' :: '\n' :: Text.ofLines (dropBlankLines t.lines) := by
  rw [ensureHeader, if_neg fun hp => h (List.isPrefixOf_iff_prefix.mp hp)]
  simp [headerLine]

theorem prefix_ensureHeader (label t : Text) : packageWord <+: ensureHeader label t := by
  by_cases h : packageWord <+: t
  · rwa [ensureHeader_eq_self h]
  · rw [ensureHeader_of_not_start h, headerLine, List.append_assoc]
    exact List.prefix_append _ _

/-! ### Blank lines in front -/

theorem dropBlankLines_suffix (ls : List Line) : dropBlankLines ls <:+ ls := by
  fun_induction dropBlankLines ls with
  | case1 l m ls hl ih => exact ih.trans (List.suffix_cons _ _)
  | case2 l m ls hl => exact List.suffix_refl _
  | case3 ls h => exact List.suffix_refl _

theorem dropBlankLines_ne_nil {ls : List Line} (h : ls ≠ []) : dropBlankLines ls ≠ [] := by
  fun_induction dropBlankLines ls with
  | case1 l m ls hl ih => exact ih (List.cons_ne_nil _ _)
  | case2 l m ls hl => exact List.cons_ne_nil _ _
  | case3 ls h => assumption

/-- What is left starts with a line that is not blank, or is the last line. -/
theorem dropBlankLines_cases (ls : List Line) :
    (∃ l ks, dropBlankLines ls = l :: ks ∧ l.isBlankLine = false) ∨ (dropBlankLines ls).length ≤ 1 := by
  fun_induction dropBlankLines ls with
  | case1 l m ls hl ih => exact ih
  | case2 l m ls hl => exact Or.inl ⟨l, m :: ls, rfl, by simpa using hl⟩
  | case3 ls h =>
    refine Or.inr ?_
    match ls, h with
    | [], _ => exact Nat.zero_le 1
    | [l], _ => exact Nat.le_refl 1
    | l :: m :: ls, h => exact absurd rfl (h l m ls)

theorem dropBlankLines_split (ls : List Line) :
    ∃ blanks : Text, Text.ofLines ls = blanks ++ Text.ofLines (dropBlankLines ls) ∧ blanks.isBlankLine = true := by
  fun_induction dropBlankLines ls with
  | case1 l m ls hl ih =>
    obtain ⟨blanks, heq, hblank⟩ := ih
    have hnewline : isBlank '\n' = true := by decide
    refine ⟨l ++ '\n' :: blanks, ?_, by simp [hl, hblank, hnewline]⟩
    rw [Text.ofLines_cons l (by simp), heq]
    simp
  | case2 l m ls hl => exact ⟨[], rfl, rfl⟩
  | case3 ls h => exact ⟨[], rfl, rfl⟩

/-! ### The new lines -/

theorem isBlankLine_headerLine (label : Text) : (headerLine label).isBlankLine = false :=
  Text.isBlankLine_eq_false_of_mem (c := 'p') (by simp [headerLine, packageWord]) (by decide)

theorem lines_ensureHeader (hl : '\n' ∉ label) (h : ¬packageWord <+: t) :
    (ensureHeader label t).lines = headerLine label :: [] :: dropBlankLines t.lines := by
  have hne : dropBlankLines t.lines ≠ [] := dropBlankLines_ne_nil (Text.lines_ne_nil t)
  have hjoin : ensureHeader label t = .ofLines (headerLine label :: [] :: dropBlankLines t.lines) := by
    rw [ensureHeader_of_not_start h, Text.ofLines_cons _ (by simp), Text.ofLines_cons _ hne]
    rfl
  rw [hjoin, Text.lines_ofLines (by simp)]
  rintro l (_ | ⟨_, _ | ⟨_, hmem⟩⟩)
  · simpa [headerLine, packageWord] using hl
  · simp
  · exact Text.not_mem_of_mem_lines l ((dropBlankLines_suffix t.lines).subset hmem)

/-- The empty line behind the declaration makes no run of blank lines too long. -/
theorem not_hasBlankRun_header {ls : List Line} (h : ¬Noise.HasBlankRun ls) :
    ¬Noise.HasBlankRun (headerLine label :: [] :: dropBlankLines ls) := by
  have hrest : ¬Noise.HasBlankRun (dropBlankLines ls) := fun hr => h (hr.of_part (dropBlankLines_suffix ls).isInfix)
  rw [Noise.hasBlankRun_cons _ (isBlankLine_headerLine label)]
  rcases dropBlankLines_cases ls with ⟨l, ks, heq, hl⟩ | hlen
  · rw [heq] at hrest ⊢
    rw [Noise.hasBlankRun_cons _ hl] at hrest
    rw [← List.singleton_append, Noise.hasBlankRun_append_cons _ _ hl]
    rintro (hone | hks)
    · exact absurd (Noise.length_of_hasBlankRun hone) (by decide)
    · exact hrest hks
  · intro hr
    have hle := Noise.length_of_hasBlankRun hr
    rw [List.length_cons, Noise.blankRunLimit] at hle
    omega

end Abridge.Package
