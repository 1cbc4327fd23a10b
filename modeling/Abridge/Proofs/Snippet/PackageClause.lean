import Abridge.Proofs.Snippet.Guarantees

/-! Which snippets get a package declaration. The header goes in front of every snippet that does not start with the
    word `package`. These are not quite the snippets without a declaration: one that declares its package further
    down gets a second declaration, and one that only starts with the word gets none (`header_misplaced`). -/

namespace Abridge.Snippet
open Package

/-! ### Declarations -/

/-- The line declares a package: the word, a gap and a label, which starts with a character that is not blank. -/
def IsPackageClause (l : Line) : Prop :=
  ∃ gap c rest, gap ≠ [] ∧ (∀ b ∈ gap, isGap b = true) ∧ isBlank c = false ∧ l = packageWord ++ gap ++ c :: rest

/-- Some line of the document declares a package. -/
def HasPackageClause (t : Text) : Prop := ∃ l ∈ t.lines, IsPackageClause l

theorem isPackageClause_headerLine : IsPackageClause (headerLine targetLabel) :=
  ⟨[' '], 'i', ['n', 't', 'e', 'r', 'm', 'e', 'd', 'i', 'a', 't', 'e'], by simp,
    List.forall_mem_singleton.mpr rfl, by decide, rfl⟩

/-- The document starts with the declaration of the new label and an empty line. -/
def StartsWithHeader (t : Text) : Prop := [headerLine targetLabel, []] <+: t.lines

theorem StartsWithHeader.hasPackageClause {t : Text} (h : StartsWithHeader t) : HasPackageClause t :=
  ⟨headerLine targetLabel, h.subset List.mem_cons_self, isPackageClause_headerLine⟩

/-! ### With a header and without -/

theorem abridge_with_header (s : Code.Strategy) (t : Text) :
    abridge ⟨s, true⟩ t = ensureHeader targetLabel (abridge ⟨s, false⟩ t) := rfl

theorem startsWithHeader_ensureHeader {t : Text} (h : ¬packageWord <+: t) :
    StartsWithHeader (ensureHeader targetLabel t) := by
  rw [StartsWithHeader, lines_ensureHeader (by decide) h]
  exact ⟨dropBlankLines t.lines, rfl⟩

theorem ensureHeader_eq_self_iff {t : Text} : ensureHeader targetLabel t = t ↔ packageWord <+: t := by
  constructor
  · intro h
    rw [← h]
    exact prefix_ensureHeader targetLabel t
  · exact ensureHeader_eq_self

/-- A snippet is left alone if it starts with the word, and gets a header otherwise. So a header is given to exactly
    the snippets without a declaration just where starting with the word and having one come to the same. -/
theorem ensureHeader_decision (s : Code.Strategy) (t : Text) :
    let plain := abridge ⟨s, false⟩ t
    let out := abridge ⟨s, true⟩ t
    (out = plain ↔ packageWord <+: plain) ∧
      (out ≠ plain → out.lines = headerLine targetLabel :: [] :: dropBlankLines plain.lines) ∧
      (((HasPackageClause plain → out = plain) ∧ (¬HasPackageClause plain → StartsWithHeader out)) ↔
        (packageWord <+: plain ↔ HasPackageClause plain)) := by
  intro plain out
  have hout : out = ensureHeader targetLabel plain := abridge_with_header s t
  have hsame : out = plain ↔ packageWord <+: plain := hout ▸ ensureHeader_eq_self_iff
  refine ⟨hsame, fun hne => ?_, ?_, ?_⟩
  · rw [hout]
    exact lines_ensureHeader (by decide) (mt hsame.mpr hne)
  · rintro ⟨hleft, hgiven⟩
    refine ⟨fun hp => ?_, fun hc => hsame.mp (hleft hc)⟩
    -- A snippet that starts with the word is left alone, so a header that it starts with was there before.
    by_contra hnone
    have hstart := hgiven hnone
    rw [hsame.mpr hp] at hstart
    exact hnone hstart.hasPackageClause
  · intro h
    refine ⟨fun hc => hsame.mpr (h.mpr hc), fun hnone => ?_⟩
    rw [hout]
    exact startsWithHeader_ensureHeader (mt h.mp hnone)

/-- A remark above the declaration brings a second declaration, and a word that begins like `package` brings none. -/
theorem header_misplaced :
    let late : Text := ['/', '/', '\n', 'p', 'a', 'c', 'k', 'a', 'g', 'e', ' ', 'm', 'a', 'i', 'n']
    let word : Text := ['p', 'a', 'c', 'k', 'a', 'g', 'e', 's']
    (HasPackageClause (abridge ⟨.lexical, false⟩ late) ∧ abridge ⟨.lexical, true⟩ late ≠ abridge ⟨.lexical, false⟩ late ∧
        abridge ⟨.lexical, true⟩ late = headerLine targetLabel ++ '\n' :: '\n' :: abridge ⟨.lexical, false⟩ late) ∧
      ¬HasPackageClause (abridge ⟨.lexical, false⟩ word) ∧ ¬StartsWithHeader (abridge ⟨.lexical, true⟩ word) := by
  intro late word
  have hlate : (abridge ⟨.lexical, false⟩ late).lines = [['/', '/'], headerLine targetLabel] := by decide +kernel
  have hword : abridge ⟨.lexical, false⟩ word = word ∧ abridge ⟨.lexical, true⟩ word = word := by decide +kernel
  have hplain : ¬HasPackageClause word := by
    rintro ⟨l, hl, gap, c, rest, hne, -, -, rfl⟩
    have hline : word.lines = [word] := by decide
    rw [hline, List.mem_singleton] at hl
    -- Behind the word there is one character left, which cannot be both a gap and a label.
    have hlen := congrArg List.length hl
    have hgap := List.length_pos_iff.mpr hne
    simp only [List.length_append, List.length_cons, packageWord, word, List.length_nil] at hlen
    omega
  refine ⟨⟨⟨headerLine targetLabel, by simp [hlate], isPackageClause_headerLine⟩, by decide +kernel, by decide +kernel⟩,
    ?_, ?_⟩
  · rwa [hword.1]
  · rw [hword.2]
    exact fun h => hplain h.hasPackageClause

end Abridge.Snippet
