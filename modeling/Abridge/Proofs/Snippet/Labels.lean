import Abridge.Proofs.Code.Rewriting
import Abridge.Proofs.Noise.Clean
import Abridge.Proofs.Package.Header
import Abridge.Proofs.Package.Relabel

/-! Package declarations as the filter and the search see them. The characters of a declaration are lower case
    letters and blanks, so it is an ordinary line, no comment block takes notice of it, and no header or brace
    is in it. The same goes for the blanks that make way for a new declaration. -/

namespace Abridge.Snippet
open Package

/-! ### Declarations of the two labels -/

theorem simple_sourceLabel : Simple sourceLabel := ⟨by decide, Text.forall_mem_of_all (by decide), by decide⟩

theorem simple_targetLabel : Simple targetLabel := ⟨by decide, Text.forall_mem_of_all (by decide), by decide⟩

/-- The line declares one of the two labels. -/
def Labelled (l : Line) : Prop := ∃ label tail, (label = sourceLabel ∨ label = targetLabel) ∧ Declares label l tail

/-- The characters of such a line. -/
def labelledChars : List Char := packageWord ++ sourceLabel ++ targetLabel ++ [' ', '\t', '\r']

theorem Labelled.forall_mem {P : Char → Prop} {l : Line} (h : Labelled l) (hP : ∀ c ∈ labelledChars, P c) : ∀ c ∈ l, P c := by
  have hsub : ∀ part ⊆ labelledChars, ∀ c ∈ part, P c := fun _ hpart c hc => hP c (hpart hc)
  obtain ⟨label, tail, hlabel, h⟩ := h
  refine h.forall_mem (hsub _ (by decide)) ?_ (hsub _ (by decide))
  rcases hlabel with rfl | rfl
  · exact hsub _ (by decide)
  · exact hsub _ (by decide)

theorem Labelled.mem {l : Line} (h : Labelled l) : 'p' ∈ l := by
  obtain ⟨label, tail, -, gap, -, -, -, rfl⟩ := h
  simp [packageWord]

theorem labelled_target {tail : Text} (htail : ∀ c ∈ tail, isTail c = true) :
    Labelled (headerLine targetLabel ++ tail) := ⟨targetLabel, tail, Or.inr rfl, declares_target htail⟩

theorem relabelLine_cases (l : Line) :
    (∃ gap tail, (∀ c ∈ gap, isGap c = true) ∧ (∀ c ∈ tail, isTail c = true) ∧
        Labelled l ∧ l = packageWord ++ gap ++ sourceLabel ++ tail ∧
        relabelLine sourceLabel targetLabel l = headerLine targetLabel ++ tail) ∨
      relabelLine sourceLabel targetLabel l = l := by
  rcases Package.relabelLine_cases simple_sourceLabel targetLabel l with ⟨tail, hd, hline⟩ | ⟨-, hline⟩
  · have hl : Labelled l := ⟨sourceLabel, tail, Or.inl rfl, hd⟩
    obtain ⟨gap, -, hgap, htail, heq⟩ := hd
    exact Or.inl ⟨gap, tail, hgap, htail, hl, heq, hline⟩
  · exact Or.inr hline

/-- What holds of all declarations before and after holds before and after relabelling of any line. -/
theorem relabelLine_rel {R : Line → Line → Prop} (hrefl : ∀ l, R l l) (hlab : ∀ k l, Labelled k → Labelled l → R k l)
    (l : Line) : R l (relabelLine sourceLabel targetLabel l) := by
  rcases relabelLine_cases l with ⟨gap, tail, -, htail, hl, -, hline⟩ | hline
  · rw [hline]
    exact hlab _ _ hl (labelled_target htail)
  · rw [hline]
    exact hrefl l

/-! ### As the filter sees them -/

namespace Labelled
variable {l : Line}

theorem not_mem (h : Labelled l) {c : Char} (hc : c ∉ labelledChars) : c ∉ l := fun hm =>
  hc (h.forall_mem (P := (· ∈ labelledChars)) (fun _ => id) c hm)

/-- All phrases are in capitals. -/
theorem contains_eq_false (h : Labelled l) {phrase : Text} (hp : 'E' ∈ phrase) : l.contains phrase = false :=
  Text.contains_eq_false_of_not_mem hp (h.not_mem (by decide))

theorem phrase (h : Labelled l) : Noise.sectionPhrase? l = none :=
  Noise.sectionPhrase?_of_not_mem (h.not_mem (by decide))

theorem verbose (h : Labelled l) : Noise.isVerbose l = false := by
  rw [Noise.isVerbose_eq_false_iff]
  have hall : ∀ phrase ∈ verbosePhrases, 'E' ∈ phrase := by decide
  exact fun phrase hp => h.contains_eq_false (hall phrase hp)

theorem opening (h : Labelled l) : Noise.afterOpening? l = none :=
  Noise.afterOpening?_of_not_mem (c := '/') (by decide) (h.not_mem (by decide))

theorem close (h : Labelled l) : l.contains commentClose = false :=
  Text.contains_eq_false_of_not_mem (c := '*') (by decide) (h.not_mem (by decide))

theorem isBlankLine (h : Labelled l) : l.isBlankLine = false := Text.isBlankLine_eq_false_of_mem h.mem (by decide)

theorem hasGlyphRun (h : Labelled l) : Noise.hasGlyphRun l = false := by
  rw [← Bool.not_eq_true, Noise.hasGlyphRun_iff]
  rintro ⟨a, b, ha, -, hab⟩
  have hnone : ∀ c ∈ labelledChars, Noise.isGlyph c = false := Text.forall_mem_of_all (by decide)
  rw [h.forall_mem hnone a (hab.subset (by simp))] at ha
  cases ha

theorem ordinary (h : Labelled l) : Noise.Ordinary Noise.Rule.table l := by
  have hheading : Noise.isExampleHeading l = false := by
    rw [Noise.isExampleHeading, h.contains_eq_false (by decide), Bool.false_and]
  exact ⟨h.phrase, h.opening,
    Noise.first?_table_eq_none (Noise.isSeparator_eq_false h.mem (by decide)) h.hasGlyphRun hheading⟩

end Labelled

/-- No comment block takes notice of relabelling. -/
theorem harmless_relabelLine : Noise.Harmless (relabelLine sourceLabel targetLabel) where
  phrase := relabelLine_rel (R := fun l k => Noise.sectionPhrase? l = none → Noise.sectionPhrase? k = none)
    (fun _ => id) fun _ _ _ hl _ => hl.phrase
  verbose := relabelLine_rel (R := fun l k => Noise.isVerbose l = false → Noise.isVerbose k = false)
    (fun _ => id) fun _ _ _ hl _ => hl.verbose
  opening := relabelLine_rel (R := fun l k => (Noise.afterOpening? l).isSome → k = l) (fun _ _ => rfl)
    fun k _ hk _ ho => by simp [hk.opening] at ho
  close := relabelLine_rel (R := fun l k => k.contains commentClose = l.contains commentClose) (fun _ => rfl)
    fun _ _ hk hl => by rw [hk.close, hl.close]

theorem ordinary_relabelLine (l : Line) (h : Noise.Ordinary Noise.Rule.table l) :
    Noise.Ordinary Noise.Rule.table (relabelLine sourceLabel targetLabel l) :=
  relabelLine_rel (R := fun l k => Noise.Ordinary Noise.Rule.table l → Noise.Ordinary Noise.Rule.table k)
    (fun _ => id) (fun _ _ _ hl _ => hl.ordinary) l h

theorem isBlankLine_relabelLine (l : Line) :
    (relabelLine sourceLabel targetLabel l).isBlankLine = l.isBlankLine :=
  relabelLine_rel (R := fun l k => k.isBlankLine = l.isBlankLine) (fun _ => rfl)
    (fun _ _ hk hl => by rw [hk.isBlankLine, hl.isBlankLine]) l

theorem hasGlyphRun_relabelLine (l : Line) :
    Noise.hasGlyphRun (relabelLine sourceLabel targetLabel l) = Noise.hasGlyphRun l :=
  relabelLine_rel (R := fun l k => Noise.hasGlyphRun k = Noise.hasGlyphRun l) (fun _ => rfl)
    (fun _ _ hk hl => by rw [hk.hasGlyphRun, hl.hasGlyphRun]) l

/-! ### As the search sees them -/

/-- The first byte of the header. -/
def headerStart : Byte := 0x66

theorem bytes_entryHeader : entryHeader.bytes = headerStart :: entryHeader.bytes.tail := by decide

theorem silent_of_forall {t : Text} (h : ∀ c ∈ t, c ∈ labelledChars ∨ isBlank c = true) : Code.Silent headerStart t := by
  have hstart : headerStart < 128 := by decide
  have hhigh : ∀ b : Byte, 128 ≤ b → Code.Mark.isPlain b = true ∧ Code.Mark.isInert headerStart b = true := fun b hb =>
    ⟨Code.Mark.isPlain_of_high hb, Code.Mark.isInert_of_high hstart hb⟩
  refine Text.forall_mem_bytes hhigh fun c hc hlt => ?_
  rcases h c hc with hc | hc
  · have hall : ∀ c ∈ labelledChars, Code.Mark.isPlain (UInt8.ofNat c.toNat) = true ∧
        Code.Mark.isInert headerStart (UInt8.ofNat c.toNat) = true := Text.forall_mem_of_all (by decide)
    exact hall c hc
  · have hall : ∀ n < 128, (blankRanges.any fun r => r.1 ≤ n && n ≤ r.2) = true →
        Code.Mark.isPlain (UInt8.ofNat n) = true ∧ Code.Mark.isInert headerStart (UInt8.ofNat n) = true := by decide
    exact hall c.toNat hlt hc

theorem Labelled.silent {l t : Text} (h : Labelled l) (ht : t ⊆ l) : Code.Silent headerStart t :=
  silent_of_forall fun c hc => Or.inl (h.forall_mem (P := (· ∈ labelledChars)) (fun _ => id) c (ht hc))

theorem silent_of_isBlankLine {t : Text} (h : t.isBlankLine = true) : Code.Silent headerStart t :=
  silent_of_forall fun c hc => Or.inr (List.all_eq_true.mp h c hc)

theorem unnoticed_relabel (s : Code.Strategy) (t : Text) :
    Code.Unnoticed headerStart s t (relabel sourceLabel targetLabel t) := by
  rw [relabel_eq simple_sourceLabel]
  conv => arg 3; rw [← Text.ofLines_lines t]
  refine .lines fun l _ => ?_
  rcases relabelLine_cases l with ⟨gap, tail, -, htail, hl, heq, hline⟩ | hline
  · refine ⟨packageWord ++ gap ++ sourceLabel, headerLine targetLabel, tail, hl.silent ?_, ?_, heq, hline⟩
    · rw [heq]
      exact List.subset_append_left _ _
    · have hnew : Labelled (headerLine targetLabel ++ []) := labelled_target (by simp)
      exact hnew.silent (by simp)
  · have hnil : Code.Silent headerStart [] := fun b hb => by simp at hb
    exact ⟨[], [], l, hnil, hnil, rfl, hline⟩

theorem unnoticed_ensureHeader (s : Code.Strategy) (t : Text) :
    Code.Unnoticed headerStart s t (ensureHeader targetLabel t) := by
  by_cases h : packageWord <+: t
  · rw [ensureHeader_eq_self h]
    exact .refl t
  · obtain ⟨blanks, heq, hblanks⟩ := dropBlankLines_split t.lines
    rw [Text.ofLines_lines] at heq
    have hfront : ensureHeader targetLabel t =
        (headerLine targetLabel ++ ['\n', '\n']) ++ Text.ofLines (dropBlankLines t.lines) := by
      rw [ensureHeader_of_not_start h]
      simp
    rw [hfront]
    conv => arg 3; rw [heq]
    refine .swap (silent_of_isBlankLine hblanks) (silent_of_forall fun c hc => ?_) _
    have hall : ∀ c ∈ headerLine targetLabel ++ ['\n', '\n'], c ∈ labelledChars ∨ isBlank c = true :=
      Text.forall_mem_of_all (by decide)
    exact hall c hc

end Abridge.Snippet
