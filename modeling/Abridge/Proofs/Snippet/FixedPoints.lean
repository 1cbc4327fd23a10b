import Abridge.Proofs.Snippet.Guarantees

/-! When abridging again changes nothing. An abridged snippet is left alone by all passes but the filter; and
    the filter leaves it alone just if it still consists of ordinary lines and comment blocks that stay
    (`abridge_abridge_iff`). There are two ways in which it may not: taking out a run of glyphs joins what it
    parted, and cutting takes away the word that made a line a declaration. Without these an abridged
    snippet is a fixed point of each pass (`abridge_fixed`). -/

namespace Abridge.Snippet
open Package

/-! ### Settled documents -/

/-- The document consists of ordinary lines and comment blocks that stay. -/
abbrev Settled (t : Text) : Prop := Noise.Settled (Noise.Ordinary Noise.Rule.table) t.lines

/-- The last line of the clean snippet, up to the end of the block. -/
def lastLine (o : Options) (t : Text) : Line := (core o t).lines.getLast (Text.lines_ne_nil _)

theorem settled_core {o : Options} {t : Text} (h : Settled (Noise.clean t))
    (hc : core o t = Noise.clean t ∨ (lastLine o t).contains exampleWord = false ∨
      (lastLine o t).contains functionWord = true) : Settled (core o t) := by
  by_cases hcore : core o t = Noise.clean t
  · rwa [hcore]
  · have hlast := hc.resolve_left hcore
    obtain ⟨ks, p, q, ls, hlines, hcut⟩ := (lines_core_cases o t).resolve_left hcore
    have hline : lastLine o t = p ++ ['}'] := by
      simp only [lastLine, hcut, List.getLast_concat]
    have hheading : Noise.isExampleHeading (p ++ ['}']) = false := by
      rw [hline] at hlast
      rcases hlast with he | hf
      · rw [Noise.isExampleHeading, he, Bool.false_and]
      · rw [Noise.isExampleHeading, hf, Bool.not_true, Bool.and_false]
    rw [Settled, hlines] at h
    rw [Settled, hcut]
    exact h.cut fun hord => hord.cut hheading

theorem settled_relabel {t : Text} (h : Settled t) : Settled (relabel sourceLabel targetLabel t) := by
  rw [Settled, lines_relabelled]
  exact h.map harmless_relabelLine ordinary_relabelLine

theorem settled_dropBlankLines {ls : List Line} (h : Noise.Settled (Noise.Ordinary Noise.Rule.table) ls) :
    Noise.Settled (Noise.Ordinary Noise.Rule.table) (dropBlankLines ls) := by
  fun_induction dropBlankLines ls with
  | case1 l m ls hl ih => exact ih (h.tail hl)
  | case2 l m ls hl => exact h
  | case3 ls hls => exact h

theorem settled_ensureHeader {t : Text} (h : Settled t) : Settled (ensureHeader targetLabel t) := by
  by_cases hp : packageWord <+: t
  · rwa [ensureHeader_eq_self hp]
  · rw [Settled, lines_ensureHeader (by decide) hp]
    have hfront : Noise.Pieces (Noise.Ordinary Noise.Rule.table) [headerLine targetLabel, []] :=
      .line labelled_headerLine.ordinary (.line Noise.ordinary_nil .nil)
    exact .prepend hfront (settled_dropBlankLines h)

theorem settled_abridge {o : Options} {t : Text} (h : Settled (core o t)) : Settled (abridge o t) := by
  have hrel := settled_relabel h
  rw [abridge]
  split
  · exact settled_ensureHeader hrel
  · exact hrel

/-! ### Passes that change nothing -/

theorem clean_abridge_iff (o : Options) (t : Text) :
    Noise.clean (abridge o t) = abridge o t ↔ Settled (abridge o t) := by
  have htidy := tidy_abridge o t
  exact ⟨Noise.settled_of_clean_eq, fun h => Noise.clean_eq_self h htidy.glyph htidy.blank⟩

theorem cut_abridge (o : Options) (t : Text) : Code.cut o.strategy entryHeader (abridge o t) = abridge o t :=
  Code.cut_of_last (scan_abridge o t).2

theorem relabel_abridge (o : Options) (t : Text) :
    relabel sourceLabel targetLabel (abridge o t) = abridge o t :=
  relabel_eq_self simple_sourceLabel (relabelled_abridge o t)

theorem prefix_abridge {o : Options} (ho : o.ensureHeader = true) (t : Text) : packageWord <+: abridge o t := by
  rw [abridge, if_pos ho]
  exact prefix_ensureHeader _ _

theorem ensureHeader_abridge {o : Options} (ho : o.ensureHeader = true) (t : Text) :
    ensureHeader targetLabel (abridge o t) = abridge o t := ensureHeader_eq_self (prefix_abridge ho t)

theorem abridge_of_settled {o : Options} {t : Text} (h : Settled (abridge o t)) :
    abridge o (abridge o t) = abridge o t := by
  have hcore : core o (abridge o t) = abridge o t := by rw [core, (clean_abridge_iff o t).mpr h, cut_abridge]
  rw [abridge, hcore, relabel_abridge]
  split
  · exact ensureHeader_abridge ‹_› t
  · rfl

/-- If no line that the filter keeps has a run of glyphs, and if cutting does not leave the heading of an example,
    an abridged snippet is a fixed point of each pass. -/
theorem abridge_fixed (o : Options) (t : Text)
    (hg : ∀ l ∈ Noise.keptLines Noise.Rule.table t.lines, Noise.hasGlyphRun l = false)
    (hc : core o t = Noise.clean t ∨ (lastLine o t).contains exampleWord = false ∨
      (lastLine o t).contains functionWord = true) :
    Noise.clean (abridge o t) = abridge o t ∧
      Code.cut o.strategy entryHeader (abridge o t) = abridge o t ∧
      relabel sourceLabel targetLabel (abridge o t) = abridge o t ∧
      (o.ensureHeader = true → ensureHeader targetLabel (abridge o t) = abridge o t) := by
  have hsettled : Settled (abridge o t) := settled_abridge (settled_core (Noise.settled_clean hg) hc)
  exact ⟨(clean_abridge_iff o t).mpr hsettled, cut_abridge o t, relabel_abridge o t,
    fun ho => ensureHeader_abridge ho t⟩

/-- A snippet of one function with a remark behind it, on the line of its brace. -/
theorem abridge_fixed_remark :
    let t : Text := ['f', 'u', 'n', 'c', ' ', 'm', 'a', 'i', 'n', '(', ')', ' ', '{', '}', ' ', '/', '/', ' ', 'x']
    let o : Options := { ensureHeader := true }
    ((∀ l ∈ Noise.keptLines Noise.Rule.table t.lines, Noise.hasGlyphRun l = false) ∧ core o t ≠ Noise.clean t ∧
        (lastLine o t).contains exampleWord = false) ∧
      Noise.clean (abridge o t) = abridge o t ∧
      Code.cut o.strategy entryHeader (abridge o t) = abridge o t ∧
      relabel sourceLabel targetLabel (abridge o t) = abridge o t ∧
      (o.ensureHeader = true → ensureHeader targetLabel (abridge o t) = abridge o t) := by
  intro t o
  have hg : ∀ l ∈ Noise.keptLines Noise.Rule.table t.lines, Noise.hasGlyphRun l = false := by decide +kernel
  have hcut : core o t ≠ Noise.clean t := by decide +kernel
  have hlast : (lastLine o t).contains exampleWord = false := by decide +kernel
  exact ⟨⟨hg, hcut, hlast⟩, abridge_fixed o t hg (Or.inr (Or.inl hlast))⟩

/-! ### Abridging again -/

theorem relabel_core_eq_self {o : Options} {t : Text} (ht : Tidy t) (hr : Relabelled t) :
    relabel sourceLabel targetLabel (core o t) = core o t := by
  have hclean : ∀ l ∈ (Noise.clean t).lines, ∀ tail, ¬Declares sourceLabel l tail := by
    intro l hl
    rcases Noise.mem_lines_clean ht.glyph hl with hmem | rfl
    · exact hr l hmem
    · rintro tail ⟨gap, -, -, -, heq⟩
      simp [packageWord] at heq
  refine relabel_eq_self simple_sourceLabel fun l hl tail hd => ?_
  rcases lines_core_cases o t with hc | ⟨ks, p, q, ls, hlines, hcut⟩
  · rw [hc] at hl
    exact hclean l hl tail hd
  · rw [hcut] at hl
    rcases List.mem_append.mp hl with hl | hl
    · exact hclean l (by rw [hlines]; exact List.mem_append_left _ hl) tail hd
    · -- The line that was cut ends in a brace, and no declaration has one.
      have hlab : Labelled l := ⟨sourceLabel, tail, Or.inl rfl, hd⟩
      exact hlab.not_mem (c := '}') (by decide) (by simp [List.mem_singleton.mp hl])

theorem prefix_core {o : Options} {t : Text} (h : packageWord <+: Noise.clean t) : packageWord <+: core o t := by
  rcases core_cases o t with hc | ⟨u, v, huv, hc⟩
  · rwa [hc]
  · rw [huv] at h
    rw [hc]
    have hcut : u ++ ['}'] <+: u ++ '}' :: v := ⟨v, by simp⟩
    rcases List.prefix_or_prefix_of_prefix h hcut with hp | hp
    · exact hp
    · have hbrace : '}' ∈ packageWord := hp.subset (by simp)
      exact absurd hbrace (by decide)

/-- A snippet that has all that abridging gives, and that abridging leaves as it is, is clean. -/
theorem clean_of_abridge_eq {o : Options} {u : Text} (ht : Tidy u) (hr : Relabelled u) (h : abridge o u = u) :
    Noise.clean u = u := by
  have hrel := relabel_core_eq_self (o := o) ht hr
  have hcore : core o u = u := by
    rw [abridge, hrel] at h
    split at h
    · by_cases hp : packageWord <+: core o u
      · rwa [ensureHeader_eq_self hp] at h
      · -- The new declaration was in front before, so it was there after cleaning and cutting too.
        have hlines : (ensureHeader targetLabel (core o u)).lines = _ := lines_ensureHeader (by decide) hp
        rw [h] at hlines
        have hfront := Noise.prefix_clean hlines labelled_headerLine.ordinary labelled_headerLine.isBlankLine
        have hword : packageWord <+: headerLine targetLabel := List.prefix_append _ _
        exact absurd (prefix_core (hword.trans hfront)) hp
    · exact h
  -- Cleaning puts nothing in and cutting puts nothing in, so neither took anything away.
  have hle := (core_prefix_clean o u).length_le
  rw [hcore] at hle
  exact (Noise.clean_sublist u).eq_of_length_le hle

/-- Abridging again changes nothing just if the abridged snippet still consists of ordinary lines and comment
    blocks that stay. -/
theorem abridge_abridge_iff (o : Options) (t : Text) :
    abridge o (abridge o t) = abridge o t ↔ Settled (abridge o t) := by
  constructor
  · intro h
    exact (clean_abridge_iff o t).mp (clean_of_abridge_eq (tidy_abridge o t) (relabelled_abridge o t) h)
  · exact abridge_of_settled

/-- Without a run of glyphs in a line that the filter keeps, and without the heading of an example that cutting
    leaves, abridging again changes nothing. -/
theorem abridge_abridge_eq_self {o : Options} {t : Text}
    (hg : ∀ l ∈ Noise.keptLines Noise.Rule.table t.lines, Noise.hasGlyphRun l = false)
    (hc : core o t = Noise.clean t ∨ (lastLine o t).contains exampleWord = false ∨
      (lastLine o t).contains functionWord = true) : abridge o (abridge o t) = abridge o t :=
  abridge_of_settled (settled_abridge (settled_core (Noise.settled_clean hg) hc))

/-- Taking out the glyphs in the middle of a short comment makes a section phrase of what is left, so that
    the comment goes when the snippet is abridged again. -/
theorem abridge_not_idempotent :
    let t : Text := ['/', '*', ' ', 'K', 'E', 'Y', ' ', '═', '═', 'T', 'A', 'K', 'E', 'A', 'W', 'A', 'Y', 'S', ' ', '*', '/']
    abridge {} t = ['/', '*', ' ', 'K', 'E', 'Y', ' ', 'T', 'A', 'K', 'E', 'A', 'W', 'A', 'Y', 'S', ' ', '*', '/'] ∧
      abridge {} (abridge {} t) = [] ∧ abridge {} (abridge {} t) ≠ abridge {} t := by
  decide +kernel

end Abridge.Snippet
