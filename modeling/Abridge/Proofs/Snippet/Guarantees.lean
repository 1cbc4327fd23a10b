import Abridge.Proofs.Snippet.Labels
import Abridge.Snippet

/-! What every abridged snippet is like. Cleaning leaves no long run of blank lines and no run of glyphs, and
    nothing behind it makes one: cutting ends a line in a brace, and a declaration is neither blank nor has a
    glyph. No pass behind the search changes what a search finds, and none puts anything behind the block.
    Cleaning and cutting only delete, relabelling works line by line, and a new declaration brings its own line
    and the empty one behind it (`clean_sublist_and_length_lines_le`). -/

namespace Abridge.Snippet
open Package

/-! ### Tidy documents -/

/-- A document without a long run of blank lines and without a run of glyphs. -/
structure Tidy (t : Text) : Prop where
  blank : ¬Noise.HasBlankRun t.lines
  glyph : Noise.hasGlyphRun t = false

theorem tidy_clean (t : Text) : Tidy (Noise.clean t) := ⟨Noise.not_hasBlankRun_clean t, Noise.hasGlyphRun_clean t⟩

theorem core_cases (o : Options) (t : Text) :
    core o t = Noise.clean t ∨ ∃ u v, Noise.clean t = u ++ '}' :: v ∧ core o t = u ++ ['}'] := by
  by_cases h : ∃ b, Code.scan o.strategy entryHeader (Noise.clean t) = .closed b
  · obtain ⟨b, hb⟩ := h
    obtain ⟨u, v, huv, hlast, -⟩ := Code.scan_closed hb
    rw [huv] at hb
    refine Or.inr ⟨u, v, huv, ?_⟩
    rw [core, huv, Code.cut_closed hb hlast]
  · exact Or.inl (Code.cut_eq_self fun b hb => h ⟨b, hb⟩)

/-- The lines of the core are those of the clean snippet, or those of them up to one that is cut behind a brace. -/
theorem lines_core_cases (o : Options) (t : Text) :
    core o t = Noise.clean t ∨ ∃ ks p q ls, (Noise.clean t).lines = ks ++ (p ++ '}' :: q) :: ls ∧
      (core o t).lines = ks ++ [p ++ ['}']] := by
  rcases core_cases o t with hc | ⟨u, v, huv, hc⟩
  · exact Or.inl hc
  · rw [huv, hc]
    exact Or.inr (Text.lines_append_cons (by decide) u v)

theorem core_prefix_clean (o : Options) (t : Text) : core o t <+: Noise.clean t := by
  rcases core_cases o t with hc | ⟨u, v, huv, hc⟩
  · exact hc ▸ List.prefix_refl _
  · rw [hc, huv]
    exact ⟨v, by simp⟩

theorem Tidy.core {o : Options} {t : Text} (h : Tidy (Noise.clean t)) : Tidy (core o t) := by
  refine ⟨?_, Noise.hasGlyphRun_eq_false_of_part (core_prefix_clean o t).isInfix h.glyph⟩
  rcases lines_core_cases o t with hc | ⟨ks, p, q, ls, hlines, hcut⟩
  · rw [hc]
    exact h.blank
  · have hblank := h.blank
    rw [hlines] at hblank
    have hfront : ks <:+: ks ++ (p ++ '}' :: q) :: ls := (List.prefix_append _ _).isInfix
    have hlast : Text.isBlankLine (p ++ ['}']) = false :=
      Text.isBlankLine_eq_false_of_mem (c := '}') (by simp) (by decide)
    rw [hcut, Noise.hasBlankRun_append_cons ks [] hlast]
    rintro (hks | hnil)
    · exact hblank (hks.of_part hfront)
    · exact absurd (Noise.length_of_hasBlankRun hnil) (by decide)

theorem lines_relabelled (t : Text) :
    (relabel sourceLabel targetLabel t).lines = t.lines.map (relabelLine sourceLabel targetLabel) :=
  lines_relabel simple_sourceLabel (by decide) t

theorem Tidy.relabel {t : Text} (h : Tidy t) : Tidy (relabel sourceLabel targetLabel t) := by
  refine ⟨?_, ?_⟩
  · rw [Noise.HasBlankRun, lines_relabelled, List.map_map]
    have hmap : Text.isBlankLine ∘ relabelLine sourceLabel targetLabel = Text.isBlankLine :=
      funext isBlankLine_relabelLine
    rw [hmap]
    exact h.blank
  · have hglyph := h.glyph
    rw [Noise.hasGlyphRun_lines] at hglyph ⊢
    rw [lines_relabelled, List.any_map, ← hglyph]
    exact congrArg (List.any t.lines) (funext hasGlyphRun_relabelLine)

theorem labelled_headerLine : Labelled (headerLine targetLabel) := by
  have h : Labelled (headerLine targetLabel ++ []) := labelled_target (by simp)
  rwa [List.append_nil] at h

theorem Tidy.ensureHeader {t : Text} (h : Tidy t) : Tidy (ensureHeader targetLabel t) := by
  by_cases hp : packageWord <+: t
  · rwa [ensureHeader_eq_self hp]
  · refine ⟨?_, ?_⟩
    · rw [lines_ensureHeader (by decide) hp]
      exact not_hasBlankRun_header h.blank
    · have hglyph := h.glyph
      rw [Noise.hasGlyphRun_lines, List.any_eq_false] at hglyph
      rw [Noise.hasGlyphRun_lines, lines_ensureHeader (by decide) hp, List.any_eq_false]
      rintro l (_ | ⟨_, _ | ⟨_, hl⟩⟩)
      · simp [labelled_headerLine.hasGlyphRun]
      · simp [Noise.hasGlyphRun]
      · exact hglyph l ((dropBlankLines_suffix t.lines).subset hl)

/-! ### Relabelled documents -/

/-- No line declares the old label. -/
def Relabelled (t : Text) : Prop := ∀ l ∈ t.lines, ∀ tail, ¬Declares sourceLabel l tail

theorem relabelled_relabel (t : Text) : Relabelled (relabel sourceLabel targetLabel t) := by
  intro l hl
  rw [lines_relabelled] at hl
  obtain ⟨k, -, rfl⟩ := List.mem_map.mp hl
  exact not_declares_relabelLine simple_sourceLabel simple_targetLabel (by decide) k

theorem Relabelled.ensureHeader {t : Text} (h : Relabelled t) : Relabelled (ensureHeader targetLabel t) := by
  by_cases hp : packageWord <+: t
  · rwa [ensureHeader_eq_self hp]
  · intro l hl tail hd
    rw [lines_ensureHeader (by decide) hp] at hl
    rcases hl with _ | ⟨_, _ | ⟨_, hl⟩⟩
    · have hnew : Declares targetLabel (headerLine targetLabel ++ []) [] := declares_target (by simp)
      rw [List.append_nil] at hnew
      exact absurd (hd.unique simple_sourceLabel simple_targetLabel.tail hnew).1 (by decide)
    · obtain ⟨gap, -, -, -, heq⟩ := hd
      simp [packageWord] at heq
    · exact h l ((dropBlankLines_suffix t.lines).subset hl) tail hd

/-! ### The search -/

variable {s : Code.Strategy} {t t' : Text}

theorem scan_of_unnoticed (h : Code.Unnoticed headerStart s t t') :
    (Code.scan s entryHeader t').kind = (Code.scan s entryHeader t).kind ∧
      ((Code.scan s entryHeader t).EndsAt t.byteSize → (Code.scan s entryHeader t').EndsAt t'.byteSize) :=
  h.scan bytes_entryHeader (by decide) (by decide)

/-- The search comes to the same in the abridged snippet as in the clean one, and a block is at the end. -/
theorem scan_abridge (o : Options) (t : Text) :
    (Code.scan o.strategy entryHeader (abridge o t)).kind = (Code.scan o.strategy entryHeader (Noise.clean t)).kind ∧
      (Code.scan o.strategy entryHeader (abridge o t)).EndsAt (abridge o t).byteSize := by
  have hcut : Code.scan o.strategy entryHeader (core o t) = Code.scan o.strategy entryHeader (Noise.clean t) :=
    Code.scan_cut _ _ _
  have hend : (Code.scan o.strategy entryHeader (core o t)).EndsAt (core o t).byteSize := fun b hb => Code.last_cut hb
  obtain ⟨hkind, hrel⟩ := scan_of_unnoticed (unnoticed_relabel o.strategy (core o t))
  rw [abridge]
  cases o.ensureHeader with
  | false =>
    rw [if_neg (by simp)]
    exact ⟨by rw [hkind, hcut], hrel hend⟩
  | true =>
    rw [if_pos rfl]
    obtain ⟨hkind', hhead⟩ :=
      scan_of_unnoticed (unnoticed_ensureHeader o.strategy (relabel sourceLabel targetLabel (core o t)))
    exact ⟨by rw [hkind', hkind, hcut], hhead (hrel hend)⟩

/-! ### All together -/

theorem tidy_abridge (o : Options) (t : Text) : Tidy (abridge o t) := by
  have h : Tidy (relabel sourceLabel targetLabel (core o t)) := (tidy_clean t).core.relabel
  rw [abridge]
  split
  · exact h.ensureHeader
  · exact h

theorem relabelled_abridge (o : Options) (t : Text) : Relabelled (abridge o t) := by
  have h := relabelled_relabel (core o t)
  rw [abridge]
  split
  · exact h.ensureHeader
  · exact h

/-- An abridged snippet has no long run of blank lines, no two glyphs side by side and no declaration of the old
    label. The search for the entry function comes to the same in it as in the clean snippet, and where it
    finds a block the snippet ends with it. -/
theorem abridge_guarantees (o : Options) (t : Text) :
    ¬Noise.HasBlankRun (abridge o t).lines ∧
      (¬∃ a b, Noise.isGlyph a = true ∧ Noise.isGlyph b = true ∧ [a, b] <:+: abridge o t) ∧
      (∀ l ∈ (abridge o t).lines, ∀ tail, ¬Declares sourceLabel l tail) ∧
      (Code.scan o.strategy entryHeader (abridge o t)).kind = (Code.scan o.strategy entryHeader (Noise.clean t)).kind ∧
      ∀ b, Code.scan o.strategy entryHeader (abridge o t) = .closed b → b.last + 1 = (abridge o t).byteSize := by
  have htidy := tidy_abridge o t
  obtain ⟨hkind, hend⟩ := scan_abridge o t
  refine ⟨htidy.blank, fun hg => ?_, relabelled_abridge o t, hkind, hend⟩
  rw [← Noise.hasGlyphRun_iff, htidy.glyph] at hg
  cases hg

/-! ### Size -/

theorem core_sublist (o : Options) (t : Text) : (core o t).Sublist t :=
  (core_prefix_clean o t).sublist.trans (Noise.clean_sublist t)

theorem length_lines_ensureHeader_le (t : Text) :
    (ensureHeader targetLabel t).lines.length ≤ t.lines.length + 2 := by
  by_cases hp : packageWord <+: t
  · rw [ensureHeader_eq_self hp]
    exact Nat.le_add_right _ 2
  · rw [lines_ensureHeader (by decide) hp]
    exact Nat.add_le_add_right (dropBlankLines_suffix t.lines).length_le 2

/-- Cleaning only deletes, and abridging adds no line but those of a new declaration. -/
theorem clean_sublist_and_length_lines_le (t : Text) :
    (Noise.clean t).Sublist t ∧
      ∀ o : Options, (abridge o t).lines.length ≤ t.lines.length + if o.ensureHeader then 2 else 0 := by
  refine ⟨Noise.clean_sublist t, fun o => ?_⟩
  have hrelabelled : (relabel sourceLabel targetLabel (core o t)).lines.length ≤ t.lines.length := by
    rw [lines_relabelled, List.length_map]
    exact Text.length_lines_le (core_sublist o t)
  rw [abridge]
  split
  · exact Nat.le_trans (length_lines_ensureHeader_le _) (Nat.add_le_add_right hrelabelled 2)
  · exact hrelabelled

end Abridge.Snippet
