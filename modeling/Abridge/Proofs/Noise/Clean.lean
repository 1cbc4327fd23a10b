import Abridge.Proofs.Noise.Settled

/-! Clean documents. Cleaning takes away and puts nothing in (`clean_sublist`), leaves no run of glyphs and no
    long run of blank lines, and settled lines unless a run of glyphs was taken out of a line that the filter
    kept (`settled_clean`). A document with these three properties it leaves as it is (`clean_eq_self`), and
    no other. -/

namespace Abridge.Noise

/-! ### The filter drops lines and no more -/

namespace Filter

/-- All lines that may still stay, in order. -/
def held (f : Filter) : List Line :=
  match f.mode with
  | .comment block => (block ++ f.kept).reverse
  | _ => f.kept.reverse

theorem takenBack_sublist (b : Banner) (l : Line) (kept : List Line) : (takenBack b l kept).Sublist kept := by
  unfold takenBack
  split
  · exact List.tail_sublist kept
  · exact List.Sublist.refl _

theorem remains_sublist (block : List Line) : (remains block).Sublist block := by
  unfold remains
  split
  · exact List.Sublist.refl _
  · exact List.nil_sublist _

theorem kept_sublist_held (f : Filter) : f.kept.reverse.Sublist f.held := by
  obtain ⟨mode, kept⟩ := f
  cases mode with
  | comment block => exact (List.sublist_append_right block kept).reverse
  | _ => exact List.Sublist.refl _

theorem Moves.held_sublist {rules : List Rule} {l : Line} {f g : Filter} (h : Moves rules l f g) :
    g.held.Sublist (f.held ++ [l]) := by
  cases h with
  | @enter mode kept _ _ => exact (kept_sublist_held ⟨mode, kept⟩).trans (List.sublist_append_left _ _)
  | skip => exact List.sublist_append_left _ _
  | leave => simp [held]
  | start => simp [held]
  | whole =>
    rw [held, held, List.reverse_append, List.append_sublist_append_left]
    exact (remains_sublist [l]).reverse
  | hold => simp [held]
  | @close block kept _ _ =>
    have h := ((remains_sublist (l :: block)).append_right kept).reverse
    simpa [held] using h
  | @drop b kept _ _ _ _ => exact (takenBack_sublist b l kept).reverse.trans (List.sublist_append_left _ _)
  | @keep b kept _ _ _ =>
    have h := ((takenBack_sublist b l kept).cons_cons l).reverse
    simpa [held] using h

theorem held_steps_sublist (rules : List Rule) (f : Filter) (ls : List Line) :
    (steps rules f ls).held.Sublist (f.held ++ ls) := by
  induction ls generalizing f with
  | nil => simp
  | cons l ls ih =>
    have h := (step_moves rules f l).held_sublist.append_right ls
    rw [List.append_assoc, List.singleton_append] at h
    exact (ih _).trans h

theorem finish_sublist_held (f : Filter) : f.finish.Sublist f.held := by
  obtain ⟨mode, kept⟩ := f
  cases mode with
  | comment block => exact ((remains_sublist block).append_right kept).reverse
  | _ => exact List.Sublist.refl _

end Filter

theorem keptLines_sublist (rules : List Rule) (ls : List Line) : (keptLines rules ls).Sublist ls :=
  (Filter.finish_sublist_held _).trans (Filter.held_steps_sublist rules {} ls)

theorem clean_sublist (t : Text) : (clean t).Sublist t := by
  have h := Text.ofLines_sublist (keptLines_sublist Rule.table t.lines)
  rw [Text.ofLines_lines] at h
  exact ((collapse_sublist _).trans (stripGlyphs_sublist _)).trans h

/-! ### The lines of a clean document -/

/-- The lines that the filter keeps of a document, and an empty one if it keeps none. -/
def keptDocument (t : Text) : List Line := (Text.ofLines (keptLines Rule.table t.lines)).lines

theorem keptDocument_cases (t : Text) :
    keptDocument t = keptLines Rule.table t.lines ∨ keptLines Rule.table t.lines = [] ∧ keptDocument t = [[]] :=
  Text.lines_ofLines_cases fun l hl =>
    Text.not_mem_of_mem_lines l ((keptLines_sublist Rule.table t.lines).subset hl)

theorem lines_clean (t : Text) : (clean t).lines = collapseLines ((keptDocument t).map stripGlyphs) := by
  have hne : (keptDocument t).map stripGlyphs ≠ [] := by simpa [keptDocument] using Text.lines_ne_nil _
  have hnl : ∀ l ∈ (keptDocument t).map stripGlyphs, '\n' ∉ l := by
    intro l hl
    obtain ⟨k, hk, rfl⟩ := List.mem_map.mp hl
    exact not_mem_stripGlyphs (Text.not_mem_of_mem_lines k hk)
  have hstrip : stripGlyphs (.ofLines (keptLines Rule.table t.lines)) = .ofLines ((keptDocument t).map stripGlyphs) := by
    rw [← stripGlyphs_ofLines, keptDocument, Text.ofLines_lines]
  rw [clean, lines_collapse, hstrip, Text.lines_ofLines hne hnl]

theorem not_hasBlankRun_clean (t : Text) : ¬HasBlankRun (clean t).lines := by
  rw [lines_clean]
  exact not_hasBlankRun_collapseLines _

theorem hasGlyphRun_lines (t : Text) : hasGlyphRun t = t.lines.any hasGlyphRun := by
  rw [← hasGlyphRun_ofLines, Text.ofLines_lines]

theorem hasGlyphRun_clean (t : Text) : hasGlyphRun (clean t) = false := by
  rw [hasGlyphRun_lines, lines_clean, List.any_eq_false]
  intro l hl
  rcases mem_collapseLines hl with hl | rfl
  · obtain ⟨k, -, rfl⟩ := List.mem_map.mp hl
    simp [hasGlyphRun_stripGlyphs]
  · simp [hasGlyphRun]

/-- Where there is no run of glyphs, each line of the clean document is one of the document, or empty. -/
theorem mem_lines_clean {t : Text} (hg : hasGlyphRun t = false) {l : Line} (hl : l ∈ (clean t).lines) :
    l ∈ t.lines ∨ l = [] := by
  rw [lines_clean] at hl
  rcases mem_collapseLines hl with hl | hl
  · obtain ⟨k, hk, rfl⟩ := List.mem_map.mp hl
    rcases keptDocument_cases t with hd | ⟨-, hd⟩
    · rw [hd] at hk
      have hmem := (keptLines_sublist Rule.table t.lines).subset hk
      rw [hasGlyphRun_lines, List.any_eq_false] at hg
      rw [stripGlyphs_eq_self (by simpa using hg k hmem)]
      exact Or.inl hmem
    · rw [hd, List.mem_singleton] at hk
      rw [hk]
      exact Or.inr rfl
  · exact Or.inr hl

/-- A document that starts with an ordinary line still does when it is clean, unless the line is blank. -/
theorem prefix_clean {t : Text} {l : Line} {ls : List Line} (ht : t.lines = l :: ls) (hl : Ordinary Rule.table l)
    (hb : l.isBlankLine = false) : l <+: clean t := by
  have hg : hasGlyphRun l = false := Rule.first?_eq_none_iff.mp hl.rule Rule.glyphRun (by simp [Rule.table])
  have hfirst : Filter.steps Rule.table {} [l] = ⟨.reading .outside, [l]⟩ := Filter.step_ordinary hl []
  have hmode : ∀ m : Mode, m ≠ .reading .outside → (Filter.steps Rule.table {} [l]).mode ≠ m := by
    rw [hfirst]
    exact fun _ hm => Ne.symm hm
  obtain ⟨rest, hrest⟩ : ∃ rest, keptLines Rule.table t.lines = l :: rest := by
    obtain ⟨rest, hrest⟩ := keptLines_append (fun b => hmode _ (by simp)) (hmode _ (by simp)) ls
    refine ⟨rest, ?_⟩
    rw [ht, ← List.singleton_append, hrest, keptLines, hfirst]
    rfl
  rcases keptDocument_cases t with hd | ⟨hnil, -⟩
  · have hlines := lines_clean t
    rw [hd, hrest, List.map_cons, stripGlyphs_eq_self hg, ← List.nil_append (l :: _), collapseLines_append_cons _ _ hb] at hlines
    exact Text.prefix_of_lines hlines
  · rw [hrest] at hnil
    cases hnil

/-- A clean document consists of pieces, if no run of glyphs was taken out of a line that the filter kept. -/
theorem settled_clean {t : Text} (h : ∀ l ∈ keptLines Rule.table t.lines, hasGlyphRun l = false) :
    Settled (Ordinary Rule.table) (clean t).lines := by
  have hdoc : Settled (Ordinary Rule.table) (keptDocument t) ∧ ∀ l ∈ keptDocument t, hasGlyphRun l = false := by
    rcases keptDocument_cases t with hd | ⟨-, hd⟩
    · rw [hd]
      exact ⟨(settled_keptLines t.lines).mono fun l hl hloose => ordinary_of_loose hloose (h l hl), h⟩
    · rw [hd]
      exact ⟨(Pieces.line ordinary_nil .nil).settled, by simp [hasGlyphRun]⟩
  have hstrip : (keptDocument t).map stripGlyphs = keptDocument t := by
    rw [List.map_congr_left fun l hl => stripGlyphs_eq_self (hdoc.2 l hl), List.map_id']
  rw [lines_clean, hstrip]
  exact hdoc.1.collapseLines ordinary_nil

/-! ### What follows a document -/

/-- The filter is done with the lines: it is in no comment block, and the last line is no title. -/
structure Finished (ls : List Line) : Prop where
  comment : ∀ b, (Filter.steps Rule.table {} ls).mode ≠ .comment b
  title : ∀ l ∈ ls.getLast?, isBannerTitle l = false

theorem Finished.mode_ne {ls : List Line} (h : Finished ls) : (Filter.steps Rule.table {} ls).mode ≠ .reading .afterTitle := by
  intro hm
  obtain ⟨front, upper, title, -, hls, -, -, ht, -⟩ := (Filter.remembers_steps Rule.table ls).title hm
  have hnot := h.title title (by simp [hls])
  rw [ht] at hnot
  cases hnot

/-- What follows finished lines makes no difference to the clean document up to its last character that is not
    blank. -/
theorem clean_append_newline {c s u v : Text} {x : Char} (hf : Finished c.lines) (hx : isBlank x = false)
    (h : clean c = u ++ x :: v) : ∃ w, clean (c ++ '\n' :: s) = u ++ x :: w := by
  have hnewline : x ≠ '\n' := by
    rintro rfl
    revert hx
    decide
  obtain ⟨rest, hrest⟩ := keptLines_append hf.comment hf.mode_ne s.lines
  rw [← Text.lines_append_newline] at hrest
  -- A clean document with such a character has a line that was kept.
  have hdoc : keptDocument c = keptLines Rule.table c.lines ∧ keptLines Rule.table c.lines ≠ [] := by
    rcases keptDocument_cases c with hd | ⟨-, hd⟩
    · exact ⟨hd, fun hnil => Text.lines_ne_nil _ (hd.trans hnil)⟩
    · have hlines := lines_clean c
      rw [hd] at hlines
      have hnil : clean c = [] := by
        rw [← Text.ofLines_lines (clean c), hlines]
        rfl
      rw [hnil] at h
      simp at h
  have hdoc' : keptDocument (c ++ '\n' :: s) = keptLines Rule.table c.lines ++ rest := by
    rcases keptDocument_cases (c ++ '\n' :: s) with hd | ⟨hnil, -⟩
    · rw [hd, hrest]
    · rw [hrest, List.append_eq_nil_iff] at hnil
      exact absurd hnil.1 hdoc.2
  obtain ⟨ks, p, q, ls, hlines, hfront⟩ := Text.lines_append_cons hnewline u v
  have hline : Text.isBlankLine (p ++ x :: q) = false := Text.isBlankLine_eq_false_of_mem (by simp) hx
  have hcollapse := lines_clean c
  rw [h, hlines, hdoc.1] at hcollapse
  obtain ⟨ls', hls'⟩ := collapseLines_append hline hcollapse.symm (rest.map stripGlyphs)
  have hstart : Text.ofLines (ks ++ [p ++ [x]]) <+: Text.ofLines (ks ++ (p ++ x :: q) :: ls') :=
    Text.ofLines_prefix_ofLines ks ls' ⟨q, by simp⟩
  rw [← hls', ← List.map_append, ← hdoc', ← lines_clean, ← hfront, Text.ofLines_lines, Text.ofLines_lines] at hstart
  obtain ⟨w, hw⟩ := hstart
  exact ⟨w, by simp [← hw]⟩

/-! ### Documents that are clean -/

/-- A document of pieces, without a run of glyphs or a long run of blank lines, is clean. -/
theorem clean_eq_self {t : Text} (hs : Settled (Ordinary Rule.table) t.lines) (hg : hasGlyphRun t = false)
    (hb : ¬HasBlankRun t.lines) : clean t = t := by
  rw [clean, keptLines_eq_self hs, Text.ofLines_lines, stripGlyphs_eq_self hg, collapse_eq_self hb]

theorem settled_of_clean_eq {t : Text} (h : clean t = t) : Settled (Ordinary Rule.table) t.lines := by
  -- Nothing is put in, so no step of cleaning took anything away.
  have hlines := Text.ofLines_sublist (keptLines_sublist Rule.table t.lines)
  rw [Text.ofLines_lines] at hlines
  have hkept : Text.ofLines (keptLines Rule.table t.lines) = t := by
    refine hlines.antisymm ?_
    have hsub := (collapse_sublist _).trans (stripGlyphs_sublist (Text.ofLines (keptLines Rule.table t.lines)))
    rwa [show collapse (stripGlyphs (.ofLines (keptLines Rule.table t.lines))) = t from h] at hsub
  have hg : hasGlyphRun t = false := h ▸ hasGlyphRun_clean t
  rcases keptDocument_cases t with hd | ⟨-, hd⟩
  · rw [keptDocument, hkept] at hd
    rw [hasGlyphRun_lines, List.any_eq_false] at hg
    have hsettled : Settled (Loose Rule.table) (keptLines Rule.table t.lines) := settled_keptLines t.lines
    rw [← hd] at hsettled
    exact hsettled.mono fun l hl hloose => ordinary_of_loose hloose (by simpa using hg l hl)
  · rw [keptDocument, hkept] at hd
    rw [hd]
    exact (Pieces.line ordinary_nil .nil).settled

/-- Cleaning changes nothing just if no two glyphs stand side by side, no three lines in a row are blank, and the
    lines are ordinary ones and short, quiet comment blocks, the last of which may lack its end. -/
theorem clean_eq_self_iff (t : Text) :
    clean t = t ↔ (¬∃ a b, isGlyph a = true ∧ isGlyph b = true ∧ [a, b] <:+: t) ∧ ¬HasBlankRun t.lines ∧
      Settled (Ordinary Rule.table) t.lines := by
  rw [← hasGlyphRun_iff, Bool.not_eq_true]
  constructor
  · intro h
    have hg := hasGlyphRun_clean t
    have hb := not_hasBlankRun_clean t
    rw [h] at hg hb
    exact ⟨hg, hb, settled_of_clean_eq h⟩
  · rintro ⟨hg, hb, hs⟩
    exact clean_eq_self hs hg hb

/-- A document is clean after one cleaning, if no line that the filter keeps has a run of glyphs. -/
theorem clean_clean (t : Text) (h : ∀ l ∈ keptLines Rule.table t.lines, hasGlyphRun l = false) :
    clean (clean t) = clean t :=
  clean_eq_self (settled_clean h) (hasGlyphRun_clean t) (not_hasBlankRun_clean t)

/-- A long comment goes, and the blank lines in front of it and behind it come together and close up. -/
theorem clean_clean_gap :
    let t : Text := ['a', '\n', '\n', '/', '*', '\n', '1', '\n', '2', '\n', '*', '/', '\n', '\n', '\n', 'b']
    (∀ l ∈ keptLines Rule.table t.lines, hasGlyphRun l = false) ∧ clean t = ['a', '\n', '\n', 'b'] ∧
      clean (clean t) = clean t := by
  intro t
  have hg : ∀ l ∈ keptLines Rule.table t.lines, hasGlyphRun l = false := by decide +kernel
  exact ⟨hg, by decide +kernel, clean_clean t hg⟩

end Abridge.Noise
