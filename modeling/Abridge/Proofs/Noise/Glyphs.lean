import Abridge.Noise.Glyph
import Abridge.Proofs.Text.Lines

/-! Runs of glyphs. What goes with `stripGlyphs` is whole runs, so no two glyphs come together that were
    apart (`hasGlyphRun_stripGlyphs`), and a newline is no glyph, so each line is stripped for itself
    (`stripGlyphs_ofLines`). -/

namespace Abridge.Noise

/-! ### Pairs of glyphs -/

theorem hasGlyphRun_cons (c : Char) (t : Text) :
    hasGlyphRun (c :: t) = ((isGlyph c && t.head?.any isGlyph) || hasGlyphRun t) := by
  cases t with
  | nil => simp [hasGlyphRun]
  | cons d t => rfl

/-- A text has a run of glyphs just if two glyphs stand side by side in it. -/
theorem hasGlyphRun_iff {t : Text} :
    hasGlyphRun t = true ↔ ∃ a b, isGlyph a = true ∧ isGlyph b = true ∧ [a, b] <:+: t := by
  induction t with
  | nil => simp [hasGlyphRun]
  | cons c t ih =>
    rw [hasGlyphRun_cons, Bool.or_eq_true, Bool.and_eq_true, Option.any_eq_true, ih]
    constructor
    · rintro (⟨hc, d, hd, hg⟩ | ⟨a, b, ha, hb, h⟩)
      · obtain ⟨s, rfl⟩ := List.head?_eq_some_iff.mp hd
        exact ⟨c, d, hc, hg, [], s, rfl⟩
      · exact ⟨a, b, ha, hb, h.trans (List.suffix_cons c t).isInfix⟩
    · rintro ⟨a, b, ha, hb, h⟩
      rcases List.infix_cons_iff.mp h with h | h
      · obtain ⟨s, hs⟩ := h
        cases hs
        exact Or.inl ⟨ha, b, rfl, hb⟩
      · exact Or.inr ⟨a, b, ha, hb, h⟩

theorem hasGlyphRun_eq_false_of_part {s t : Text} (hs : s <:+: t) (h : hasGlyphRun t = false) :
    hasGlyphRun s = false := by
  rw [← Bool.not_eq_true, hasGlyphRun_iff] at h ⊢
  rintro ⟨a, b, ha, hb, hab⟩
  exact h ⟨a, b, ha, hb, hab.trans hs⟩

/-- No run goes across a character that is no glyph. -/
theorem hasGlyphRun_append_cons {c : Char} (s t : Text) (hc : isGlyph c = false) :
    hasGlyphRun (s ++ c :: t) = (hasGlyphRun s || hasGlyphRun t) := by
  induction s with
  | nil => simp [hasGlyphRun_cons, hc, hasGlyphRun]
  | cons d s ih =>
    have hhead : (s ++ c :: t).head?.any isGlyph = s.head?.any isGlyph := by cases s <;> simp [hc]
    rw [List.cons_append, hasGlyphRun_cons, hhead, ih, hasGlyphRun_cons, Bool.or_assoc]

theorem hasGlyphRun_ofLines (ls : List Line) : hasGlyphRun (.ofLines ls) = ls.any hasGlyphRun := by
  induction ls with
  | nil => rfl
  | cons l ls ih =>
    by_cases hls : ls = []
    · simp [hls]
    · rw [Text.ofLines_cons l hls, hasGlyphRun_append_cons _ _ (by decide), ih, List.any_cons]

/-! ### Stripping -/

/-- A text without a run stays as it is, also behind a glyph if it starts with none. -/
theorem stripGlyphsAfter_eq_self {b : Bool} {t : Text} (h : hasGlyphRun t = false)
    (hb : b = true → t.head?.any isGlyph = false) : stripGlyphsAfter b t = t := by
  induction t generalizing b with
  | nil => rfl
  | cons c t ih =>
    rw [hasGlyphRun_cons, Bool.or_eq_false_iff] at h
    have hkeep : (isGlyph c && (b || t.head?.any isGlyph)) = false := by
      cases b with
      | false => simpa using h.1
      | true =>
        have hc : isGlyph c = false := by simpa using hb rfl
        simp [hc]
    rw [stripGlyphsAfter, hkeep, if_neg (by simp), ih h.2]
    intro hc
    simpa [hc] using h.1

theorem stripGlyphs_eq_self {t : Text} (h : hasGlyphRun t = false) : stripGlyphs t = t :=
  stripGlyphsAfter_eq_self h (by simp)

/-- What is left has no run, and behind a glyph it does not start with one. -/
theorem stripGlyphsAfter_spec (b : Bool) (t : Text) :
    hasGlyphRun (stripGlyphsAfter b t) = false ∧
      (b = true → (stripGlyphsAfter b t).head?.any isGlyph = false) := by
  induction t generalizing b with
  | nil => simp [stripGlyphsAfter, hasGlyphRun]
  | cons c t ih =>
    rw [stripGlyphsAfter]
    split
    case isTrue => exact ⟨(ih true).1, fun _ => (ih true).2 rfl⟩
    case isFalse h =>
      obtain ⟨hrun, hhead⟩ := ih (isGlyph c)
      rw [hasGlyphRun_cons, hrun, Bool.or_false]
      cases hc : isGlyph c with
      | false => simp [hc]
      | true =>
        rw [hc] at hhead h
        simp only [Bool.true_and, Bool.or_eq_true, not_or, Bool.not_eq_true] at h
        exact ⟨by simpa using hhead rfl, fun hb => absurd hb (by simp [h.1])⟩

/-- No two glyphs come together that were apart. -/
theorem hasGlyphRun_stripGlyphs (t : Text) : hasGlyphRun (stripGlyphs t) = false := (stripGlyphsAfter_spec false t).1

theorem stripGlyphs_eq_self_iff {t : Text} : stripGlyphs t = t ↔ hasGlyphRun t = false := by
  refine ⟨fun h => ?_, stripGlyphs_eq_self⟩
  rw [← h]
  exact hasGlyphRun_stripGlyphs t

theorem stripGlyphsAfter_append_cons {c : Char} (b : Bool) (s t : Text) (hc : isGlyph c = false) :
    stripGlyphsAfter b (s ++ c :: t) = stripGlyphsAfter b s ++ c :: stripGlyphs t := by
  induction s generalizing b with
  | nil => simp [stripGlyphsAfter, hc, stripGlyphs]
  | cons d s ih =>
    have hhead : (s ++ c :: t).head?.any isGlyph = s.head?.any isGlyph := by cases s <;> simp [hc]
    rw [List.cons_append, stripGlyphsAfter, hhead, stripGlyphsAfter]
    split <;> simp [ih]

/-- Each line is stripped for itself. -/
theorem stripGlyphs_ofLines (ls : List Line) : stripGlyphs (.ofLines ls) = .ofLines (ls.map stripGlyphs) := by
  induction ls with
  | nil => rfl
  | cons l ls ih =>
    by_cases hls : ls = []
    · simp [hls]
    · rw [Text.ofLines_cons l hls, List.map_cons, Text.ofLines_cons _ (by simpa using hls), ← ih]
      exact stripGlyphsAfter_append_cons false l _ (by decide)

theorem not_mem_stripGlyphs {c : Char} {t : Text} (h : c ∉ t) : c ∉ stripGlyphs t :=
  fun hc => h ((stripGlyphs_sublist t).subset hc)

end Abridge.Noise
