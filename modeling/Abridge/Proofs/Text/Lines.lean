import Abridge.Text.Blank
import Abridge.Text.Lines

/-! Lines of texts that are put together. A newline in the middle keeps the lines on its two sides apart;
    without one the last line of the first text and the first line of the second become one
    (`lines_append`). A phrase that a text does not hold is in no piece of it either. -/

namespace Abridge
namespace Text

/-! ### Lists -/

section Lists
variable {α : Type} {as bs ks ls : List α} {k l : α}

theorem append_eq_append_cons (h : as ++ bs = ks ++ l :: ls) :
    (∃ ls', as = ks ++ l :: ls') ∨ ∃ ks', ks = as ++ ks' ∧ bs = ks' ++ l :: ls := by
  rcases List.append_eq_append_iff.mp h with ⟨cs, hks, hbs⟩ | ⟨cs, has, hls⟩
  · exact Or.inr ⟨cs, hks, hbs⟩
  · cases cs with
    | nil => exact Or.inr ⟨[], by simpa using has.symm, by simpa using hls.symm⟩
    | cons c cs =>
      cases hls
      exact Or.inl ⟨cs, has⟩

theorem singleton_eq_append_cons (h : [k] = ks ++ l :: ls) : ks = [] ∧ k = l := by
  cases ks with
  | nil => exact ⟨rfl, (List.cons.inj h).1⟩
  | cons _ _ => simp at h

theorem takeWhile_append_of_stop {p : α → Bool} (has : ∀ a ∈ as, p a = true) (hbs : ∀ b ∈ bs.head?, p b = false) :
    (as ++ bs).takeWhile p = as := by
  rw [List.takeWhile_append_of_pos has]
  cases bs with
  | nil => simp
  | cons b bs => simp [hbs b rfl]

theorem dropWhile_append_of_stop {p : α → Bool} (has : ∀ a ∈ as, p a = true) (hbs : ∀ b ∈ bs.head?, p b = false) :
    (as ++ bs).dropWhile p = bs := by
  rw [List.dropWhile_append_of_pos has]
  cases bs with
  | nil => rfl
  | cons b bs => simp [hbs b rfl]

end Lists

/-! ### Phrases and pieces -/

theorem contains_eq_false_iff {t part : Text} : t.contains part = false ↔ ¬part <:+: t := by
  rw [← contains_iff, Bool.not_eq_true]

/-- A piece of a text holds no phrase that the text does not hold. -/
theorem contains_eq_false_of_part {s t part : Text} (hs : s <:+: t) (h : t.contains part = false) :
    s.contains part = false := by
  rw [contains_eq_false_iff] at h ⊢
  exact fun hp => h (hp.trans hs)

/-- A text that misses a character of a phrase does not hold the phrase. -/
theorem contains_eq_false_of_not_mem {t part : Text} {c : Char} (hc : c ∈ part) (h : c ∉ t) :
    t.contains part = false := by
  rw [contains_eq_false_iff]
  exact fun hp => h (hp.subset hc)

theorem forall_mem_of_all {P : Char → Prop} [DecidablePred P] {t : Text} (h : t.all (fun c => decide (P c)) = true) :
    ∀ c ∈ t, P c := fun c hc => of_decide_eq_true (List.all_eq_true.mp h c hc)

/-! ### Blanks in front -/

theorem trimStart_suffix (t : Text) : t.trimStart <:+ t := List.dropWhile_suffix _

@[simp]
theorem isBlankLine_append (s t : Text) : isBlankLine (s ++ t) = (isBlankLine s && isBlankLine t) := List.all_append

@[simp]
theorem isBlankLine_cons (c : Char) (t : Text) : isBlankLine (c :: t) = (isBlank c && isBlankLine t) := List.all_cons

theorem isBlankLine_eq_false_of_mem {t : Text} {c : Char} (hc : c ∈ t) (h : isBlank c = false) :
    t.isBlankLine = false := by
  rw [isBlankLine, List.all_eq_false]
  exact ⟨c, hc, by simp [h]⟩

/-- What follows a text that is not blank stays behind it when the blanks in front go. -/
theorem trimStart_append {s : Text} (t : Text) (hs : s.isBlankLine = false) :
    trimStart (s ++ t) = trimStart s ++ t := by
  have hne : s.trimStart ≠ [] := fun h => by simp [trimStart_eq_nil_iff.mp h] at hs
  rw [trimStart, List.dropWhile_append]
  rw [trimStart] at hne
  simp [hne, trimStart]

/-! ### Joining -/

@[simp]
theorem ofLines_singleton (l : Line) : ofLines [l] = l := List.intercalate_singleton

theorem ofLines_cons {ls : List Line} (l : Line) (h : ls ≠ []) : ofLines (l :: ls) = l ++ '\n' :: ofLines ls := by
  rw [ofLines, List.intercalate_cons_of_ne_nil h]
  simp [ofLines]

theorem ofLines_append {ls ms : List Line} (hl : ls ≠ []) (hm : ms ≠ []) :
    ofLines (ls ++ ms) = ofLines ls ++ '\n' :: ofLines ms := by
  induction ls with
  | nil => exact absurd rfl hl
  | cons l ls ih =>
    cases ls with
    | nil => simp [ofLines_cons l hm]
    | cons k ls =>
      rw [List.cons_append, ofLines_cons l (by simp), ih (by simp), ofLines_cons l (by simp)]
      simp

theorem ofLines_sublist {ls ms : List Line} (h : ls.Sublist ms) : (ofLines ls).Sublist (ofLines ms) := by
  induction h with
  | slnil => exact List.Sublist.refl _
  | @cons ls ms m hs ih =>
    by_cases hm : ms = []
    · subst hm
      rw [List.eq_nil_of_sublist_nil hs]
      exact List.nil_sublist _
    · rw [ofLines_cons m hm]
      exact (ih.cons _).trans (List.sublist_append_right m _)
  | @cons_cons ls ms m hs ih =>
    by_cases hl : ls = []
    · subst hl
      by_cases hm : ms = []
      · subst hm
        exact List.Sublist.refl _
      · rw [ofLines_cons m hm, ofLines_singleton]
        exact List.sublist_append_left m _
    · have hm : ms ≠ [] := fun hm => hl (List.eq_nil_of_sublist_nil (hm ▸ hs))
      rw [ofLines_cons m hl, ofLines_cons m hm]
      exact (ih.cons_cons _).append_left m

/-! ### Splitting -/

theorem length_lines (t : Text) : t.lines.length = t.count '\n' + 1 := by
  induction t with
  | nil => rfl
  | cons c t ih =>
    have hcons := List.splitOn_cons_eq_if_modifyHead (a := '\n') c t
    simp only [lines] at ih ⊢
    rw [hcons]
    split
    case isTrue hc => simp [ih, eq_of_beq hc]
    case isFalse hc => simpa [List.count_cons, hc] using ih

theorem length_lines_le {s t : Text} (h : s.Sublist t) : s.lines.length ≤ t.lines.length := by
  rw [length_lines, length_lines]
  exact Nat.add_le_add_right (h.count_le '\n') 1

theorem lines_of_not_mem {l : Line} (h : '\n' ∉ l) : lines l = [l] := List.splitOn_eq_singleton h

/-- Lines up to one that is cut short are the start of a document. -/
theorem ofLines_prefix_ofLines (ks ls : List Line) {k l : Line} (h : k <+: l) :
    ofLines (ks ++ [k]) <+: ofLines (ks ++ l :: ls) := by
  have hfirst : k <+: ofLines (l :: ls) := by
    by_cases hls : ls = []
    · rwa [hls, ofLines_singleton]
    · rw [ofLines_cons l hls]
      exact h.trans (List.prefix_append _ _)
  by_cases hks : ks = []
  · rw [hks]
    simpa using hfirst
  · rw [ofLines_append hks (by simp), ofLines_append hks (by simp), ofLines_singleton]
    exact (List.prefix_append_right_inj _).mpr ((List.prefix_cons_inj _).mpr hfirst)

theorem prefix_of_lines {t : Text} {l : Line} {ls : List Line} (h : lines t = l :: ls) : l <+: t := by
  rw [← ofLines_lines t, h]
  simpa using ofLines_prefix_ofLines [] ls (List.prefix_refl l)

/-- Joined and split again, lines are what they were, but no line at all has become an empty one. -/
theorem lines_ofLines_cases {ls : List Line} (h : ∀ l ∈ ls, '\n' ∉ l) :
    lines (ofLines ls) = ls ∨ ls = [] ∧ lines (ofLines ls) = [[]] := by
  by_cases hls : ls = []
  · subst hls
    exact Or.inr ⟨rfl, rfl⟩
  · exact Or.inl (lines_ofLines hls h)

/-- Where two texts meet, the last line of the one and the first of the other are one line. -/
theorem lines_append (s t : Text) :
    ∃ ls l m ms, lines s = ls ++ [l] ∧ lines t = m :: ms ∧ lines (s ++ t) = ls ++ (l ++ m) :: ms := by
  obtain ⟨ls, l, hs⟩ : ∃ ls l, lines s = ls ++ [l] :=
    ⟨_, _, (List.dropLast_concat_getLast (lines_ne_nil s)).symm⟩
  obtain ⟨m, ms, ht⟩ := List.exists_cons_of_ne_nil (lines_ne_nil t)
  refine ⟨ls, l, m, ms, hs, ht, ?_⟩
  have hl : '\n' ∉ l := not_mem_of_mem_lines (t := s) l (by simp [hs])
  have hm : '\n' ∉ m := not_mem_of_mem_lines (t := t) m (by simp [ht])
  have hjoin : s ++ t = ofLines (ls ++ (l ++ m) :: ms) := by
    rw [← ofLines_lines s, ← ofLines_lines t, hs, ht]
    by_cases hls : ls = [] <;> by_cases hms : ms = []
    · simp [hls, hms]
    · simp [hls, ofLines_cons _ hms]
    · simp [hms, ofLines_append hls]
    · simp [ofLines_append hls, ofLines_cons _ hms]
  rw [hjoin, lines_ofLines (by simp)]
  simp only [List.mem_append, List.mem_cons]
  rintro k (hk | rfl | hk)
  · exact not_mem_of_mem_lines (t := s) k (by simp [hs, hk])
  · simp [hl, hm]
  · exact not_mem_of_mem_lines (t := t) k (by simp [ht, hk])

/-- A character in the middle of a line, with the lines in front of it and those behind. -/
theorem lines_append_cons {c : Char} (hc : c ≠ '\n') (s t : Text) :
    ∃ ks p q ls, lines (s ++ c :: t) = ks ++ (p ++ c :: q) :: ls ∧ lines (s ++ [c]) = ks ++ [p ++ [c]] := by
  have hone : lines [c] = [[c]] := lines_of_not_mem (by simpa using hc.symm)
  obtain ⟨ks, p, m, ls, hs, ht, h⟩ := lines_append s (c :: t)
  obtain ⟨ks', c', q, ls', hc', -, hct⟩ := lines_append [c] t
  obtain ⟨rfl, hcc⟩ := singleton_eq_append_cons (hone.symm.trans hc')
  rw [List.singleton_append, ht, ← hcc] at hct
  obtain ⟨rfl, rfl⟩ := List.cons.inj hct
  obtain ⟨ks', p', m', ls', hs', hm, h'⟩ := lines_append s [c]
  rw [hone] at hm
  obtain ⟨rfl, rfl⟩ := List.cons.inj hm
  obtain ⟨rfl, hp⟩ := List.append_inj' (hs.symm.trans hs') rfl
  obtain rfl := (List.cons.inj hp).1
  exact ⟨ks, p, q, ls, by simpa using h, h'⟩

end Text
end Abridge
