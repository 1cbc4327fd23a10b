import Abridge.Noise.Clean
import Abridge.Proofs.Text.Lines

/-! Runs of blank lines. A line that is not blank parts the lines in front of it from those behind it
    (`collapseLines_append_cons`), which is all that is needed to see what `collapseLines` does: it leaves
    no long run (`not_hasBlankRun_collapseLines`), and where there is none it changes nothing. `Collapsed` says
    run by run what becomes of a document, and `collapse_exact` that nothing else does. -/

namespace Abridge.Noise

/-- As many blank lines in a row as are too many. -/
def HasBlankRun (ls : List Line) : Prop := List.replicate blankRunLimit true <:+: ls.map Text.isBlankLine

instance (ls : List Line) : Decidable (HasBlankRun ls) := inferInstanceAs (Decidable (_ <:+: _))

/-! ### Long runs -/

theorem length_of_hasBlankRun {ls : List Line} (h : HasBlankRun ls) : blankRunLimit ≤ ls.length := by
  simpa using h.length_le

theorem HasBlankRun.of_part {ks ls : List Line} (h : HasBlankRun ks) (hk : ks <:+: ls) : HasBlankRun ls :=
  List.IsInfix.trans h (hk.map _)

theorem hasBlankRun_of_all_blank {ls : List Line} (h : ∀ l ∈ ls, l.isBlankLine = true)
    (hlen : blankRunLimit ≤ ls.length) : HasBlankRun ls := by
  have hmap : ls.map Text.isBlankLine = List.replicate ls.length true := by
    rw [List.eq_replicate_iff]
    simpa using h
  rw [HasBlankRun, hmap]
  refine ⟨[], List.replicate (ls.length - blankRunLimit) true, ?_⟩
  rw [List.nil_append, List.replicate_append_replicate, Nat.add_sub_cancel' hlen]

/-- No run goes across a line that is not blank. -/
theorem hasBlankRun_append_cons {l : Line} (ks ls : List Line) (hl : l.isBlankLine = false) :
    HasBlankRun (ks ++ l :: ls) ↔ HasBlankRun ks ∨ HasBlankRun ls := by
  constructor
  · intro h
    rw [HasBlankRun, List.map_append, List.map_cons, hl, List.infix_append_iff] at h
    rcases h with h | h | ⟨r, s, hrs, hr, hs⟩
    · exact Or.inl h
    · rcases List.infix_cons_iff.mp h with h | h
      · obtain ⟨_, h⟩ := h
        cases h
      · exact Or.inr h
    · -- The part behind the seam would start with the line that is not blank.
      have hnil : s = [] := by
        cases s with
        | nil => rfl
        | cons b s =>
          obtain ⟨_, hs⟩ := hs
          have hb : b ∈ List.replicate blankRunLimit true := by simp [hrs]
          rw [(List.mem_replicate.mp hb).2] at hs
          cases hs
      rw [hnil, List.append_nil] at hrs
      rw [← hrs] at hr
      exact Or.inl hr.isInfix
  · rintro (h | h)
    · exact h.of_part (List.prefix_append _ _).isInfix
    · exact h.of_part ((List.suffix_cons l ls).trans (List.suffix_append ks _)).isInfix

theorem hasBlankRun_cons {l : Line} (ls : List Line) (hl : l.isBlankLine = false) :
    HasBlankRun (l :: ls) ↔ HasBlankRun ls := by
  rw [← List.nil_append (l :: ls), hasBlankRun_append_cons [] ls hl, or_iff_right]
  exact fun h => absurd (length_of_hasBlankRun h) (by decide)

/-! ### What collapsing does to a run -/

theorem length_shortened_lt (run : List Line) : (shortened run).length < blankRunLimit := by
  unfold shortened
  split
  · decide
  · omega

theorem mem_shortened {run : List Line} {l : Line} (h : l ∈ shortened run) : l ∈ run ∨ l = [] := by
  unfold shortened at h
  split at h
  · exact Or.inr (List.mem_singleton.mp h)
  · exact Or.inl h

/-- What becomes of a run of blank lines: up to two of them stay, and three or more make one empty line. -/
inductive Shortens : List Line → List Line → Prop
  | stays {run} (h : run.length ≤ 2) : Shortens run run
  | closes {run} (h : 3 ≤ run.length) : Shortens run [[]]

theorem shortens_iff {run short : List Line} : Shortens run short ↔ shortened run = short := by
  constructor
  · rintro (h | h)
    · exact if_neg (Nat.not_le.mpr (Nat.lt_succ_of_le h))
    · exact if_pos h
  · rintro rfl
    unfold shortened
    split
    case isTrue h => exact .closes h
    case isFalse h => exact .stays (Nat.le_of_lt_succ (Nat.not_le.mp h))

theorem Shortens.blank {run short : List Line} (h : Shortens run short) (hrun : ∀ k ∈ run, k.isBlankLine = true) :
    ∀ k ∈ short, k.isBlankLine = true := by
  cases h with
  | stays => exact hrun
  | closes => exact List.forall_mem_singleton.mpr Text.isBlankLine_nil

/-! ### What collapsing does to the lines -/

theorem collapseAfter_append_cons {l : Line} (run ks ls : List Line) (hl : l.isBlankLine = false) :
    collapseAfter run (ks ++ l :: ls) = collapseAfter run ks ++ l :: collapseLines ls := by
  induction ks generalizing run with
  | nil => simp [collapseAfter, hl, collapseLines]
  | cons k ks ih =>
    rw [List.cons_append, collapseAfter, collapseAfter]
    split
    · exact ih _
    · rw [ih, List.append_assoc, List.cons_append]

/-- A line that is not blank stays and parts what is in front of it from what is behind it. -/
theorem collapseLines_append_cons {l : Line} (ks ls : List Line) (hl : l.isBlankLine = false) :
    collapseLines (ks ++ l :: ls) = collapseLines ks ++ l :: collapseLines ls :=
  collapseAfter_append_cons [] ks ls hl

/-- The lines and what becomes of them. Each run of blank lines goes up to the next line that is not blank, or to
    the end, so it is as long as it can be; it may have no line at all. -/
inductive Collapsed : List Line → List Line → Prop
  | last {run short} (hrun : ∀ k ∈ run, k.isBlankLine = true) (hs : Shortens run short) : Collapsed run short
  | next {run short l ls out} (hrun : ∀ k ∈ run, k.isBlankLine = true) (hs : Shortens run short)
      (hl : l.isBlankLine = false) (h : Collapsed ls out) : Collapsed (run ++ l :: ls) (short ++ l :: out)

theorem collapseAfter_of_blank (run : List Line) {ls : List Line} (h : ∀ l ∈ ls, l.isBlankLine = true) :
    collapseAfter run ls = shortened (run ++ ls) := by
  induction ls generalizing run with
  | nil => rw [collapseAfter, List.append_nil]
  | cons l ls ih =>
    rw [collapseAfter, if_pos (h l List.mem_cons_self), ih _ fun k hk => h k (List.mem_cons_of_mem _ hk),
      List.append_assoc, List.singleton_append]

theorem Collapsed.collapseLines_eq {ls out : List Line} (h : Collapsed ls out) : collapseLines ls = out := by
  induction h with
  | last hrun hs =>
    rw [collapseLines, collapseAfter_of_blank [] hrun, List.nil_append]
    exact shortens_iff.mp hs
  | next hrun hs hl _ ih =>
    rw [collapseLines_append_cons _ _ hl, ih, collapseLines, collapseAfter_of_blank [] hrun, List.nil_append,
      shortens_iff.mp hs]

theorem collapsed_collapseAfter {run : List Line} (hrun : ∀ k ∈ run, k.isBlankLine = true) (ls : List Line) :
    Collapsed (run ++ ls) (collapseAfter run ls) := by
  induction ls generalizing run with
  | nil =>
    rw [List.append_nil]
    exact .last hrun (shortens_iff.mpr rfl)
  | cons l ls ih =>
    rw [collapseAfter]
    split
    case isTrue hl =>
      rw [← List.singleton_append, ← List.append_assoc]
      exact ih (List.forall_mem_append.mpr ⟨hrun, List.forall_mem_singleton.mpr hl⟩)
    case isFalse hl =>
      have hrest : Collapsed ([] ++ ls) (collapseAfter [] ls) := ih (List.forall_mem_nil _)
      exact .next hrun (shortens_iff.mpr rfl) (by simpa using hl) hrest

theorem collapseLines_eq_iff {ls out : List Line} : collapseLines ls = out ↔ Collapsed ls out := by
  constructor
  · rintro rfl
    exact collapsed_collapseAfter (List.forall_mem_nil _) ls
  · exact Collapsed.collapseLines_eq

/-- The lines that are not blank stay, all of them and in their order. -/
theorem Collapsed.filter_eq {ls out : List Line} (h : Collapsed ls out) :
    out.filter (!·.isBlankLine) = ls.filter (!·.isBlankLine) := by
  have hblank : ∀ {run : List Line}, (∀ k ∈ run, k.isBlankLine = true) → run.filter (!·.isBlankLine) = [] := by
    intro run hrun
    rw [List.filter_eq_nil_iff]
    exact fun k hk => by simp [hrun k hk]
  induction h with
  | last hrun hs => rw [hblank (hs.blank hrun), hblank hrun]
  | next hrun hs _ _ ih =>
    rw [List.filter_append, List.filter_append, hblank (hs.blank hrun), hblank hrun, List.filter_cons, List.filter_cons, ih]

theorem Collapsed.mem {ls out : List Line} (h : Collapsed ls out) : ∀ l ∈ out, l ∈ ls ∨ l = [] := by
  have hshort : ∀ {run short : List Line}, Shortens run short → ∀ l ∈ short, l ∈ run ∨ l = [] := by
    intro run short hs l hl
    rw [← shortens_iff.mp hs] at hl
    exact mem_shortened hl
  induction h with
  | last _ hs => exact hshort hs
  | next _ hs _ _ ih =>
    intro k hk
    simp only [List.mem_append, List.mem_cons] at hk ⊢
    rcases hk with hk | rfl | hk
    · exact (hshort hs k hk).imp_left Or.inl
    · exact Or.inl (Or.inr (Or.inl rfl))
    · exact (ih k hk).imp_left fun h => Or.inr (Or.inr h)

theorem Collapsed.split {l : Line} {ms ks ls : List Line} (hl : l.isBlankLine = false) (h : Collapsed ms (ks ++ l :: ls)) :
    ∃ ms₁ ms₂, ms = ms₁ ++ l :: ms₂ ∧ Collapsed ms₁ ks := by
  -- What stays of a run is blank, so the line is not in it.
  have hnot : ∀ {short ks ls : List Line}, (∀ k ∈ short, k.isBlankLine = true) → short ≠ ks ++ l :: ls := by
    rintro _ ks ls hblank rfl
    rw [hblank l (by simp)] at hl
    cases hl
  generalize hout : ks ++ l :: ls = out at h
  induction h generalizing ks with
  | last hrun hs => exact absurd hout.symm (hnot (hs.blank hrun))
  | @next run short k ms out hrun hs hk h ih =>
    rcases Text.append_eq_append_cons hout.symm with ⟨ls', hshort⟩ | ⟨ks', rfl, hrest⟩
    · exact absurd hshort (hnot (hs.blank hrun))
    · cases ks' with
      | nil =>
        obtain ⟨rfl, -⟩ := List.cons.inj hrest
        exact ⟨run, ms, rfl, by simpa using .last hrun hs⟩
      | cons k' ks' =>
        obtain ⟨rfl, htail⟩ := List.cons.inj hrest
        obtain ⟨ms₁, ms₂, rfl, hks⟩ := ih htail.symm
        exact ⟨run ++ k :: ms₁, ms₂, by simp, .next hrun hs hk hks⟩

/-- What follows a line that is not blank makes no difference to what is in front of it. -/
theorem collapseLines_append {l : Line} {ms ks ls : List Line} (hl : l.isBlankLine = false)
    (h : collapseLines ms = ks ++ l :: ls) (ns : List Line) : ∃ ls', collapseLines (ms ++ ns) = ks ++ l :: ls' := by
  obtain ⟨ms₁, ms₂, rfl, hks⟩ := (collapseLines_eq_iff.mp h).split hl
  refine ⟨collapseLines (ms₂ ++ ns), ?_⟩
  rw [List.append_assoc, List.cons_append, collapseLines_append_cons _ _ hl, hks.collapseLines_eq]

theorem Collapsed.not_hasBlankRun {ls out : List Line} (h : Collapsed ls out) : ¬HasBlankRun out := by
  have hshort : ∀ {run short : List Line}, Shortens run short → ¬HasBlankRun short := by
    intro run short hs hr
    rw [← shortens_iff.mp hs] at hr
    exact Nat.not_lt.mpr (length_of_hasBlankRun hr) (length_shortened_lt run)
  induction h with
  | last _ hs => exact hshort hs
  | next _ hs hl _ ih =>
    rw [hasBlankRun_append_cons _ _ hl, not_or]
    exact ⟨hshort hs, ih⟩

theorem not_hasBlankRun_collapseLines (ls : List Line) : ¬HasBlankRun (collapseLines ls) :=
  (collapseLines_eq_iff.mp rfl).not_hasBlankRun

theorem Collapsed.eq_self {ls out : List Line} (h : Collapsed ls out) (hnone : ¬HasBlankRun ls) : out = ls := by
  have hshort : ∀ {run short : List Line}, (∀ k ∈ run, k.isBlankLine = true) → Shortens run short →
      ¬HasBlankRun run → short = run := by
    rintro run _ hrun (- | hlen) hnone
    · rfl
    · exact absurd (hasBlankRun_of_all_blank hrun hlen) hnone
  induction h with
  | last hrun hs => exact hshort hrun hs hnone
  | next hrun hs hl _ ih =>
    rw [hasBlankRun_append_cons _ _ hl, not_or] at hnone
    rw [hshort hrun hs hnone.1, ih hnone.2]

theorem collapseLines_eq_self {ls : List Line} (h : ¬HasBlankRun ls) : collapseLines ls = ls :=
  (collapseLines_eq_iff.mp rfl).eq_self h

theorem mem_collapseLines {ls : List Line} {l : Line} (h : l ∈ collapseLines ls) : l ∈ ls ∨ l = [] :=
  (collapseLines_eq_iff.mp rfl).mem l h

theorem Shortens.eq_nil_iff {run short : List Line} (h : Shortens run short) : short = [] ↔ run = [] := by
  cases h with
  | stays => exact Iff.rfl
  | closes h => exact ⟨fun hnil => absurd hnil (List.cons_ne_nil _ _), fun hnil => by simp [hnil] at h⟩

theorem Collapsed.eq_nil_iff {ls out : List Line} (h : Collapsed ls out) : out = [] ↔ ls = [] := by
  cases h with
  | last _ hs => exact hs.eq_nil_iff
  | next => simp

theorem collapseLines_ne_nil {ls : List Line} (h : ls ≠ []) : collapseLines ls ≠ [] :=
  mt (collapseLines_eq_iff.mp rfl).eq_nil_iff.mp h

/-! ### Nothing is put in -/

theorem Collapsed.ofLines_sublist {ls out : List Line} (h : Collapsed ls out) :
    (Text.ofLines out).Sublist (Text.ofLines ls) := by
  have hshort : ∀ {run short : List Line}, Shortens run short → (Text.ofLines short).Sublist (Text.ofLines run) := by
    rintro run _ (- | -)
    · exact List.Sublist.refl _
    · simp
  induction h with
  | last _ hs => exact hshort hs
  | @next run short l ls out _ hs _ h ih =>
    have htail : (Text.ofLines (l :: out)).Sublist (Text.ofLines (l :: ls)) := by
      by_cases hls : ls = []
      · have hout : out = [] := h.eq_nil_iff.mpr hls
        subst hls hout
        exact List.Sublist.refl _
      · rw [Text.ofLines_cons l (mt h.eq_nil_iff.mp hls), Text.ofLines_cons l hls]
        exact (ih.cons_cons _).append_left l
    by_cases hrun : run = []
    · rw [hrun, hs.eq_nil_iff.mpr hrun]
      exact htail
    · rw [Text.ofLines_append (mt hs.eq_nil_iff.mp hrun) (by simp), Text.ofLines_append hrun (by simp)]
      exact (hshort hs).append (htail.cons_cons _)

theorem collapse_sublist (t : Text) : (collapse t).Sublist t := by
  have h : Collapsed t.lines (collapseLines t.lines) := collapseLines_eq_iff.mp rfl
  have hsub := h.ofLines_sublist
  rwa [Text.ofLines_lines] at hsub

/-! ### Documents -/

theorem lines_collapse (t : Text) : (collapse t).lines = collapseLines t.lines := by
  refine Text.lines_ofLines (collapseLines_ne_nil (Text.lines_ne_nil t)) fun l hl => ?_
  rcases mem_collapseLines hl with hl | rfl
  · exact Text.not_mem_of_mem_lines l hl
  · simp

theorem collapse_eq_self {t : Text} (h : ¬HasBlankRun t.lines) : collapse t = t := by
  rw [collapse, collapseLines_eq_self h, Text.ofLines_lines]

/-- A document collapses run by run and keeps its other lines. No three blank lines in a row are left, so nothing is
    left to do, and nothing changes just where there were none. -/
theorem collapse_exact (t : Text) :
    (∀ u, collapse t = u ↔ Collapsed t.lines u.lines) ∧
      (collapse t).lines.filter (!·.isBlankLine) = t.lines.filter (!·.isBlankLine) ∧
      ¬HasBlankRun (collapse t).lines ∧ collapse (collapse t) = collapse t ∧
      (collapse t = t ↔ ¬HasBlankRun t.lines) := by
  have hcollapsed : ∀ u, collapse t = u ↔ Collapsed t.lines u.lines := by
    intro u
    rw [← collapseLines_eq_iff, ← lines_collapse]
    constructor
    · rintro rfl
      rfl
    · intro h
      rw [← Text.ofLines_lines (collapse t), h, Text.ofLines_lines]
  have hnone : ¬HasBlankRun (collapse t).lines := by
    rw [lines_collapse]
    exact not_hasBlankRun_collapseLines _
  refine ⟨hcollapsed, ((hcollapsed _).mp rfl).filter_eq, hnone, collapse_eq_self hnone, fun h => ?_, collapse_eq_self⟩
  rwa [h] at hnone

/-- Blank lines at the end of a document are a run like any other. -/
example : collapse ['\n', '\t', '\n', 'a', '\n', '\n', ' ', '\n', '\r'] = ['\n', '\t', '\n', 'a', '\n'] := by decide

end Abridge.Noise
