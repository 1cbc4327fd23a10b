import Abridge.Noise.Clean
import Abridge.Proofs.Noise.BlankRuns
import Abridge.Proofs.Noise.Glyphs
import Abridge.Proofs.Noise.Pieces

/-! What leaves settled lines settled: closing up runs of blank lines, for no block holds a long run; cutting
    the last line behind a brace, unless that leaves the heading of an example; changing lines one by one in
    harmless ways; and dropping the blank lines in front. -/

namespace Abridge.Noise

variable {ordinary : Line → Prop}

/-! ### What lines say -/

theorem sectionPhrase?_eq_none_iff {l : Line} :
    sectionPhrase? l = none ↔ ∀ phrase ∈ sectionPhrases, l.contains phrase = false := by
  simp [sectionPhrase?, List.find?_eq_none]

theorem isVerbose_eq_false_iff {l : Line} : isVerbose l = false ↔ ∀ phrase ∈ verbosePhrases, l.contains phrase = false := by
  simp [isVerbose, List.any_eq_false]

theorem sectionPhrase?_of_part {k l : Line} (hk : k <:+: l) (h : sectionPhrase? l = none) : sectionPhrase? k = none := by
  rw [sectionPhrase?_eq_none_iff] at h ⊢
  exact fun phrase hp => Text.contains_eq_false_of_part hk (h phrase hp)

theorem isVerbose_of_part {k l : Line} (hk : k <:+: l) (h : isVerbose l = false) : isVerbose k = false := by
  rw [isVerbose_eq_false_iff] at h ⊢
  exact fun phrase hp => Text.contains_eq_false_of_part hk (h phrase hp)

/-- Each section phrase has a capital E. -/
theorem sectionPhrase?_of_not_mem {l : Line} (h : 'E' ∉ l) : sectionPhrase? l = none := by
  have hall : ∀ phrase ∈ sectionPhrases, 'E' ∈ phrase := by decide
  rw [sectionPhrase?_eq_none_iff]
  exact fun phrase hp => Text.contains_eq_false_of_not_mem (hall phrase hp) h

theorem afterOpening?_of_not_mem {l : Line} {c : Char} (hc : c ∈ commentOpen) (h : c ∉ l) : afterOpening? l = none := by
  rw [Option.eq_none_iff_forall_ne_some]
  intro rest ho
  rw [afterOpening?, List.isPrefixOf?_eq_some_iff_append_eq] at ho
  exact h ((Text.trimStart_suffix l).subset (ho ▸ List.mem_append_left rest hc))

theorem isBlankLine_of_opening {l : Line} (h : (afterOpening? l).isSome) : l.isBlankLine = false := by
  obtain ⟨rest, hr⟩ := Option.isSome_iff_exists.mp h
  rw [afterOpening?_eq_some_iff] at hr
  rw [← Bool.not_eq_true, ← Text.trimStart_eq_nil_iff, hr]
  simp

theorem isBlankLine_of_close {l : Line} (h : l.contains commentClose = true) : l.isBlankLine = false := by
  have hmem : '*' ∈ l := (Text.contains_iff.mp h).subset (by simp [commentClose])
  exact Text.isBlankLine_eq_false_of_mem hmem (by decide)

theorem isSeparator_eq_false {l : Line} {c : Char} (hc : c ∈ l) (h : isSeparatorChar c = false) :
    isSeparator l = false := by
  have hall : l.all isSeparatorChar = false := by
    rw [List.all_eq_false]
    exact ⟨c, hc, by simp [h]⟩
  simp [isSeparator, hall]

theorem isExampleHeading_of_isDeclaration {l : Line} (h : isDeclaration l = true) : isExampleHeading l = false := by
  have hword : l.contains functionWord = true := by
    rw [Text.contains_iff]
    exact (List.isPrefixOf_iff_prefix.mp h).isInfix.trans (Text.trimStart_suffix l).isInfix
  simp [isExampleHeading, hword]

theorem first?_table_eq_none {l : Line} (hs : isSeparator l = false) (hg : hasGlyphRun l = false)
    (he : isExampleHeading l = false) : Rule.first? Rule.table l = none := by
  rw [Rule.first?_eq_none_iff]
  simp [Rule.table, Rule.separator, Rule.glyphRun, Rule.exampleHeading, hs, hg, he]

/-- A line kept at the end of a section is ordinary, if it has no run of glyphs. -/
theorem ordinary_of_loose {l : Line} (h : Loose Rule.table l) (hg : hasGlyphRun l = false) : Ordinary Rule.table l := by
  refine ⟨h.phrase, h.opening, ?_⟩
  rcases h.rule with hr | hd
  · exact hr
  · have hf : 'f' ∈ l := by
      have hpre : functionWord <+: l.trimStart := List.isPrefixOf_iff_prefix.mp hd
      exact (Text.trimStart_suffix l).subset (hpre.subset (by simp [functionWord]))
    exact first?_table_eq_none (isSeparator_eq_false hf (by decide)) hg (isExampleHeading_of_isDeclaration hd)

theorem ordinary_nil : Ordinary Rule.table [] := ⟨by decide, by decide, by decide⟩

/-! ### Closing up blank lines -/

theorem Opened.collapseAfter_eq {b : List Line} (h : Opened b) (hs : Stays b) (run : List Line) :
    collapseAfter run b = shortened run ++ b := by
  obtain ⟨l, ls, rfl⟩ := List.exists_cons_of_ne_nil h.ne_nil
  have hlen : ls.length < blankRunLimit := Nat.lt_of_succ_lt_succ hs.short
  rw [← List.nil_append (l :: ls), collapseAfter_append_cons run [] ls (isBlankLine_of_opening h.head),
    collapseLines_eq_self fun h => Nat.not_lt.mpr (length_of_hasBlankRun h) hlen]
  rfl

theorem Closed.collapseAfter_append {b : List Line} (h : Closed b) (hs : Stays b) (run ls : List Line) :
    collapseAfter run (b ++ ls) = shortened run ++ b ++ collapseLines ls := by
  cases h with
  | @first l rest _ ho _ =>
    rw [← List.nil_append ([l] ++ ls), List.singleton_append,
      collapseAfter_append_cons run [] ls (isBlankLine_of_opening (by simp [ho]))]
    simp [collapseAfter]
  | @next b l hb _ hc =>
    have hsb : Stays b :=
      ⟨Nat.lt_of_le_of_lt (by simp) hs.short, fun k hk => hs.quiet k (List.mem_append_left _ hk)⟩
    rw [List.append_assoc, List.singleton_append, collapseAfter_append_cons run b ls (isBlankLine_of_close hc),
      hb.collapseAfter_eq hsb]
    simp

theorem pieces_shortened {run : List Line} (hnil : ordinary []) (hrun : ∀ l ∈ run, ordinary l) :
    Pieces ordinary (shortened run) := by
  have key : ∀ ls : List Line, (∀ l ∈ ls, ordinary l) → Pieces ordinary ls := by
    intro ls hls
    induction ls with
    | nil => exact .nil
    | cons l ls ih => exact .line (hls l (by simp)) (ih fun k hk => hls k (List.mem_cons_of_mem _ hk))
  refine key _ fun l hl => ?_
  rcases mem_shortened hl with hl | rfl
  · exact hrun l hl
  · exact hnil

/-- Settled lines stay settled when their runs of blank lines close up. -/
theorem Settled.collapseLines {ls : List Line} (hnil : ordinary []) (h : Settled ordinary ls) :
    Settled ordinary (collapseLines ls) := by
  obtain ⟨ms, b, rfl, hm, hb⟩ := h
  suffices key : ∀ run, (∀ l ∈ run, ordinary l) → Settled ordinary (collapseAfter run (ms ++ b)) from key [] (by simp)
  induction hm with
  | nil =>
    intro run hrun
    rcases hb with rfl | ⟨hb, hs⟩
    · exact (pieces_shortened hnil hrun).settled
    · rw [List.nil_append, hb.collapseAfter_eq hs]
      exact .prepend (pieces_shortened hnil hrun) ⟨[], b, rfl, .nil, Or.inr ⟨hb, hs⟩⟩
  | @line l ls hl _ ih =>
    intro run hrun
    rw [List.cons_append, collapseAfter]
    split
    case isTrue =>
      exact ih _ (List.forall_mem_append.mpr ⟨hrun, List.forall_mem_singleton.mpr hl⟩)
    case isFalse =>
      exact .prepend (pieces_shortened hnil hrun) (.prepend (.line hl .nil) (ih [] (by simp)))
  | block hc hs _ ih =>
    intro run hrun
    rw [List.append_assoc, hc.collapseAfter_append hs, List.append_assoc]
    have hblock : Pieces ordinary _ := .block hc hs .nil
    rw [List.append_nil] at hblock
    exact .prepend (pieces_shortened hnil hrun) (.prepend hblock (ih [] (by simp)))

/-! ### Cutting the last line behind a brace -/

/-- Neither cutting a line behind a brace nor what follows there tells on how it opens. -/
theorem afterOpening?_cut (q m : Line) :
    afterOpening? (q ++ '}' :: m) = (afterOpening? (q ++ ['}'])).map (· ++ m) := by
  have htrim : ∀ m : Line, Text.trimStart (q ++ '}' :: m) = Text.trimStart q ++ '}' :: m := by
    intro m
    cases hq : q.isBlankLine with
    | false => exact Text.trimStart_append _ hq
    | true =>
      have hbrace : isBlank '}' = false := by decide
      have hall : ∀ c ∈ q, isBlank c = true := List.all_eq_true.mp hq
      rw [Text.trimStart_eq_nil_iff.mpr hq, Text.trimStart, List.dropWhile_append_of_pos hall]
      simp [hbrace]
  rw [afterOpening?, afterOpening?, htrim m, htrim []]
  rcases Text.trimStart q with _ | ⟨a, _ | ⟨b, s⟩⟩
  · rfl
  · simp [commentOpen, List.isPrefixOf?]
  · by_cases ha : '/' = a
    · by_cases hb : '*' = b
      · subst ha hb
        simp [commentOpen, List.isPrefixOf?]
      · simp [commentOpen, List.isPrefixOf?, hb]
    · simp [commentOpen, List.isPrefixOf?, ha]

section Cut
variable {q m : Line}

theorem prefix_cut : q ++ ['}'] <+: q ++ '}' :: m := ⟨m, by simp⟩

theorem Ordinary.cut (h : Ordinary Rule.table (q ++ '}' :: m)) (he : isExampleHeading (q ++ ['}']) = false) :
    Ordinary Rule.table (q ++ ['}']) := by
  refine ⟨sectionPhrase?_of_part prefix_cut.isInfix h.phrase, ?_, ?_⟩
  · have ho := h.opening
    rwa [afterOpening?_cut, Option.map_eq_none_iff] at ho
  · have hg : hasGlyphRun (q ++ '}' :: m) = false :=
      Rule.first?_eq_none_iff.mp h.rule Rule.glyphRun (by simp [Rule.table])
    have hs : isSeparator (q ++ ['}']) = false := isSeparator_eq_false (c := '}') (by simp) (by decide)
    exact first?_table_eq_none hs (hasGlyphRun_eq_false_of_part prefix_cut.isInfix hg) he

theorem opened_or_closed_of_opening {rest : Line} (hp : sectionPhrase? (q ++ '}' :: m) = none)
    (ho : afterOpening? (q ++ '}' :: m) = some rest) :
    Opened [q ++ ['}']] ∨ Closed [q ++ ['}']] ∧ rest.contains commentClose = true := by
  rw [afterOpening?_cut, Option.map_eq_some_iff] at ho
  obtain ⟨s, hs, rfl⟩ := ho
  have hp' := sectionPhrase?_of_part prefix_cut.isInfix hp
  cases hc : s.contains commentClose with
  | false => exact Or.inl (.first hp' hs hc)
  | true =>
    refine Or.inr ⟨.first hp' hs hc, ?_⟩
    rw [Text.contains_iff] at hc ⊢
    exact hc.trans (List.prefix_append s m).isInfix

theorem Opened.cut {ks ls b : List Line} (h : Opened b) (hb : b = ks ++ (q ++ '}' :: m) :: ls) :
    Opened (ks ++ [q ++ ['}']]) := by
  induction h generalizing ls with
  | first hp ho hc =>
    obtain ⟨rfl, rfl⟩ := Text.singleton_eq_append_cons hb
    rcases opened_or_closed_of_opening hp ho with h | ⟨-, h⟩
    · exact h
    · rw [hc] at h
      cases h
  | next hb' hp hc ih =>
    rcases Text.append_eq_append_cons hb with ⟨ls', hls⟩ | ⟨ks', rfl, hl⟩
    · exact ih hls
    · obtain ⟨rfl, rfl⟩ := Text.singleton_eq_append_cons hl
      rw [List.append_nil]
      exact .next hb' (sectionPhrase?_of_part prefix_cut.isInfix hp)
        (Text.contains_eq_false_of_part prefix_cut.isInfix hc)

theorem Closed.cut {ks ls b : List Line} (h : Closed b) (hb : b = ks ++ (q ++ '}' :: m) :: ls) :
    Opened (ks ++ [q ++ ['}']]) ∨ Closed (ks ++ [q ++ ['}']]) := by
  cases h with
  | first hp ho hc =>
    obtain ⟨rfl, rfl⟩ := Text.singleton_eq_append_cons hb
    exact (opened_or_closed_of_opening hp ho).imp_right And.left
  | next hb' hp hc =>
    rcases Text.append_eq_append_cons hb with ⟨ls', hls⟩ | ⟨ks', rfl, hl⟩
    · exact Or.inl (hb'.cut hls)
    · obtain ⟨rfl, rfl⟩ := Text.singleton_eq_append_cons hl
      rw [List.append_nil]
      have hp' := sectionPhrase?_of_part (prefix_cut (m := m)).isInfix hp
      cases hq : Text.contains (q ++ ['}']) commentClose with
      | false => exact Or.inl (.next hb' hp' hq)
      | true => exact Or.inr (.next hb' hp' hq)

theorem Stays.cut {ks ls : List Line} (h : Stays (ks ++ (q ++ '}' :: m) :: ls)) : Stays (ks ++ [q ++ ['}']]) := by
  have hlen := h.short
  obtain ⟨hks, hline⟩ := List.forall_mem_append.mp h.quiet
  have hcut : isVerbose (q ++ ['}']) = false := isVerbose_of_part prefix_cut.isInfix (hline _ List.mem_cons_self)
  refine ⟨?_, List.forall_mem_append.mpr ⟨hks, List.forall_mem_singleton.mpr hcut⟩⟩
  simp only [List.length_append, List.length_cons, List.length_nil] at hlen ⊢
  omega

theorem Pieces.cut {ks ls all : List Line} (h : Pieces ordinary all)
    (hcut : ordinary (q ++ '}' :: m) → ordinary (q ++ ['}'])) (hall : all = ks ++ (q ++ '}' :: m) :: ls) :
    Settled ordinary (ks ++ [q ++ ['}']]) := by
  induction h generalizing ks with
  | nil => simp at hall
  | @line l ls' hl _ ih =>
    rw [← List.singleton_append] at hall
    rcases Text.append_eq_append_cons hall with ⟨_, hl'⟩ | ⟨ks', rfl, hls⟩
    · obtain ⟨rfl, rfl⟩ := Text.singleton_eq_append_cons hl'
      exact (Pieces.line (hcut hl) .nil).settled
    · rw [List.append_assoc]
      exact .prepend (.line hl .nil) (ih hls)
  | block hc hs _ ih =>
    rcases Text.append_eq_append_cons hall with ⟨_, rfl⟩ | ⟨ks', rfl, hls⟩
    · rcases hc.cut rfl with ho | hc'
      · exact ⟨[], _, rfl, .nil, Or.inr ⟨ho, hs.cut⟩⟩
      · have hp : Pieces ordinary _ := .block hc' hs.cut .nil
        rw [List.append_nil] at hp
        exact hp.settled
    · rw [List.append_assoc]
      refine .prepend ?_ (ih hls)
      simpa using Pieces.block hc hs .nil

/-- Settled lines stay settled when the document is cut behind a brace and what is left of the line there is
    ordinary if the line was. -/
theorem Settled.cut {ks ls : List Line} (h : Settled ordinary (ks ++ (q ++ '}' :: m) :: ls))
    (hcut : ordinary (q ++ '}' :: m) → ordinary (q ++ ['}'])) : Settled ordinary (ks ++ [q ++ ['}']]) := by
  obtain ⟨ms, b, hall, hm, hb⟩ := h
  rcases Text.append_eq_append_cons hall.symm with ⟨_, rfl⟩ | ⟨ks', rfl, hls⟩
  · exact hm.cut hcut rfl
  · rw [List.append_assoc]
    refine .prepend hm ?_
    rcases hb with rfl | ⟨ho, hs⟩
    · simp at hls
    · subst hls
      exact ⟨[], _, rfl, .nil, Or.inr ⟨ho.cut rfl, hs.cut⟩⟩

end Cut

/-! ### Changing lines, and dropping blank ones in front -/

/-- A change of lines of which a comment block takes no notice. -/
structure Harmless (g : Line → Line) : Prop where
  phrase : ∀ l, sectionPhrase? l = none → sectionPhrase? (g l) = none
  verbose : ∀ l, isVerbose l = false → isVerbose (g l) = false
  opening : ∀ l, (afterOpening? l).isSome → g l = l
  close : ∀ l, (g l).contains commentClose = l.contains commentClose

section Harmless
variable {g : Line → Line}

theorem Opened.map (hg : Harmless g) {b : List Line} (h : Opened b) : Opened (b.map g) := by
  induction h with
  | first hp ho hc =>
    rw [List.map_singleton, hg.opening _ (by simp [ho])]
    exact .first hp ho hc
  | next _ hp hc ih =>
    rw [List.map_append]
    exact .next ih (hg.phrase _ hp) (by rw [hg.close, hc])

theorem Closed.map (hg : Harmless g) {b : List Line} (h : Closed b) : Closed (b.map g) := by
  cases h with
  | first hp ho hc =>
    rw [List.map_singleton, hg.opening _ (by simp [ho])]
    exact .first hp ho hc
  | next hb hp hc =>
    rw [List.map_append]
    exact .next (hb.map hg) (hg.phrase _ hp) (by rw [hg.close, hc])

theorem Stays.map (hg : Harmless g) {b : List Line} (h : Stays b) : Stays (b.map g) := by
  refine ⟨by simpa using h.short, fun l hl => ?_⟩
  obtain ⟨k, hk, rfl⟩ := List.mem_map.mp hl
  exact hg.verbose k (h.quiet k hk)

theorem Settled.map (hg : Harmless g) (hord : ∀ l, ordinary l → ordinary (g l)) {ls : List Line}
    (h : Settled ordinary ls) : Settled ordinary (ls.map g) := by
  obtain ⟨ms, b, rfl, hm, hb⟩ := h
  rw [List.map_append]
  refine .prepend ?_ ⟨[], b.map g, rfl, .nil, hb.imp (by simp +contextual) fun h => ⟨h.1.map hg, h.2.map hg⟩⟩
  clear hb
  induction hm with
  | nil => exact .nil
  | line hl _ ih => exact .line (hord _ hl) ih
  | block hc hs _ ih =>
    rw [List.map_append]
    exact .block (hc.map hg) (hs.map hg) ih

end Harmless

theorem Settled.tail {l : Line} {ls : List Line} (h : Settled ordinary (l :: ls)) (hl : l.isBlankLine = true) :
    Settled ordinary ls := by
  have hfirst : ¬(afterOpening? l).isSome := fun ho => by
    rw [isBlankLine_of_opening ho] at hl
    cases hl
  obtain ⟨ms, b, hall, hm, hb⟩ := h
  cases hm with
  | nil =>
    rcases hb with rfl | ⟨ho, -⟩
    · cases hall
    · rw [← show l :: ls = b from hall] at ho
      exact absurd ho.head hfirst
  | line _ hls =>
    cases hall
    exact ⟨_, b, rfl, hls, hb⟩
  | @block c ms hc _ _ =>
    obtain ⟨k, ks, rfl⟩ := List.exists_cons_of_ne_nil hc.ne_nil
    cases hall
    exact absurd hc.head hfirst

end Abridge.Noise
