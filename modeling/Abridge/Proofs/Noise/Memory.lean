import Abridge.Proofs.Noise.LookAhead

/-! What the filter remembers of the lines it has read: the comment block at hand (`Orderly`), and how far the last two
    lines are in a banner. So a line that was kept goes again only if it is a title that came right before and an edge
    follows (`orderly_and_step_emits`), and where neither a block nor a banner is open the filter goes on like a
    fresh one (`keptLines_append_fresh`). -/

namespace Abridge.Noise

variable {rules : List Rule}

/-! ### Lines of a block -/

theorem Opened.marks {first : Line} {rest : List Line} (h : Opened (first :: rest)) :
    (∃ s, first.trimStart = commentOpen ++ s ∧ s.contains commentClose = false) ∧
      ∀ k ∈ rest, k.contains commentClose = false := by
  generalize hb : first :: rest = b at h
  induction h generalizing rest with
  | first _ ho hc =>
    cases hb
    exact ⟨⟨_, afterOpening?_eq_some_iff.mp ho, hc⟩, List.forall_mem_nil _⟩
  | @next b l hb' _ hc ih =>
    cases b with
    | nil => exact absurd rfl hb'.ne_nil
    | cons k ks =>
      cases hb
      obtain ⟨hfirst, hrest⟩ := ih rfl
      exact ⟨hfirst, List.forall_mem_append.mpr ⟨hrest, List.forall_mem_singleton.mpr hc⟩⟩

theorem Opened.phrase {b : List Line} (h : Opened b) : ∀ k ∈ b, sectionPhrase? k = none := by
  induction h with
  | first hp _ _ => exact List.forall_mem_singleton.mpr hp
  | next _ hp _ ih => exact List.forall_mem_append.mpr ⟨ih, List.forall_mem_singleton.mpr hp⟩

theorem Closed.phrase {b : List Line} (h : Closed b) : ∀ k ∈ b, sectionPhrase? k = none := by
  cases h with
  | first hp _ _ => exact List.forall_mem_singleton.mpr hp
  | next hb hp _ => exact List.forall_mem_append.mpr ⟨hb.phrase, List.forall_mem_singleton.mpr hp⟩

theorem Pieces.phrase {ls : List Line} (h : Pieces (Loose rules) ls) : ∀ k ∈ ls, sectionPhrase? k = none := by
  induction h with
  | nil => exact List.forall_mem_nil _
  | line hl _ ih => exact List.forall_mem_cons.mpr ⟨hl.phrase, ih⟩
  | block hc _ _ ih => exact List.forall_mem_append.mpr ⟨hc.phrase, ih⟩

namespace Filter

/-! ### Between two lines -/

/-- The lines kept so far, in order. -/
def emitted (f : Filter) : List Line := f.kept.reverse

/-- The lines of the comment block at hand, in order; outside of comments there are none. -/
def buffer (f : Filter) : List Line :=
  match f.mode with
  | .comment block => block.reverse
  | _ => []

/-- What holds of the filter between two lines. -/
structure Orderly (f : Filter) : Prop where
  comment : f.buffer ≠ [] ↔ ∃ block, f.mode = .comment block
  opening : ∀ first rest, f.buffer = first :: rest →
    ∃ s, first.trimStart = commentOpen ++ s ∧ s.contains commentClose = false
  unclosed : ∀ first rest, f.buffer = first :: rest → ∀ k ∈ rest, k.contains commentClose = false
  phrases : ∀ k ∈ f.emitted ++ f.buffer, ∀ phrase ∈ sectionPhrases, k.contains phrase = false

theorem Sound.orderly {f : Filter} (h : Sound rules f) : Orderly f := by
  have hkept : ∀ k ∈ f.emitted, ∀ phrase ∈ sectionPhrases, k.contains phrase = false :=
    fun k hk => sectionPhrase?_eq_none_iff.mp (h.kept.phrase k hk)
  by_cases hm : ∃ block, f.mode = .comment block
  · obtain ⟨block, hm⟩ := hm
    have hb : Opened block.reverse := h.block block hm
    have hbuffer : f.buffer = block.reverse := by rw [buffer, hm]
    refine ⟨⟨fun _ => ⟨block, hm⟩, fun _ => hbuffer ▸ hb.ne_nil⟩, ?_, ?_, ?_⟩
    · intro first rest hfirst
      rw [← hbuffer, hfirst] at hb
      exact hb.marks.1
    · intro first rest hfirst
      rw [← hbuffer, hfirst] at hb
      exact hb.marks.2
    · rw [hbuffer]
      exact List.forall_mem_append.mpr ⟨hkept, fun k hk => sectionPhrase?_eq_none_iff.mp (hb.phrase k hk)⟩
  · have hbuffer : f.buffer = [] := by
      unfold buffer
      split
      case h_1 block hmode => exact absurd ⟨block, hmode⟩ hm
      case h_2 => rfl
    refine ⟨⟨fun hne => absurd hbuffer hne, fun h => absurd h hm⟩, ?_, ?_, ?_⟩
    · simp [hbuffer]
    · simp [hbuffer]
    · rwa [hbuffer, List.append_nil]

/-! ### What a line does to the kept ones -/

/-- After the lines `ls` and with a block at hand, the line `l` leads from the one list of kept lines to the other. -/
inductive Emits (rules : List Rule) (ls : List Line) (l : Line) (block : List Line) : List Line → List Line → Prop
  | nothing {kept} : Emits rules ls l block kept kept
  | line {kept} : Emits rules ls l block kept (kept ++ [l])
  /-- The line ends the block, which stays with it. -/
  | block {kept} : Emits rules ls l block kept (kept ++ block ++ [l])
  /-- The line is the lower edge of a banner whose title came right before it. -/
  | retract {front upper title kept} (hls : ls = front ++ [upper, title]) (hb : IsBanner rules upper title l) :
    Emits rules ls l block (kept ++ [title]) kept
  /-- It is, and stays in place of the title. -/
  | replace {front upper title kept} (hls : ls = front ++ [upper, title]) (hb : IsBanner rules upper title l) :
    Emits rules ls l block (kept ++ [title]) (kept ++ [l])

theorem Remembers.takenBack_cases {ls : List Line} {b : Banner} {kept : List Line}
    (h : Remembers rules ls ⟨.reading b, kept⟩) (l : Line) :
    takenBack b l kept = kept ∨ ∃ front upper title, ls = front ++ [upper, title] ∧ IsBanner rules upper title l ∧
      kept.reverse = (takenBack b l kept).reverse ++ [title] := by
  by_cases hb : isBannerEdge l = true ∧ b = .afterTitle
  · obtain ⟨hl, rfl⟩ := hb
    obtain ⟨front, upper, title, kept', hls, hkept, hu, ht, hp, hr⟩ := h.title rfl
    refine Or.inr ⟨front, upper, title, hls, ⟨hu, ht, hp, hr, hl⟩, ?_⟩
    rw [show kept = title :: kept' from hkept]
    simp [takenBack, hl]
  · exact Or.inl (if_neg (by simpa using hb))

theorem Moves.emits {ls : List Line} {l : Line} {f g : Filter} (h : Moves rules l f g) (hf : Remembers rules ls f) :
    Emits rules ls l f.buffer f.emitted g.emitted := by
  cases h with
  | enter => exact .nothing
  | skip => exact .nothing
  | leave =>
    rw [emitted, emitted, List.reverse_cons]
    exact .line
  | start => exact .nothing
  | @whole b kept _ _ _ _ =>
    rw [emitted, emitted]
    rcases remains_cases [l] with hr | ⟨hr, -⟩
    · rw [hr]
      exact .nothing
    · rw [hr, List.singleton_append, List.reverse_cons]
      exact .line
  | hold => exact .nothing
  | @close block kept _ _ =>
    rw [emitted, emitted]
    rcases remains_cases (l :: block) with hr | ⟨hr, -⟩
    · rw [hr]
      exact .nothing
    · rw [hr, List.reverse_append, List.reverse_cons, ← List.append_assoc]
      exact .block
  | @drop b kept _ _ _ _ =>
    rw [emitted, emitted]
    rcases hf.takenBack_cases l with hback | ⟨front, upper, title, hls, hb, hkept⟩
    · rw [hback]
      exact .nothing
    · rw [hkept]
      exact .retract hls hb
  | @keep b kept _ _ _ =>
    rw [emitted, emitted, List.reverse_cons]
    rcases hf.takenBack_cases l with hback | ⟨front, upper, title, hls, hb, hkept⟩
    · rw [hback]
      exact .line
    · rw [hkept]
      exact .replace hls hb

/-- After any lines the filter holds back an open comment block or nothing, and no line with a section phrase; and
    whatever line comes next, it takes back no kept line but the title of a banner of which it is the lower edge. -/
theorem orderly_and_step_emits (rules : List Rule) (ls : List Line) :
    Orderly (steps rules {} ls) ∧ ∀ l, Emits rules ls l (steps rules {} ls).buffer (steps rules {} ls).emitted
      (step rules (steps rules {} ls) l).emitted :=
  ⟨(sound_steps ls).orderly, fun l => (step_moves rules _ l).emits (remembers_steps rules ls)⟩

/-! ### Sections -/

theorem Remembers.eq_outside {ls : List Line} {f : Filter} (h : Remembers rules ls f) {b : Banner}
    (hm : f.mode = .reading b) (hlast : ∀ l ∈ ls.getLast?, isBannerEdge l = false ∧ isBannerTitle l = false) :
    b = .outside := by
  cases b with
  | outside => rfl
  | afterEdge =>
    obtain ⟨front, upper, rfl, hu⟩ := h.edge hm
    have hnot := (hlast upper (by simp)).1
    rw [hu] at hnot
    cases hnot
  | afterTitle =>
    obtain ⟨front, upper, title, kept, rfl, -, -, ht, -⟩ := h.title hm
    have hnot := (hlast title (by simp)).2
    rw [ht] at hnot
    cases hnot

end Filter

/-- Sections are filtered one by one: where the filter is among code after the lines `xs`, and the last of them is
    neither an edge nor a title, it keeps of the lines behind them what a fresh filter keeps. -/
theorem keptLines_append_fresh (rules : List Rule) (xs ys : List Line)
    (hmode : ∃ b, (Filter.steps rules {} xs).mode = .reading b)
    (hlast : ∀ l ∈ xs.getLast?, isBannerEdge l = false ∧ isBannerTitle l = false) :
    keptLines rules (xs ++ ys) = keptLines rules xs ++ keptLines rules ys := by
  have hremembers := Filter.remembers_steps rules xs
  rw [keptLines, keptLines, keptLines, Filter.steps_append]
  generalize Filter.steps rules {} xs = f at hmode hremembers
  obtain ⟨mode, kept⟩ := f
  obtain ⟨b, rfl⟩ := hmode
  obtain rfl : b = .outside := hremembers.eq_outside rfl hlast
  -- All that a fresh filter lacks is the lines kept so far, and they stay where they are.
  have hbase : Filter.mk (.reading .outside) kept = Filter.withBase {} kept := rfl
  have hown : Filter.OwnsTitle {} := fun h => by simp at h
  rw [hbase, Filter.steps_withBase hown, Filter.finish_withBase, Filter.finish_withBase]
  simp [Filter.finish]

/-- An upper edge and its title without a lower edge, then a line of code; and behind it a whole banner that the two
    have nothing to do with. -/
theorem keptLines_append_fresh_banner :
    let edge : Line := List.replicate separatorLength '='
    let xs : List Line := [edge, ['/', '/', ' ', 'A'], ['x']]
    let ys : List Line := [edge, ['/', '/', ' ', 'B'], edge, ['y']]
    ((∃ b, (Filter.steps Rule.table {} xs).mode = .reading b) ∧
        ∀ l ∈ xs.getLast?, isBannerEdge l = false ∧ isBannerTitle l = false) ∧
      keptLines Rule.table (xs ++ ys) = keptLines Rule.table xs ++ keptLines Rule.table ys ∧
      keptLines Rule.table xs = [['/', '/', ' ', 'A'], ['x']] ∧ keptLines Rule.table ys = [['y']] := by
  intro edge xs ys
  have hmode : ∃ b, (Filter.steps Rule.table {} xs).mode = .reading b := ⟨.outside, by decide +kernel⟩
  have hlast : ∀ l ∈ xs.getLast?, isBannerEdge l = false ∧ isBannerTitle l = false := by decide +kernel
  exact ⟨⟨hmode, hlast⟩, keptLines_append_fresh Rule.table xs ys hmode hlast, by decide +kernel, by decide +kernel⟩

end Abridge.Noise
