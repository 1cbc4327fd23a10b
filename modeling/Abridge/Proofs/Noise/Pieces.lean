import Abridge.Proofs.Noise.Moves
import Abridge.Proofs.Text.Lines
import Mathlib.Data.List.Basic

/-! The pieces of a clean document: ordinary lines, and comment blocks that are short and quiet. What the
    filter keeps consists of such pieces, but for the declarations that end a section, which no rule has
    looked at (`settled_keptLines`); and lines that consist of such pieces the filter keeps as they are
    (`keptLines_eq_self`). -/

namespace Abridge.Noise

/-! ### Pieces -/

/-- A line that stays on its own. -/
structure Ordinary (rules : List Rule) (l : Line) : Prop where
  phrase : sectionPhrase? l = none
  opening : afterOpening? l = none
  rule : Rule.first? rules l = none

/-- A line that stays on its own, or at the end of a section. -/
structure Loose (rules : List Rule) (l : Line) : Prop where
  phrase : sectionPhrase? l = none
  opening : afterOpening? l = none
  rule : Rule.first? rules l = none ∨ isDeclaration l = true

/-- The lines of a comment block whose end is still to come. On the first line only what follows the mark
    that opens the block counts. -/
inductive Opened : List Line → Prop
  | first {l rest} (hp : sectionPhrase? l = none) (ho : afterOpening? l = some rest)
      (hc : rest.contains commentClose = false) : Opened [l]
  | next {b l} (hb : Opened b) (hp : sectionPhrase? l = none) (hc : l.contains commentClose = false) :
    Opened (b ++ [l])

/-- The lines of a comment block up to its end. -/
inductive Closed : List Line → Prop
  | first {l rest} (hp : sectionPhrase? l = none) (ho : afterOpening? l = some rest)
      (hc : rest.contains commentClose = true) : Closed [l]
  | next {b l} (hb : Opened b) (hp : sectionPhrase? l = none) (hc : l.contains commentClose = true) :
    Closed (b ++ [l])

/-- A block that is short and holds no verbose phrase. -/
structure Stays (b : List Line) : Prop where
  short : b.length < commentLimit
  quiet : ∀ l ∈ b, isVerbose l = false

/-- Lines and blocks that stay, one after the other. -/
inductive Pieces (ordinary : Line → Prop) : List Line → Prop
  | nil : Pieces ordinary []
  | line {l ls} (hl : ordinary l) (hls : Pieces ordinary ls) : Pieces ordinary (l :: ls)
  | block {b ls} (hc : Closed b) (hs : Stays b) (hls : Pieces ordinary ls) : Pieces ordinary (b ++ ls)

/-- Pieces, and at the end of the document maybe a block without its end. -/
def Settled (ordinary : Line → Prop) (ls : List Line) : Prop :=
  ∃ ms b, ls = ms ++ b ∧ Pieces ordinary ms ∧ (b = [] ∨ Opened b ∧ Stays b)

variable {rules : List Rule} {ordinary : Line → Prop}

theorem Opened.ne_nil {b : List Line} (h : Opened b) : b ≠ [] := by cases h <;> simp

theorem Opened.head {l : Line} {ls : List Line} (h : Opened (l :: ls)) : (afterOpening? l).isSome := by
  generalize hb : l :: ls = b at h
  induction h generalizing ls with
  | first _ ho _ =>
    cases hb
    simp [ho]
  | @next b k hb' _ _ ih =>
    cases b with
    | nil => exact absurd rfl hb'.ne_nil
    | cons k ks =>
      cases hb
      exact ih rfl

theorem Closed.ne_nil {b : List Line} (h : Closed b) : b ≠ [] := by cases h <;> simp

theorem Closed.head {l : Line} {ls : List Line} (h : Closed (l :: ls)) : (afterOpening? l).isSome := by
  generalize hb : l :: ls = b at h
  cases h with
  | first _ ho _ =>
    cases hb
    simp [ho]
  | @next b k hb' _ _ =>
    cases b with
    | nil => exact absurd rfl hb'.ne_nil
    | cons k ks =>
      cases hb
      exact hb'.head

theorem Pieces.append {ks ls : List Line} (hk : Pieces ordinary ks) (hl : Pieces ordinary ls) :
    Pieces ordinary (ks ++ ls) := by
  induction hk with
  | nil => exact hl
  | line h _ ih => exact .line h ih
  | block hc hs _ ih =>
    rw [List.append_assoc]
    exact .block hc hs ih

theorem Pieces.concat {l : Line} {ls : List Line} (h : Pieces ordinary ls) (hl : ordinary l) :
    Pieces ordinary (ls ++ [l]) := h.append (.line hl .nil)

theorem Pieces.settled {ls : List Line} (h : Pieces ordinary ls) : Settled ordinary ls :=
  ⟨ls, [], (List.append_nil ls).symm, h, Or.inl rfl⟩

theorem Settled.prepend {ks ls : List Line} (hk : Pieces ordinary ks) (h : Settled ordinary ls) :
    Settled ordinary (ks ++ ls) := by
  obtain ⟨ms, b, rfl, hm, hb⟩ := h
  exact ⟨ks ++ ms, b, (List.append_assoc ..).symm, hk.append hm, hb⟩

theorem Pieces.mono {ordinary' : Line → Prop} {ls : List Line} (h : Pieces ordinary ls)
    (himp : ∀ l ∈ ls, ordinary l → ordinary' l) : Pieces ordinary' ls := by
  induction h with
  | nil => exact .nil
  | line hl _ ih => exact .line (himp _ (by simp) hl) (ih fun l hl => himp l (List.mem_cons_of_mem _ hl))
  | block hc hs _ ih => exact .block hc hs (ih fun l hl => himp l (List.mem_append_right _ hl))

theorem Settled.mono {ordinary' : Line → Prop} {ls : List Line} (h : Settled ordinary ls)
    (himp : ∀ l ∈ ls, ordinary l → ordinary' l) : Settled ordinary' ls := by
  obtain ⟨ms, b, rfl, hm, hb⟩ := h
  exact ⟨ms, b, rfl, hm.mono fun l hl => himp l (List.mem_append_left _ hl), hb⟩

theorem afterOpening?_eq_some_iff {l rest : Line} :
    afterOpening? l = some rest ↔ l.trimStart = '/' :: '*' :: rest := by
  rw [afterOpening?, List.isPrefixOf?_eq_some_iff_append_eq]
  exact eq_comm

theorem afterOpening?_of_isDeclaration {l : Line} (h : isDeclaration l = true) : afterOpening? l = none := by
  rw [Option.eq_none_iff_forall_ne_some]
  intro rest ho
  rw [afterOpening?_eq_some_iff] at ho
  rw [isDeclaration, ho] at h
  cases h

/-! ### What becomes of a block -/

theorem Stays.reverse {b : List Line} (h : Stays b) : Stays b.reverse :=
  ⟨by simpa using h.short, by simpa using h.quiet⟩

theorem Stays.remains_eq {b : List Line} (h : Stays b) : remains b = b := by
  have hany : b.any isVerbose = false := by
    rw [List.any_eq_false]
    exact fun l hl => by simp [h.quiet l hl]
  simp [remains, Fate.ofBlock, hany, h.short]

theorem remains_cases (b : List Line) : remains b = [] ∨ remains b = b ∧ Stays b := by
  unfold remains
  split
  case isTrue h =>
    refine Or.inr ⟨rfl, ?_⟩
    unfold Fate.ofBlock at h
    split at h
    · cases h
    case isFalse hv =>
      split at h
      case isTrue hlen => exact ⟨hlen, fun l hl => by simpa using fun hvl => hv (List.any_eq_true.mpr ⟨l, hl, hvl⟩)⟩
      case isFalse => cases h
  case isFalse => exact Or.inl rfl

theorem remains_of_not_stays {b : List Line} (h : ¬Stays b) : remains b = [] :=
  (remains_cases b).resolve_right fun hs => h hs.2

/-! ### What the filter keeps is settled -/

namespace Filter

/-- What holds of the filter at any time: the lines kept are pieces, without the title too that may be taken
    back, and the block at hand is a comment block so far. -/
structure Sound (rules : List Rule) (f : Filter) : Prop where
  kept : Pieces (Loose rules) f.kept.reverse
  title : f.mode = .reading .afterTitle → Pieces (Loose rules) f.kept.tail.reverse
  block : ∀ b, f.mode = .comment b → Opened b.reverse

theorem Sound.takenBack {b : Banner} {kept : List Line} (h : Sound rules ⟨.reading b, kept⟩) (l : Line) :
    Pieces (Loose rules) (takenBack b l kept).reverse := by
  unfold Filter.takenBack
  split
  case isTrue hb => exact h.title (congrArg Mode.reading (by simp_all))
  case isFalse => exact h.kept

theorem Sound.close {block kept : List Line} (hk : Pieces (Loose rules) kept.reverse) (hb : Closed block.reverse) :
    Sound rules ⟨.reading .outside, remains block ++ kept⟩ := by
  refine ⟨?_, by simp, by simp⟩
  rw [List.reverse_append]
  rcases remains_cases block with h | ⟨h, hs⟩
  · simpa [h] using hk
  · rw [h]
    simpa using hk.append (.block hb hs.reverse .nil)

theorem Moves.sound {l : Line} {f g : Filter} (h : Moves rules l f g) (hf : Sound rules f) : Sound rules g := by
  cases h with
  | enter => exact ⟨hf.kept, by simp, by simp⟩
  | skip => exact hf
  | leave hd hp =>
    refine ⟨?_, by simp, by simp⟩
    rw [List.reverse_cons]
    exact hf.kept.concat ⟨hp, afterOpening?_of_isDeclaration hd, Or.inr hd⟩
  | start hp ho hc => exact ⟨hf.kept, by simp, by simpa using .first hp ho hc⟩
  | whole hp ho hc => exact .close hf.kept (by simpa using .first hp ho hc)
  | hold hp hc =>
    refine ⟨hf.kept, by simp, ?_⟩
    simpa using (hf.block _ rfl).next hp hc
  | close hp hc =>
    refine .close hf.kept ?_
    simpa using .next (hf.block _ rfl) hp hc
  | drop hp ho hr =>
    exact ⟨hf.takenBack l, fun h => absurd (Mode.reading.inj h) (next_ne_afterTitle_of_dropped _ _), by simp⟩
  | keep hp ho hr =>
    refine ⟨?_, fun _ => hf.takenBack l, by simp⟩
    rw [List.reverse_cons]
    exact (hf.takenBack l).concat ⟨hp, ho, Or.inl hr⟩

theorem sound_steps (ls : List Line) : Sound rules (steps rules {} ls) :=
  steps_induction (fun _ _ _ => Moves.sound) ⟨.nil, by simp, by simp⟩ ls

theorem Sound.settled_finish {f : Filter} (h : Sound rules f) : Settled (Loose rules) f.finish := by
  obtain ⟨mode, kept⟩ := f
  cases mode with
  | reading => exact h.kept.settled
  | skipping => exact h.kept.settled
  | comment b =>
    show Settled (Loose rules) (remains b ++ kept).reverse
    rcases remains_cases b with hr | ⟨hr, hs⟩
    · simpa [hr] using h.kept.settled
    · rw [hr, List.reverse_append]
      exact ⟨kept.reverse, b.reverse, rfl, h.kept, Or.inr ⟨h.block b rfl, hs.reverse⟩⟩

end Filter

/-- What the filter keeps consists of pieces. -/
theorem settled_keptLines (ls : List Line) : Settled (Loose rules) (keptLines rules ls) :=
  (Filter.sound_steps ls).settled_finish

/-! ### Settled lines stay -/

namespace Filter

theorem steps_opened {b : List Line} (h : Opened b) (x : Banner) (kept : List Line) :
    steps rules ⟨.reading x, kept⟩ b = ⟨.comment b.reverse, kept⟩ := by
  induction h with
  | first hp ho hc => exact (Moves.start hp ho hc).step_eq
  | next _ hp hc ih =>
    rw [steps_append, ih, List.reverse_concat]
    exact (Moves.hold hp hc).step_eq

theorem steps_closed {b : List Line} (h : Closed b) (x : Banner) (kept : List Line) :
    steps rules ⟨.reading x, kept⟩ b = ⟨.reading .outside, remains b.reverse ++ kept⟩ := by
  cases h with
  | first hp ho hc => exact (Moves.whole hp ho hc).step_eq
  | next hb hp hc =>
    rw [steps_append, steps_opened hb, List.reverse_concat]
    exact (Moves.close hp hc).step_eq

theorem step_ordinary {l : Line} (h : Ordinary Rule.table l) (kept : List Line) :
    step Rule.table ⟨.reading .outside, kept⟩ l = ⟨.reading .outside, l :: kept⟩ := by
  have hedge : isBannerEdge l = false := Rule.first?_eq_none_iff.mp h.rule Rule.separator (by simp [Rule.table])
  have hmove : Moves Rule.table l ⟨.reading .outside, kept⟩
      ⟨.reading (Banner.outside.next l false), l :: takenBack .outside l kept⟩ := .keep h.phrase h.opening h.rule
  simpa [takenBack, Banner.next, hedge] using hmove.step_eq

theorem steps_pieces {ls : List Line} (h : Pieces (Ordinary Rule.table) ls) (kept : List Line) :
    steps Rule.table ⟨.reading .outside, kept⟩ ls = ⟨.reading .outside, ls.reverse ++ kept⟩ := by
  induction h generalizing kept with
  | nil => rfl
  | line hl _ ih => rw [steps_cons, step_ordinary hl, ih, List.reverse_cons, List.append_assoc, List.singleton_append]
  | block hc hs _ ih =>
    rw [steps_append, steps_closed hc, hs.reverse.remains_eq, ih, List.reverse_append, List.append_assoc]

end Filter

/-- Lines that consist of pieces stay as they are. -/
theorem keptLines_eq_self {ls : List Line} (h : Settled (Ordinary Rule.table) ls) : keptLines Rule.table ls = ls := by
  obtain ⟨ms, b, rfl, hm, hb⟩ := h
  rw [keptLines, Filter.steps_append, show ({} : Filter) = ⟨.reading .outside, []⟩ from rfl, Filter.steps_pieces hm]
  rcases hb with rfl | ⟨hb, hs⟩
  · simp [Filter.finish]
  · rw [Filter.steps_opened hb]
    simp [Filter.finish, hs.reverse.remains_eq]

end Abridge.Noise
