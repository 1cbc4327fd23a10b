import Abridge.Noise.Filter
import Mathlib.Data.List.Induction

/-! What one line does to the line filter, said once: `Moves` has a constructor for each thing that can
    become of a line, and a step of the filter is such a move and no other (`step_eq_iff`). The filter never
    looks at what was kept before it started, so lines kept earlier stay as a base below the new ones
    (`steps_withBase`), and it is as far in a banner as the last two lines are (`remembers_steps`). -/

namespace Abridge.Noise
namespace Filter

/-- The lines kept when a line outside of comments comes: at the lower edge of a banner its title goes. -/
def takenBack (b : Banner) (l : Line) (kept : List Line) : List Line :=
  if isBannerEdge l && b = .afterTitle then kept.tail else kept

/-- From the one filter the line leads to the other. -/
inductive Moves (rules : List Rule) (l : Line) : Filter → Filter → Prop
  /-- The line opens a section. -/
  | enter {mode kept} (hm : mode ≠ .skipping) (hp : (sectionPhrase? l).isSome) : Moves rules l ⟨mode, kept⟩ ⟨.skipping, kept⟩
  /-- The line goes with a section. -/
  | skip {kept} (h : isDeclaration l = true → (sectionPhrase? l).isSome) :
    Moves rules l ⟨.skipping, kept⟩ ⟨.skipping, kept⟩
  /-- The line ends a section and stays. -/
  | leave {kept} (hd : isDeclaration l = true) (hp : sectionPhrase? l = none) :
    Moves rules l ⟨.skipping, kept⟩ ⟨.reading .outside, l :: kept⟩
  /-- The line opens a comment block that goes on. -/
  | start {b kept rest} (hp : sectionPhrase? l = none) (ho : afterOpening? l = some rest)
      (hc : rest.contains commentClose = false) : Moves rules l ⟨.reading b, kept⟩ ⟨.comment [l], kept⟩
  /-- The line is a comment block of its own. -/
  | whole {b kept rest} (hp : sectionPhrase? l = none) (ho : afterOpening? l = some rest)
      (hc : rest.contains commentClose = true) :
    Moves rules l ⟨.reading b, kept⟩ ⟨.reading .outside, remains [l] ++ kept⟩
  /-- The line goes on with a comment block. -/
  | hold {block kept} (hp : sectionPhrase? l = none) (hc : l.contains commentClose = false) :
    Moves rules l ⟨.comment block, kept⟩ ⟨.comment (l :: block), kept⟩
  /-- The line ends a comment block. -/
  | close {block kept} (hp : sectionPhrase? l = none) (hc : l.contains commentClose = true) :
    Moves rules l ⟨.comment block, kept⟩ ⟨.reading .outside, remains (l :: block) ++ kept⟩
  /-- A rule drops the line. -/
  | drop {b kept rule} (hp : sectionPhrase? l = none) (ho : afterOpening? l = none)
      (hr : Rule.first? rules l = some rule) :
    Moves rules l ⟨.reading b, kept⟩ ⟨.reading (b.next l true), takenBack b l kept⟩
  /-- The line stays. -/
  | keep {b kept} (hp : sectionPhrase? l = none) (ho : afterOpening? l = none) (hr : Rule.first? rules l = none) :
    Moves rules l ⟨.reading b, kept⟩ ⟨.reading (b.next l false), l :: takenBack b l kept⟩

variable {rules : List Rule}

theorem step_moves (rules : List Rule) (f : Filter) (l : Line) : Moves rules l f (f.step rules l) := by
  obtain ⟨mode, kept⟩ := f
  cases hp : sectionPhrase? l with
  | some phrase =>
    cases mode with
    | skipping =>
      simp only [step, Mode.action, hp, Option.isNone_some, Bool.and_false, Bool.false_eq_true, if_false, act]
      exact .skip fun _ => by simp [hp]
    | reading b =>
      simp only [step, Mode.action, hp, act]
      exact .enter (by simp) (by simp [hp])
    | comment block =>
      simp only [step, Mode.action, hp, act]
      exact .enter (by simp) (by simp [hp])
  | none =>
    cases mode with
    | skipping =>
      cases hd : isDeclaration l with
      | false =>
        simp only [step, Mode.action, hd, Bool.false_and, Bool.false_eq_true, if_false, act]
        exact .skip (by simp [hd])
      | true =>
        simp only [step, Mode.action, hd, hp, Option.isNone_none, Bool.and_self, if_true, act]
        exact .leave hd hp
    | comment block =>
      cases hc : l.contains commentClose with
      | false =>
        simp only [step, Mode.action, hp, hc, Bool.false_eq_true, if_false, act]
        exact .hold hp hc
      | true =>
        simp only [step, Mode.action, hp, hc, if_true, act]
        exact .close hp hc
    | reading b =>
      cases ho : afterOpening? l with
      | some rest =>
        cases hc : rest.contains commentClose with
        | false =>
          simp only [step, Mode.action, hp, ho, hc, Bool.false_eq_true, if_false, act]
          exact .start hp ho hc
        | true =>
          simp only [step, Mode.action, hp, ho, hc, if_true, act]
          exact .whole hp ho hc
      | none =>
        cases hr : Rule.first? rules l with
        | none =>
          simp only [step, Mode.action, hp, ho, hr, Option.isSome_none, Bool.false_eq_true, if_false, act]
          exact .keep hp ho hr
        | some rule =>
          simp only [step, Mode.action, hp, ho, hr, Option.isSome_some, if_true, act]
          exact .drop hp ho hr

theorem Moves.step_eq {l : Line} {f g : Filter} (h : Moves rules l f g) : f.step rules l = g := by
  cases h with
  | @enter mode kept hm hp =>
    obtain ⟨phrase, hp⟩ := Option.isSome_iff_exists.mp hp
    cases mode with
    | skipping => exact absurd rfl hm
    | reading b => simp [step, Mode.action, hp, act]
    | comment block => simp [step, Mode.action, hp, act]
  | skip h =>
    have hskip : (isDeclaration l && (sectionPhrase? l).isNone) = false := by
      cases hd : isDeclaration l with
      | false => rfl
      | true => rw [Bool.true_and, Option.isNone_eq_false_iff.mpr (h hd)]
    simp [step, Mode.action, hskip, act]
  | leave hd hp => simp [step, Mode.action, hd, hp, act]
  | start hp ho hc => simp [step, Mode.action, hp, ho, hc, act]
  | whole hp ho hc => simp [step, Mode.action, hp, ho, hc, act]
  | hold hp hc => simp [step, Mode.action, hp, hc, act]
  | close hp hc => simp [step, Mode.action, hp, hc, act]
  | drop hp ho hr => simp [step, Mode.action, hp, ho, hr, act, takenBack]
  | keep hp ho hr => simp [step, Mode.action, hp, ho, hr, act, takenBack]

theorem step_eq_iff {l : Line} {f g : Filter} : f.step rules l = g ↔ Moves rules l f g :=
  ⟨fun h => h ▸ step_moves rules f l, Moves.step_eq⟩

/-- What every move keeps, a run keeps. -/
theorem steps_induction {P : Filter → Prop} (hstep : ∀ l f g, Moves rules l f g → P f → P g) {f : Filter}
    (hf : P f) (ls : List Line) : P (steps rules f ls) := by
  induction ls generalizing f with
  | nil => exact hf
  | cons l ls ih => exact ih (hstep l f _ (step_moves rules f l) hf)

/-! ### Lines kept before -/

/-- The filter with these lines kept before all others. -/
def withBase (f : Filter) (base : List Line) : Filter := { f with kept := f.kept ++ base }

/-- The title that may still be taken back was kept by this filter. -/
def OwnsTitle (f : Filter) : Prop := f.mode = .reading .afterTitle → f.kept ≠ []

theorem next_eq_afterEdge_iff {b : Banner} {l : Line} {dropped : Bool} :
    b.next l dropped = .afterEdge ↔ isBannerEdge l = true ∧ b ≠ .afterTitle := by
  unfold Banner.next
  cases he : isBannerEdge l with
  | true => cases b <;> simp
  | false =>
    simp only [Bool.false_eq_true, if_false, false_and, iff_false]
    split <;> simp

theorem next_eq_afterTitle_iff {b : Banner} {l : Line} {dropped : Bool} :
    b.next l dropped = .afterTitle ↔
      isBannerEdge l = false ∧ b = .afterEdge ∧ dropped = false ∧ isBannerTitle l = true := by
  unfold Banner.next
  cases he : isBannerEdge l with
  | true => cases b <;> simp
  | false => simp [and_assoc]

theorem next_ne_afterTitle_of_dropped (b : Banner) (l : Line) : b.next l true ≠ .afterTitle := by
  simp [next_eq_afterTitle_iff]

theorem Moves.ownsTitle {l : Line} {f g : Filter} (h : Moves rules l f g) : OwnsTitle g := by
  cases h with
  | drop => exact fun hg => absurd (Mode.reading.inj hg) (next_ne_afterTitle_of_dropped _ _)
  | keep => exact fun _ => List.cons_ne_nil _ _
  | _ => exact fun hg => by simp at hg

theorem takenBack_append {b : Banner} {l : Line} {kept : List Line} (base : List Line)
    (h : b = .afterTitle → kept ≠ []) : takenBack b l (kept ++ base) = takenBack b l kept ++ base := by
  unfold takenBack
  split
  case isTrue hb =>
    obtain ⟨k, ks, rfl⟩ := List.exists_cons_of_ne_nil (h (by simp_all))
    rfl
  case isFalse => rfl

theorem step_withBase {f : Filter} (hf : f.OwnsTitle) (base : List Line) (l : Line) :
    (f.withBase base).step rules l = (f.step rules l).withBase base := by
  have h := step_moves rules f l
  rw [step_eq_iff]
  revert h hf
  generalize f.step rules l = g
  intro hf h
  cases h with
  | enter hm hp => exact .enter hm hp
  | skip h => exact .skip h
  | leave hd hp => exact .leave hd hp
  | start hp ho hc => exact .start hp ho hc
  | whole hp ho hc =>
    simp only [withBase, List.append_assoc]
    exact .whole hp ho hc
  | hold hp hc => exact .hold hp hc
  | close hp hc =>
    simp only [withBase, List.append_assoc]
    exact .close hp hc
  | drop hp ho hr =>
    have hback := takenBack_append (l := l) base fun hb => hf (congrArg Mode.reading hb)
    simp only [withBase, ← hback]
    exact .drop hp ho hr
  | keep hp ho hr =>
    have hback := takenBack_append (l := l) base fun hb => hf (congrArg Mode.reading hb)
    simp only [withBase, List.cons_append, ← hback]
    exact .keep hp ho hr

/-- Lines kept before change nothing and stay. -/
theorem steps_withBase {f : Filter} (hf : f.OwnsTitle) (base ls : List Line) :
    steps rules (f.withBase base) ls = (steps rules f ls).withBase base := by
  induction ls generalizing f with
  | nil => rfl
  | cons l ls ih => rw [steps_cons, steps_cons, step_withBase hf, ih (step_moves rules f l).ownsTitle]

theorem finish_withBase (f : Filter) (base : List Line) : (f.withBase base).finish = base.reverse ++ f.finish := by
  obtain ⟨mode, kept⟩ := f
  cases mode <;> simp [finish, withBase]

/-! ### How far a banner is read -/

/-- After the lines `ls` the filter is as far in a banner as the last of them are. -/
structure Remembers (rules : List Rule) (ls : List Line) (f : Filter) : Prop where
  edge : f.mode = .reading .afterEdge → ∃ front upper, ls = front ++ [upper] ∧ isBannerEdge upper = true
  title : f.mode = .reading .afterTitle → ∃ front upper title kept, ls = front ++ [upper, title] ∧
    f.kept = title :: kept ∧ isBannerEdge upper = true ∧ isBannerTitle title = true ∧ sectionPhrase? title = none ∧
    Rule.first? rules title = none

theorem Moves.remembers {ls : List Line} {l : Line} {f g : Filter} (h : Moves rules l f g) (hf : Remembers rules ls f) :
    Remembers rules (ls ++ [l]) g := by
  cases h with
  | drop =>
    refine ⟨fun hg => ?_, fun hg => absurd (Mode.reading.inj hg) (next_ne_afterTitle_of_dropped _ _)⟩
    exact ⟨ls, l, rfl, (next_eq_afterEdge_iff.mp (Mode.reading.inj hg)).1⟩
  | @keep b kept hp ho hr =>
    refine ⟨fun hg => ⟨ls, l, rfl, (next_eq_afterEdge_iff.mp (Mode.reading.inj hg)).1⟩, fun hg => ?_⟩
    obtain ⟨-, rfl, -, ht⟩ := next_eq_afterTitle_iff.mp (Mode.reading.inj hg)
    obtain ⟨front, upper, rfl, hu⟩ := hf.edge rfl
    exact ⟨front, upper, l, _, by simp, rfl, hu, ht, hp, hr⟩
  | _ => exact ⟨fun hg => by simp at hg, fun hg => by simp at hg⟩

theorem remembers_steps (rules : List Rule) (ls : List Line) : Remembers rules ls (steps rules {} ls) := by
  induction ls using List.reverseRecOn with
  | nil => exact ⟨fun h => by simp at h, fun h => by simp at h⟩
  | append_singleton ls l ih =>
    rw [steps_append]
    exact (step_moves rules _ l).remembers ih

end Filter

/-- Lines that leave the filter among code or in a section are kept as if nothing followed, if the last of them
    is no title that may be taken back. -/
theorem keptLines_append {ls : List Line} (hc : ∀ b, (Filter.steps rules {} ls).mode ≠ .comment b)
    (ht : (Filter.steps rules {} ls).mode ≠ .reading .afterTitle) (ms : List Line) :
    ∃ rest, keptLines rules (ls ++ ms) = keptLines rules ls ++ rest := by
  rw [keptLines, keptLines, Filter.steps_append]
  generalize Filter.steps rules {} ls = f at hc ht
  obtain ⟨mode, kept⟩ := f
  have hbase : Filter.mk mode kept = Filter.withBase ⟨mode, []⟩ kept := rfl
  have hown : Filter.OwnsTitle ⟨mode, []⟩ := fun h => absurd h ht
  refine ⟨(Filter.steps rules ⟨mode, []⟩ ms).finish, ?_⟩
  rw [hbase, Filter.steps_withBase hown, Filter.finish_withBase, Filter.finish_withBase]
  cases mode with
  | comment b => exact absurd rfl (hc b)
  | reading b => simp [Filter.finish]
  | skipping => simp [Filter.finish]

end Abridge.Noise
