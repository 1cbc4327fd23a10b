import Abridge.Proofs.Noise.Memory

/-! The line filter as a machine of registers: one for the state it is in, one for how far a banner has been read, one
    for the lines of the comment block at hand and one for the lines kept so far. A step sets some registers and leaves
    the others. `Filter` has the banner in mind only among code and the block only in a comment, and the machine is that
    filter (`filter_steps`) because both registers are clear wherever they are not in use (`Cleared`). So it
    keeps the same lines of every document (`finish_steps`). -/

namespace Abridge.Noise

/-! ### The machine -/

inductive Phase where
  | normal
  | inComment
  | skipping
  deriving DecidableEq, Repr

structure Registers where
  phase : Phase := .normal
  banner : Banner := .outside
  /-- The lines of the comment block at hand, in order. -/
  comment : List Line := []
  /-- The lines kept so far, in order. -/
  kept : List Line := []
  deriving DecidableEq, Repr

namespace Registers

/-- Ends the comment block, which stays if it is short and not verbose. -/
def closeComment (r : Registers) : Registers :=
  if r.comment.any isVerbose then { r with comment := [], phase := .normal }
  else if r.comment.length < commentLimit then { r with kept := r.kept ++ r.comment, comment := [], phase := .normal }
  else { r with comment := [], phase := .normal }

/-- Marks an edge: below a title it takes the title back, and elsewhere a banner may begin. -/
def markEdge (r : Registers) (banner : Banner) : Registers :=
  if banner = .afterTitle then { r with kept := r.kept.dropLast } else { r with banner := .afterEdge }

/-- Keeps a line, which is marked if it is the title of a banner. -/
def keepLine (r : Registers) (banner : Banner) (l : Line) : Registers :=
  let r := { r with kept := r.kept ++ [l] }
  if banner = .afterEdge && isBannerTitle l then { r with banner := .afterTitle } else r

/-- A step among code. The banner is over unless the line goes on with it. -/
def stepNormal (rules : List Rule) (r : Registers) (l : Line) : Registers :=
  let banner := r.banner
  let r := { r with banner := .outside }
  if (sectionPhrase? l).isSome then { r with phase := .skipping }
  else
    match afterOpening? l with
    | some rest =>
      let r := { r with phase := .inComment, comment := r.comment ++ [l] }
      if rest.contains commentClose then r.closeComment else r
    | none =>
      let r := if isBannerEdge l then r.markEdge banner else r
      if (Rule.first? rules l).isSome then r else r.keepLine banner l

def step (rules : List Rule) (r : Registers) (l : Line) : Registers :=
  match r.phase with
  | .normal => r.stepNormal rules l
  | .inComment =>
    if (sectionPhrase? l).isSome then { r with comment := [], phase := .skipping }
    else
      let r := { r with comment := r.comment ++ [l] }
      if l.contains commentClose then r.closeComment else r
  | .skipping =>
    if isDeclaration l && (sectionPhrase? l).isNone then { r with phase := .normal, kept := r.kept ++ [l] } else r

def steps (rules : List Rule) (r : Registers) (ls : List Line) : Registers := ls.foldl (step rules) r

/-- The lines that stay when the document ends here. A block still open ends with it. -/
def finish (r : Registers) : List Line := if r.phase = .inComment then r.closeComment.kept else r.kept

/-! ### The filter -/

/-- The filter whose registers these are. -/
def filter (r : Registers) : Filter where
  mode :=
    match r.phase with
    | .normal => .reading r.banner
    | .inComment => .comment r.comment.reverse
    | .skipping => .skipping
  kept := r.kept.reverse

/-- A register that is not in use is clear. -/
structure Cleared (r : Registers) : Prop where
  banner : r.phase ≠ .normal → r.banner = .outside
  comment : r.phase ≠ .inComment → r.comment = []

variable {rules : List Rule} {r : Registers} {l : Line}

theorem closeComment_eq (r : Registers) :
    r.closeComment = { r with phase := .normal, comment := [], kept := r.kept ++ remains r.comment } := by
  rw [closeComment]
  by_cases hv : r.comment.any isVerbose = true
  · simp [remains, Fate.ofBlock, hv]
  · by_cases hs : r.comment.length < commentLimit <;> simp [remains, Fate.ofBlock, hv, hs]

theorem remains_reverse (block : List Line) : remains block.reverse = (remains block).reverse := by
  have hfate : Fate.ofBlock block.reverse = Fate.ofBlock block := by
    rw [Fate.ofBlock, Fate.ofBlock, List.any_reverse, List.length_reverse]
  rw [remains, remains, hfate]
  split
  · rfl
  · rfl

/-- A line by itself goes on with a banner or ends it, and it stays unless a rule drops it. -/
theorem stepNormal_alone (b : Banner) (kept : List Line) (hp : sectionPhrase? l = none) (ho : afterOpening? l = none) :
    stepNormal rules ⟨.normal, b, [], kept⟩ l =
      ⟨.normal, b.next l (Rule.first? rules l).isSome, [],
        (Filter.takenBack b l kept.reverse).reverse ++ spared rules [l]⟩ := by
  by_cases he : isBannerEdge l = true
  · -- An edge is no title, so the register is set once at most.
    have ht : isBannerTitle l = false := Bool.eq_false_iff.mpr fun ht => by
      rw [isBannerEdge_of_isBannerTitle ht] at he
      cases he
    by_cases hb : b = .afterTitle <;> cases hr : Rule.first? rules l <;>
      simp [stepNormal, markEdge, keepLine, Banner.next, Filter.takenBack, spared, hp, ho, hr, he, ht, hb]
  · cases hr : Rule.first? rules l with
    | some rule => simp [stepNormal, Banner.next, Filter.takenBack, spared, hp, ho, hr, he]
    | none =>
      by_cases hb : b = .afterEdge ∧ isBannerTitle l = true <;>
        simp [stepNormal, keepLine, Banner.next, Filter.takenBack, spared, hp, ho, hr, he, hb]

/-! ### The machine is the filter -/

/-- A step of the machine is a step of the filter, and leaves the registers clear that are not in use. -/
structure Follows (rules : List Rule) (l : Line) (r s : Registers) : Prop where
  filter : s.filter = r.filter.step rules l
  cleared : s.Cleared

theorem follows_normal (rules : List Rule) (b : Banner) (kept : List Line) (l : Line) :
    Follows rules l ⟨.normal, b, [], kept⟩ (stepNormal rules ⟨.normal, b, [], kept⟩ l) := by
  cases hp : sectionPhrase? l with
  | some phrase =>
    have hstep : stepNormal rules ⟨.normal, b, [], kept⟩ l = ⟨.skipping, .outside, [], kept⟩ := by
      simp [stepNormal, hp]
    have hmove : Filter.Moves rules l ⟨.reading b, kept.reverse⟩ ⟨.skipping, kept.reverse⟩ :=
      .enter (by simp) (by simp [hp])
    rw [hstep]
    exact ⟨hmove.step_eq.symm, ⟨fun _ => rfl, fun _ => rfl⟩⟩
  | none =>
    cases ho : afterOpening? l with
    | some rest =>
      cases hc : rest.contains commentClose with
      | false =>
        have hstep : stepNormal rules ⟨.normal, b, [], kept⟩ l = ⟨.inComment, .outside, [l], kept⟩ := by
          simp [stepNormal, hp, ho, hc]
        have hmove : Filter.Moves rules l ⟨.reading b, kept.reverse⟩ ⟨.comment [l], kept.reverse⟩ := .start hp ho hc
        rw [hstep]
        exact ⟨hmove.step_eq.symm, ⟨fun _ => rfl, fun h => absurd rfl h⟩⟩
      | true =>
        have hstep : stepNormal rules ⟨.normal, b, [], kept⟩ l = ⟨.normal, .outside, [], kept ++ remains [l]⟩ := by
          simp [stepNormal, hp, ho, hc, closeComment_eq]
        have hmove : Filter.Moves rules l ⟨.reading b, kept.reverse⟩ ⟨.reading .outside, remains [l] ++ kept.reverse⟩ :=
          .whole hp ho hc
        rw [hstep]
        refine ⟨?_, ⟨fun h => absurd rfl h, fun _ => rfl⟩⟩
        rw [filter, filter, hmove.step_eq, List.reverse_append, ← remains_reverse, List.reverse_singleton]
    | none =>
      rw [stepNormal_alone b kept hp ho]
      refine ⟨?_, ⟨fun h => absurd rfl h, fun _ => rfl⟩⟩
      have hspared : (spared rules [l]).reverse = spared rules [l] := by
        cases hr : Rule.first? rules l <;> simp [spared, hr]
      rw [filter, filter, Filter.step_alone b kept.reverse hp ho, List.reverse_append, List.reverse_reverse, hspared]

theorem follows_inComment (rules : List Rule) (comment kept : List Line) (l : Line) :
    Follows rules l ⟨.inComment, .outside, comment, kept⟩ (step rules ⟨.inComment, .outside, comment, kept⟩ l) := by
  cases hp : sectionPhrase? l with
  | some phrase =>
    have hstep : step rules ⟨.inComment, .outside, comment, kept⟩ l = ⟨.skipping, .outside, [], kept⟩ := by
      simp [step, hp]
    have hmove : Filter.Moves rules l ⟨.comment comment.reverse, kept.reverse⟩ ⟨.skipping, kept.reverse⟩ :=
      .enter (by simp) (by simp [hp])
    rw [hstep]
    exact ⟨hmove.step_eq.symm, ⟨fun _ => rfl, fun _ => rfl⟩⟩
  | none =>
    cases hc : l.contains commentClose with
    | false =>
      have hstep : step rules ⟨.inComment, .outside, comment, kept⟩ l =
          ⟨.inComment, .outside, comment ++ [l], kept⟩ := by
        simp [step, hp, hc]
      have hmove : Filter.Moves rules l ⟨.comment comment.reverse, kept.reverse⟩
          ⟨.comment (l :: comment.reverse), kept.reverse⟩ := .hold hp hc
      rw [hstep]
      refine ⟨?_, ⟨fun _ => rfl, fun h => absurd rfl h⟩⟩
      rw [filter, filter, hmove.step_eq, List.reverse_concat]
    | true =>
      have hstep : step rules ⟨.inComment, .outside, comment, kept⟩ l =
          ⟨.normal, .outside, [], kept ++ remains (comment ++ [l])⟩ := by
        simp [step, hp, hc, closeComment_eq]
      have hmove : Filter.Moves rules l ⟨.comment comment.reverse, kept.reverse⟩
          ⟨.reading .outside, remains (l :: comment.reverse) ++ kept.reverse⟩ := .close hp hc
      rw [hstep]
      refine ⟨?_, ⟨fun h => absurd rfl h, fun _ => rfl⟩⟩
      rw [filter, filter, hmove.step_eq, List.reverse_append, ← remains_reverse, List.reverse_concat]

theorem follows_skipping (rules : List Rule) (kept : List Line) (l : Line) :
    Follows rules l ⟨.skipping, .outside, [], kept⟩ (step rules ⟨.skipping, .outside, [], kept⟩ l) := by
  by_cases h : isDeclaration l = true ∧ sectionPhrase? l = none
  · have hstep : step rules ⟨.skipping, .outside, [], kept⟩ l = ⟨.normal, .outside, [], kept ++ [l]⟩ := by
      simp [step, h]
    have hmove : Filter.Moves rules l ⟨.skipping, kept.reverse⟩ ⟨.reading .outside, l :: kept.reverse⟩ :=
      .leave h.1 h.2
    rw [hstep]
    refine ⟨?_, ⟨fun h => absurd rfl h, fun _ => rfl⟩⟩
    rw [filter, filter, hmove.step_eq, List.reverse_concat]
  · have hstep : step rules ⟨.skipping, .outside, [], kept⟩ l = ⟨.skipping, .outside, [], kept⟩ := by
      simpa [step] using h
    have hmove : Filter.Moves rules l ⟨.skipping, kept.reverse⟩ ⟨.skipping, kept.reverse⟩ :=
      .skip fun hd => Option.isSome_iff_ne_none.mpr fun hp => h ⟨hd, hp⟩
    rw [hstep]
    exact ⟨hmove.step_eq.symm, ⟨fun _ => rfl, fun _ => rfl⟩⟩

theorem Cleared.follows (h : r.Cleared) (l : Line) : Follows rules l r (r.step rules l) := by
  obtain ⟨phase, banner, comment, kept⟩ := r
  cases phase with
  | normal =>
    obtain rfl : comment = [] := h.comment (by simp)
    exact follows_normal rules banner kept l
  | inComment =>
    obtain rfl : banner = .outside := h.banner (by simp)
    exact follows_inComment rules comment kept l
  | skipping =>
    obtain rfl : comment = [] := h.comment (by simp)
    obtain rfl : banner = .outside := h.banner (by simp)
    exact follows_skipping rules kept l

/-- After any lines the machine is where the filter is, and its registers are clear where they are not in use. -/
theorem filter_steps (h : r.Cleared) (ls : List Line) :
    (steps rules r ls).filter = Filter.steps rules r.filter ls ∧ (steps rules r ls).Cleared := by
  induction ls generalizing r with
  | nil => exact ⟨rfl, h⟩
  | cons l ls ih =>
    have hstep : Follows rules l r (r.step rules l) := h.follows l
    rw [Filter.steps_cons, ← hstep.filter]
    exact ih hstep.cleared

theorem finish_filter (r : Registers) : r.filter.finish = r.finish := by
  obtain ⟨phase, banner, comment, kept⟩ := r
  cases phase with
  | normal => simp [filter, Filter.finish, finish]
  | inComment => simp [filter, Filter.finish, finish, closeComment_eq, remains_reverse]
  | skipping => simp [filter, Filter.finish, finish]

theorem cleared_fresh : Cleared {} := ⟨fun _ => rfl, fun _ => rfl⟩

/-- After any lines the registers hold what the filter holds back and what it has kept. -/
theorem registers_steps (rules : List Rule) (ls : List Line) :
    (steps rules {} ls).comment = (Filter.steps rules {} ls).buffer ∧
      (steps rules {} ls).kept = (Filter.steps rules {} ls).emitted := by
  obtain ⟨hfilter, hcleared⟩ := filter_steps cleared_fresh ls
  have hfresh : Filter.steps rules {} ls = (steps rules {} ls).filter := hfilter.symm
  rw [hfresh]
  generalize steps rules {} ls = r at hcleared
  obtain ⟨phase, banner, comment, kept⟩ := r
  refine ⟨?_, by simp [filter, Filter.emitted]⟩
  cases phase with
  | normal => exact hcleared.comment (by simp)
  | inComment => simp [filter, Filter.buffer]
  | skipping => exact hcleared.comment (by simp)

/-- The machine keeps the lines of a document that the filter keeps. -/
theorem finish_steps (rules : List Rule) (ls : List Line) : (steps rules {} ls).finish = keptLines rules ls := by
  rw [keptLines, ← finish_filter, (filter_steps cleared_fresh ls).1]
  rfl

end Registers

end Abridge.Noise
