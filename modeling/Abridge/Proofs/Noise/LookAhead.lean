import Abridge.Proofs.Noise.Settled

/-! Reading a document with an eye on the lines to come. `Reads` says what stays of it without a machine: a
    section is seen up to the declaration that ends it, a comment block as a whole, and a banner from its
    upper edge. The filter goes line by line and takes a title back when it has kept too much, and yet it
    keeps just these lines (`keptLines_eq_iff_reads`). -/

namespace Abridge.Noise

/-! ### The reading -/

/-- The line declares a function and so ends a section. -/
def endsSection (l : Line) : Bool := isDeclaration l && (sectionPhrase? l).isNone

/-- The lines `b` are a comment block in front of `ls`: one up to its end, or up to that of the document. -/
def IsBlock (b ls : List Line) : Prop := Closed b ∨ Opened b ∧ ls = []

/-- An edge, a title that would stay on its own, and an edge. -/
structure IsBanner (rules : List Rule) (upper title lower : Line) : Prop where
  above : isBannerEdge upper = true
  capital : isBannerTitle title = true
  phrase : sectionPhrase? title = none
  rule : Rule.first? rules title = none
  below : isBannerEdge lower = true

/-- Of some lines, those that no rule drops. -/
def spared (rules : List Rule) (ls : List Line) : List Line := ls.filter fun l => (Rule.first? rules l).isNone

/-- What stays of the lines, read from the left. -/
inductive Reads (rules : List Rule) : List Line → List Line → Prop
  | nil : Reads rules [] []
  /-- A section goes, and the declaration that ends it stays. -/
  | skip {l gone d ls out} (hl : sectionPhrase? l ≠ none) (hgone : ∀ k ∈ gone, endsSection k = false)
      (hd : endsSection d = true) (h : Reads rules ls out) : Reads rules (l :: gone ++ d :: ls) (d :: out)
  /-- A section that no declaration ends goes up to the end of the document. -/
  | skipAll {l gone} (hl : sectionPhrase? l ≠ none) (hgone : ∀ k ∈ gone, endsSection k = false) :
    Reads rules (l :: gone) []
  /-- A block in which a section opens goes up to there. -/
  | broken {b l ls out} (hb : Opened b) (hl : sectionPhrase? l ≠ none) (h : Reads rules (l :: ls) out) :
    Reads rules (b ++ l :: ls) out
  /-- A short and quiet block stays. -/
  | block {b ls out} (hb : IsBlock b ls) (hs : Stays b) (h : Reads rules ls out) : Reads rules (b ++ ls) (b ++ out)
  /-- A long or verbose block goes. -/
  | noBlock {b ls out} (hb : IsBlock b ls) (hs : ¬Stays b) (h : Reads rules ls out) : Reads rules (b ++ ls) out
  /-- The title of a banner goes, and its edges stay unless a rule drops them. -/
  | banner {upper title lower ls out} (hb : IsBanner rules upper title lower) (h : Reads rules ls out) :
    Reads rules (upper :: title :: lower :: ls) (spared rules [upper, lower] ++ out)
  /-- Any other line stays unless a rule drops it. -/
  | line {l ls out} (hp : sectionPhrase? l = none) (ho : afterOpening? l = none)
      (hb : ∀ title lower ms, ls = title :: lower :: ms → ¬IsBanner rules l title lower) (h : Reads rules ls out) :
    Reads rules (l :: ls) (spared rules [l] ++ out)

variable {rules : List Rule}

theorem reverse_spared (ls : List Line) : (spared rules ls).reverse = spared rules ls.reverse := List.filter_reverse.symm

/-! ### Edges and titles -/

theorem not_mem_of_isBannerEdge {l : Line} {c : Char} (h : isBannerEdge l = true) (hc : isSeparatorChar c = false) :
    c ∉ l := by
  intro hmem
  rw [isBannerEdge, isSeparator_eq_false hmem hc] at h
  cases h

theorem isSeparatorChar_of_isUpper {c : Char} (hup : c.isUpper = true) : isSeparatorChar c = false := by
  rw [← Bool.not_eq_true]
  intro h
  rw [isSeparatorChar, Bool.or_eq_true] at h
  rcases h with h | h
  · have hmarks : (['/', '=', '_', '-'].all fun c => !c.isUpper) = true := by decide
    have hmark := List.all_eq_true.mp hmarks c (by simpa using h)
    simp [hup] at hmark
  · simp only [isBlank, blankRanges, List.any_cons, List.any_nil, Bool.or_false, Bool.or_eq_true, Bool.and_eq_true,
      decide_eq_true_eq] at h
    have hcode : c.val.toNat = c.toNat := rfl
    have hA : 'A'.val.toNat = 65 := rfl
    have hZ : 'Z'.val.toNat = 90 := rfl
    have hrange : 'A'.val ≤ c.val ∧ c.val ≤ 'Z'.val := of_decide_eq_true hup
    rw [UInt32.le_iff_toNat_le, UInt32.le_iff_toNat_le] at hrange
    omega

theorem sectionPhrase?_of_isBannerEdge {l : Line} (h : isBannerEdge l = true) : sectionPhrase? l = none :=
  sectionPhrase?_of_not_mem (not_mem_of_isBannerEdge h (by decide))

theorem afterOpening?_of_isBannerEdge {l : Line} (h : isBannerEdge l = true) : afterOpening? l = none :=
  afterOpening?_of_not_mem (c := '*') (by decide) (not_mem_of_isBannerEdge h (by decide))

theorem exists_of_isBannerTitle {l : Line} (h : isBannerTitle l = true) :
    ∃ rest, l.trimStart = '/' :: '/' :: rest ∧ ∃ c ∈ rest, c.isUpper = true := by
  unfold isBannerTitle at h
  split at h
  case h_1 rest hrest =>
    rw [Option.any_eq_true] at h
    obtain ⟨c, hc, hup⟩ := h
    rw [List.isPrefixOf?_eq_some_iff_append_eq] at hrest
    exact ⟨rest, hrest.symm, c, (Text.trimStart_suffix rest).subset (List.mem_of_mem_head? hc), hup⟩
  case h_2 => cases h

theorem afterOpening?_of_isBannerTitle {l : Line} (h : isBannerTitle l = true) : afterOpening? l = none := by
  obtain ⟨rest, hl, -⟩ := exists_of_isBannerTitle h
  rw [Option.eq_none_iff_forall_ne_some]
  intro rest' ho
  rw [afterOpening?_eq_some_iff, hl] at ho
  simp at ho

/-- No title is an edge: it has a capital letter. -/
theorem isBannerEdge_of_isBannerTitle {l : Line} (h : isBannerTitle l = true) : isBannerEdge l = false := by
  obtain ⟨rest, hl, c, hc, hup⟩ := exists_of_isBannerTitle h
  have hmem : c ∈ l := (Text.trimStart_suffix l).subset (by simp [hl, hc])
  exact isSeparator_eq_false hmem (isSeparatorChar_of_isUpper hup)

/-! ### The filter in a banner -/

namespace Filter

theorem step_enter {mode : Mode} {l : Line} (hm : mode ≠ .skipping) (hl : sectionPhrase? l ≠ none) (kept : List Line) :
    step rules ⟨mode, kept⟩ l = ⟨.skipping, kept⟩ := (Moves.enter hm (Option.isSome_iff_ne_none.mpr hl)).step_eq

/-- A line that neither opens a section nor a comment block is looked at by itself. -/
theorem step_alone (b : Banner) {l : Line} (kept : List Line) (hp : sectionPhrase? l = none) (ho : afterOpening? l = none) :
    step rules ⟨.reading b, kept⟩ l =
      ⟨.reading (b.next l (Rule.first? rules l).isSome), spared rules [l] ++ takenBack b l kept⟩ := by
  cases hr : Rule.first? rules l with
  | none =>
    have hmove : Moves rules l ⟨.reading b, kept⟩ ⟨.reading (b.next l false), l :: takenBack b l kept⟩ := .keep hp ho hr
    simpa [spared, hr] using hmove.step_eq
  | some rule =>
    have hmove : Moves rules l ⟨.reading b, kept⟩ ⟨.reading (b.next l true), takenBack b l kept⟩ := .drop hp ho hr
    simpa [spared, hr] using hmove.step_eq

/-- How far a banner is read makes a difference only to a line that is looked at by itself. -/
theorem step_congr_banner {b b' : Banner} {l : Line} {kept : List Line}
    (hnext : sectionPhrase? l = none → b.next l (Rule.first? rules l).isSome = b'.next l (Rule.first? rules l).isSome)
    (hback : takenBack b l kept = takenBack b' l kept) :
    step rules ⟨.reading b, kept⟩ l = step rules ⟨.reading b', kept⟩ l := by
  cases hp : sectionPhrase? l with
  | some phrase =>
    have hl : sectionPhrase? l ≠ none := by simp [hp]
    rw [step_enter (by simp) hl, step_enter (by simp) hl]
  | none =>
    cases ho : afterOpening? l with
    | some rest =>
      cases hc : rest.contains commentClose with
      | false => rw [(Moves.start hp ho hc).step_eq, (Moves.start hp ho hc).step_eq]
      | true => rw [(Moves.whole hp ho hc).step_eq, (Moves.whole hp ho hc).step_eq]
    | none => rw [step_alone b kept hp ho, step_alone b' kept hp ho, hnext hp, hback]

/-- Behind a title, nothing but an edge is read in another way than outside of a banner. -/
theorem finish_steps_afterTitle {ls : List Line} (h : ∀ l ∈ ls.head?, isBannerEdge l = false) (kept : List Line) :
    (steps rules ⟨.reading .afterTitle, kept⟩ ls).finish = (steps rules ⟨.reading .outside, kept⟩ ls).finish := by
  cases ls with
  | nil => rfl
  | cons l ls =>
    have hl : isBannerEdge l = false := h l rfl
    have hstep : step rules ⟨.reading .afterTitle, kept⟩ l = step rules ⟨.reading .outside, kept⟩ l :=
      step_congr_banner (by simp [Banner.next, hl]) (by simp [takenBack, hl])
    rw [steps_cons, steps_cons, hstep]

/-- Behind an edge, nothing but the rest of a banner is read in another way than outside of one. -/
theorem finish_steps_afterEdge {upper : Line} {ls : List Line} (hu : isBannerEdge upper = true)
    (hb : ∀ title lower ms, ls = title :: lower :: ms → ¬IsBanner rules upper title lower) (kept : List Line) :
    (steps rules ⟨.reading .afterEdge, kept⟩ ls).finish = (steps rules ⟨.reading .outside, kept⟩ ls).finish := by
  cases ls with
  | nil => rfl
  | cons l ls =>
    by_cases hl : isBannerTitle l = true ∧ sectionPhrase? l = none ∧ Rule.first? rules l = none
    · obtain ⟨ht, hp, hr⟩ := hl
      have ho := afterOpening?_of_isBannerTitle ht
      have he := isBannerEdge_of_isBannerTitle ht
      have hhead : ∀ k ∈ ls.head?, isBannerEdge k = false := by
        intro k hk
        obtain ⟨ms, rfl⟩ := List.head?_eq_some_iff.mp hk
        rw [← Bool.not_eq_true]
        exact fun hlow => hb l k ms rfl ⟨hu, ht, hp, hr, hlow⟩
      rw [steps_cons, steps_cons, step_alone _ _ hp ho, step_alone _ _ hp ho]
      simpa [Banner.next, he, hr, ht, takenBack] using finish_steps_afterTitle hhead (spared rules [l] ++ kept)
    · have hstep : step rules ⟨.reading .afterEdge, kept⟩ l = step rules ⟨.reading .outside, kept⟩ l := by
        refine step_congr_banner (fun hp => ?_) (by simp [takenBack])
        cases ht : isBannerTitle l with
        | false => simp [Banner.next, ht]
        | true =>
          have hr : (Rule.first? rules l).isSome = true := by
            rw [Option.isSome_iff_ne_none]
            exact fun hr => hl ⟨ht, hp, hr⟩
          simp [Banner.next, hr]
      rw [steps_cons, steps_cons, hstep]

/-- A banner read to its end leaves nothing of its title. -/
theorem steps_banner {upper title lower : Line} (h : IsBanner rules upper title lower) (kept : List Line) :
    steps rules ⟨.reading .outside, kept⟩ [upper, title, lower] =
      ⟨.reading .outside, spared rules [lower, upper] ++ kept⟩ := by
  have hcapital := isBannerEdge_of_isBannerTitle h.capital
  have hu : step rules ⟨.reading .outside, kept⟩ upper = ⟨.reading .afterEdge, spared rules [upper] ++ kept⟩ := by
    rw [step_alone _ _ (sectionPhrase?_of_isBannerEdge h.above) (afterOpening?_of_isBannerEdge h.above)]
    simp [Banner.next, takenBack, h.above]
  have ht : ∀ kept, step rules ⟨.reading .afterEdge, kept⟩ title = ⟨.reading .afterTitle, title :: kept⟩ := by
    intro kept
    rw [step_alone _ _ h.phrase (afterOpening?_of_isBannerTitle h.capital)]
    simp [Banner.next, takenBack, spared, hcapital, h.capital, h.rule]
  have hl : ∀ kept, step rules ⟨.reading .afterTitle, title :: kept⟩ lower =
      ⟨.reading .outside, spared rules [lower] ++ kept⟩ := by
    intro kept
    rw [step_alone _ _ (sectionPhrase?_of_isBannerEdge h.below) (afterOpening?_of_isBannerEdge h.below)]
    simp [Banner.next, takenBack, h.below]
  rw [steps_cons, steps_cons, steps_cons, hu, ht, hl, ← List.append_assoc, spared, spared, ← List.filter_append]
  rfl

theorem steps_skipping {gone : List Line} (h : ∀ k ∈ gone, endsSection k = false) (kept : List Line) :
    steps rules ⟨.skipping, kept⟩ gone = ⟨.skipping, kept⟩ := by
  induction gone with
  | nil => rfl
  | cons k gone ih =>
    have hk : isDeclaration k = true → (sectionPhrase? k).isSome := by
      intro hd
      have hends := h k (by simp)
      simpa [endsSection, hd] using hends
    rw [steps_cons, (Moves.skip hk).step_eq, ih fun k hk => h k (List.mem_cons_of_mem _ hk)]

end Filter

/-! ### The filter keeps what the reading says -/

/-- A block comes to what remains of it, at the end of the document too. -/
theorem IsBlock.finish_steps {b ls : List Line} (h : IsBlock b ls) (kept : List Line) :
    (Filter.steps rules ⟨.reading .outside, kept⟩ (b ++ ls)).finish =
      (Filter.steps rules ⟨.reading .outside, remains b.reverse ++ kept⟩ ls).finish := by
  rcases h with hb | ⟨hb, rfl⟩
  · rw [Filter.steps_append, Filter.steps_closed hb]
  · rw [List.append_nil, Filter.steps_opened hb]
    rfl

theorem Reads.finish_steps {ls out : List Line} (h : Reads rules ls out) (kept : List Line) :
    (Filter.steps rules ⟨.reading .outside, kept⟩ ls).finish = kept.reverse ++ out := by
  -- Between two pieces the filter is outside of banners; it is not behind an edge that stands alone, but there
  -- it goes on as if it were.
  induction h generalizing kept with
  | nil => exact (List.append_nil _).symm
  | @skip l gone d ls out hl hgone hd _ ih =>
    rw [endsSection, Bool.and_eq_true, Option.isNone_iff_eq_none] at hd
    rw [List.cons_append, Filter.steps_cons, Filter.step_enter (by simp) hl, Filter.steps_append, Filter.steps_skipping hgone,
      Filter.steps_cons, (Filter.Moves.leave hd.1 hd.2).step_eq, ih]
    simp
  | skipAll hl hgone =>
    rw [Filter.steps_cons, Filter.step_enter (by simp) hl, Filter.steps_skipping hgone, List.append_nil]
    rfl
  | broken hb hl _ ih =>
    rw [← ih kept, Filter.steps_append, Filter.steps_opened hb, Filter.steps_cons, Filter.step_enter (by simp) hl,
      Filter.steps_cons, Filter.step_enter (by simp) hl]
  | block hb hs _ ih =>
    rw [hb.finish_steps, hs.reverse.remains_eq, ih]
    simp
  | @noBlock b ls out hb hs _ ih =>
    have hgone : remains b.reverse = [] := remains_of_not_stays fun h => hs (by simpa using h.reverse)
    rw [hb.finish_steps, hgone, List.nil_append, ih]
  | @banner upper title lower ls out hb _ ih =>
    have hsplit : upper :: title :: lower :: ls = [upper, title, lower] ++ ls := rfl
    rw [hsplit, Filter.steps_append, Filter.steps_banner hb, ih, List.reverse_append, reverse_spared, List.append_assoc]
    rfl
  | @line l ls out hp ho hb _ ih =>
    have hback : Filter.takenBack .outside l kept = kept := by simp [Filter.takenBack]
    have hrest : (Filter.steps rules ⟨.reading .outside, spared rules [l] ++ kept⟩ ls).finish =
        kept.reverse ++ (spared rules [l] ++ out) := by
      rw [ih, List.reverse_append, reverse_spared, List.append_assoc]
      rfl
    rw [Filter.steps_cons, Filter.step_alone .outside kept hp ho, hback, ← hrest]
    cases hl : isBannerEdge l with
    | false => simp [Banner.next, hl]
    | true => simpa [Banner.next, hl] using Filter.finish_steps_afterEdge hl hb (spared rules [l] ++ kept)

/-! ### Every document is read -/

theorem Opened.exists_end {b : List Line} (h : Opened b) (ls : List Line) :
    ∃ c ms, ls = c ++ ms ∧
      (IsBlock (b ++ c) ms ∨ Opened (b ++ c) ∧ ∃ k ks, ms = k :: ks ∧ sectionPhrase? k ≠ none) := by
  induction ls generalizing b with
  | nil => exact ⟨[], [], rfl, Or.inl (Or.inr ⟨by rwa [List.append_nil], rfl⟩)⟩
  | cons l ls ih =>
    cases hp : sectionPhrase? l with
    | some phrase => exact ⟨[], l :: ls, rfl, Or.inr ⟨by rwa [List.append_nil], l, ls, rfl, by simp [hp]⟩⟩
    | none =>
      cases hc : l.contains commentClose with
      | true => exact ⟨[l], ls, rfl, Or.inl (Or.inl (.next h hp hc))⟩
      | false =>
        obtain ⟨c, ms, rfl, hend⟩ := ih (h.next hp hc)
        exact ⟨l :: c, ms, rfl, by simpa using hend⟩

/-- A block that a line opens ends, or the document does, or a section opens in it. -/
theorem exists_block {l rest : Line} (ls : List Line) (hp : sectionPhrase? l = none) (ho : afterOpening? l = some rest) :
    ∃ b ms, l :: ls = b ++ ms ∧ b ≠ [] ∧
      (IsBlock b ms ∨ Opened b ∧ ∃ k ks, ms = k :: ks ∧ sectionPhrase? k ≠ none) := by
  cases hc : rest.contains commentClose with
  | true => exact ⟨[l], ls, rfl, by simp, Or.inl (Or.inl (.first hp ho hc))⟩
  | false =>
    obtain ⟨c, ms, rfl, hend⟩ := (Opened.first hp ho hc).exists_end ls
    exact ⟨[l] ++ c, ms, rfl, by simp, hend⟩

section Shorter
variable {l : Line} {ls : List Line}
  (shorter : ∀ ms : List Line, ms.length < (l :: ls).length → ∃ out, Reads rules ms out)
include shorter

theorem exists_reads_section (hl : sectionPhrase? l ≠ none) : ∃ out, Reads rules (l :: ls) out := by
  cases hfind : ls.find? endsSection with
  | none => exact ⟨[], .skipAll hl (by simpa using List.find?_eq_none.mp hfind)⟩
  | some d =>
    obtain ⟨hd, gone, ms, rfl, hgone⟩ := List.find?_eq_some_iff_append.mp hfind
    obtain ⟨out, hout⟩ := shorter ms (by simp only [List.length_cons, List.length_append]; omega)
    exact ⟨d :: out, .skip hl (by simpa using hgone) hd hout⟩

theorem exists_reads_block {rest : Line} (hp : sectionPhrase? l = none) (ho : afterOpening? l = some rest) :
    ∃ out, Reads rules (l :: ls) out := by
  obtain ⟨b, ms, hls, hne, hend⟩ := exists_block ls hp ho
  have hpos := List.length_pos_iff.mpr hne
  obtain ⟨out, hout⟩ := shorter ms (by rw [hls, List.length_append]; omega)
  rw [hls]
  rcases hend with hb | ⟨hb, k, ks, rfl, hk⟩
  · by_cases hs : Stays b
    · exact ⟨b ++ out, .block hb hs hout⟩
    · exact ⟨out, .noBlock hb hs hout⟩
  · exact ⟨out, .broken hb hk hout⟩

theorem exists_reads_line (hp : sectionPhrase? l = none) (ho : afterOpening? l = none) :
    ∃ out, Reads rules (l :: ls) out := by
  by_cases hb : ∃ title lower ms, ls = title :: lower :: ms ∧ IsBanner rules l title lower
  · obtain ⟨title, lower, ms, rfl, hb⟩ := hb
    obtain ⟨out, hout⟩ := shorter ms (by simp only [List.length_cons]; omega)
    exact ⟨_, .banner hb hout⟩
  · obtain ⟨out, hout⟩ := shorter ls (by simp)
    exact ⟨_, .line hp ho (fun title lower ms hls hban => hb ⟨title, lower, ms, hls, hban⟩) hout⟩

end Shorter

/-- There is a reading of every document. -/
theorem exists_reads (rules : List Rule) (ls : List Line) : ∃ out, Reads rules ls out := by
  induction hn : ls.length using Nat.strongRecOn generalizing ls with
  | ind n ih =>
    subst hn
    have shorter : ∀ ms : List Line, ms.length < ls.length → ∃ out, Reads rules ms out := fun ms hms => ih _ hms ms rfl
    cases ls with
    | nil => exact ⟨[], .nil⟩
    | cons l ls =>
      cases hp : sectionPhrase? l with
      | some phrase => exact exists_reads_section shorter (by simp [hp])
      | none =>
        cases ho : afterOpening? l with
        | some rest => exact exists_reads_block shorter hp ho
        | none => exact exists_reads_line shorter hp ho

/-- The filter, fed line by line, keeps what the reading says and nothing else. -/
theorem keptLines_eq_iff_reads {ls out : List Line} : keptLines rules ls = out ↔ Reads rules ls out := by
  have hsound : ∀ out, Reads rules ls out → keptLines rules ls = out := fun out h => h.finish_steps []
  constructor
  · rintro rfl
    obtain ⟨out, h⟩ := exists_reads rules ls
    rwa [hsound out h]
  · exact hsound out

end Abridge.Noise
