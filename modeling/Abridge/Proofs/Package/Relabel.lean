import Abridge.Package.Clause
import Abridge.Proofs.Text.Lines
import Mathlib.Data.List.Basic

/-! Relabelling line by line. `Declares` says what a declaration of a label is on a line of its own. A label
    without blanks and newlines can be read in one way only (`Declares.unique`), so relabelling a document changes
    each line that declares the label and no other, and after that there is nothing left to change
    (`relabel_line_by_line`). -/

namespace Abridge.Package

/-! ### Declarations -/

/-- The line declares the label: the word, a gap, the label and a tail. -/
def Declares (label l tail : Text) : Prop :=
  ∃ gap, gap ≠ [] ∧ (∀ c ∈ gap, isGap c = true) ∧ (∀ c ∈ tail, isTail c = true) ∧
    l = packageWord ++ gap ++ label ++ tail

/-- A label that ends where it seems to: it is not empty and holds nothing that may stand around it. -/
structure Simple (label : Text) : Prop where
  ne_nil : label ≠ []
  tail : ∀ c ∈ label, isTail c = false
  newline : '\n' ∉ label

/-- The text is at the end of a line. -/
def EndOfLine (t : Text) : Prop := t = [] ∨ ∃ s, t = '\n' :: s

theorem EndOfLine.head {t : Text} (h : EndOfLine t) : ∀ c ∈ t.head?, c = '\n' := by
  rcases h with rfl | ⟨s, rfl⟩ <;> simp

theorem isTail_of_isGap {c : Char} (h : isGap c = true) : isTail c = true := by simp [isTail, h]

variable {label : Text}

/-- What holds of the characters of the word and of the label and of blanks holds of a declaration. -/
theorem Declares.forall_mem {P : Char → Prop} {l tail : Text} (h : Declares label l tail) (hword : ∀ c ∈ packageWord, P c)
    (hlabel : ∀ c ∈ label, P c) (hblank : ∀ c ∈ [' ', '\t', '\r'], P c) : ∀ c ∈ l, P c := by
  have htail : ∀ c, isTail c = true → P c := by
    intro c hc
    simp only [isTail, isGap, Bool.or_eq_true, decide_eq_true_eq] at hc
    rcases hc with (rfl | rfl) | rfl
    · exact hblank _ (by simp)
    · exact hblank _ (by simp)
    · exact hblank _ (by simp)
  obtain ⟨gap, -, hgap, hall, rfl⟩ := h
  intro c hc
  simp only [List.mem_append] at hc
  rcases hc with ((hc | hc) | hc) | hc
  · exact hword c hc
  · exact htail c (isTail_of_isGap (hgap c hc))
  · exact hlabel c hc
  · exact htail c (hall c hc)

theorem Declares.newline {l tail : Text} (h : Declares label l tail) (hn : '\n' ∉ label) : '\n' ∉ l := fun hm =>
  h.forall_mem (P := (· ≠ '\n')) (Text.forall_mem_of_all (by decide)) (fun _ hc hnl => hn (hnl ▸ hc))
    (Text.forall_mem_of_all (by decide)) _ hm rfl

/-- A line with a simple label has no other one and no other tail, and it has no empty label either. -/
theorem Declares.unique {label' l tail tail' : Text} (hl : Simple label) (hl' : ∀ c ∈ label', isTail c = false)
    (h : Declares label l tail) (h' : Declares label' l tail') : label = label' ∧ tail = tail' := by
  have hbehind : ∀ {gap label tail : Text}, (∀ c ∈ gap, isGap c = true) → label ≠ [] → (∀ c ∈ label, isTail c = false) →
      (gap ++ (label ++ tail)).dropWhile isTail = label ++ tail := by
    intro gap label tail hgap hne hlabel
    obtain ⟨a, as, rfl⟩ := List.exists_cons_of_ne_nil hne
    exact Text.dropWhile_append_of_stop (fun c hc => isTail_of_isGap (hgap c hc)) (by simpa using hlabel a (by simp))
  have hfront : ∀ {label tail : Text}, (∀ c ∈ label, isTail c = false) → (∀ c ∈ tail, isTail c = true) →
      (label ++ tail).takeWhile (!isTail ·) = label := fun hlabel htail =>
    Text.takeWhile_append_of_stop (fun c hc => by simp [hlabel c hc]) fun c hc => by
      simp [htail c (List.mem_of_mem_head? hc)]
  obtain ⟨gap, -, hgap, htail, rfl⟩ := h
  obtain ⟨gap', -, hgap', htail', heq⟩ := h'
  simp only [List.append_assoc, List.append_cancel_left_eq] at heq
  have hne : label' ≠ [] := by
    rintro rfl
    obtain ⟨a, as, rfl⟩ := List.exists_cons_of_ne_nil hl.ne_nil
    have ha : a ∈ gap' ++ ([] ++ tail') := by
      rw [← heq]
      simp
    have hblank : isTail a = true := by
      rcases List.mem_append.mp ha with ha | ha
      · exact isTail_of_isGap (hgap' a ha)
      · exact htail' a ha
    rw [hl.tail a (by simp)] at hblank
    cases hblank
  have hrest : label ++ tail = label' ++ tail' := by
    rw [← hbehind hgap hl.ne_nil hl.tail, heq, hbehind hgap' hne hl']
  have hlabel : label = label' := by rw [← hfront hl.tail htail, hrest, hfront hl' htail']
  rw [hlabel] at hrest
  exact ⟨hlabel, List.append_cancel_left hrest⟩

/-! ### Reading a declaration -/

theorem tail?_eq_some_iff {t tail : Text} :
    tail? t = some tail ↔ ∃ u, t = tail ++ u ∧ (∀ c ∈ tail, isTail c = true) ∧ EndOfLine u := by
  constructor
  · intro h
    refine ⟨t.dropWhile isTail, ?_⟩
    have hsplit := List.takeWhile_append_dropWhile (p := isTail) (l := t)
    have hall : ∀ c ∈ t.takeWhile isTail, isTail c = true := List.all_eq_true.mp List.all_takeWhile
    unfold tail? at h
    split at h
    · rename_i hnil
      obtain rfl := Option.some.inj h
      exact ⟨hsplit.symm, hall, Or.inl hnil⟩
    · rename_i c u hcons
      split at h
      case isTrue hc =>
        obtain rfl := Option.some.inj h
        exact ⟨hsplit.symm, hall, Or.inr ⟨u, hc ▸ hcons⟩⟩
      case isFalse => cases h
  · rintro ⟨u, rfl, htail, hu⟩
    have hnewline : ∀ c ∈ u.head?, isTail c = false := fun c hc => by
      rw [hu.head c hc]
      decide
    rw [tail?, Text.dropWhile_append_of_stop htail hnewline, Text.takeWhile_append_of_stop htail hnewline]
    rcases hu with rfl | ⟨s, rfl⟩
    · rfl
    · simp

/-- What is read is a gap, the label and a tail that ends its line. -/
theorem labelled?_sound {t : Text} {d : Declaration} (h : labelled? label t = some d) :
    ∃ gap u, gap ≠ [] ∧ (∀ c ∈ gap, isGap c = true) ∧ (∀ c ∈ d.tail, isTail c = true) ∧ EndOfLine u ∧
      t = gap ++ label ++ d.tail ++ u ∧ d.length = (gap ++ label ++ d.tail).length := by
  induction t generalizing d with
  | nil => simp [labelled?] at h
  | cons c t ih =>
    rw [labelled?] at h
    split at h
    case isFalse => cases h
    case isTrue hc =>
      split at h
      · rename_i d' hd'
        obtain rfl := Option.some.inj h
        obtain ⟨gap, u, -, hgap, htail, hu, rfl, hlen⟩ := ih hd'
        refine ⟨c :: gap, u, List.cons_ne_nil _ _, ?_, htail, hu, rfl, ?_⟩
        · rintro k (_ | ⟨_, hk⟩)
          · exact hc
          · exact hgap k hk
        · rw [hlen]
          rfl
      · simp only [Option.bind_eq_bind, Option.bind_eq_some_iff, Option.pure_def, Option.some.injEq] at h
        obtain ⟨rest, hrest, tail, htail, rfl⟩ := h
        rw [List.isPrefixOf?_eq_some_iff_append_eq] at hrest
        obtain ⟨u, rfl, hall, hu⟩ := tail?_eq_some_iff.mp htail
        subst hrest
        refine ⟨[c], u, List.cons_ne_nil _ _, by simpa using hc, hall, hu, by simp, ?_⟩
        simp only [List.length_append, List.length_cons, List.length_nil]

theorem labelled?_complete (hl : Simple label) {gap tail u : Text} (hne : gap ≠ []) (hgap : ∀ c ∈ gap, isGap c = true)
    (htail : ∀ c ∈ tail, isTail c = true) (hu : EndOfLine u) :
    labelled? label (gap ++ label ++ tail ++ u) = some ⟨(gap ++ label ++ tail).length, tail⟩ := by
  induction gap with
  | nil => exact absurd rfl hne
  | cons c gap ih =>
    have hc : isGap c = true := hgap c (by simp)
    rw [List.cons_append, List.cons_append, List.cons_append, labelled?, if_pos hc]
    by_cases hnil : gap = []
    · -- The label begins here, so the gap is at its end.
      subst hnil
      obtain ⟨a, as, hlabel⟩ := List.exists_cons_of_ne_nil hl.ne_nil
      have ha : isGap a = false := by
        have h := hl.tail a (by simp [hlabel])
        simp only [isTail, Bool.or_eq_false_iff] at h
        exact h.1
      have hnone : labelled? label ([] ++ label ++ tail ++ u) = none := by
        simp [hlabel, labelled?, ha]
      have hprefix : label.isPrefixOf? ([] ++ label ++ tail ++ u) = some (tail ++ u) :=
        List.isPrefixOf?_eq_some_iff_append_eq.mpr (by simp)
      have htail' : tail? (tail ++ u) = some tail := tail?_eq_some_iff.mpr ⟨u, rfl, htail, hu⟩
      simp only [hnone, hprefix, htail', Option.bind_eq_bind, Option.bind_some, Option.pure_def]
      simp [Nat.add_comm 1, Nat.add_assoc]
    · rw [ih hnil fun k hk => hgap k (List.mem_cons_of_mem _ hk)]
      rfl

/-- What is read is a line that declares the label, with a newline behind it or nothing. -/
theorem declaration?_sound {t : Text} {d : Declaration} (h : declaration? label t = some d) :
    ∃ l u, Declares label l d.tail ∧ EndOfLine u ∧ t = l ++ u ∧ d.length = l.length := by
  simp only [declaration?, Option.bind_eq_bind, Option.bind_eq_some_iff, Option.pure_def, Option.some.injEq] at h
  obtain ⟨rest, hrest, d, hd, rfl⟩ := h
  rw [List.isPrefixOf?_eq_some_iff_append_eq] at hrest
  obtain ⟨gap, u, hne, hgap, htail, hu, rfl, hlen⟩ := labelled?_sound hd
  subst hrest
  refine ⟨_, u, ⟨gap, hne, hgap, htail, rfl⟩, hu, by simp, ?_⟩
  rw [hlen]
  simp

theorem declaration?_complete (hl : Simple label) {l tail u : Text} (h : Declares label l tail) (hu : EndOfLine u) :
    declaration? label (l ++ u) = some ⟨l.length, tail⟩ := by
  obtain ⟨gap, hne, hgap, htail, rfl⟩ := h
  have hword : packageWord.isPrefixOf? (packageWord ++ gap ++ label ++ tail ++ u) = some (gap ++ label ++ tail ++ u) :=
    List.isPrefixOf?_eq_some_iff_append_eq.mpr (by simp)
  simp only [declaration?, hword, labelled?_complete hl hne hgap htail hu, Option.bind_eq_bind, Option.bind_some,
    Option.pure_def]
  simp

/-! ### Line by line -/

/-- The line with `target` in place of the label `source`, if it declares that. -/
def relabelLine (source target : Text) (l : Line) : Line :=
  match declaration? source l with
  | some d => if d.length = l.length then packageWord ++ ' ' :: target ++ d.tail else l
  | none => l

variable {source target : Text}

theorem relabelLine_of_declares (hs : Simple source) {l tail : Text} (h : Declares source l tail) :
    relabelLine source target l = packageWord ++ ' ' :: target ++ tail := by
  have hread := declaration?_complete hs h (Or.inl rfl)
  rw [List.append_nil] at hread
  rw [relabelLine, hread]
  exact if_pos rfl

theorem relabelLine_cases (hs : Simple source) (target : Text) (l : Line) :
    (∃ tail, Declares source l tail ∧ relabelLine source target l = packageWord ++ ' ' :: target ++ tail) ∨
      (∀ tail, ¬Declares source l tail) ∧ relabelLine source target l = l := by
  by_cases hd : ∃ tail, Declares source l tail
  · obtain ⟨tail, hd⟩ := hd
    exact Or.inl ⟨tail, hd, relabelLine_of_declares hs hd⟩
  · rw [not_exists] at hd
    refine Or.inr ⟨hd, ?_⟩
    rw [relabelLine]
    split
    case h_2 => rfl
    case h_1 d hread =>
      obtain ⟨k, u, hk, -, rfl, hlen⟩ := declaration?_sound hread
      refine if_neg fun hall => ?_
      rw [hlen, List.length_append] at hall
      obtain rfl : u = [] := List.length_eq_zero_iff.mp (by omega)
      rw [List.append_nil] at hd
      exact hd d.tail hk

theorem relabelFrom_line {l : Line} (hl : '\n' ∉ l) (t : Text) :
    relabelFrom source target 0 false (l ++ t) = l ++ relabelFrom source target 0 false t := by
  induction l with
  | nil => rfl
  | cons c l ih =>
    rw [List.mem_cons, not_or] at hl
    rw [List.cons_append, relabelFrom, if_neg (by simp), decide_eq_false (Ne.symm hl.1), ih hl.2, List.cons_append]

theorem relabelFrom_skip {l : Line} (hl : '\n' ∉ l) (t : Text) :
    relabelFrom source target l.length false (l ++ t) = relabelFrom source target 0 false t := by
  induction l with
  | nil => rfl
  | cons c l ih =>
    rw [List.mem_cons, not_or] at hl
    rw [List.cons_append, List.length_cons, relabelFrom, decide_eq_false (Ne.symm hl.1), ih hl.2]

/-- Two lines without newlines end where the first newline stands. -/
theorem line_unique {k l u v : Text} (hk : '\n' ∉ k) (hl : '\n' ∉ l) (hu : EndOfLine u) (hv : EndOfLine v)
    (h : k ++ u = l ++ v) : k = l ∧ u = v := by
  have hfront : ∀ {k u : Text}, '\n' ∉ k → EndOfLine u → (k ++ u).takeWhile (· ≠ '\n') = k := fun hk hu =>
    Text.takeWhile_append_of_stop (fun c hc => decide_eq_true fun h => hk (h ▸ hc)) fun c hc => by simp [hu.head c hc]
  have hkl : k = l := by rw [← hfront hk hu, h, hfront hl hv]
  subst hkl
  exact ⟨rfl, List.append_cancel_left h⟩

theorem relabelFrom_fresh (hs : Simple source) {l : Line} (hl : '\n' ∉ l) {u : Text} (hu : EndOfLine u) :
    relabelFrom source target 0 true (l ++ u) = relabelLine source target l ++ relabelFrom source target 0 false u := by
  rcases relabelLine_cases hs target l with ⟨tail, hd, hline⟩ | ⟨hnot, hline⟩
  · rw [hline]
    have hread := declaration?_complete hs hd hu
    cases l with
    | nil => simp [Declares, packageWord] at hd
    | cons c l =>
      rw [List.mem_cons, not_or] at hl
      rw [List.cons_append] at hread ⊢
      rw [relabelFrom, if_pos rfl, hread]
      simp only
      rw [List.length_cons, Nat.add_sub_cancel, decide_eq_false (Ne.symm hl.1), relabelFrom_skip hl.2]
  · rw [hline]
    have hread : declaration? source (l ++ u) = none := by
      cases hd : declaration? source (l ++ u) with
      | none => rfl
      | some d =>
        obtain ⟨k, v, hk, hv, hkv, -⟩ := declaration?_sound hd
        obtain ⟨rfl, -⟩ := line_unique hl (hk.newline hs.newline) hu hv hkv
        exact absurd hk (hnot d.tail)
    cases l with
    | nil =>
      rcases hu with rfl | ⟨s, rfl⟩
      · rfl
      · rw [List.nil_append] at hread
        simp [relabelFrom, hread]
    | cons c l =>
      rw [List.mem_cons, not_or] at hl
      rw [List.cons_append] at hread ⊢
      rw [relabelFrom, if_pos rfl, hread]
      simp only
      rw [decide_eq_false (Ne.symm hl.1), relabelFrom_line hl.2, List.cons_append]

theorem relabel_ofLines (hs : Simple source) {ls : List Line} (hls : ∀ l ∈ ls, '\n' ∉ l) :
    relabel source target (.ofLines ls) = .ofLines (ls.map (relabelLine source target)) := by
  induction ls with
  | nil => rfl
  | cons l ls ih =>
    have hl := hls l (by simp)
    by_cases hne : ls = []
    · subst hne
      have h : relabelFrom source target 0 true (l ++ []) = _ := relabelFrom_fresh hs hl (Or.inl rfl)
      simpa [relabelFrom, relabel] using h
    · have ih := ih fun k hk => hls k (List.mem_cons_of_mem _ hk)
      rw [relabel] at ih ⊢
      rw [Text.ofLines_cons l hne, relabelFrom_fresh hs hl (Or.inr ⟨_, rfl⟩), relabelFrom, if_neg (by simp),
        decide_eq_true rfl, ih, List.map_cons, Text.ofLines_cons _ (by simpa using hne)]

/-- A document is relabelled line by line. -/
theorem relabel_eq (hs : Simple source) (t : Text) :
    relabel source target t = .ofLines (t.lines.map (relabelLine source target)) := by
  conv => lhs; rw [← Text.ofLines_lines t]
  exact relabel_ofLines hs Text.not_mem_of_mem_lines

/-! ### Relabelled documents -/

/-- The line of a declaration with nothing more than it needs. -/
theorem declares_target {tail : Text} (htail : ∀ c ∈ tail, isTail c = true) :
    Declares target (packageWord ++ ' ' :: target ++ tail) tail :=
  ⟨[' '], by simp, by simp [isGap], htail, by simp⟩

theorem not_declares_relabelLine (hs : Simple source) (ht : Simple target) (hne : source ≠ target) (l : Line)
    (tail : Text) : ¬Declares source (relabelLine source target l) tail := by
  intro h
  rcases relabelLine_cases hs target l with ⟨tail', ⟨_, -, -, htail, -⟩, hline⟩ | ⟨hnot, hline⟩
  · rw [hline] at h
    exact hne (h.unique hs ht.tail (declares_target htail)).1
  · rw [hline] at h
    exact hnot tail h

theorem relabelLine_eq_self (hs : Simple source) {l : Line} (h : ∀ tail, ¬Declares source l tail) :
    relabelLine source target l = l := by
  rcases relabelLine_cases hs target l with ⟨tail, hd, -⟩ | ⟨-, hline⟩
  · exact absurd hd (h tail)
  · exact hline

theorem relabel_eq_self (hs : Simple source) {t : Text} (h : ∀ l ∈ t.lines, ∀ tail, ¬Declares source l tail) :
    relabel source target t = t := by
  rw [relabel_eq hs, List.map_congr_left fun l hl => relabelLine_eq_self hs (h l hl),
    List.map_id', Text.ofLines_lines]

theorem newline_relabelLine (hs : Simple source) (ht : '\n' ∉ target) {l : Line} (hl : '\n' ∉ l) :
    '\n' ∉ relabelLine source target l := by
  rcases relabelLine_cases hs target l with ⟨tail, ⟨_, -, -, htail, -⟩, hline⟩ | ⟨-, hline⟩
  · rw [hline]
    exact (declares_target htail).newline ht
  · rwa [hline]

theorem lines_relabel (hs : Simple source) (ht : '\n' ∉ target) (t : Text) :
    (relabel source target t).lines = t.lines.map (relabelLine source target) := by
  rw [relabel_eq hs, Text.lines_ofLines (by simpa using Text.lines_ne_nil t)]
  intro l hl
  obtain ⟨k, hk, rfl⟩ := List.mem_map.mp hl
  exact newline_relabelLine hs ht (Text.not_mem_of_mem_lines k hk)

/-! ### Relabelling twice -/

/-- A relabelled line declares the new label or what it declared before, so the second time it comes out as it is. -/
theorem relabelLine_relabelLine (hs : Simple source) (ht : ∀ c ∈ target, isTail c = false) (l : Line) :
    relabelLine source target (relabelLine source target l) = relabelLine source target l := by
  rcases relabelLine_cases hs target l with ⟨tail, ⟨_, -, -, htail, -⟩, hline⟩ | ⟨-, hline⟩
  · rw [hline]
    rcases relabelLine_cases hs target (packageWord ++ ' ' :: target ++ tail) with ⟨tail', hd, hagain⟩ | ⟨-, hagain⟩
    · obtain ⟨-, rfl⟩ := hd.unique hs ht (declares_target htail)
      exact hagain
    · exact hagain
  · rw [hline, hline]

theorem relabel_relabel (hs : Simple source) (ht : ∀ c ∈ target, isTail c = false) (hn : '\n' ∉ target) (t : Text) :
    relabel source target (relabel source target t) = relabel source target t := by
  rw [relabel_eq hs (relabel source target t), lines_relabel hs hn, List.map_map, relabel_eq hs t]
  exact congrArg Text.ofLines (List.map_congr_left fun l _ => relabelLine_relabelLine hs ht l)

/-- For every label that is not empty and holds no space, tab, carriage return or newline: a line that declares it gets
    the new label in front of the same tail, any other line stays, and the lines are joined again. If the new label
    holds none of the four either, relabelling once more changes nothing. -/
theorem relabel_line_by_line (source target t : Text) (hne : source ≠ [])
    (hs : ∀ c ∈ source, c ∉ [' ', '\t', '\r', '\n']) :
    (∀ l tail, Declares source l tail → relabelLine source target l = packageWord ++ ' ' :: target ++ tail) ∧
      (∀ l, (∀ tail, ¬Declares source l tail) → relabelLine source target l = l) ∧
      relabel source target t = .ofLines (t.lines.map (relabelLine source target)) ∧
      ((∀ c ∈ target, c ∉ [' ', '\t', '\r', '\n']) →
        relabel source target (relabel source target t) = relabel source target t) := by
  have htail : ∀ {c : Char}, c ∉ [' ', '\t', '\r', '\n'] → isTail c = false := by
    intro c hc
    simp only [List.mem_cons, not_or] at hc
    simp [isTail, isGap, hc.1, hc.2.1, hc.2.2.1]
  have hsimple : Simple source := ⟨hne, fun c hc => htail (hs c hc), fun hn => hs _ hn (by simp)⟩
  exact ⟨fun _ _ hd => relabelLine_of_declares hsimple hd, fun _ hd => relabelLine_eq_self hsimple hd,
    relabel_eq hsimple t, fun ht => relabel_relabel hsimple (fun c hc => htail (ht c hc)) (fun hn => ht _ hn (by simp)) t⟩

/-- The label `a.b` with a carriage return behind it and, without a newline, between tabs; and `a-b` in the middle. -/
theorem relabel_line_by_line_dotted :
    let source : Text := ['a', '.', 'b']
    let target : Text := ['$', '1']
    let t : Text := packageWord ++ [' ', 'a', '.', 'b', '\r', '\n'] ++ packageWord ++ [' ', 'a', '-', 'b', '\n'] ++
      packageWord ++ ['\t', ' ', 'a', '.', 'b', '\t']
    (source ≠ [] ∧ (∀ c ∈ source, c ∉ [' ', '\t', '\r', '\n']) ∧ ∀ c ∈ target, c ∉ [' ', '\t', '\r', '\n']) ∧
      relabel source target t = .ofLines (t.lines.map (relabelLine source target)) ∧
      relabel source target (relabel source target t) = relabel source target t ∧
      relabel source target t = packageWord ++ [' ', '$', '1', '\r', '\n'] ++ packageWord ++ [' ', 'a', '-', 'b', '\n'] ++
        packageWord ++ [' ', '$', '1', '\t'] := by
  intro source target t
  have hne : source ≠ [] := by decide
  have hs : ∀ c ∈ source, c ∉ [' ', '\t', '\r', '\n'] := Text.forall_mem_of_all (by decide)
  have ht : ∀ c ∈ target, c ∉ [' ', '\t', '\r', '\n'] := Text.forall_mem_of_all (by decide)
  obtain ⟨-, -, hlines, htwice⟩ := relabel_line_by_line source target t hne hs
  exact ⟨⟨hne, hs, ht⟩, hlines, htwice ht, by decide +kernel⟩

end Abridge.Package
