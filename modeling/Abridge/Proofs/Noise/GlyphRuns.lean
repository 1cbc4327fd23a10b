import Abridge.Noise.Rule
import Abridge.Proofs.Noise.Glyphs
import Mathlib.Data.List.TakeWhile
import Mathlib.Data.Nat.Find

/-! Which characters are stripped. A glyph is in a maximal run of two or more just if another glyph is beside it
    (`inRun_iff`), so a look behind and a look ahead tell the characters that go (`stripGlyphsAfter_eq`). A search from
    the left that takes out each run as far as it reaches leaves no remainder of one, so it comes to the same
    (`swept_iff`). Removal, the rule that drops lines and the glyphs agree in `stripGlyphs_exact`. -/

namespace Abridge.Noise

variable {t u : Text} {k : Nat}

/-! ### Maximal runs -/

/-- Whether the character at an offset is a glyph. There is none at the end of the text or behind it. -/
def isGlyphAt (t : Text) (k : Nat) : Bool := t[k]?.any isGlyph

/-- The characters from `i` up to `j` are glyphs; the one in front of them is none, nor is the one behind. -/
structure MaximalRun (t : Text) (i j : Nat) : Prop where
  glyphs : ∀ k, i ≤ k → k < j → isGlyphAt t k = true
  front : 0 < i → isGlyphAt t (i - 1) = false
  behind : isGlyphAt t j = false

/-- The character is in a maximal run of two glyphs or more. -/
def InRun (t : Text) (k : Nat) : Prop := ∃ i j, MaximalRun t i j ∧ i + 2 ≤ j ∧ i ≤ k ∧ k < j

theorem exists_front (t : Text) (k : Nat) :
    ∃ i ≤ k, (0 < i → isGlyphAt t (i - 1) = false) ∧ ∀ n, i ≤ n → n < k → isGlyphAt t n = true := by
  induction k with
  | zero => exact ⟨0, Nat.le_refl 0, by simp, by simp⟩
  | succ k ih =>
    cases hk : isGlyphAt t k with
    | false => exact ⟨k + 1, Nat.le_refl _, fun _ => hk, fun n hn hlt => absurd hlt (Nat.not_lt.mpr hn)⟩
    | true =>
      obtain ⟨i, hi, hfront, hglyphs⟩ := ih
      refine ⟨i, Nat.le_succ_of_le hi, hfront, fun n hn hlt => ?_⟩
      rcases Nat.lt_succ_iff_lt_or_eq.mp hlt with hlt | rfl
      · exact hglyphs n hn hlt
      · exact hk

theorem exists_behind (t : Text) (k : Nat) :
    ∃ j, k ≤ j ∧ isGlyphAt t j = false ∧ ∀ n, k ≤ n → n < j → isGlyphAt t n = true := by
  have hend : ∃ j, k ≤ j ∧ isGlyphAt t j = false :=
    ⟨t.length + k, Nat.le_add_left _ _, by simp [isGlyphAt]⟩
  obtain ⟨hle, hfalse⟩ := Nat.find_spec hend
  refine ⟨Nat.find hend, hle, hfalse, fun n hn hlt => ?_⟩
  have hmin := Nat.find_min hend hlt
  simpa [hn] using hmin

/-- Every glyph is in a maximal run. -/
theorem exists_maximalRun (h : isGlyphAt t k = true) : ∃ i j, MaximalRun t i j ∧ i ≤ k ∧ k < j := by
  obtain ⟨i, hi, hfront, hbefore⟩ := exists_front t k
  obtain ⟨j, hj, hbehind, hafter⟩ := exists_behind t k
  have hkj : k ≠ j := by
    rintro rfl
    simp [h] at hbehind
  refine ⟨i, j, ⟨fun n hn hlt => ?_, hfront, hbehind⟩, hi, Nat.lt_of_le_of_ne hj hkj⟩
  rcases Nat.lt_or_ge n k with hnk | hkn
  · exact hbefore n hn hnk
  · exact hafter n hkn hlt

/-- A character is in a run of two or more just if it is a glyph and so is one beside it. -/
theorem inRun_iff :
    InRun t k ↔ isGlyphAt t k = true ∧ (isGlyphAt t (k + 1) = true ∨ 0 < k ∧ isGlyphAt t (k - 1) = true) := by
  constructor
  · rintro ⟨i, j, hrun, hlen, hi, hj⟩
    refine ⟨hrun.glyphs k hi hj, ?_⟩
    rcases Nat.lt_or_ge (k + 1) j with hnext | hlast
    · exact Or.inl (hrun.glyphs (k + 1) (by omega) hnext)
    · exact Or.inr ⟨by omega, hrun.glyphs (k - 1) (by omega) (by omega)⟩
  · rintro ⟨hk, hbeside⟩
    obtain ⟨i, j, hrun, hi, hj⟩ := exists_maximalRun hk
    refine ⟨i, j, hrun, ?_, hi, hj⟩
    rcases hbeside with hnext | ⟨hpos, hprev⟩
    · have hne : j ≠ k + 1 := by
        rintro rfl
        simp [hrun.behind] at hnext
      omega
    · have hne : i ≠ k := by
        rintro rfl
        simp [hrun.front hpos] at hprev
      omega

instance : Decidable (InRun t k) := decidable_of_iff _ inRun_iff.symm

/-! ### What is stripped -/

theorem isGlyphAt_last_iff (s t : Text) :
    0 < s.length ∧ isGlyphAt (s ++ t) (s.length - 1) = true ↔ s.getLast?.any isGlyph = true := by
  rw [List.getLast?_eq_getElem?, isGlyphAt]
  cases s with
  | nil => simp
  | cons d s =>
    rw [List.getElem?_append_left (by simp)]
    simp

theorem inRun_append_cons (s : Text) (c : Char) (t : Text) :
    InRun (s ++ c :: t) s.length ↔ (isGlyph c && (s.getLast?.any isGlyph || t.head?.any isGlyph)) = true := by
  have hself : isGlyphAt (s ++ c :: t) s.length = isGlyph c := by simp [isGlyphAt]
  have hnext : isGlyphAt (s ++ c :: t) (s.length + 1) = t.head?.any isGlyph := by
    rw [isGlyphAt, List.getElem?_append_right (Nat.le_succ _), List.head?_eq_getElem?]
    simp
  rw [inRun_iff, hself, hnext, isGlyphAt_last_iff, Bool.and_eq_true, Bool.or_eq_true, or_comm]

/-- Behind a text `s`, what goes are the characters in runs of the whole text. -/
theorem stripGlyphsAfter_eq (s t : Text) :
    stripGlyphsAfter (s.getLast?.any isGlyph) t =
      ((t.zipIdx s.length).filter fun p => ¬InRun (s ++ t) p.2).map Prod.fst := by
  induction t generalizing s with
  | nil => rfl
  | cons c t ih =>
    have hrest : stripGlyphsAfter (isGlyph c) t =
        ((t.zipIdx (s.length + 1)).filter fun p => ¬InRun (s ++ c :: t) p.2).map Prod.fst := by
      simpa using ih (s ++ [c])
    have hrun := inRun_append_cons s c t
    rw [stripGlyphsAfter, List.zipIdx_cons, List.filter_cons]
    split
    case isTrue h =>
      have hc : isGlyph c = true := (Bool.and_eq_true_iff.mp h).1
      rw [hc] at hrest
      rw [if_neg (by simpa using hrun.mpr h), hrest]
    case isFalse h =>
      rw [if_pos (by simpa using mt hrun.mp h), List.map_cons, hrest]

/-! ### Searching from the left -/

/-- Going through a text from the left: a run of two glyphs or more goes, as far as it reaches, and a character stays
    where no such run starts. -/
inductive Swept : Text → Text → Prop
  | nil : Swept [] []
  | run {r t u} (hr : ∀ c ∈ r, isGlyph c = true) (hlen : 2 ≤ r.length) (ht : t.head?.any isGlyph = false)
      (h : Swept t u) : Swept (r ++ t) u
  | char {c t u} (hc : (isGlyph c && t.head?.any isGlyph) = false) (h : Swept t u) : Swept (c :: t) (c :: u)

theorem stripGlyphsAfter_glyphs {r : Text} (hr : ∀ c ∈ r, isGlyph c = true) (t : Text) :
    stripGlyphsAfter true (r ++ t) = stripGlyphsAfter true t := by
  induction r with
  | nil => rfl
  | cons c r ih =>
    rw [List.forall_mem_cons] at hr
    rw [List.cons_append, stripGlyphsAfter, if_pos (by simp [hr.1]), ih hr.2]

theorem stripGlyphsAfter_run {r : Text} (hr : ∀ c ∈ r, isGlyph c = true) (hlen : 2 ≤ r.length) (b : Bool) (t : Text) :
    stripGlyphsAfter b (r ++ t) = stripGlyphsAfter true t := by
  rcases r with _ | ⟨c, _ | ⟨d, r⟩⟩
  · simp at hlen
  · simp at hlen
  · rw [List.forall_mem_cons] at hr
    have hd : isGlyph d = true := hr.2 d List.mem_cons_self
    rw [List.cons_append, stripGlyphsAfter, if_pos (by simp [hr.1, hd]), stripGlyphsAfter_glyphs hr.2]

theorem Swept.stripGlyphsAfter_eq (h : Swept t u) {b : Bool} (hb : b = true → t.head?.any isGlyph = false) :
    stripGlyphsAfter b t = u := by
  induction h generalizing b with
  | nil => rfl
  | run hr hlen ht _ ih => rw [stripGlyphsAfter_run hr hlen, ih fun _ => ht]
  | @char c t u hc _ ih =>
    have hstays : (isGlyph c && (b || t.head?.any isGlyph)) = false := by
      cases b with
      | false => exact hc
      | true =>
        have hglyph : isGlyph c = false := hb rfl
        rw [hglyph, Bool.false_and]
    rw [stripGlyphsAfter, hstays, if_neg Bool.false_ne_true, ih]
    intro hglyph
    simpa [hglyph] using hc

/-- Behind the glyphs that a text starts with there is none. -/
theorem head?_dropWhile_isGlyph (t : Text) : (t.dropWhile isGlyph).head?.any isGlyph = false := by
  have hnot := List.head?_dropWhile_not isGlyph t
  cases h : (t.dropWhile isGlyph).head? with
  | none => rfl
  | some c => rwa [h] at hnot

theorem exists_swept (t : Text) : ∃ u, Swept t u := by
  induction hn : t.length using Nat.strongRecOn generalizing t with
  | ind n ih =>
    subst hn
    cases t with
    | nil => exact ⟨[], .nil⟩
    | cons c t =>
      cases hc : isGlyph c && t.head?.any isGlyph with
      | false =>
        obtain ⟨u, hu⟩ := ih t.length (Nat.lt_succ_self _) t rfl
        exact ⟨c :: u, .char hc hu⟩
      | true =>
        obtain ⟨hglyph, hnext⟩ := Bool.and_eq_true_iff.mp hc
        have hlen : 2 ≤ ((c :: t).takeWhile isGlyph).length := by
          cases t with
          | nil => cases hnext
          | cons d t =>
            have hd : isGlyph d = true := hnext
            simp [hglyph, hd]
        have hsplit : (c :: t).takeWhile isGlyph ++ (c :: t).dropWhile isGlyph = c :: t :=
          List.takeWhile_append_dropWhile
        have hlt : ((c :: t).dropWhile isGlyph).length < (c :: t).length := by
          have hsum := congrArg List.length hsplit
          rw [List.length_append] at hsum
          omega
        obtain ⟨u, hu⟩ := ih _ hlt _ rfl
        rw [← hsplit]
        exact ⟨u, .run (fun _ => List.mem_takeWhile_imp) hlen (head?_dropWhile_isGlyph _) hu⟩

theorem swept_iff : Swept t u ↔ stripGlyphs t = u := by
  constructor
  · exact fun h => h.stripGlyphsAfter_eq (by simp)
  · rintro rfl
    obtain ⟨v, hv⟩ := exists_swept t
    have heq : stripGlyphs t = v := hv.stripGlyphsAfter_eq (by simp)
    rwa [heq]

/-! ### Removal, rule and glyphs -/

/-- What goes are the runs that a search from the left finds, and with them the characters of the maximal runs of two
    glyphs or more, and no others. No two glyphs are side by side then, so there is nothing left to strip. Each line is
    stripped for itself, and the rule drops just the lines that change. -/
theorem stripGlyphs_exact (t u : Text) :
    (∀ v, stripGlyphs t = v ↔ Swept t v) ∧
      stripGlyphs t = (t.zipIdx.filter fun p => ¬InRun t p.2).map Prod.fst ∧
      (∀ a b, isGlyph a = true → isGlyph b = true → ¬[a, b] <:+: stripGlyphs t) ∧
      stripGlyphs (stripGlyphs t) = stripGlyphs t ∧
      stripGlyphs (t ++ '\n' :: u) = stripGlyphs t ++ '\n' :: stripGlyphs u ∧
      (Rule.glyphRun.drops t = true ↔ stripGlyphs t ≠ t) := by
  have hnone := hasGlyphRun_stripGlyphs t
  have hsides : ∀ a b, isGlyph a = true → isGlyph b = true → ¬[a, b] <:+: stripGlyphs t := by
    intro a b ha hb hab
    rw [← Bool.not_eq_true, hasGlyphRun_iff] at hnone
    exact hnone ⟨a, b, ha, hb, hab⟩
  have hline : stripGlyphs (t ++ '\n' :: u) = stripGlyphs t ++ '\n' :: stripGlyphs u :=
    stripGlyphsAfter_append_cons false t u (by decide)
  have hrule : Rule.glyphRun.drops t = true ↔ stripGlyphs t ≠ t := by
    rw [ne_eq, stripGlyphs_eq_self_iff, Bool.not_eq_false]
    rfl
  exact ⟨fun v => swept_iff.symm, stripGlyphsAfter_eq [] t, hsides, stripGlyphs_eq_self hnone, hline, hrule⟩

/-- A run of three leaves no glyph over, and the glyphs on their own stay. -/
example : stripGlyphs ['═', 'a', '╔', '═', '╗', 'b', '║'] = ['═', 'a', 'b', '║'] := by decide

end Abridge.Noise
