import Abridge.Proofs.Code.Offsets
import Mathlib.Order.Nat

/-! Which brace closes a block. The search comes to an offset with the depth by which more blocks were opened than
    closed since the header, and never were more closed (`closeFrom?_take`). So it ends at the first brace with as many
    blocks closed as opened in front of it (`scan_closed_iff_isLeast`). -/

namespace Abridge.Code

/-! ### Bytes as they are seen -/

/-- At that byte a block is closed and all that was opened in front of it is closed. -/
def ClosesBlock (ms : List MarkedByte) (k : Nat) : Prop :=
  (∃ m, ms[k]? = some m ∧ m.closes = true) ∧ openings (ms.take k) = closings (ms.take k)

section Depth
variable {ms : List MarkedByte} {j k : Nat}

theorem ClosesBlock.lt (h : ClosesBlock ms k) : k < ms.length := by
  obtain ⟨⟨m, hm, -⟩, -⟩ := h
  exact (List.getElem?_eq_some_iff.mp hm).1

/-- The search goes on as far as no block is closed, with the depth by which more were opened. -/
theorem closeFrom?_take (h : ∀ k < j, ¬ClosesBlock ms k) (hj : j ≤ ms.length) (offset : Nat) :
    ∃ depth, openings (ms.take j) = closings (ms.take j) + depth ∧
      closeFrom? 0 offset ms = closeFrom? depth (offset + j) (ms.drop j) := by
  induction j with
  | zero => exact ⟨0, rfl, rfl⟩
  | succ j ih =>
    obtain ⟨depth, hdepth, hsearch⟩ := ih (fun k hk => h k (Nat.lt_succ_of_lt hk)) (Nat.le_of_succ_le hj)
    have hget : ms[j]? = some ms[j] := List.getElem?_eq_getElem hj
    have htake : ms.take (j + 1) = ms.take j ++ [ms[j]] := (List.take_append_getElem hj).symm
    rw [List.drop_eq_getElem_cons hj] at hsearch
    rcases closeFrom?_cons_cases depth ms[j] with ⟨rfl, hc, -⟩ | ⟨depth', hstep, hnext⟩
    · exact absurd ⟨⟨_, hget, hc⟩, hdepth⟩ (h j (Nat.lt_succ_self j))
    · refine ⟨depth', ?_, by rw [hsearch, hnext, Nat.add_assoc]⟩
      rw [htake, openings_append, closings_append, openings_cons, closings_cons]
      have hnil : openings [] = 0 ∧ closings [] = 0 := ⟨rfl, rfl⟩
      omega

theorem closings_take_le (h : ∀ k < j, ¬ClosesBlock ms k) (hj : j ≤ ms.length) :
    closings (ms.take j) ≤ openings (ms.take j) := by
  obtain ⟨depth, hdepth, -⟩ := closeFrom?_take h hj 0
  omega

theorem settles_take_iff (hk : ClosesBlock ms k) : Settles 0 (ms.take k) ↔ ∀ j < k, ¬ClosesBlock ms j := by
  constructor
  · rintro hsettles j hj ⟨⟨m, hm, hcloses⟩, heven⟩
    -- Up to that byte, one more is closed than opened.
    have htake : ms.take (j + 1) = ms.take j ++ [m] := by
      obtain ⟨hlt, rfl⟩ := List.getElem?_eq_some_iff.mp hm
      exact (List.take_append_getElem hlt).symm
    have hle := hsettles.front _ (List.take_prefix_take_left hj)
    rw [htake, openings_append, closings_append, openings_cons, closings_cons, MarkedByte.opens_eq_false hcloses,
      hcloses] at hle
    simp only [openings, closings, List.countP_nil, Bool.false_eq_true, if_false, if_true] at hle heven
    omega
  · intro h
    refine ⟨hk.2.symm, fun ks hks => ?_⟩
    have hlen : ks.length ≤ k := Nat.le_trans hks.length_le (List.length_take_le k ms)
    rw [List.prefix_iff_eq_take.mp (hks.trans (List.take_prefix k ms))]
    exact closings_take_le (fun i hi => h i (Nat.lt_of_lt_of_le hi hlen)) (Nat.le_trans hlen (Nat.le_of_lt hk.lt))

/-- The search ends at the first byte at which a block is closed. -/
theorem closeFrom?_zero_eq_some_iff (offset : Nat) {last : Nat} :
    closeFrom? 0 offset ms = some last ↔ ∃ k, last = offset + k ∧ IsLeast {k | ClosesBlock ms k} k := by
  have hleast : ∀ k, IsLeast {k | ClosesBlock ms k} k ↔ ClosesBlock ms k ∧ ∀ j < k, ¬ClosesBlock ms j := fun k =>
    and_congr_right fun _ => ⟨fun h j hj hclose => absurd (h hclose) (Nat.not_le.mpr hj),
      fun h j hclose => Nat.le_of_not_lt fun hj => h j hj hclose⟩
  rw [closeFrom?_eq_some_iff]
  constructor
  · rintro ⟨as, m, bs, rfl, hm, rfl, hsettles⟩
    have hclose : ClosesBlock (as ++ m :: bs) as.length :=
      ⟨⟨m, by simp, hm⟩, by rw [List.take_left]; exact hsettles.total.symm⟩
    refine ⟨as.length, rfl, (hleast _).mpr ⟨hclose, (settles_take_iff hclose).mp ?_⟩⟩
    rwa [List.take_left]
  · rintro ⟨k, rfl, hk⟩
    obtain ⟨hclose, hfirst⟩ := (hleast k).mp hk
    obtain ⟨m, hm, hcloses⟩ := hclose.1
    obtain ⟨hlt, rfl⟩ := List.getElem?_eq_some_iff.mp hm
    refine ⟨ms.take k, ms[k], ms.drop (k + 1), ?_, hcloses, ?_, (settles_take_iff hclose).mpr hfirst⟩
    · rw [← List.drop_eq_getElem_cons hlt, List.take_append_drop]
    · rw [List.length_take, Nat.min_eq_left (Nat.le_of_lt hlt)]

theorem closeFrom?_zero_eq_none_iff (offset : Nat) : closeFrom? 0 offset ms = none ↔ ∀ k, ¬ClosesBlock ms k := by
  constructor
  · intro hnone k hk
    classical
    have hsome := (closeFrom?_zero_eq_some_iff offset).mpr ⟨_, rfl, Nat.isLeast_find ⟨k, hk⟩⟩
    rw [hnone] at hsome
    cases hsome
  · intro h
    rw [Option.eq_none_iff_forall_ne_some]
    rintro last hlast
    obtain ⟨k, -, hk, -⟩ := (closeFrom?_zero_eq_some_iff offset).mp hlast
    exact h k hk

end Depth

/-! ### Documents -/

/-- At that offset, behind a header that ends at `body`, the search sees a closing brace, and in between as many braces
    that close as that open. -/
structure ClosesAt (s : Strategy) (t : Text) (body e : Nat) : Prop where
  le : body ≤ e
  relevant : Relevant s t e
  brace : t.bytes[e]? = some Mark.closeBrace
  even : countSeen s t Mark.openBrace body e = countSeen s t Mark.closeBrace body e

section Document
variable {s : Strategy} {t : Text} {body : Nat}

theorem openings_drop_take (s : Strategy) (t : Text) (i n : Nat) :
    openings (((marked s t).drop i).take n) = countSeen s t Mark.openBrace i (i + n) := by
  rw [openings, countP_drop_take, countSeen]
  refine List.countP_congr fun k _ => ?_
  rw [getElem?_marked]
  cases t.bytes[k]? <;> simp [MarkedByte.opens]

theorem closings_drop_take (s : Strategy) (t : Text) (i n : Nat) :
    closings (((marked s t).drop i).take n) = countSeen s t Mark.closeBrace i (i + n) := by
  rw [closings, countP_drop_take, countSeen]
  refine List.countP_congr fun k _ => ?_
  rw [getElem?_marked]
  cases t.bytes[k]? <;> simp [MarkedByte.closes]

theorem closesAt_iff {e : Nat} :
    ClosesAt s t body e ↔ ∃ k, e = body + k ∧ ClosesBlock ((marked s t).drop body) k := by
  have hbyte : ∀ k, (∃ m, ((marked s t).drop body)[k]? = some m ∧ m.closes = true) ↔
      Relevant s t (body + k) ∧ t.bytes[body + k]? = some Mark.closeBrace := by
    intro k
    rw [List.getElem?_drop, getElem?_marked]
    cases t.bytes[body + k]? <;> simp [MarkedByte.closes]
  constructor
  · intro h
    obtain ⟨k, rfl⟩ := Nat.exists_eq_add_of_le h.le
    refine ⟨k, rfl, (hbyte k).mpr ⟨h.relevant, h.brace⟩, ?_⟩
    rw [openings_drop_take, closings_drop_take]
    exact h.even
  · rintro ⟨k, rfl, hm, heven⟩
    rw [openings_drop_take, closings_drop_take] at heven
    obtain ⟨hrelevant, hbrace⟩ := (hbyte k).mp hm
    exact ⟨Nat.le_add_right body k, hrelevant, hbrace, heven⟩

theorem isLeast_closesAt_iff {e : Nat} :
    IsLeast {e | ClosesAt s t body e} e ↔
      ∃ k, e = body + k ∧ IsLeast {k | ClosesBlock ((marked s t).drop body) k} k := by
  constructor
  · rintro ⟨hmem, hleast⟩
    obtain ⟨k, rfl, hk⟩ := closesAt_iff.mp hmem
    exact ⟨k, rfl, hk, fun j hj => Nat.le_of_add_le_add_left (hleast (closesAt_iff.mpr ⟨j, rfl, hj⟩))⟩
  · rintro ⟨k, rfl, hk, hleast⟩
    refine ⟨closesAt_iff.mpr ⟨k, rfl, hk⟩, fun e he => ?_⟩
    obtain ⟨j, rfl, hj⟩ := closesAt_iff.mp he
    exact Nat.add_le_add_left (hleast hj) body

/-- The search comes to each offset up to the closing brace with the depth by which more was opened. -/
theorem depth_at {i : Nat} (hi : body ≤ i) (hend : i ≤ t.byteSize) (h : ∀ e, ClosesAt s t body e → i ≤ e) :
    ∃ depth, countSeen s t Mark.openBrace body i = countSeen s t Mark.closeBrace body i + depth ∧
      closeFrom? 0 body ((marked s t).drop body) = closeFrom? depth i ((marked s t).drop i) := by
  obtain ⟨j, rfl⟩ := Nat.exists_eq_add_of_le hi
  have hlen : j ≤ ((marked s t).drop body).length := by
    rw [List.length_drop, length_marked]
    omega
  have hnone : ∀ k < j, ¬ClosesBlock ((marked s t).drop body) k := fun k hk hclose =>
    absurd (h _ (closesAt_iff.mpr ⟨k, rfl, hclose⟩)) (by omega)
  obtain ⟨depth, hdepth, hsearch⟩ := closeFrom?_take hnone hlen body
  rw [openings_drop_take, closings_drop_take] at hdepth
  rw [List.drop_drop] at hsearch
  exact ⟨depth, hdepth, hsearch⟩

end Document

/-- Where a header is found, its block ends at the first brace that the search sees there with as many braces that
    close as that open in front of it, behind the header. The block has no end just if there is no such brace. Up to
    the end the depth is the number by which more braces open, so it never falls below zero. -/
theorem scan_closed_iff_isLeast {s : Strategy} {header t : Text} {first : Nat}
    (h : (scan s header t).first? = some first) :
    let body := first + header.byteSize
    (∀ last, scan s header t = .closed ⟨first, last⟩ ↔ IsLeast {e | ClosesAt s t body e} last) ∧
      (scan s header t = .unterminated first ↔ ∀ e, ¬ClosesAt s t body e) ∧
      ∀ i, body ≤ i → i ≤ t.byteSize → (∀ e, ClosesAt s t body e → i ≤ e) →
        ∃ depth, countSeen s t Mark.openBrace body i = countSeen s t Mark.closeBrace body i + depth ∧
          closeFrom? 0 body ((marked s t).drop body) = closeFrom? depth i ((marked s t).drop i) := by
  intro body
  refine ⟨fun last => ?_, ?_, fun i hi hend hclose => depth_at hi hend hclose⟩
  · rw [isLeast_closesAt_iff, ← closeFrom?_zero_eq_some_iff body, scan_of_first? h]
    cases closeFrom? 0 body ((marked s t).drop body) <;> simp
  · have hnone : (∀ e, ¬ClosesAt s t body e) ↔ ∀ k, ¬ClosesBlock ((marked s t).drop body) k :=
      ⟨fun hno k hk => hno _ (closesAt_iff.mpr ⟨k, rfl, hk⟩), fun hno e he => by
        obtain ⟨k, -, hk⟩ := closesAt_iff.mp he
        exact hno k hk⟩
    rw [hnone, ← closeFrom?_zero_eq_none_iff body, scan_of_first? h]
    cases closeFrom? 0 body ((marked s t).drop body) <;> simp

/-- A brace in a literal and a block within the block. -/
theorem scan_closed_iff_isLeast_literal :
    let header : Text := ['f', '{']
    let t : Text := ['f', '{', '"', 'é', '}', '"', '{', '}', '}', '}']
    (scan .lexical header t).first? = some 0 ∧ IsLeast {e | ClosesAt .lexical t 2 e} 9 := by
  intro header t
  have hfirst : (scan .lexical header t).first? = some 0 := by decide +kernel
  exact ⟨hfirst, ((scan_closed_iff_isLeast hfirst).1 9).mp (by decide +kernel)⟩

end Abridge.Code
