import Abridge.Proofs.Code.Offsets
import Abridge.Vocabulary
import Mathlib.Data.List.Infix
import Mathlib.Order.Bounds.Basic
import Mathlib.Order.Nat

/-! Which header the search finds. It tries places from the left, none of which overlaps the one before, and finds the
    first of them that is seen (`first?_scan_eq_find?`). A header in code can go unnoticed, then, where it overlaps one
    in a comment or a literal; the first header in code is found just if it is tried (`findsFirst_iff`), as it is
    whenever the header does not overlap itself. -/

namespace Abridge.Code

/-! ### Places that are tried -/

/-- The places from `lo` on at which a header is tried: it occurs at each, none overlaps another one, and wherever it
    occurs besides, it overlaps one of them further left. -/
structure Tried (header bs : List Byte) (lo : Nat) (js : List Nat) : Prop where
  occurs : ∀ j ∈ js, lo ≤ j ∧ header <+: bs.drop j
  apart : js.Pairwise fun i j => i + header.length ≤ j
  covers : ∀ i, lo ≤ i → header <+: bs.drop i → ∃ j ∈ js, j ≤ i ∧ i < j + header.length

namespace Tried
variable {header bs : List Byte} {b : Byte} {lo : Nat} {js : List Nat}

theorem nil (hne : header ≠ []) (lo : Nat) : Tried header [] lo [] where
  occurs := by simp
  apart := List.Pairwise.nil
  covers i _ hi := absurd (List.prefix_nil.mp (by simpa using hi)) hne

theorem shift (h : Tried header bs lo js) (b : Byte) : Tried header (b :: bs) (lo + 1) (js.map (· + 1)) where
  occurs := by
    simp only [List.mem_map]
    rintro _ ⟨j, hj, rfl⟩
    obtain ⟨hlo, hoccurs⟩ := h.occurs j hj
    exact ⟨Nat.succ_le_succ hlo, hoccurs⟩
  apart := by
    rw [List.pairwise_map]
    exact h.apart.imp fun hij => by omega
  covers := by
    intro i hi hoccurs
    obtain ⟨i, rfl⟩ := Nat.exists_eq_add_of_le' (Nat.le_trans (Nat.le_add_left 1 lo) hi)
    obtain ⟨j, hj, hle, hlt⟩ := h.covers i (Nat.le_of_succ_le_succ hi) hoccurs
    exact ⟨j + 1, List.mem_map_of_mem hj, Nat.succ_le_succ hle, by omega⟩

/-- Where no header occurs none is tried. -/
theorem skip (h : Tried header (b :: bs) 1 js) (hb : ¬header <+: b :: bs) : Tried header (b :: bs) 0 js where
  occurs j hj := ⟨Nat.zero_le j, (h.occurs j hj).2⟩
  apart := h.apart
  covers i _ hi := by
    refine h.covers i (Nat.one_le_iff_ne_zero.mpr ?_) hi
    rintro rfl
    exact hb hi

/-- Behind a place that is tried the next ones are those behind the header there. -/
theorem cons (h : Tried header bs header.length js) (hbs : header <+: bs) : Tried header bs 0 (0 :: js) where
  occurs j hj := by
    rcases List.mem_cons.mp hj with rfl | hj
    · exact ⟨Nat.le_refl 0, hbs⟩
    · exact ⟨Nat.zero_le j, (h.occurs j hj).2⟩
  apart := List.pairwise_cons.mpr ⟨fun j hj => by rw [Nat.zero_add]; exact (h.occurs j hj).1, h.apart⟩
  covers i _ hi := by
    by_cases hlt : i < header.length
    · exact ⟨0, List.mem_cons_self, Nat.zero_le i, by rwa [Nat.zero_add]⟩
    · obtain ⟨j, hj, hle⟩ := h.covers i (Nat.le_of_not_lt hlt) hi
      exact ⟨j, List.mem_cons_of_mem 0 hj, hle⟩

/-- A header that does not overlap itself is tried wherever it occurs. -/
theorem mem_of_occurs (h : Tried header bs lo js) (hself : ∀ k, 0 < k → k < header.length → ¬header.drop k <+: header)
    {i : Nat} (hi : lo ≤ i) (hoccurs : header <+: bs.drop i) : i ∈ js := by
  obtain ⟨j, hj, hle, hlt⟩ := h.covers i hi hoccurs
  obtain ⟨k, rfl⟩ := Nat.exists_eq_add_of_le hle
  cases k with
  | zero => exact hj
  | succ k =>
    have htail : header.drop (k + 1) <+: bs.drop (j + (k + 1)) := by
      have hdrop := (h.occurs j hj).2.drop (k + 1)
      rwa [List.drop_drop] at hdrop
    have hshort : (header.drop (k + 1)).length ≤ header.length := by
      rw [List.length_drop]
      exact Nat.sub_le _ _
    exact absurd (List.prefix_of_prefix_length_le htail hoccurs hshort) (hself (k + 1) (Nat.succ_pos k) (by omega))

end Tried

section Search
variable {header : List Byte}

/-- What is found is the first place that is tried and seen. -/
theorem headerFrom?_eq_find? (hne : header ≠ []) (skip offset : Nat) (ms : List MarkedByte) :
    ∃ js, Tried header (ms.map MarkedByte.byte) skip js ∧
      headerFrom? header skip offset ms = (js.find? fun j => ms[j]?.any MarkedByte.seen).map (offset + ·) := by
  induction ms generalizing skip offset with
  | nil => exact ⟨[], .nil hne skip, by cases skip <;> rfl⟩
  | cons m ms ih =>
    -- What is found behind the byte is found one byte further on.
    have hmap : ∀ js : List Nat, ((js.find? fun j => ms[j]?.any MarkedByte.seen).map (offset + 1 + ·)) =
        ((js.map (· + 1)).find? fun j => (m :: ms)[j]?.any MarkedByte.seen).map (offset + ·) := by
      intro js
      have hadd : ((offset + ·) ∘ (· + 1) : Nat → Nat) = (offset + 1 + ·) := by
        funext j
        exact Nat.add_right_comm offset j 1
      rw [List.find?_map, Option.map_map, hadd]
      rfl
    cases skip with
    | succ skip =>
      obtain ⟨js, hjs, hfind⟩ := ih skip (offset + 1)
      exact ⟨js.map (· + 1), hjs.shift m.byte, by rw [headerFrom?, hfind, hmap]⟩
    | zero =>
      by_cases hbegins : beginsWith header (m :: ms) = true
      · obtain ⟨js, hjs, hfind⟩ := ih (header.length - 1) (offset + 1)
        have hpos : header.length - 1 + 1 = header.length := Nat.sub_add_cancel (List.length_pos_of_ne_nil hne)
        have hnext := hjs.shift m.byte
        rw [hpos] at hnext
        refine ⟨0 :: js.map (· + 1), hnext.cons (beginsWith_iff.mp hbegins), ?_⟩
        rw [headerFrom?, if_pos hbegins, hfind, hmap, List.find?_cons]
        cases hseen : m.seen <;> simp [hseen]
      · obtain ⟨js, hjs, hfind⟩ := ih 0 (offset + 1)
        refine ⟨js.map (· + 1), (hjs.shift m.byte).skip fun hb => hbegins (beginsWith_iff.mpr hb), ?_⟩
        rw [headerFrom?, if_neg hbegins, hfind, hmap]

end Search

/-! ### Headers in code -/

/-- The header occurs at that offset, and its first byte is code. -/
def BeginsInCode (header t : Text) (i : Nat) : Prop :=
  header.bytes <+: t.bytes.drop i ∧ (contexts t)[i]? = some .code

/-- The search that sees code alone finds the first header that begins in code. -/
structure FindsFirst (header t : Text) : Prop where
  notFound : scan .lexical header t = .notFound ↔ ∀ i, ¬BeginsInCode header t i
  first : ∀ first, (scan .lexical header t).first? = some first → IsLeast {i | BeginsInCode header t i} first

section Code
variable {header t : Text}

theorem first?_scan_eq_find? (hne : header ≠ []) (t : Text) :
    ∃ js, Tried header.bytes t.bytes 0 js ∧
      (scan .lexical header t).first? = js.find? fun j => (contexts t)[j]? = some .code := by
  obtain ⟨js, hjs, hfind⟩ := headerFrom?_eq_find? (bytes_ne_nil hne) 0 0 (marked .lexical t)
  have hbytes : (marked .lexical t).map MarkedByte.byte = t.bytes := by rw [marked_eq, map_byte_markedFrom]
  rw [hbytes] at hjs
  refine ⟨js, hjs, ?_⟩
  have hseen : ∀ j : Nat,
      (marked .lexical t)[j]?.any MarkedByte.seen = decide ((contexts t)[j]? = some Context.code) := by
    intro j
    have hlen : (contexts t).length = t.bytes.length := length_contextsFrom _ _
    rw [getElem?_marked]
    by_cases hj : j < t.bytes.length
    · simp [List.getElem?_eq_getElem hj, Relevant]
    · simp [List.getElem?_eq_none (Nat.le_of_not_lt hj), List.getElem?_eq_none (hlen ▸ Nat.le_of_not_lt hj)]
  have hid : ((0 : Nat) + ·) = id := by
    funext j
    exact Nat.zero_add j
  rw [first?_scan hne, hfind, hid, Option.map_id]
  simp only [hseen, id]

theorem first?_eq_none_iff {found : Scan} : found.first? = none ↔ found = .notFound := by
  cases found <;> simp [Scan.first?]

theorem exists_isLeast {j : Nat} (h : BeginsInCode header t j) : ∃ i, IsLeast {i | BeginsInCode header t i} i := by
  classical
  exact ⟨_, Nat.isLeast_find ⟨j, h⟩⟩

section Places
variable {js : List Nat} (hjs : Tried header.bytes t.bytes 0 js)
include hjs

theorem beginsInCode_iff_of_mem {j : Nat} (hj : j ∈ js) :
    BeginsInCode header t j ↔ (contexts t)[j]? = some .code :=
  ⟨fun h => h.2, fun h => ⟨(hjs.occurs j hj).2, h⟩⟩

/-- The first place that is tried and is code has no other one in code before it, if the least one is tried. -/
theorem isLeast_of_find? {first : Nat} (htried : ∀ i, IsLeast {i | BeginsInCode header t i} i → i ∈ js)
    (h : js.find? (fun j => (contexts t)[j]? = some .code) = some first) :
    IsLeast {i | BeginsInCode header t i} first := by
  obtain ⟨hcode, as, bs, rfl, has⟩ := List.find?_eq_some_iff_append.mp h
  have hbegins : BeginsInCode header t first := (beginsInCode_iff_of_mem hjs (by simp)).mpr (of_decide_eq_true hcode)
  obtain ⟨i, hi⟩ := exists_isLeast hbegins
  have hle : i ≤ first := hi.2 hbegins
  -- The least place is tried, but not before the one that is found, nor behind it.
  rcases List.mem_append.mp (htried i hi) with hmem | hmem
  · have hnot := has i hmem
    simp [hi.1.2] at hnot
  · rcases List.mem_cons.mp hmem with rfl | hbs
    · exact hi
    · have hapart := List.rel_of_pairwise_cons (List.pairwise_append.mp hjs.apart).2.1 hbs
      obtain rfl : i = first := Nat.le_antisymm hle (by omega)
      exact hi

theorem findsFirst_iff_mem (hfind : (scan .lexical header t).first? = js.find? fun j => (contexts t)[j]? = some .code) :
    FindsFirst header t ↔ ∀ i, IsLeast {i | BeginsInCode header t i} i → i ∈ js := by
  constructor
  · rintro ⟨hnot, hfirst⟩ i hi
    cases hscan : (scan .lexical header t).first? with
    | none => exact absurd hi.1 (hnot.mp (first?_eq_none_iff.mp hscan) i)
    | some first =>
      rw [hi.unique (hfirst first hscan)]
      exact List.mem_of_find?_eq_some (hfind.symm.trans hscan)
  · intro htried
    refine ⟨⟨fun hscan i hi => ?_, fun hno => ?_⟩,
      fun first hscan => isLeast_of_find? hjs htried (hfind.symm.trans hscan)⟩
    · obtain ⟨j, hj⟩ := exists_isLeast hi
      rw [hscan] at hfind
      have hnone := List.find?_eq_none.mp hfind.symm j (htried j hj)
      simp [hj.1.2] at hnone
    · rw [← first?_eq_none_iff, hfind, List.find?_eq_none]
      intro j hj hcode
      exact hno j ((beginsInCode_iff_of_mem hjs hj).mpr (of_decide_eq_true hcode))

end Places

/-- A header that does not overlap itself is found where it first begins in code. -/
theorem findsFirst_of_apart (hne : header ≠ [])
    (hself : ∀ k, 0 < k → k < header.byteSize → ¬header.bytes.drop k <+: header.bytes) (t : Text) :
    FindsFirst header t := by
  obtain ⟨js, hjs, hfind⟩ := first?_scan_eq_find? hne t
  rw [← Text.length_bytes] at hself
  exact (findsFirst_iff_mem hjs hfind).mpr fun i hi => hjs.mem_of_occurs hself (Nat.zero_le i) hi.1.1

/-- The entry function that is found is the first one in code. -/
theorem findsFirst_entryHeader (t : Text) : FindsFirst entryHeader t := by
  refine findsFirst_of_apart (by decide) ?_ t
  have hself : ∀ k < entryHeader.byteSize, 0 < k → ¬entryHeader.bytes.drop k <+: entryHeader.bytes := by decide +kernel
  exact fun k hpos hk => hself k hk hpos

/-- The search that sees code alone finds the first place that is tried and is code. So it finds the first header that
    begins in code just if that one is tried, which is so for every document if the header does not overlap itself. -/
theorem findsFirst_iff (hne : header ≠ []) (t : Text) :
    ∃ js, Tried header.bytes t.bytes 0 js ∧
      ((scan .lexical header t).first? = js.find? fun j => (contexts t)[j]? = some .code) ∧
      (FindsFirst header t ↔ ∀ i, IsLeast {i | BeginsInCode header t i} i → i ∈ js) ∧
      ((∀ k, 0 < k → k < header.byteSize → ¬header.bytes.drop k <+: header.bytes) → FindsFirst header t) := by
  obtain ⟨js, hjs, hfind⟩ := first?_scan_eq_find? hne t
  exact ⟨js, hjs, hfind, findsFirst_iff_mem hjs hfind, fun hself => findsFirst_of_apart hne hself t⟩

/-- A header in a literal, and the same one in code; it does not overlap itself. -/
theorem findsFirst_iff_literal :
    let header : Text := ['f', '{']
    let t : Text := ['"', 'f', '{', '"', 'f', '{', '}']
    (header ≠ [] ∧ ∀ k, 0 < k → k < header.byteSize → ¬header.bytes.drop k <+: header.bytes) ∧ FindsFirst header t := by
  intro header t
  have hne : header ≠ [] := List.cons_ne_nil _ _
  have hself : ∀ k, 0 < k → k < header.byteSize → ¬header.bytes.drop k <+: header.bytes := by
    intro k hpos hk
    have hsize : header.byteSize = 2 := rfl
    obtain rfl : k = 1 := by omega
    decide
  obtain ⟨js, -, -, -, hfinds⟩ := findsFirst_iff hne t
  exact ⟨⟨hne, hself⟩, hfinds hself⟩

/-- The header in code overlaps the one in the literal, which is tried before it. -/
theorem overlapped_header_missed :
    let header : Text := ['a', '"', 'a']
    let t : Text := ['"', 'a', '"', 'a', '"', 'a', '\n', '}']
    scan .lexical header t = .notFound ∧ BeginsInCode header t 3 ∧ ¬FindsFirst header t := by
  intro header t
  have hscan : scan .lexical header t = .notFound := by decide +kernel
  have hbegins : BeginsInCode header t 3 := ⟨by decide +kernel, by decide +kernel⟩
  exact ⟨hscan, hbegins, fun h => h.notFound.mp hscan 3 hbegins⟩

end Code

end Abridge.Code
