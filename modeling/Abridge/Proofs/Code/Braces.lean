import Abridge.Code.Block

/-! The brace that closes a block. The search counts the braces it sees: the depth goes up with each that opens and
    down with each that closes. It ends at the first brace that closes more than was opened before it and is
    owed in addition (`closeFrom?_eq_some_iff`). -/

namespace Abridge.Code

/-! ### One byte -/

/-- The byte counts as an opening brace. -/
def MarkedByte.opens (m : MarkedByte) : Bool := m.seen && m.byte = Mark.openBrace

/-- The byte counts as a closing brace. -/
def MarkedByte.closes (m : MarkedByte) : Bool := m.seen && m.byte = Mark.closeBrace

section Brace
variable {m : MarkedByte} (depth offset : Nat) (ms : List MarkedByte)

theorem MarkedByte.opens_eq_false (h : m.closes = true) : m.opens = false := by
  have hne : Mark.closeBrace ≠ Mark.openBrace := by decide
  simp only [closes, Bool.and_eq_true, decide_eq_true_eq] at h
  simp [opens, h.2, hne]

theorem closeFrom?_of_opens (h : m.opens = true) :
    closeFrom? depth offset (m :: ms) = closeFrom? (depth + 1) (offset + 1) ms := by
  rw [closeFrom?.eq_def]
  exact if_pos h

theorem closeFrom?_of_closes (h : m.closes = true) :
    closeFrom? (depth + 1) offset (m :: ms) = closeFrom? depth (offset + 1) ms := by
  rw [closeFrom?.eq_def]
  exact (if_neg (by rw [← MarkedByte.opens, MarkedByte.opens_eq_false h]; simp)).trans (if_pos h)

theorem closeFrom?_zero_of_closes (h : m.closes = true) : closeFrom? 0 offset (m :: ms) = some offset := by
  rw [closeFrom?.eq_def]
  exact (if_neg (by rw [← MarkedByte.opens, MarkedByte.opens_eq_false h]; simp)).trans (if_pos h)

theorem closeFrom?_of_neither (ho : m.opens = false) (hc : m.closes = false) :
    closeFrom? depth offset (m :: ms) = closeFrom? depth (offset + 1) ms := by
  rw [closeFrom?.eq_def]
  exact (if_neg (Bool.not_eq_true _ ▸ ho)).trans (if_neg (Bool.not_eq_true _ ▸ hc))

end Brace

/-! ### Counting braces -/

/-- The number of opening braces that count. -/
def openings (ms : List MarkedByte) : Nat := ms.countP MarkedByte.opens

/-- The number of closing braces that count. -/
def closings (ms : List MarkedByte) : Nat := ms.countP MarkedByte.closes

section Counting
variable {m : MarkedByte} (ms ns : List MarkedByte)

@[simp]
theorem openings_append : openings (ms ++ ns) = openings ms + openings ns := List.countP_append

@[simp]
theorem closings_append : closings (ms ++ ns) = closings ms + closings ns := List.countP_append

theorem openings_cons : openings (m :: ms) = openings ms + if m.opens then 1 else 0 := List.countP_cons

theorem closings_cons : closings (m :: ms) = closings ms + if m.closes then 1 else 0 := List.countP_cons

end Counting

/-- The bytes close all that they open and `depth` blocks besides, and no start of them closes more. -/
structure Settles (depth : Nat) (ms : List MarkedByte) : Prop where
  total : closings ms = openings ms + depth
  front : ∀ ks, ks <+: ms → closings ks ≤ openings ks + depth

namespace Settles
variable {depth depth' : Nat} {m : MarkedByte} {ms : List MarkedByte}

theorem nil : Settles 0 [] where
  total := rfl
  front ks hks := by rw [List.prefix_nil.mp hks]; exact Nat.zero_le _

theorem cons (hd : (depth + if m.opens then 1 else 0) = depth' + if m.closes then 1 else 0) (h : Settles depth' ms) :
    Settles depth (m :: ms) where
  total := by
    have htotal := h.total
    rw [openings_cons, closings_cons]
    omega
  front ks hks := by
    rcases List.prefix_cons_iff.mp hks with rfl | ⟨ks', rfl, hks'⟩
    · exact Nat.zero_le _
    · have hle := h.front ks' hks'
      rw [openings_cons, closings_cons]
      omega

theorem tail (hd : (depth + if m.opens then 1 else 0) = depth' + if m.closes then 1 else 0)
    (h : Settles depth (m :: ms)) : Settles depth' ms where
  total := by
    have htotal := h.total
    rw [openings_cons, closings_cons] at htotal
    omega
  front ks hks := by
    have hle := h.front (m :: ks) ((List.prefix_cons_inj m).mpr hks)
    rw [openings_cons, closings_cons] at hle
    omega

/-- A brace that closes more than is owed cannot come first. -/
theorem pos (h : Settles depth (m :: ms)) (ho : m.opens = false) (hc : m.closes = true) : 0 < depth := by
  have hle := h.front [m] ((List.prefix_cons_inj m).mpr List.nil_prefix)
  simp only [openings, closings, List.countP_cons, List.countP_nil, ho, hc, if_true] at hle
  simpa [Nat.one_le_iff_ne_zero, Nat.pos_iff_ne_zero] using hle

end Settles

/-- How the depth goes on behind a byte, unless the block is closed by it. -/
theorem closeFrom?_cons_cases (depth : Nat) (m : MarkedByte) :
    (depth = 0 ∧ m.closes = true ∧ ∀ offset ms, closeFrom? depth offset (m :: ms) = some offset) ∨
      ∃ depth', ((depth + if m.opens then 1 else 0) = depth' + if m.closes then 1 else 0) ∧
        ∀ offset ms, closeFrom? depth offset (m :: ms) = closeFrom? depth' (offset + 1) ms := by
  cases hc : m.closes with
  | false =>
    cases ho : m.opens with
    | false => exact Or.inr ⟨depth, rfl, fun _ _ => closeFrom?_of_neither _ _ _ ho hc⟩
    | true => exact Or.inr ⟨depth + 1, rfl, fun _ _ => closeFrom?_of_opens _ _ _ ho⟩
  | true =>
    rw [MarkedByte.opens_eq_false hc]
    cases depth with
    | zero => exact Or.inl ⟨rfl, rfl, fun _ _ => closeFrom?_zero_of_closes _ _ hc⟩
    | succ depth => exact Or.inr ⟨depth, rfl, fun _ _ => closeFrom?_of_closes _ _ _ hc⟩

/-- The brace that closes `depth` open blocks and one more stands behind bytes that settle these. -/
theorem closeFrom?_eq_some_iff {depth offset last : Nat} {ms : List MarkedByte} :
    closeFrom? depth offset ms = some last ↔
      ∃ as m bs, ms = as ++ m :: bs ∧ m.closes = true ∧ last = offset + as.length ∧ Settles depth as := by
  -- The search goes on behind a byte with the depth at which what follows has to settle.
  induction ms generalizing depth offset with
  | nil => simp [closeFrom?]
  | cons m ms ih =>
    rcases closeFrom?_cons_cases depth m with ⟨rfl, hc, hhere⟩ | ⟨depth', hdepth, hnext⟩
    · rw [hhere, Option.some.injEq]
      constructor
      · rintro rfl
        exact ⟨[], m, ms, rfl, hc, rfl, .nil⟩
      · rintro ⟨as, k, bs, hsplit, -, rfl, hsettles⟩
        cases as with
        | nil => rfl
        | cons a as =>
          obtain ⟨rfl, -⟩ := List.cons.inj hsplit
          exact absurd (hsettles.pos (MarkedByte.opens_eq_false hc) hc) (Nat.lt_irrefl 0)
    · rw [hnext, ih]
      constructor
      · rintro ⟨as, k, bs, rfl, hk, rfl, hsettles⟩
        refine ⟨m :: as, k, bs, rfl, hk, ?_, hsettles.cons hdepth⟩
        rw [List.length_cons, Nat.add_assoc, Nat.add_comm 1]
      · rintro ⟨as, k, bs, hsplit, hk, rfl, hsettles⟩
        cases as with
        | nil =>
          obtain ⟨rfl, -⟩ := List.cons.inj hsplit
          have hzero : 0 = 0 + depth := hsettles.total
          simp only [MarkedByte.opens_eq_false hk, hk, Bool.false_eq_true, if_false, if_true] at hdepth
          omega
        | cons a as =>
          obtain ⟨rfl, rfl⟩ := List.cons.inj hsplit
          refine ⟨as, k, bs, rfl, hk, ?_, hsettles.tail hdepth⟩
          rw [List.length_cons, Nat.add_assoc, Nat.add_comm 1]

end Abridge.Code
