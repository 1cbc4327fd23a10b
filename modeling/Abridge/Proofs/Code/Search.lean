import Abridge.Proofs.Code.Braces
import Abridge.Proofs.Code.Reading
import Abridge.Proofs.Text.Bytes

/-! What the search for a block looks at: nothing behind the brace it ends at. A block that is found stays
    the same whatever follows its brace (`scan_closed`), so a document that is cut behind a block has the
    same block, now at its end (`scan_cut`), and is cut there again whatever is put behind it
    (`cut_takeBytes_append`). -/

namespace Abridge.Code

/-! ### The header -/

section Header
variable {header : List Byte}

theorem length_le_of_beginsWith {ms : List MarkedByte} (h : beginsWith header ms = true) :
    header.length ≤ ms.length := by
  induction header generalizing ms with
  | nil => exact Nat.zero_le _
  | cons b bs ih =>
    cases ms with
    | nil => simp [beginsWith] at h
    | cons m ms =>
      simp only [beginsWith, Bool.and_eq_true] at h
      exact Nat.succ_le_succ (ih h.2)

theorem beginsWith_iff {ms : List MarkedByte} :
    beginsWith header ms = true ↔ header <+: ms.map MarkedByte.byte := by
  induction header generalizing ms with
  | nil => simp [beginsWith]
  | cons b bs ih =>
    cases ms with
    | nil => simp [beginsWith]
    | cons m ms => simp [beginsWith, ih]

theorem beginsWith_append (ms ns : List MarkedByte) (h : header.length ≤ ms.length) :
    beginsWith header (ms ++ ns) = beginsWith header ms := by
  induction header generalizing ms with
  | nil => cases ms <;> rfl
  | cons b bs ih =>
    cases ms with
    | nil => simp at h
    | cons m ms =>
      simp only [List.cons_append, beginsWith]
      rw [ih ms (Nat.le_of_succ_le_succ h)]

/-- How many bytes are passed over behind a place where the header is not found: all of one that is not seen. -/
def passedOver (header : List Byte) (ms : List MarkedByte) : Nat :=
  if beginsWith header ms then header.length - 1 else 0

theorem passedOver_append (ms ns : List MarkedByte) (h : header.length ≤ ms.length) :
    passedOver header (ms ++ ns) = passedOver header ms := by
  rw [passedOver, passedOver, beginsWith_append ms ns h]

theorem headerFrom?_here {m : MarkedByte} {ms : List MarkedByte} (offset : Nat)
    (h : beginsWith header (m :: ms) = true ∧ m.seen = true) : headerFrom? header 0 offset (m :: ms) = some offset := by
  rw [headerFrom?, if_pos h.1, if_pos h.2]

theorem headerFrom?_further {m : MarkedByte} {ms : List MarkedByte} (offset : Nat)
    (h : ¬(beginsWith header (m :: ms) = true ∧ m.seen = true)) :
    headerFrom? header 0 offset (m :: ms) = headerFrom? header (passedOver header (m :: ms)) (offset + 1) ms := by
  rw [headerFrom?, passedOver]
  by_cases hb : beginsWith header (m :: ms) = true
  · rw [if_pos hb, if_pos hb, if_neg fun hs => h ⟨hb, hs⟩]
  · rw [if_neg hb, if_neg hb]

/-- A header that is found ends within the bytes, and is found there whatever follows it. -/
theorem headerFrom?_eq_some {skip offset first : Nat} {ms : List MarkedByte} (hne : header ≠ [])
    (h : headerFrom? header skip offset ms = some first) :
    ∃ as bs, ms = as ++ bs ∧ first + header.length = offset + as.length ∧ header.length ≤ as.length ∧
      ∀ ns, headerFrom? header skip offset (as ++ ns) = some first := by
  induction ms generalizing skip offset with
  | nil => cases skip <;> simp [headerFrom?] at h
  | cons m ms ih =>
    cases skip with
    | succ skip =>
      obtain ⟨as, bs, rfl, hfirst, hlen, hkeep⟩ := ih h
      refine ⟨m :: as, bs, rfl, ?_, Nat.le_succ_of_le hlen, fun ns => hkeep ns⟩
      rw [hfirst, List.length_cons, Nat.add_assoc, Nat.add_comm 1]
    | zero =>
      by_cases hhere : beginsWith header (m :: ms) = true ∧ m.seen = true
      · rw [headerFrom?_here offset hhere, Option.some.injEq] at h
        obtain ⟨b, bs, rfl⟩ := List.exists_cons_of_ne_nil hne
        have hlen : ((m :: ms).take (b :: bs).length).length = (b :: bs).length := by
          rw [List.length_take, Nat.min_eq_left (length_le_of_beginsWith hhere.1)]
        have hsplit := List.take_append_drop (b :: bs).length (m :: ms)
        refine ⟨_, _, hsplit.symm, by rw [hlen, h], Nat.le_of_eq hlen.symm, fun ns => ?_⟩
        have hbegins : beginsWith (b :: bs) ((m :: ms).take (b :: bs).length ++ ns) = true := by
          rw [beginsWith_append _ _ (Nat.le_of_eq hlen.symm), ← beginsWith_append _ _ (Nat.le_of_eq hlen.symm), hsplit]
          exact hhere.1
        rw [List.length_cons, List.take_succ_cons, List.cons_append] at hbegins ⊢
        rw [headerFrom?_here offset ⟨hbegins, hhere.2⟩, h]
      · -- The header begins further on, so what is compared here lies within its bytes.
        rw [headerFrom?_further offset hhere] at h
        obtain ⟨as, bs, rfl, hfirst, hlen, hkeep⟩ := ih h
        have hlen' : header.length ≤ (m :: as).length := Nat.le_succ_of_le hlen
        have hbegins : ∀ ns, beginsWith header (m :: (as ++ ns)) = beginsWith header (m :: as) := fun ns =>
          beginsWith_append (m :: as) ns hlen'
        have hpassed : ∀ ns, passedOver header (m :: (as ++ ns)) = passedOver header (m :: as) := fun ns =>
          passedOver_append (m :: as) ns hlen'
        rw [hbegins] at hhere
        refine ⟨m :: as, bs, rfl, ?_, hlen', fun ns => ?_⟩
        · rw [hfirst, List.length_cons, Nat.add_assoc, Nat.add_comm 1]
        · rw [List.cons_append, headerFrom?_further offset (by rwa [hbegins]), hpassed, ← hpassed bs, hkeep]

/-- Where a header is found it begins, with a byte that is seen. -/
theorem headerFrom?_begins {skip offset first : Nat} {ms : List MarkedByte}
    (h : headerFrom? header skip offset ms = some first) :
    ∃ as m bs, ms = as ++ m :: bs ∧ first = offset + as.length ∧ beginsWith header (m :: bs) = true ∧
      m.seen = true := by
  induction ms generalizing skip offset with
  | nil => cases skip <;> simp [headerFrom?] at h
  | cons m ms ih =>
    have further : ∀ skip', headerFrom? header skip' (offset + 1) ms = some first →
        ∃ as k bs, m :: ms = as ++ k :: bs ∧ first = offset + as.length ∧ beginsWith header (k :: bs) = true ∧
          k.seen = true := by
      intro skip' h
      obtain ⟨as, k, bs, rfl, hfirst, hbegins, hseen⟩ := ih h
      refine ⟨m :: as, k, bs, rfl, ?_, hbegins, hseen⟩
      rw [hfirst, List.length_cons, Nat.add_assoc, Nat.add_comm 1]
    cases skip with
    | succ skip => exact further skip h
    | zero =>
      by_cases hhere : beginsWith header (m :: ms) = true ∧ m.seen = true
      · rw [headerFrom?_here offset hhere, Option.some.injEq] at h
        exact ⟨[], m, ms, rfl, h.symm, hhere⟩
      · rw [headerFrom?_further offset hhere] at h
        exact further _ h

end Header

/-- A block that closes does so at a brace that counts, and there whatever follows it. -/
theorem closeFrom?_eq_some {depth offset last : Nat} {ms : List MarkedByte}
    (h : closeFrom? depth offset ms = some last) :
    ∃ as m bs, ms = as ++ m :: bs ∧ m.closes = true ∧ last = offset + as.length ∧
      ∀ ns, closeFrom? depth offset (as ++ m :: ns) = some last := by
  obtain ⟨as, m, bs, hms, hm, hlast, hbalance⟩ := closeFrom?_eq_some_iff.mp h
  exact ⟨as, m, bs, hms, hm, hlast, fun ns => closeFrom?_eq_some_iff.mpr ⟨as, m, ns, rfl, hm, hlast, hbalance⟩⟩

/-! ### The block -/

theorem search_closed {header : List Byte} {ms : List MarkedByte} {b : Block} (h : search header ms = .closed b) :
    ∃ as m bs, ms = as ++ m :: bs ∧ m.byte = Mark.closeBrace ∧ b.last = as.length ∧
      ∀ ns, search header (as ++ m :: ns) = .closed b := by
  unfold search at h
  split at h
  case isTrue => cases h
  case isFalse hne =>
    split at h
    · cases h
    · rename_i first hfirst
      split at h
      · cases h
      · rename_i last hlast
        cases h
        obtain ⟨as, bs, rfl, hlen, -, hkeep⟩ := headerFrom?_eq_some hne hfirst
        rw [Nat.zero_add] at hlen
        rw [hlen, List.drop_left] at hlast
        obtain ⟨cs, m, ds, rfl, hm, hlen', hkeep'⟩ := closeFrom?_eq_some hlast
        simp only [MarkedByte.closes, Bool.and_eq_true, decide_eq_true_eq] at hm
        refine ⟨as ++ cs, m, ds, by rw [List.append_assoc], hm.2, by rw [hlen', List.length_append], fun ns => ?_⟩
        rw [search, if_neg hne, List.append_assoc, hkeep]
        simp only
        rw [hlen, List.drop_left, hkeep']

variable {s : Strategy} {header t : Text} {b : Block}

/-- A block ends at a brace of the document, and is the same whatever follows the brace. -/
theorem scan_closed (h : scan s header t = .closed b) :
    ∃ u v : Text, t = u ++ '}' :: v ∧ b.last = u.byteSize ∧ ∀ w, scan s header (u ++ '}' :: w) = .closed b := by
  have hbrace : String.utf8EncodeChar '}' = [Mark.closeBrace] := by decide
  obtain ⟨as, m, bs, hms, hm, hlast, hkeep⟩ := search_closed h
  have hbytes : t.bytes = as.map MarkedByte.byte ++ Mark.closeBrace :: bs.map MarkedByte.byte := by
    have h := congrArg (List.map MarkedByte.byte) hms
    rwa [marked_eq, map_byte_markedFrom, List.map_append, List.map_cons, hm] at h
  obtain ⟨u, v, rfl, hu, -⟩ := Text.bytes_eq_append_cons (by decide) hbrace hbytes
  have hlen : as.length = u.byteSize := by rw [← Text.length_bytes, hu, List.length_map]
  -- The bytes up to the brace are seen alike whatever follows, for a brace begins no pair.
  have hfront : ∀ w : Text, marked s (u ++ '}' :: w) =
      markedFrom s (.within .code) (u.bytes ++ [Mark.closeBrace]) none ++
        markedFrom s (Mode.after (.within .code) (u.bytes ++ [Mark.closeBrace]) w.bytes.head?) w.bytes none := by
    intro w
    rw [marked_eq, Text.bytes_append, Text.bytes_cons, hbrace, List.singleton_append, List.append_cons, markedFrom_append,
      markedFrom_concat_congr (by decide) _ _ _ none, Option.or_none]
  have hprefix : markedFrom s (.within .code) (u.bytes ++ [Mark.closeBrace]) none = as ++ [m] := by
    rw [hfront v, List.append_cons as] at hms
    refine (List.append_inj hms ?_).1
    rw [length_markedFrom, List.length_append, List.length_append, Text.length_bytes, hlen]
    rfl
  refine ⟨u, v, rfl, hlast.trans hlen, fun w => ?_⟩
  rw [scan, hfront w, hprefix, List.append_assoc, List.singleton_append, hkeep]

theorem cut_closed {u v : Text} (h : scan s header (u ++ '}' :: v) = .closed b) (hlast : b.last = u.byteSize) :
    cut s header (u ++ '}' :: v) = u ++ ['}'] := by
  have hsize : b.last + 1 = Text.byteSize (u ++ ['}']) := by
    rw [hlast, Text.byteSize_append]
    rfl
  have hsplit : u ++ '}' :: v = (u ++ ['}']) ++ v := List.append_cons ..
  rw [cut, h]
  simp only
  rw [hsize, hsplit, Text.takeBytes_byteSize_append]

theorem cut_eq_self (h : ∀ b, scan s header t ≠ .closed b) : cut s header t = t := by
  rw [cut]
  split
  · exact absurd ‹_› (h _)
  · rfl

/-- In a document that is cut the search finds what it found before. -/
theorem scan_cut (s : Strategy) (header t : Text) : scan s header (cut s header t) = scan s header t := by
  by_cases h : ∃ b, scan s header t = .closed b
  · obtain ⟨b, hb⟩ := h
    obtain ⟨u, v, rfl, hlast, hkeep⟩ := scan_closed hb
    rw [cut_closed hb hlast, hkeep, hb]
  · rw [cut_eq_self fun b hb => h ⟨b, hb⟩]

theorem cut_of_last (h : ∀ b, scan s header t = .closed b → b.last + 1 = t.byteSize) : cut s header t = t := by
  rw [cut]
  split
  case h_1 b hb =>
    have htake := Text.takeBytes_byteSize_append t []
    rwa [List.append_nil, ← h b hb] at htake
  case h_2 => rfl

theorem last_cut (h : scan s header (cut s header t) = .closed b) : b.last + 1 = (cut s header t).byteSize := by
  rw [scan_cut] at h
  obtain ⟨u, v, rfl, hlast, -⟩ := scan_closed h
  rw [cut_closed h hlast, hlast, Text.byteSize_append]
  rfl

/-! ### What is put behind a block -/

theorem eq_concat_of_last (h : scan s header t = .closed b) (hlast : b.last + 1 = t.byteSize) :
    ∃ u : Text, t = u ++ ['}'] ∧ b.last = u.byteSize ∧ ∀ w, scan s header (u ++ '}' :: w) = .closed b := by
  obtain ⟨u, v, rfl, hu, hkeep⟩ := scan_closed h
  have hv : v = [] := by
    have hsize : Char.utf8Size '}' = 1 := by decide
    rw [Text.byteSize_append, Text.byteSize_cons, hu, hsize] at hlast
    cases v with
    | nil => rfl
    | cons c v =>
      have hpos := Char.utf8Size_pos c
      rw [Text.byteSize_cons] at hlast
      omega
  subst hv
  exact ⟨u, rfl, hu, hkeep⟩

/-- A block at the end of a document is found whatever is put behind it. -/
theorem scan_append (h : scan s header t = .closed b) (hlast : b.last + 1 = t.byteSize) (w : Text) :
    scan s header (t ++ w) = .closed b := by
  obtain ⟨u, rfl, -, hkeep⟩ := eq_concat_of_last h hlast
  rw [List.append_assoc]
  exact hkeep w

/-- What is put behind a block at the end of a document is cut off. -/
theorem cut_append (h : scan s header t = .closed b) (hlast : b.last + 1 = t.byteSize) (w : Text) :
    cut s header (t ++ w) = t := by
  have hscan := scan_append h hlast w
  obtain ⟨u, rfl, hu, -⟩ := eq_concat_of_last h hlast
  rw [List.append_assoc] at hscan ⊢
  exact cut_closed hscan hu

theorem bytes_cut (h : scan s header t = .closed b) : (cut s header t).bytes = t.bytes.take (b.last + 1) := by
  obtain ⟨u, v, rfl, hlast, -⟩ := scan_closed h
  have hlen : b.last + 1 = (Text.bytes (u ++ ['}'])).length := by
    rw [Text.length_bytes, Text.byteSize_append, hlast]
    rfl
  have hsplit : u ++ '}' :: v = (u ++ ['}']) ++ v := List.append_cons ..
  rw [cut_closed h hlast, hlen, hsplit, Text.bytes_append (u ++ ['}']) v, List.take_left]

theorem cut_cut (s : Strategy) (header t : Text) : cut s header (cut s header t) = cut s header t :=
  cut_of_last fun _ hb => last_cut hb

/-- Cutting looks at nothing behind the brace that closes the block: the bytes up to the brace are what is left,
    with the same block in them, whatever is put in place of those behind it. A document without a block is
    left as it is, so cutting again changes nothing. -/
theorem cut_takeBytes_append (s : Strategy) (header t : Text) :
    (∀ b, scan s header t = .closed b →
        (t.takeBytes (b.last + 1)).bytes = t.bytes.take (b.last + 1) ∧
        ∀ w, cut s header (t.takeBytes (b.last + 1) ++ w) = t.takeBytes (b.last + 1) ∧
          scan s header (t.takeBytes (b.last + 1) ++ w) = .closed b) ∧
      ((∀ b, scan s header t ≠ .closed b) → cut s header t = t) ∧
      cut s header (cut s header t) = cut s header t := by
  refine ⟨fun b hb => ?_, cut_eq_self, cut_cut s header t⟩
  have htake : t.takeBytes (b.last + 1) = cut s header t := by rw [cut, hb]
  have hscan : scan s header (cut s header t) = .closed b := (scan_cut s header t).trans hb
  have hlast : b.last + 1 = (cut s header t).byteSize := last_cut hscan
  rw [htake]
  exact ⟨bytes_cut hb, fun w => ⟨cut_append hscan hlast w, scan_append hscan hlast w⟩⟩

/-- A header that goes on into a literal, and a brace in place of what follows its block. -/
theorem cut_takeBytes_append_literal :
    let header : Text := ['f', '"', '{']
    let t : Text := ['f', '"', '{', '"', '}', 'é']
    scan .lexical header t = .closed ⟨0, 4⟩ ∧
      cut .lexical header (t.takeBytes 5 ++ ['}']) = t.takeBytes 5 ∧
      scan .lexical header (t.takeBytes 5 ++ ['}']) = .closed ⟨0, 4⟩ := by
  intro header t
  have hclosed : scan .lexical header t = .closed ⟨0, 4⟩ := by decide +kernel
  exact ⟨hclosed, ((cut_takeBytes_append .lexical header t).1 _ hclosed).2 ['}']⟩

end Abridge.Code
