import Abridge.Proofs.Code.Offsets
import Abridge.Proofs.Code.Seams

/-! Offsets in range. Who reads a document by offsets, two bytes on behind a pair, and writes the contexts to a list of
    its length, never leaves that list (`labels?_eq_some`). All bytes of a character get one context
    (`contexts_char`). And a block begins and ends between characters of the document, so that it can be cut there
    (`scan_in_range`). -/

namespace Abridge.Code

/-! ### Reading by offsets -/

/-- Writes a context over as many of the next entries as there are, from one that must be there. -/
def mark? (cs : List Context) (i n : Nat) (c : Context) : Option (List Context) :=
  if i < cs.length then some (cs.take i ++ List.replicate (min n (cs.length - i)) c ++ cs.drop (i + n)) else none

/-- Reads the bytes from an offset on, within a context, and writes the context of each to its entry. -/
def labelFrom? (bs : List Byte) (i : Nat) (c : Context) (cs : List Context) : Option (List Context) :=
  if h : i < bs.length then
    match Mode.step bs[i] bs[i + 1]? (.within c) with
    | (c', .within after) =>
      match mark? cs i 1 c' with
      | some cs' => labelFrom? bs (i + 1) after cs'
      | none => none
    | (c', .second _ after) =>
      match mark? cs i 2 c' with
      | some cs' => labelFrom? bs (i + 2) after cs'
      | none => none
  else some cs
termination_by bs.length - i

/-- The contexts of the bytes, each taken for code until it is read. -/
def labels? (bs : List Byte) : Option (List Context) := labelFrom? bs 0 .code (List.replicate bs.length .code)

theorem mark?_append (done rest : List Context) {n : Nat} (hn : 0 < n) (hrest : n ≤ rest.length) (c : Context) :
    mark? (done ++ rest) done.length n c = some (done ++ List.replicate n c ++ rest.drop n) := by
  have hlt : done.length < (done ++ rest).length := by
    rw [List.length_append]
    omega
  have hmin : min n ((done ++ rest).length - done.length) = n := by
    rw [List.length_append]
    omega
  rw [mark?, if_pos hlt, hmin, List.take_left, List.drop_length_add_append]

/-- The two bytes of a pair have one context. -/
theorem step_second {b : Byte} {next : Option Byte} {c c₁ c₂ after : Context}
    (h : Mode.step b next (.within c) = (c₁, .second c₂ after)) : c₂ = c₁ ∧ next ≠ none := by
  have hquoted : ∀ c quote, stepQuoted c quote b next = (c₁, .second c₂ after) → c₂ = c₁ ∧ next ≠ none := by
    intro c quote h
    rw [stepQuoted] at h
    split at h
    case isTrue hpair =>
      cases h
      refine ⟨rfl, ?_⟩
      rintro rfl
      simp at hpair
    case isFalse =>
      repeat' split at h
      all_goals cases h
  cases c with
  | stringLiteral => exact hquoted _ _ h
  | runeLiteral => exact hquoted _ _ h
  | _ =>
    rw [Mode.step] at h
    repeat' split at h
    all_goals cases h
    all_goals simp_all

theorem labelFrom?_append (as bs : List Byte) (c : Context) (done : List Context) (hlen : done.length = as.length) :
    labelFrom? (as ++ bs) as.length c (done ++ List.replicate bs.length .code) =
      some (done ++ contextsFrom (.within c) bs) := by
  -- What is in front of the offset is read, and what is behind it is not written yet.
  induction hn : bs.length using Nat.strongRecOn generalizing as bs c done with
  | ind n ih =>
    subst hn
    cases bs with
    | nil => simp [labelFrom?, contextsFrom]
    | cons b bs =>
      have hlt : as.length < (as ++ b :: bs).length := by simp
      have hget : (as ++ b :: bs)[as.length] = b := by simp
      have hnext : (as ++ b :: bs)[as.length + 1]? = bs.head? := by
        rw [List.getElem?_append_right (Nat.le_add_right _ 1), Nat.add_sub_cancel_left, List.getElem?_cons_succ,
          List.head?_eq_getElem?]
      rw [labelFrom?, dif_pos hlt, hget, hnext, ← hlen, contextsFrom]
      rcases hstep : Mode.step b bs.head? (.within c) with ⟨c₁, after | ⟨c₂, after⟩⟩
      · have hmark := mark?_append done (List.replicate (b :: bs).length .code) Nat.one_pos (by simp) c₁
        have hrest := ih bs.length (by simp) (as ++ [b]) bs after (done ++ [c₁]) (by simp [hlen]) rfl
        simp only [hmark]
        simpa [hlen] using hrest
      · obtain ⟨rfl, hsome⟩ := step_second hstep
        obtain ⟨b', bs, rfl⟩ := List.exists_cons_of_ne_nil (fun hnil => hsome (List.head?_eq_none_iff.mpr hnil))
        have hmark := mark?_append done (List.replicate (b :: b' :: bs).length .code) Nat.two_pos (by simp) c₂
        have hrest := ih bs.length (by simp only [List.length_cons]; omega) (as ++ [b, b']) bs after (done ++ [c₂, c₂])
          (by simp [hlen]) rfl
        simp only [hmark]
        simpa [hlen, contextsFrom, Mode.step] using hrest

/-- Reading by offsets never leaves the list, and gives the contexts. -/
theorem labels?_eq_some (t : Text) : labels? t.bytes = some (contexts t) :=
  labelFrom?_append [] t.bytes .code [] rfl

/-! ### Characters -/

theorem contextsFrom_append_char {m : Mode} (u : Text) (d : Char) (v : Text)
    (hm : m.Fits (Text.bytes (u ++ d :: v)).head?) :
    ∃ c, ((contextsFrom m (Text.bytes (u ++ d :: v))).drop u.byteSize).take d.utf8Size =
      List.replicate d.utf8Size c := by
  induction u generalizing m with
  | nil =>
    rw [List.nil_append, Text.bytes_cons] at hm ⊢
    obtain ⟨c, after, hd, -⟩ := contextsFrom_char hm
    refine ⟨c, ?_⟩
    rw [hd, List.map_const', String.length_utf8EncodeChar, Text.byteSize_nil,
      List.drop_zero, List.take_left' List.length_replicate]
  | cons e u ih =>
    rw [List.cons_append, Text.bytes_cons] at hm ⊢
    obtain ⟨c, after, he, hafter⟩ := contextsFrom_char hm
    obtain ⟨c', hc'⟩ := ih hafter
    refine ⟨c', ?_⟩
    rw [he, List.map_const', String.length_utf8EncodeChar, Text.byteSize_cons,
      ← List.drop_drop, List.drop_left' List.length_replicate, hc']

/-- All bytes of a character have the same context. -/
theorem contexts_char (u : Text) (d : Char) (v : Text) :
    ∃ c, ((contexts (u ++ d :: v)).drop u.byteSize).take d.utf8Size = List.replicate d.utf8Size c :=
  contextsFrom_append_char u d v (Mode.fits_within _ _)

/-! ### Blocks -/

section Block
variable {s : Strategy} {header t : Text}

/-- A header that is found is a piece of the document, between characters. -/
theorem exists_text_of_first? {first : Nat} (h : (scan s header t).first? = some first) :
    ∃ u v : Text, t = u ++ (header ++ v) ∧ u.byteSize = first := by
  have hne : header ≠ [] := by
    rintro rfl
    cases h
  rw [first?_scan hne] at h
  obtain ⟨as, m, bs, hms, hfirst, hbegins, -⟩ := headerFrom?_begins h
  obtain ⟨rest, hrest⟩ := beginsWith_iff.mp hbegins
  have hbytes := bytes_of_marked hms
  rw [← hrest] at hbytes
  obtain ⟨u, v, rfl, hu, -⟩ := Text.bytes_eq_append hne hbytes
  exact ⟨u, v, rfl, by rw [← Text.length_bytes, hu, List.length_map, hfirst, Nat.zero_add]⟩

/-- The brace that closes a block stands behind the header. -/
theorem le_last_of_closed {b : Block} (h : scan s header t = .closed b) : b.first + header.byteSize ≤ b.last := by
  have hfirst : (scan s header t).first? = some b.first := by
    rw [h]
    rfl
  have hscan := scan_of_first? hfirst
  rw [h] at hscan
  cases hclose : closeFrom? 0 (b.first + header.byteSize) ((marked s t).drop (b.first + header.byteSize)) with
  | none => simp [hclose] at hscan
  | some last =>
    rw [hclose] at hscan
    have heq : b.last = last := congrArg Block.last (Scan.closed.inj hscan)
    obtain ⟨as, -, -, -, -, hlast, -⟩ := closeFrom?_eq_some hclose
    omega

theorem lt_length_contexts {i : Nat} (hne : header ≠ []) (h : header.bytes <+: t.bytes.drop i) :
    i < (contexts t).length := by
  rw [length_contexts, ← Text.length_bytes]
  by_contra hle
  rw [List.drop_eq_nil_of_le (Nat.le_of_not_lt hle)] at h
  exact bytes_ne_nil hne (List.prefix_nil.mp h)

theorem header_in_range {first : Nat} (h : (scan s header t).first? = some first) :
    t.IsBoundary first ∧ first + header.byteSize ≤ t.byteSize ∧
      ∃ rest, t.slice? (first + header.byteSize) t.byteSize = some rest := by
  obtain ⟨u, v, rfl, rfl⟩ := exists_text_of_first? h
  have hsize : u.byteSize + header.byteSize ≤ (u ++ (header ++ v)).byteSize := by
    rw [Text.byteSize_append, Text.byteSize_append]
    omega
  refine ⟨⟨u, header ++ v, rfl, rfl⟩, hsize, v, ?_⟩
  exact Text.slice?_eq_some_iff.mpr ⟨u ++ header, [], by simp, Text.byteSize_append u header, by simp⟩

theorem block_in_range {b : Block} (h : scan s header t = .closed b) :
    b.last < t.byteSize ∧ t.bytes[b.last]? = some Mark.closeBrace ∧ t.IsBoundary b.last ∧
      t.IsBoundary (b.last + 1) ∧ t.slice? 0 (b.last + 1) = some (cut s header t) := by
  obtain ⟨u, v, rfl, hlast, -⟩ := scan_closed h
  have hbrace : String.utf8EncodeChar '}' = [Mark.closeBrace] := by decide
  have hsize : Text.byteSize (u ++ ['}']) = b.last + 1 := by
    rw [Text.byteSize_append, hlast]
    rfl
  have hsplit : u ++ '}' :: v = (u ++ ['}']) ++ v := List.append_cons ..
  refine ⟨?_, ?_, ⟨u, '}' :: v, rfl, hlast.symm⟩, ⟨u ++ ['}'], v, hsplit, hsize⟩, ?_⟩
  · rw [hsplit, Text.byteSize_append, hsize]
    omega
  · rw [Text.bytes_append, Text.bytes_cons, hbrace, hlast, ← Text.length_bytes]
    simp
  · rw [cut_closed h hlast]
    exact Text.slice?_eq_some_iff.mpr ⟨[], v, by simp, rfl, hsize⟩

end Block

/-- A character gets one context, and who writes the contexts by offsets never leaves their list, nor who looks one up
    at a place where the header occurs. What is found lies between characters: the header with all that follows it,
    and the block with the brace at its end, so both can be cut out. -/
theorem scan_in_range (s : Strategy) (header t : Text) :
    (∀ (u : Text) (d : Char) (v : Text), t = u ++ d :: v →
        ∃ c, ((contexts t).drop u.byteSize).take d.utf8Size = List.replicate d.utf8Size c) ∧
      labels? t.bytes = some (contexts t) ∧ (contexts t).length = t.bytes.length ∧
      (∀ i, header ≠ [] → header.bytes <+: t.bytes.drop i → i < (contexts t).length) ∧
      (∀ first, (scan s header t).first? = some first →
        t.IsBoundary first ∧ first + header.byteSize ≤ t.byteSize ∧
          ∃ rest, t.slice? (first + header.byteSize) t.byteSize = some rest) ∧
      ∀ b, scan s header t = .closed b →
        b.first + header.byteSize ≤ b.last ∧ b.last < t.byteSize ∧ t.bytes[b.last]? = some Mark.closeBrace ∧
          t.IsBoundary b.last ∧ t.IsBoundary (b.last + 1) ∧ t.slice? 0 (b.last + 1) = some (cut s header t) := by
  refine ⟨?_, labels?_eq_some t, length_contextsFrom _ _, fun i => lt_length_contexts, fun first => header_in_range,
    fun b hb => ⟨le_last_of_closed hb, block_in_range hb⟩⟩
  rintro u d v rfl
  exact contexts_char u d v

end Abridge.Code
