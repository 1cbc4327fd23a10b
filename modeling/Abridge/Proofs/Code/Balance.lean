import Abridge.Proofs.Code.Seams

/-! A block on its own. It begins with its header and ends with the brace that closes it, and the bytes between
    them close what they open (`search_pieces`). Since a header of plain bytes is seen in code, the block is read
    in its document as it is read alone (`scan_closed_pieces`). So with one brace in the header it has as many
    braces closed as opened, and fewer in front of any byte behind the header (`scan_closed_alone`). -/

namespace Abridge.Code

/-! ### The pieces of a block -/

theorem search_pieces {header : List Byte} {ms : List MarkedByte} {b : Block} (h : search header ms = .closed b) :
    ∃ as k bs body m rest, ms = as ++ k :: bs ∧ beginsWith header (k :: bs) = true ∧ k.seen = true ∧
      (k :: bs).drop header.length = body ++ m :: rest ∧ m.closes = true ∧ Settles 0 body ∧
      b.first = as.length ∧ b.last = as.length + header.length + body.length := by
  unfold search at h
  split at h
  case isTrue => cases h
  case isFalse =>
    split at h
    · cases h
    · rename_i first hfirst
      split at h
      · cases h
      · rename_i last hlast
        cases h
        obtain ⟨as, k, bs, rfl, rfl, hbegins, hseen⟩ := headerFrom?_begins hfirst
        rw [Nat.zero_add, List.drop_length_add_append] at hlast
        obtain ⟨body, m, rest, hdrop, hm, hend, hsettles⟩ := closeFrom?_eq_some_iff.mp hlast
        exact ⟨as, k, bs, body, m, rest, rfl, hbegins, hseen, hdrop, hm, hsettles, Nat.zero_add _, hend⟩

section Pieces
variable {s : Strategy} {header t : Text} {b : Block} {f : Byte} {hs : List Byte}

theorem MarkedByte.byte_of_closes {m : MarkedByte} (h : m.closes = true) : m.byte = Mark.closeBrace := by
  rw [closes, Bool.and_eq_true, decide_eq_true_eq] at h
  exact h.2

/-- As the search sees a document, its block is a header that is seen, what that opens and the brace. -/
theorem scan_closed_marked (hplain : ∀ b ∈ header.bytes, Mark.isPlain b = true) (hn : Mark.newline ∉ header.bytes)
    (h : scan s header t = .closed b) :
    ∃ as body m rest, marked s t = as ++ (seenBytes header.bytes ++ (body ++ m :: rest)) ∧ m.closes = true ∧
      Settles 0 body ∧ b.first = as.length ∧ b.last = as.length + header.bytes.length + body.length := by
  obtain ⟨as, k, bs, body, m, rest, hms, hbegins, hseen, hdrop, hm, hsettles, hfirst, hlast⟩ := search_pieces h
  obtain ⟨ns, hns⟩ := marked_of_begins hplain hn hms hbegins hseen
  rw [← hns, ← length_seenBytes, List.drop_left] at hdrop
  rw [← hns, hdrop] at hms
  exact ⟨as, body, m, rest, hms, hm, hsettles, hfirst, hlast⟩

/-- No character lies across an end of these pieces. -/
theorem text_of_marked {as body rest : List MarkedByte} {m : MarkedByte} (hbytes : header.bytes = f :: hs)
    (h : marked s t = as ++ (seenBytes header.bytes ++ (body ++ m :: rest))) (hm : m.closes = true) :
    ∃ u y w : Text, t = u ++ (header ++ (y ++ '}' :: w)) ∧ u.bytes = as.map MarkedByte.byte ∧
      y.bytes = body.map MarkedByte.byte := by
  have hbrace : String.utf8EncodeChar '}' = [Mark.closeBrace] := by decide
  have hne : header ≠ [] := by
    rintro rfl
    cases hbytes
  have ht := bytes_of_marked h
  rw [List.map_append, map_byte_seenBytes, List.map_append, List.map_cons, MarkedByte.byte_of_closes hm] at ht
  obtain ⟨u, x, rfl, hu, hx⟩ := Text.bytes_eq_append hne ht
  obtain ⟨y, w, rfl, hy, -⟩ := Text.bytes_eq_append_cons (by decide) hbrace hx
  exact ⟨u, y, w, rfl, hu, hy⟩

/-- The text of a block, and how the search sees it when it is alone. -/
theorem scan_closed_pieces (hbytes : header.bytes = f :: hs) (hplain : ∀ b ∈ header.bytes, Mark.isPlain b = true)
    (hn : Mark.newline ∉ header.bytes) (h : scan s header t = .closed b) :
    ∃ (u v w : Text) (body : List MarkedByte) (m : MarkedByte), t = u ++ (v ++ w) ∧ u.byteSize = b.first ∧
      u.byteSize + v.byteSize = b.last + 1 ∧ header <+: v ∧ marked s v = seenBytes header.bytes ++ (body ++ [m]) ∧
      Settles 0 body ∧ m.closes = true ∧
      (s = .lexical → contexts v = ((contexts t).drop b.first).take v.byteSize) := by
  obtain ⟨as, body, m, rest, hms, hm, hsettles, hfirst, hlast⟩ := scan_closed_marked hplain hn h
  obtain ⟨u, y, w, rfl, hu, hy⟩ := text_of_marked hbytes hms hm
  have hbrace : String.utf8EncodeChar '}' = [m.byte] := by
    rw [MarkedByte.byte_of_closes hm]
    decide
  -- The search sees the first byte of the header, then all up to the brace.
  have hblock : seenBytes header.bytes ++ (body ++ [m]) = ⟨f, true⟩ :: (seenBytes hs ++ body) ++ [m] := by
    rw [hbytes]
    simp [seenBytes]
  have hpiece : marked s (u ++ (header ++ (y ++ '}' :: w))) =
      as ++ (⟨f, true⟩ :: (seenBytes hs ++ body) ++ m :: rest) := by
    rw [hms, hbytes]
    simp [seenBytes]
  have hv : Text.bytes (header ++ (y ++ ['}'])) = (seenBytes header.bytes ++ (body ++ [m])).map MarkedByte.byte := by
    simp [hy, hbrace]
  have hfn : f ≠ Mark.newline := fun heq => hn (by simp [hbytes, heq])
  have hpair : Mark.beginsPair m.byte = false := by
    rw [MarkedByte.byte_of_closes hm]
    rfl
  have husize : u.byteSize = b.first := by rw [← Text.length_bytes, hu, List.length_map, hfirst]
  have hvsize : Text.byteSize (header ++ (y ++ ['}'])) = header.bytes.length + (body.length + 1) := by
    rw [← Text.length_bytes, hv]
    simp
  refine ⟨u, header ++ (y ++ ['}']), w, body, m, by simp, husize, ?_, List.prefix_append _ _, ?_, hsettles, hm, ?_⟩
  · rw [husize, hvsize, hfirst, hlast]
    omega
  · rw [hblock] at hv ⊢
    exact marked_alone hpiece hfn rfl hpair hv
  · rintro rfl
    rw [hblock] at hv
    rw [hfirst]
    exact contexts_alone hpiece hfn rfl hpair hv

end Pieces

/-! ### The braces of a block -/

section Balance
variable {front body ps : List MarkedByte} {m : MarkedByte}

/-- With the brace behind what is balanced, all is closed that one brace in front of it opens. -/
theorem closings_block (ho : openings front = 1) (hc : closings front = 0) (hm : m.closes = true)
    (hbody : Settles 0 body) : closings (front ++ (body ++ [m])) = openings (front ++ (body ++ [m])) := by
  have hone : openings [m] = 0 ∧ closings [m] = 1 := by
    simp [openings, closings, MarkedByte.opens_eq_false hm, hm]
  have htotal := hbody.total
  rw [closings_append, closings_append, openings_append, openings_append, ho, hc, hone.1, hone.2]
  omega

/-- In front of the brace, one more is opened than closed, or even more than that. -/
theorem closings_lt_openings (ho : openings front = 1) (hc : closings front = 0) (hbody : Settles 0 body)
    (hps : ps <+: front ++ (body ++ [m])) (hne : ps ≠ front ++ (body ++ [m])) (hlen : front.length ≤ ps.length) :
    closings ps < openings ps := by
  rw [← List.append_assoc] at hps hne
  have hps' : ps <+: front ++ body := (List.prefix_concat_iff.mp hps).resolve_left hne
  obtain ⟨qs, rfl⟩ := List.prefix_of_prefix_length_le (List.prefix_append front body) hps' hlen
  have hle := hbody.front qs ((List.prefix_append_right_inj front).mp hps')
  rw [closings_append, openings_append, ho, hc]
  omega

end Balance

/-- A block whose header holds one brace, read alone: the contexts are those in the document, as many braces are
    closed as opened, and behind the header more are opened than closed up to the last byte. -/
theorem scan_closed_alone {s : Strategy} {header t : Text} {b : Block} {f : Byte} {hs : List Byte}
    (hbytes : header.bytes = f :: hs) (hplain : ∀ b ∈ header.bytes, Mark.isPlain b = true)
    (hn : Mark.newline ∉ header.bytes) (ho : openings (seenBytes header.bytes) = 1)
    (hc : closings (seenBytes header.bytes) = 0) (h : scan s header t = .closed b) :
    ∃ u v w : Text, t = u ++ (v ++ w) ∧ u.byteSize = b.first ∧ u.byteSize + v.byteSize = b.last + 1 ∧ header <+: v ∧
      (s = .lexical → contexts v = ((contexts t).drop b.first).take v.byteSize) ∧
      openings (marked s v) = closings (marked s v) ∧
      ∀ ps, ps <+: marked s v → ps ≠ marked s v → header.byteSize ≤ ps.length → closings ps < openings ps := by
  obtain ⟨u, v, w, body, m, ht, hfirst, hlast, hheader, hv, hbody, hm, hcontexts⟩ :=
    scan_closed_pieces hbytes hplain hn h
  refine ⟨u, v, w, ht, hfirst, hlast, hheader, hcontexts, ?_, fun ps hps hne hlen => ?_⟩
  · rw [hv]
    exact (closings_block ho hc hm hbody).symm
  · rw [hv] at hps hne
    rw [← Text.length_bytes, ← length_seenBytes] at hlen
    exact closings_lt_openings ho hc hbody hps hne hlen

end Abridge.Code
