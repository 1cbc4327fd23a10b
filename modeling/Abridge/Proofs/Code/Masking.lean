import Abridge.Proofs.Code.Rewriting
import Abridge.Proofs.Code.Seams

/-! The two ways to search, and how they are related. A masked document has a hash in place of each byte that is no
    code. The search that sees code alone finds in a document what the search that sees all bytes finds in the
    masked one (`scan_mask`), since a header of plain bytes that begins in code lies in code. Where all braces
    and headers are code, both find the same (`scan_of_code`). -/

namespace Abridge.Code

/-! ### Searching alike -/

/-- Place by place a search notices the same in both: that a header begins, or a brace. -/
inductive Concur (header : List Byte) : List MarkedByte → List MarkedByte → Prop
  | nil : Concur header [] []
  | cons {m n ms ns}
      (hh : (beginsWith header (m :: ms) = true ∧ m.seen = true) ↔ (beginsWith header (n :: ns) = true ∧ n.seen = true))
      (ho : m.opens = n.opens) (hc : m.closes = n.closes) (h : Concur header ms ns) : Concur header (m :: ms) (n :: ns)

namespace Concur
variable {header : List Byte} {f : Byte} {hs : List Byte} {ms ns : List MarkedByte}

theorem headerFrom? (h : Concur (f :: hs) ms ns) (hf : f ∉ hs) (offset : Nat) :
    headerFrom? (f :: hs) 0 offset ms = headerFrom? (f :: hs) 0 offset ns := by
  induction h generalizing offset with
  | nil => rfl
  | @cons m n ms ns hh _ _ _ ih =>
    by_cases hm : beginsWith (f :: hs) (m :: ms) = true ∧ m.seen = true
    · rw [headerFrom?_here offset hm, headerFrom?_here offset (hh.mp hm)]
    · rw [headerFrom?_next hf offset hm, headerFrom?_next hf offset (hm ∘ hh.mpr), ih]

theorem closeFrom? (h : Concur header ms ns) (depth offset : Nat) :
    closeFrom? depth offset ms = closeFrom? depth offset ns := by
  induction h generalizing depth offset with
  | nil => rfl
  | @cons m n ms ns _ ho hc _ ih =>
    cases hopens : m.opens with
    | true => rw [closeFrom?_of_opens _ _ _ hopens, closeFrom?_of_opens _ _ _ (ho ▸ hopens), ih]
    | false =>
      cases hcloses : m.closes with
      | false =>
        rw [closeFrom?_of_neither _ _ _ hopens hcloses, closeFrom?_of_neither _ _ _ (ho ▸ hopens) (hc ▸ hcloses), ih]
      | true =>
        cases depth with
        | zero => rw [closeFrom?_zero_of_closes _ _ hcloses, closeFrom?_zero_of_closes _ _ (hc ▸ hcloses)]
        | succ depth => rw [closeFrom?_of_closes _ _ _ hcloses, closeFrom?_of_closes _ _ _ (hc ▸ hcloses), ih]

theorem drop (h : Concur header ms ns) (k : Nat) : Concur header (ms.drop k) (ns.drop k) := by
  induction h generalizing k with
  | nil => simpa using nil
  | cons hh ho hc h ih =>
    cases k with
    | zero => exact cons hh ho hc h
    | succ k => exact ih k

theorem search (h : Concur (f :: hs) ms ns) (hf : f ∉ hs) : search (f :: hs) ms = search (f :: hs) ns := by
  rw [Code.search, Code.search, h.headerFrom? hf]
  split
  · rfl
  · split
    · rfl
    · rw [(h.drop _).closeFrom?]

/-- A search notices the same before and after a change to single bytes that keeps headers and braces. -/
theorem map {g : MarkedByte → MarkedByte} (ho : ∀ m ∈ ms, (g m).opens = m.opens) (hc : ∀ m ∈ ms, (g m).closes = m.closes)
    (hh : ∀ as m bs, ms = as ++ m :: bs → ((beginsWith header (m :: bs) = true ∧ m.seen = true) ↔
      (beginsWith header ((m :: bs).map g) = true ∧ (g m).seen = true))) : Concur header ms (ms.map g) := by
  induction ms with
  | nil => exact nil
  | cons m ms ih =>
    refine cons (hh [] m ms rfl) (ho m (by simp)).symm (hc m (by simp)).symm (ih ?_ ?_ ?_)
    · exact fun k hk => ho k (List.mem_cons_of_mem _ hk)
    · exact fun k hk => hc k (List.mem_cons_of_mem _ hk)
    · exact fun as k bs hsplit => hh (m :: as) k bs (by rw [hsplit, List.cons_append])

end Concur

/-! ### Masked bytes -/

/-- What stands in a masked document for a byte that is no code. -/
def Mark.hash : Byte := 0x23

/-- The byte as it is seen in the masked document. -/
def MarkedByte.masked (m : MarkedByte) : MarkedByte := ⟨if m.seen then m.byte else Mark.hash, true⟩

theorem MarkedByte.opens_masked (m : MarkedByte) : m.masked.opens = m.opens := by
  have hhash : Mark.hash ≠ Mark.openBrace := by decide
  cases hseen : m.seen <;> simp [masked, opens, hseen, hhash]

theorem MarkedByte.closes_masked (m : MarkedByte) : m.masked.closes = m.closes := by
  have hhash : Mark.hash ≠ Mark.closeBrace := by decide
  cases hseen : m.seen <;> simp [masked, closes, hseen, hhash]

section Header
variable {header : List Byte} {ms : List MarkedByte}

theorem beginsWith_map_masked (h : seenBytes header <+: ms) : beginsWith header (ms.map MarkedByte.masked) = true := by
  have hsame : (seenBytes header).map MarkedByte.masked = seenBytes header := by
    rw [seenBytes, List.map_map]
    rfl
  have hmap := (h.map MarkedByte.masked).map MarkedByte.byte
  rw [hsame, map_byte_seenBytes] at hmap
  exact beginsWith_iff.mpr hmap

theorem seen_of_beginsWith_map_masked (hhash : Mark.hash ∉ header) (h : beginsWith header (ms.map MarkedByte.masked) = true) :
    seenBytes header <+: ms := by
  induction header generalizing ms with
  | nil => exact List.nil_prefix
  | cons b bs ih =>
    rw [List.mem_cons, not_or] at hhash
    cases ms with
    | nil => simp [beginsWith] at h
    | cons m ms =>
      simp only [List.map_cons, beginsWith, Bool.and_eq_true, decide_eq_true_eq] at h
      obtain ⟨hm, hms⟩ := h
      obtain ⟨byte, seen⟩ := m
      cases seen with
      | false => exact absurd hm.symm hhash.1
      | true =>
        obtain rfl : b = byte := hm
        exact (List.prefix_cons_inj _).mpr (ih hhash.2 hms)

end Header

/-! ### Masked documents -/

/-- The text with a hash in place of each byte of a character that is not code by its first context. -/
def maskFrom : List Context → Text → Text
  | _, [] => []
  | cs, d :: t =>
    (if cs.head? = some .code then [d] else List.replicate d.utf8Size '#') ++ maskFrom (cs.drop d.utf8Size) t

/-- The document with a hash in place of each byte that is no code. -/
def mask (t : Text) : Text := maskFrom (contexts t) t

theorem bytes_maskFrom {m : Mode} {t : Text} (hm : m.Fits t.bytes.head?) :
    (maskFrom (contextsFrom m t.bytes) t).bytes =
      List.zipWith (fun b c => if c = .code then b else Mark.hash) t.bytes (contextsFrom m t.bytes) := by
  -- By characters: between two of them the mode fits what comes next, so all bytes of the next have one context.
  induction t generalizing m with
  | nil => rfl
  | cons d t ih =>
    rw [Text.bytes_cons] at hm ⊢
    obtain ⟨c, after, hd, hafter⟩ := contextsFrom_char hm
    have hlen : ((String.utf8EncodeChar d).map fun _ => c).length = d.utf8Size := by
      rw [List.length_map, String.length_utf8EncodeChar]
    have hhead : ((String.utf8EncodeChar d).map (fun _ => c) ++ contextsFrom after (Text.bytes t)).head? = some c := by
      obtain ⟨b, bs, hbs⟩ := List.exists_cons_of_ne_nil (@String.utf8EncodeChar_ne_nil d)
      rw [hbs]
      rfl
    have hreplace : (if c = .code then [d] else List.replicate d.utf8Size '#' : Text).bytes =
        (String.utf8EncodeChar d).map fun b => if c = .code then b else Mark.hash := by
      split
      · simp
      · have hsharp : String.utf8EncodeChar '#' = [Mark.hash] := by decide
        rw [Text.bytes, List.flatMap_replicate, hsharp, List.map_const', String.length_utf8EncodeChar,
          List.flatten_replicate_singleton]
    rw [hd, maskFrom, hhead, ← hlen, List.drop_left, List.zipWith_append (by rw [List.length_map]), ← ih hafter,
      List.zipWith_map_right, List.zipWith_self, Text.bytes_append, hlen, ← hreplace]
    simp only [Option.some.injEq]

theorem bytes_mask (t : Text) :
    (mask t).bytes = List.zipWith (fun b c => if c = .code then b else Mark.hash) t.bytes (contexts t) :=
  bytes_maskFrom (Mode.fits_within _ _)

theorem marked_mask (t : Text) : marked .naive (mask t) = (marked .lexical t).map MarkedByte.masked := by
  rw [marked, marked, bytes_mask, List.map_zipWith, List.map_zipWith]
  simp only [MarkedByte.masked, decide_eq_true_eq]

/-! ### The two searches -/

/-- The byte as it is seen where all bytes are. -/
def MarkedByte.shown (m : MarkedByte) : MarkedByte := ⟨m.byte, true⟩

theorem map_shown (ms : List MarkedByte) : ms.map MarkedByte.shown = seenBytes (ms.map MarkedByte.byte) := by
  rw [seenBytes, List.map_map]
  rfl

theorem marked_naive (t : Text) : marked .naive t = (marked .lexical t).map MarkedByte.shown := by
  rw [map_shown, marked_eq .lexical, map_byte_markedFrom]
  rfl

section Concur
variable {header : List Byte} {f : Byte} {hs : List Byte} {ms : List MarkedByte}

theorem concur_masked (hhash : Mark.hash ∉ f :: hs)
    (h : ∀ as m bs, ms = as ++ m :: bs → beginsWith (f :: hs) (m :: bs) = true → m.seen = true →
      seenBytes (f :: hs) <+: m :: bs) : Concur (f :: hs) ms (ms.map MarkedByte.masked) := by
  refine .map (fun m _ => m.opens_masked) (fun m _ => m.closes_masked) fun as m bs hsplit => ⟨?_, ?_⟩
  · rintro ⟨hbegins, hseen⟩
    exact ⟨beginsWith_map_masked (h as m bs hsplit hbegins hseen), rfl⟩
  · rintro ⟨hbegins, -⟩
    have hseen := seen_of_beginsWith_map_masked hhash hbegins
    have hbytes := hseen.map MarkedByte.byte
    rw [map_byte_seenBytes] at hbytes
    obtain ⟨rest, hrest⟩ := hseen
    exact ⟨beginsWith_iff.mpr hbytes, congrArg MarkedByte.seen (List.cons.inj hrest).1.symm⟩

theorem concur_shown
    (h : ∀ as m bs, ms = as ++ m :: bs → (m.byte = Mark.openBrace ∨ m.byte = Mark.closeBrace ∨
      beginsWith header (m :: bs) = true) → m.seen = true) : Concur header ms (ms.map MarkedByte.shown) := by
  have hbrace : ∀ m ∈ ms, m.byte = Mark.openBrace ∨ m.byte = Mark.closeBrace → m.seen = true := by
    intro m hm hb
    obtain ⟨as, bs, hsplit⟩ := List.append_of_mem hm
    exact h as m bs hsplit (hb.imp_right Or.inl)
  have hbegins : ∀ ms : List MarkedByte, beginsWith header (ms.map MarkedByte.shown) = beginsWith header ms := by
    intro ms
    rw [Bool.eq_iff_iff, beginsWith_iff, beginsWith_iff, map_shown, map_byte_seenBytes]
  refine .map (fun m hm => ?_) (fun m hm => ?_) fun as m bs hsplit => ?_
  · by_cases hb : m.byte = Mark.openBrace
    · simp [MarkedByte.shown, MarkedByte.opens, hbrace m hm (Or.inl hb), hb]
    · simp [MarkedByte.shown, MarkedByte.opens, hb]
  · by_cases hb : m.byte = Mark.closeBrace
    · simp [MarkedByte.shown, MarkedByte.closes, hbrace m hm (Or.inr hb), hb]
    · simp [MarkedByte.shown, MarkedByte.closes, hb]
  · rw [hbegins]
    exact ⟨fun hm => ⟨hm.1, rfl⟩, fun hm => ⟨hm.1, h as m bs hsplit (Or.inr (Or.inr hm.1))⟩⟩

end Concur

section Search
variable {header : Text} {f : Byte} {hs : List Byte}

/-- The search that sees code alone finds what the other one finds in the masked document. -/
theorem scan_mask (hbytes : header.bytes = f :: hs) (hf : f ∉ hs) (hplain : ∀ b ∈ f :: hs, Mark.isPlain b = true)
    (hn : Mark.newline ∉ f :: hs) (hhash : Mark.hash ∉ f :: hs) (t : Text) :
    scan .lexical header t = scan .naive header (mask t) := by
  have hconcur := concur_masked hhash fun as m bs (hsplit : marked .lexical t = _) => marked_of_begins hplain hn hsplit
  rw [scan, scan, hbytes, marked_mask]
  exact hconcur.search hf

theorem seen_of_code {t : Text} {as bs : List MarkedByte} {m : MarkedByte} (h : marked .lexical t = as ++ m :: bs)
    (hc : (contexts t)[as.length]? = some .code) : m.seen = true := by
  have hm : (marked .lexical t)[as.length]? = some m := by simp [h]
  obtain ⟨b, c, -, hc', rfl⟩ := List.getElem?_zipWith_eq_some.mp hm
  rw [hc, Option.some.injEq] at hc'
  exact decide_eq_true hc'.symm

/-- Where each brace and the start of each header is code, it makes no difference whether the search sees the rest. -/
theorem scan_of_code (hbytes : header.bytes = f :: hs) (hf : f ∉ hs) {t : Text}
    (hcode : ∀ i < t.byteSize, (t.bytes[i]? = some Mark.openBrace ∨ t.bytes[i]? = some Mark.closeBrace ∨
      header.bytes <+: t.bytes.drop i) → (contexts t)[i]? = some .code) :
    scan .lexical header t = scan .naive header t := by
  have hseen : ∀ as m bs, marked .lexical t = as ++ m :: bs →
      (m.byte = Mark.openBrace ∨ m.byte = Mark.closeBrace ∨ beginsWith header.bytes (m :: bs) = true) →
      m.seen = true := by
    intro as m bs hsplit hm
    have hlt : as.length < t.byteSize := by
      rw [← length_marked .lexical t, hsplit, List.length_append, List.length_cons]
      omega
    have hdrop : t.bytes.drop as.length = (m :: bs).map MarkedByte.byte := by
      rw [bytes_of_marked hsplit, ← List.length_map MarkedByte.byte, List.drop_left]
    have hget : t.bytes[as.length]? = some m.byte := by
      rw [← List.head?_drop, hdrop]
      rfl
    refine seen_of_code hsplit (hcode _ hlt ?_)
    rwa [hget, hdrop, Option.some.injEq, Option.some.injEq, ← beginsWith_iff]
  have hconcur := concur_shown hseen
  rw [scan, scan, marked_naive]
  rw [hbytes] at hconcur ⊢
  exact hconcur.search hf

end Search

end Abridge.Code
