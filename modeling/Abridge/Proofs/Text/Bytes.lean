import Abridge.Text.Bytes

/-! Bytes and characters. An ASCII character is one byte, and no other character has a byte below 128, so an
    ASCII byte among the bytes of a text is a character of the text (`bytes_eq_append_cons`). Bytes of a text are
    those of a piece of another text only where that piece is (`bytes_eq_append`). A slice between two offsets is
    there just if both lie between characters (`slice?_eq_some_iff`). -/

namespace Abridge
namespace Text

/-- An ASCII character is one byte; the bytes of any other one are 128 or more. -/
theorem utf8EncodeChar_ascii_or (c : Char) :
    (c.toNat < 128 ∧ String.utf8EncodeChar c = [UInt8.ofNat c.toNat]) ∨ ∀ b ∈ String.utf8EncodeChar c, 128 ≤ b := by
  have high : ∀ lead rest : Nat, 128 ≤ lead → lead + rest < 256 → 128 ≤ UInt8.ofNat (rest + lead) := by
    intro lead rest hlead hsum
    rw [UInt8.le_iff_toNat_le, UInt8.toNat_ofNat', Nat.mod_eq_of_lt (by omega)]
    exact Nat.le_trans hlead (Nat.le_add_left lead rest)
  by_cases h : c.toNat < 128
  · have hsize : c.utf8Size = 1 := Char.utf8Size_eq_one_iff.mpr (UInt32.le_iff_toNat_le.mpr (Nat.le_of_lt_succ h))
    exact Or.inl ⟨h, String.utf8EncodeChar_eq_singleton hsize⟩
  · refine Or.inr fun b hb => ?_
    have h127 : ¬c.val.toNat ≤ 127 := fun hle => h (Nat.lt_succ_of_le hle)
    simp only [String.utf8EncodeChar, h127, if_false] at hb
    split at hb
    · simp only [List.mem_cons, List.not_mem_nil, or_false] at hb
      rcases hb with rfl | rfl
      · exact high _ _ (by omega) (by omega)
      · exact high _ _ (by omega) (by omega)
    split at hb
    · simp only [List.mem_cons, List.not_mem_nil, or_false] at hb
      rcases hb with rfl | rfl | rfl
      · exact high _ _ (by omega) (by omega)
      · exact high _ _ (by omega) (by omega)
      · exact high _ _ (by omega) (by omega)
    · simp only [List.mem_cons, List.not_mem_nil, or_false] at hb
      rcases hb with rfl | rfl | rfl | rfl
      · exact high _ _ (by omega) (by omega)
      · exact high _ _ (by omega) (by omega)
      · exact high _ _ (by omega) (by omega)
      · exact high _ _ (by omega) (by omega)

/-- A property of all bytes from 128 on holds of the bytes of a text if it holds of its ASCII characters. -/
theorem forall_mem_bytes {P : Byte → Prop} (hP : ∀ b, 128 ≤ b → P b) {t : Text}
    (ht : ∀ c ∈ t, c.toNat < 128 → P (UInt8.ofNat c.toNat)) : ∀ b ∈ t.bytes, P b := by
  intro b hb
  obtain ⟨c, hc, hb⟩ := List.mem_flatMap.mp hb
  rcases utf8EncodeChar_ascii_or c with ⟨hlt, heq⟩ | h
  · rw [heq, List.mem_singleton] at hb
    exact hb ▸ ht c hc hlt
  · exact hP b (h b hb)

theorem bytes_injective {s t : Text} (h : s.bytes = t.bytes) : s = t := by
  have hs := ofBytes?_bytes s
  rw [h, ofBytes?_bytes] at hs
  exact (Option.some.inj hs).symm

/-- The bytes that read as a text are those that write it. -/
theorem bytes_of_ofBytes? {bs : List Byte} {t : Text} (h : ofBytes? bs = some t) : t.bytes = bs := by
  obtain ⟨cs, hcs, rfl⟩ := Option.map_eq_some_iff.mp h
  have hsome : bs.toByteArray.utf8Decode?.isSome = true := by
    rw [hcs]
    rfl
  have hread := ByteArray.utf8Encode_get_utf8Decode? (h := hsome)
  simp only [hcs, Option.get_some] at hread
  exact List.toByteArray_inj.mp hread

/-- An ASCII byte among the bytes of a text is a character of the text. -/
theorem bytes_eq_append_cons {t : Text} {as bs : List Byte} {b : Byte} {c : Char} (hb : b < 128)
    (hc : String.utf8EncodeChar c = [b]) (h : t.bytes = as ++ b :: bs) :
    ∃ u v : Text, t = u ++ c :: v ∧ u.bytes = as ∧ v.bytes = bs := by
  induction t generalizing as with
  | nil => simp at h
  | cons d t ih =>
    rw [bytes_cons] at h
    rcases utf8EncodeChar_ascii_or d with ⟨-, hd⟩ | hd
    · rw [hd, List.singleton_append] at h
      cases as with
      | nil =>
        obtain ⟨hbd, rfl⟩ := List.cons.inj h
        have hcd : [d] = [c] := bytes_injective (by simp [hd, hc, hbd])
        exact ⟨[], t, by simpa using hcd, rfl, rfl⟩
      | cons a as =>
        obtain ⟨rfl, ht⟩ := List.cons.inj h
        obtain ⟨u, v, rfl, rfl, rfl⟩ := ih ht
        exact ⟨d :: u, v, rfl, by simp [hd], rfl⟩
    · rcases List.append_eq_append_iff.mp h with ⟨cs, rfl, ht⟩ | ⟨cs, hd', ht⟩
      · obtain ⟨u, v, rfl, rfl, rfl⟩ := ih ht
        exact ⟨d :: u, v, rfl, rfl, rfl⟩
      · cases cs with
        | nil =>
          obtain ⟨u, v, rfl, hu, rfl⟩ := @ih [] ht.symm
          refine ⟨d :: u, v, rfl, ?_, rfl⟩
          rw [bytes_cons, hu, hd', List.append_nil, List.append_nil]
        | cons b' cs =>
          -- The byte would be one of a character that is not ASCII.
          obtain ⟨rfl, -⟩ := List.cons.inj ht
          have hle := hd b (by simp [hd'])
          exact absurd hb (UInt8.not_lt.mpr hle)

/-- No character's bytes begin those of another one. -/
theorem prefix_of_bytes_prefix {s t : Text} (h : bytes s <+: bytes t) : s <+: t := by
  induction s generalizing t with
  | nil => exact List.nil_prefix
  | cons c s ih =>
    cases t with
    | nil => simp at h
    | cons d t =>
      have hdecode : ∀ (a : Char) (bs : List Byte),
          (String.utf8EncodeChar a ++ bs).toByteArray.utf8DecodeChar? 0 = some a := fun a bs => by
        rw [List.toByteArray_append]
        exact ByteArray.utf8DecodeChar?_utf8EncodeChar_append
      obtain ⟨rest, hrest⟩ := h
      rw [bytes_cons, bytes_cons, List.append_assoc] at hrest
      have hc := hdecode c (bytes s ++ rest)
      rw [hrest, hdecode, Option.some.injEq] at hc
      subst hc
      exact (List.prefix_cons_inj d).mpr (ih ⟨rest, List.append_cancel_left hrest⟩)

/-- Only the first byte of a character is one that may come first. -/
theorem isUTF8FirstByte_iff {c : Char} {b : Byte} {as bs : List Byte} (h : String.utf8EncodeChar c = as ++ b :: bs) :
    b.IsUTF8FirstByte ↔ as = [] := by
  have hi : as.length < (String.utf8EncodeChar c).length := by
    rw [h, List.length_append, List.length_cons]
    omega
  have hget : (String.utf8EncodeChar c)[as.length] = b := by simp [h]
  rw [← hget, UInt8.isUTF8FirstByte_getElem_utf8EncodeChar, List.length_eq_zero_iff]

/-- A text whose bytes occur among those of another one is a piece of it. -/
theorem bytes_eq_append {t p : Text} {as bs : List Byte} (hp : p ≠ []) (h : bytes t = as ++ (bytes p ++ bs)) :
    ∃ u v : Text, t = u ++ (p ++ v) ∧ bytes u = as ∧ bytes v = bs := by
  obtain ⟨c, p, rfl⟩ := List.exists_cons_of_ne_nil hp
  obtain ⟨b, cs, hc⟩ := List.exists_cons_of_ne_nil (@String.utf8EncodeChar_ne_nil c)
  have hnil : String.utf8EncodeChar c = [] ++ b :: cs := hc
  have hfirst : b.IsUTF8FirstByte := (isUTF8FirstByte_iff hnil).mpr rfl
  induction t generalizing as with
  | nil => simp [hc] at h
  | cons d t ih =>
    have further : ∀ as', bytes t = as' ++ (bytes (c :: p) ++ bs) → as = String.utf8EncodeChar d ++ as' →
        ∃ u v : Text, d :: t = u ++ (c :: p ++ v) ∧ bytes u = as ∧ bytes v = bs := by
      rintro as' ht rfl
      obtain ⟨u, v, rfl, rfl, rfl⟩ := ih ht
      exact ⟨d :: u, v, rfl, rfl, rfl⟩
    cases as with
    | nil =>
      obtain ⟨v, hv⟩ := prefix_of_bytes_prefix (s := c :: p) (t := d :: t) ⟨bs, h.symm⟩
      rw [← hv, bytes_append, List.nil_append] at h
      exact ⟨[], v, hv.symm, rfl, List.append_cancel_left h⟩
    | cons a as =>
      rw [bytes_cons] at h
      rcases List.append_eq_append_iff.mp h with ⟨as', has, ht⟩ | ⟨ds, hd, hrest⟩
      · exact further as' ht has
      · cases ds with
        | nil => exact further [] hrest.symm (by simpa using hd.symm)
        | cons b' ds =>
          -- The character would have to begin within another one.
          rw [bytes_cons, hc] at hrest
          obtain rfl : b = b' := (List.cons.inj hrest).1
          exact absurd ((isUTF8FirstByte_iff hd).mp hfirst) (List.cons_ne_nil _ _)

theorem takeBytes_byteSize_append (s t : Text) : takeBytes (byteSize s) (s ++ t) = s := by
  have hnil : takeBytes 0 t = [] := by
    cases t with
    | nil => rfl
    | cons c t => rw [takeBytes, if_neg (Nat.not_le.mpr (Char.utf8Size_pos c))]
  have h := takeBytes_append s t 0
  rwa [hnil, List.append_nil] at h

/-! ### Slices -/

/-- The offset lies between two characters of the text, or at an end of it. -/
def IsBoundary (t : Text) (n : Nat) : Prop := ∃ u v : Text, t = u ++ v ∧ byteSize u = n

/-- The text up to an offset and from there on, unless the offset lies within a character or behind the text. -/
def splitAt? : Nat → Text → Option (Text × Text)
  | 0, t => some ([], t)
  | _ + 1, [] => none
  | n + 1, c :: t =>
    if c.utf8Size ≤ n + 1 then (splitAt? (n + 1 - c.utf8Size) t).map fun (u, v) => (c :: u, v) else none

/-- What stands between two offsets, unless one of them lies within a character or they do not fit. -/
def slice? (t : Text) (i j : Nat) : Option Text :=
  (splitAt? j t).bind fun (front, _) => (splitAt? i front).map Prod.snd

theorem splitAt?_append (u v : Text) : splitAt? (byteSize u) (u ++ v) = some (u, v) := by
  induction u with
  | nil => cases v <;> rfl
  | cons c u ih =>
    obtain ⟨n, hn⟩ := Nat.exists_eq_succ_of_ne_zero (Nat.ne_of_gt (Nat.add_pos_left (Char.utf8Size_pos c) (byteSize u)))
    have hle : c.utf8Size ≤ n + 1 := by omega
    have hrest : n + 1 - c.utf8Size = byteSize u := by omega
    rw [byteSize_cons, hn, List.cons_append, splitAt?, if_pos hle, hrest, ih]
    rfl

theorem eq_append_of_splitAt? {n : Nat} {t u v : Text} (h : splitAt? n t = some (u, v)) :
    t = u ++ v ∧ byteSize u = n := by
  induction t generalizing n u with
  | nil =>
    cases n with
    | zero =>
      obtain ⟨rfl, rfl⟩ := Prod.mk.inj (Option.some.inj h)
      exact ⟨rfl, rfl⟩
    | succ n => cases h
  | cons c t ih =>
    cases n with
    | zero =>
      obtain ⟨rfl, rfl⟩ := Prod.mk.inj (Option.some.inj h)
      exact ⟨rfl, rfl⟩
    | succ n =>
      rw [splitAt?] at h
      split at h
      case isTrue hle =>
        obtain ⟨⟨u', v'⟩, hsplit, heq⟩ := Option.map_eq_some_iff.mp h
        obtain ⟨rfl, rfl⟩ := Prod.mk.inj heq
        obtain ⟨rfl, hsize⟩ := ih hsplit
        exact ⟨rfl, by rw [byteSize_cons]; omega⟩
      case isFalse => cases h

theorem splitAt?_eq_some_iff {n : Nat} {t u v : Text} : splitAt? n t = some (u, v) ↔ t = u ++ v ∧ byteSize u = n :=
  ⟨eq_append_of_splitAt?, fun ⟨ht, hn⟩ => by rw [ht, ← hn, splitAt?_append]⟩

theorem slice?_eq_some_iff {t m : Text} {i j : Nat} :
    slice? t i j = some m ↔ ∃ u v, t = u ++ (m ++ v) ∧ byteSize u = i ∧ byteSize (u ++ m) = j := by
  simp only [slice?, Option.bind_eq_some_iff, Option.map_eq_some_iff, Prod.exists, splitAt?_eq_some_iff]
  constructor
  · rintro ⟨_, v, ⟨rfl, hj⟩, u, m, ⟨rfl, hi⟩, rfl⟩
    exact ⟨u, v, List.append_assoc u m v, hi, hj⟩
  · rintro ⟨u, v, rfl, hi, hj⟩
    exact ⟨u ++ m, v, ⟨(List.append_assoc u m v).symm, hj⟩, u, m, ⟨rfl, hi⟩, rfl⟩

end Text
end Abridge
