import Abridge.Proofs.Code.Search
import Abridge.Proofs.Text.Lines

/-! Rewriting a document where no block can notice. A run of bytes is inert for a header if it holds neither
    the first byte of the header nor a brace. The search finds the same before and after inert runs change
    places at starts of lines, for no header begins in such a run and none goes across a newline into it
    (`Rewritten.search`). -/

namespace Abridge.Code

/-! ### Kinds of findings -/

/-- What a search comes to, without places. -/
inductive Scan.Kind where
  | notFound
  | unterminated
  | closed
  deriving DecidableEq, Repr

def Scan.kind : Scan → Scan.Kind
  | .notFound => .notFound
  | .unterminated _ => .unterminated
  | .closed _ => .closed

theorem Scan.exists_closed_of_kind {found : Scan} (h : found.kind = .closed) : ∃ b, found = .closed b := by
  cases found with
  | closed b => exact ⟨b, rfl⟩
  | notFound => cases h
  | unterminated first => cases h

/-- A block that is found ends with the last of `n` bytes. -/
def Scan.EndsAt (n : Nat) (found : Scan) : Prop := ∀ b, found = .closed b → b.last + 1 = n

/-! ### Inert bytes -/

/-- Neither a header with that first byte begins at the byte, nor a block at it or behind it. -/
def Mark.isInert (first b : Byte) : Bool := b ≠ first && b ≠ openBrace && b ≠ closeBrace

theorem Mark.isInert_of_high {first b : Byte} (hf : first < 128) (hb : 128 ≤ b) : isInert first b = true := by
  have hne : ∀ b', b' < 128 → b ≠ b' := fun b' hb' heq => absurd hb (UInt8.not_le.mpr (heq ▸ hb'))
  have hopen : openBrace < 128 := by decide
  have hclose : closeBrace < 128 := by decide
  simp [isInert, hne _ hf, hne _ hopen, hne _ hclose]

/-- No byte of the run begins a header, and none is a brace. -/
def Inert (first : Byte) (ms : List MarkedByte) : Prop := ∀ m ∈ ms, Mark.isInert first m.byte = true

variable {f : Byte} {hs : List Byte}

theorem beginsWith_of_ne {m : MarkedByte} (ms : List MarkedByte) (h : m.byte ≠ f) :
    beginsWith (f :: hs) (m :: ms) = false := by
  simp [beginsWith, h.symm]

theorem headerFrom?_of_ne {m : MarkedByte} (offset : Nat) (ms : List MarkedByte) (h : m.byte ≠ f) :
    headerFrom? (f :: hs) 0 offset (m :: ms) = headerFrom? (f :: hs) 0 (offset + 1) ms := by
  rw [headerFrom?, beginsWith_of_ne ms h, if_neg (by simp)]

theorem headerFrom?_skip {bs : List Byte} {ms : List MarkedByte} (offset : Nat) (hb : beginsWith bs ms = true)
    (hf : f ∉ bs) : headerFrom? (f :: hs) bs.length offset ms = headerFrom? (f :: hs) 0 offset ms := by
  induction bs generalizing ms offset with
  | nil => rfl
  | cons b bs ih =>
    cases ms with
    | nil => simp [beginsWith] at hb
    | cons m ms =>
      simp only [beginsWith, Bool.and_eq_true, decide_eq_true_eq] at hb
      rw [List.mem_cons, not_or] at hf
      rw [headerFrom?_of_ne offset ms (hb.1 ▸ Ne.symm hf.1), List.length_cons, headerFrom?, ih _ hb.2 hf.2]

/-- A header whose first byte does not come again is looked for at one byte after the other. -/
theorem headerFrom?_next (hf : f ∉ hs) {m : MarkedByte} {ms : List MarkedByte} (offset : Nat)
    (h : ¬(beginsWith (f :: hs) (m :: ms) = true ∧ m.seen = true)) :
    headerFrom? (f :: hs) 0 offset (m :: ms) = headerFrom? (f :: hs) 0 (offset + 1) ms := by
  rw [headerFrom?_further offset h, passedOver]
  split
  case isFalse => rfl
  case isTrue hb =>
    simp only [beginsWith, Bool.and_eq_true] at hb
    rw [List.length_cons, Nat.add_sub_cancel, headerFrom?_skip _ hb.2 hf]

theorem headerFrom?_inert {as : List MarkedByte} (has : Inert f as) (offset : Nat) (ms : List MarkedByte) :
    headerFrom? (f :: hs) 0 offset (as ++ ms) = headerFrom? (f :: hs) 0 (offset + as.length) ms := by
  induction as generalizing offset with
  | nil => rfl
  | cons a as ih =>
    have ha := has a (by simp)
    simp only [Mark.isInert, Bool.and_eq_true, decide_eq_true_eq] at ha
    rw [List.cons_append, headerFrom?_of_ne _ _ ha.1.1, ih fun m hm => has m (List.mem_cons_of_mem _ hm),
      List.length_cons, Nat.add_assoc, Nat.add_comm 1]

theorem closeFrom?_inert {as : List MarkedByte} (has : Inert f as) (depth offset : Nat) (ms : List MarkedByte) :
    closeFrom? depth offset (as ++ ms) = closeFrom? depth (offset + as.length) ms := by
  induction as generalizing offset with
  | nil => rfl
  | cons a as ih =>
    have ha := has a (by simp)
    simp only [Mark.isInert, Bool.and_eq_true, decide_eq_true_eq] at ha
    rw [List.cons_append, closeFrom?_of_neither _ _ _ (by simp [MarkedByte.opens, ha.1.2])
      (by simp [MarkedByte.closes, ha.2]), ih fun m hm => has m (List.mem_cons_of_mem _ hm), List.length_cons,
      Nat.add_assoc, Nat.add_comm 1]

/-! ### Rewriting -/

/-- The second bytes come from the first by changing inert runs; `fresh` says that a line starts here. -/
inductive Rewritten (first : Byte) : (fresh : Bool) → List MarkedByte → List MarkedByte → Prop
  | nil {fresh} : Rewritten first fresh [] []
  | keep {fresh m ms ns} (h : Rewritten first (m.byte = Mark.newline) ms ns) : Rewritten first fresh (m :: ms) (m :: ns)
  | swap {as bs ms ns} (has : Inert first as) (hbs : Inert first bs) (h : Rewritten first false ms ns) :
    Rewritten first true (as ++ ms) (bs ++ ns)

namespace Rewritten
variable {fresh : Bool} {ms ns : List MarkedByte}

theorem refl (f : Byte) (fresh : Bool) (ms : List MarkedByte) : Rewritten f fresh ms ms := by
  induction ms generalizing fresh with
  | nil => exact nil
  | cons m ms ih => exact keep (ih _)

theorem line {n : MarkedByte} (ks : List MarkedByte) (hn : n.byte = Mark.newline) (h : Rewritten f true ms ns) :
    Rewritten f fresh (ks ++ n :: ms) (ks ++ n :: ns) := by
  induction ks generalizing fresh with
  | nil => exact keep (by simpa [hn] using h)
  | cons k ks ih => exact keep ih

/-- Amid a line the same bytes follow, as far as a header without newline goes. -/
theorem beginsWith_eq {bs : List Byte} (h : Rewritten f false ms ns) (hn : Mark.newline ∉ bs) :
    beginsWith bs ms = beginsWith bs ns ∧
      (beginsWith bs ms = true → Rewritten f false (ms.drop bs.length) (ns.drop bs.length)) := by
  induction bs generalizing ms ns with
  | nil => exact ⟨rfl, fun _ => h⟩
  | cons b bs ih =>
    rw [List.mem_cons, not_or] at hn
    cases h with
    | nil => exact ⟨rfl, fun hb => by simp [beginsWith] at hb⟩
    | @keep _ m ms ns h =>
      by_cases hm : b = m.byte
      · have hfresh : (decide (m.byte = Mark.newline)) = false := by simpa [← hm] using Ne.symm hn.1
        rw [hfresh] at h
        simpa [beginsWith, hm] using ih h hn.2
      · exact ⟨by simp [beginsWith, hm], fun hb => by simp [beginsWith, hm] at hb⟩

/-- Something of `n` bytes is found in both or in neither, and what follows it is rewritten too. The first
    bytes are at offset `i` there and at offset `j` here. -/
def Alike (f : Byte) (n i j : Nat) (ms ns : List MarkedByte) (there here : Option Nat) : Prop :=
  (there = none ∧ here = none) ∨
    ∃ k l, there = some (i + k) ∧ here = some (j + l) ∧ Rewritten f false (ms.drop (k + n)) (ns.drop (l + n)) ∧
      k + n ≤ ms.length ∧ l + n ≤ ns.length

theorem Alike.behind {n i j : Nat} {there here : Option Nat} (as bs : List MarkedByte)
    (h : Alike f n (i + as.length) (j + bs.length) ms ns there here) :
    Alike f n i j (as ++ ms) (bs ++ ns) there here := by
  rcases h with hnone | ⟨k, l, hk, hl, hrest, hkn, hln⟩
  · exact Or.inl hnone
  · refine Or.inr ⟨as.length + k, bs.length + l, by rw [hk, Nat.add_assoc], by rw [hl, Nat.add_assoc], ?_, ?_, ?_⟩
    · rwa [Nat.add_assoc, Nat.add_assoc, List.drop_length_add_append, List.drop_length_add_append]
    · rw [List.length_append]
      omega
    · rw [List.length_append]
      omega

theorem headerFrom? (h : Rewritten f fresh ms ns) (hf : f ∉ hs) (hn : Mark.newline ∉ f :: hs) (i j : Nat) :
    Alike f (f :: hs).length i j ms ns (headerFrom? (f :: hs) 0 i ms) (headerFrom? (f :: hs) 0 j ns) := by
  induction h generalizing i j with
  | nil => exact Or.inl ⟨rfl, rfl⟩
  | @keep _ m ms ns h ih =>
    have hsame : beginsWith (f :: hs) (m :: ms) = beginsWith (f :: hs) (m :: ns) ∧
        (beginsWith (f :: hs) (m :: ms) = true → Rewritten f false (ms.drop hs.length) (ns.drop hs.length)) := by
      by_cases hm : m.byte = f
      · rw [List.mem_cons, not_or] at hn
        rw [hm, decide_eq_false (Ne.symm hn.1)] at h
        simpa [beginsWith, hm] using h.beginsWith_eq hn.2
      · rw [beginsWith_of_ne ms hm, beginsWith_of_ne ns hm]
        exact ⟨rfl, fun hb => by cases hb⟩
    by_cases hb : beginsWith (f :: hs) (m :: ms) = true ∧ m.seen = true
    · have hb' : beginsWith (f :: hs) (m :: ns) = true ∧ m.seen = true := hsame.1 ▸ hb
      have hms := length_le_of_beginsWith hb.1
      have hns := length_le_of_beginsWith hb'.1
      rw [headerFrom?_here i hb, headerFrom?_here j hb']
      exact Or.inr ⟨0, 0, rfl, rfl, by simpa using hsame.2 hb.1, by rwa [Nat.zero_add], by rwa [Nat.zero_add]⟩
    · rw [headerFrom?_next hf i hb, headerFrom?_next hf j (hsame.1 ▸ hb)]
      exact (ih (i + 1) (j + 1)).behind [m] [m]
  | @swap as bs ms ns has hbs h ih =>
    rw [headerFrom?_inert has, headerFrom?_inert hbs]
    exact (ih _ _).behind as bs

theorem closeFrom? (h : Rewritten f fresh ms ns) (depth i j : Nat) :
    Alike f 1 i j ms ns (closeFrom? depth i ms) (closeFrom? depth j ns) := by
  induction h generalizing depth i j with
  | nil => exact Or.inl ⟨rfl, rfl⟩
  | @keep _ m ms ns h ih =>
    cases ho : m.opens with
    | true =>
      rw [closeFrom?_of_opens _ _ _ ho, closeFrom?_of_opens _ _ _ ho]
      exact (ih _ (i + 1) (j + 1)).behind [m] [m]
    | false =>
      cases hc : m.closes with
      | false =>
        rw [closeFrom?_of_neither _ _ _ ho hc, closeFrom?_of_neither _ _ _ ho hc]
        exact (ih _ (i + 1) (j + 1)).behind [m] [m]
      | true =>
        cases depth with
        | succ depth =>
          rw [closeFrom?_of_closes _ _ _ hc, closeFrom?_of_closes _ _ _ hc]
          exact (ih _ (i + 1) (j + 1)).behind [m] [m]
        | zero =>
          rw [closeFrom?_zero_of_closes _ _ hc, closeFrom?_zero_of_closes _ _ hc]
          simp only [MarkedByte.closes, Bool.and_eq_true, decide_eq_true_eq] at hc
          rw [hc.2, decide_eq_false (by decide)] at h
          exact Or.inr ⟨0, 0, rfl, rfl, h, Nat.succ_pos _, Nat.succ_pos _⟩
  | @swap as bs ms ns has hbs h ih =>
    rw [closeFrom?_inert has, closeFrom?_inert hbs]
    exact (ih _ _ _).behind as bs

theorem eq_nil (h : Rewritten f false [] ns) : ns = [] := by
  cases h
  rfl

/-- Rewriting changes nothing about what the search comes to, and a block at the end stays at the end. -/
theorem search (h : Rewritten f fresh ms ns) (hf : f ∉ hs) (hn : Mark.newline ∉ f :: hs) :
    (search (f :: hs) ns).kind = (search (f :: hs) ms).kind ∧
      ((search (f :: hs) ms).EndsAt ms.length → (search (f :: hs) ns).EndsAt ns.length) := by
  have hne : f :: hs ≠ [] := List.cons_ne_nil f hs
  rw [Code.search, Code.search, if_neg hne, if_neg hne]
  rcases h.headerFrom? hf hn 0 0 with ⟨hms, hns⟩ | ⟨k, l, hms, hns, hrest, -, -⟩
  · rw [hms, hns]
    exact ⟨rfl, fun _ b hb => by cases hb⟩
  rw [Nat.zero_add] at hms hns
  rw [hms, hns]
  simp only
  rcases hrest.closeFrom? 0 (k + (f :: hs).length) (l + (f :: hs).length) with
    ⟨hms, hns⟩ | ⟨k', l', hms, hns, hend, -, hl⟩
  · rw [hms, hns]
    exact ⟨rfl, fun _ b hb => by cases hb⟩
  rw [hms, hns]
  refine ⟨rfl, fun hms b hb => ?_⟩
  cases hb
  have hlast : k + (f :: hs).length + k' + 1 = ms.length := hms _ rfl
  rw [List.drop_drop, List.drop_drop, List.drop_eq_nil_of_le (by omega)] at hend
  have hnil := List.drop_eq_nil_iff.mp hend.eq_nil
  rw [List.length_drop] at hl
  show l + (f :: hs).length + l' + 1 = ns.length
  omega

end Rewritten

/-! ### Texts -/

/-- A piece of text without a byte that opens or closes anything, and without the first byte of the header. -/
def Silent (first : Byte) (t : Text) : Prop := ∀ b ∈ t.bytes, Mark.isPlain b = true ∧ Mark.isInert first b = true

/-- The second text comes from the first by changes that a search does not notice, where a line starts. -/
def Unnoticed (first : Byte) (s : Strategy) (t t' : Text) : Prop :=
  ∀ m : Mode, m.AtLineStart → Rewritten first true (markedFrom s m t.bytes none) (markedFrom s m t'.bytes none)

variable {s : Strategy} {a b t t' : Text}

theorem Silent.markedFrom_append (ha : Silent f a) {m : Mode} (hm : m.AtLineStart) (t : Text) :
    ∃ as, Inert f as ∧ markedFrom s m (a ++ t).bytes none = as ++ markedFrom s m t.bytes none := by
  refine ⟨markedFrom s m a.bytes (t.bytes.head?.or none), fun k hk => ?_, ?_⟩
  · have hbyte := List.mem_map_of_mem (f := MarkedByte.byte) hk
    rw [map_byte_markedFrom] at hbyte
    exact (ha _ hbyte).2
  · rw [Text.bytes_append, Code.markedFrom_append, Mode.after_plain hm fun b hb => (ha b hb).1]

namespace Unnoticed

theorem swap (ha : Silent f a) (hb : Silent f b) (t : Text) : Unnoticed f s (a ++ t) (b ++ t) := by
  intro m hm
  obtain ⟨as, has, hat⟩ := ha.markedFrom_append (s := s) hm t
  obtain ⟨bs, hbs, hbt⟩ := hb.markedFrom_append (s := s) hm t
  rw [hat, hbt]
  exact .swap has hbs (.refl f false _)

theorem line (ha : Silent f a) (hb : Silent f b) (l : Line) (h : Unnoticed f s t t') :
    Unnoticed f s (a ++ (l ++ '\n' :: t)) (b ++ (l ++ '\n' :: t')) := by
  intro m hm
  have hnewline : String.utf8EncodeChar '\n' = [Mark.newline] := by decide
  have hpair : Mark.beginsPair Mark.newline = false := by decide
  have hline : ∀ u : Text, markedFrom s m (l ++ '\n' :: u).bytes none =
      markedFrom s m l.bytes (some Mark.newline) ++
        ⟨Mark.newline, s.sees ((m.after l.bytes (some Mark.newline)).step Mark.newline none).1⟩ ::
          markedFrom s (m.after (l.bytes ++ [Mark.newline]) none) u.bytes none := by
    intro u
    rw [Text.bytes_append, Text.bytes_cons, hnewline, List.singleton_append, List.append_cons, markedFrom_append,
      markedFrom_concat_congr hpair _ _ _ none, Mode.after_concat_congr hpair _ _ _ none, markedFrom_append]
    simp [markedFrom]
  obtain ⟨as, has, hat⟩ := ha.markedFrom_append (s := s) hm (l ++ '\n' :: t)
  obtain ⟨bs, hbs, hbt⟩ := hb.markedFrom_append (s := s) hm (l ++ '\n' :: t')
  rw [hat, hbt, hline, hline]
  exact .swap has hbs (.line _ rfl (h _ (Mode.atLineStart_after hm l.bytes none)))

theorem refl (t : Text) : Unnoticed f s t t := fun _ _ => .refl f true _

theorem lines {g : Line → Line} {ls : List Line}
    (h : ∀ l ∈ ls, ∃ a b k : Text, Silent f a ∧ Silent f b ∧ l = a ++ k ∧ g l = b ++ k) :
    Unnoticed f s (.ofLines ls) (.ofLines (ls.map g)) := by
  induction ls with
  | nil => exact refl _
  | cons l ls ih =>
    obtain ⟨a, b, k, ha, hb, hl, hg⟩ := h l (by simp)
    have ih := ih fun l hl => h l (List.mem_cons_of_mem _ hl)
    rw [List.map_cons, hg, hl]
    by_cases hls : ls = []
    · subst hls
      simpa using swap ha hb k
    · rw [Text.ofLines_cons _ hls, Text.ofLines_cons _ (by simpa using hls), List.append_assoc, List.append_assoc]
      exact line ha hb k ih

/-- The search comes to the same, and a block at the end stays at the end. -/
theorem scan {header : Text} (h : Unnoticed f s t t') (hbytes : header.bytes = f :: hs) (hf : f ∉ hs)
    (hn : Mark.newline ∉ f :: hs) :
    (scan s header t').kind = (scan s header t).kind ∧
      ((scan s header t).EndsAt t.byteSize → (scan s header t').EndsAt t'.byteSize) := by
  have hsearch := (h (.within .code) (Or.inl rfl)).search hf hn
  rw [length_markedFrom, length_markedFrom, Text.length_bytes, Text.length_bytes] at hsearch
  rw [Code.scan, Code.scan, hbytes, marked_eq, marked_eq]
  exact hsearch

end Unnoticed

end Abridge.Code
