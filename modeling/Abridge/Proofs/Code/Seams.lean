import Abridge.Proofs.Code.Search
import Abridge.Proofs.Code.Tokens

/-! Seams of a document, where reading on is like starting anew. A byte of code that is not a newline is read within
    code (`Mode.eq_code`), so what follows in front of it is read as a document of its own, up to a byte that
    begins no pair (`drop_contextsFrom`, `take_contextsFrom`). Of two documents, one behind the other, the second is
    read anew if the first ends in code and no comment opens where they meet (`contexts_append_iff`). No seam runs
    through a character: all its bytes have one context (`contextsFrom_char`). -/

namespace Abridge.Code

/-! ### Pairs -/

/-- The mode fits the next byte: no pair is code, and only a slash takes what follows it to another context. -/
def Mode.Fits (m : Mode) (next : Option Byte) : Prop :=
  ∀ c after, m = .second c after → c ≠ .code ∧ (after = c ∨ next = some Mark.slash)

theorem Mode.fits_within (c : Context) (next : Option Byte) : (Mode.within c).Fits next := fun _ _ h => by cases h

theorem Mode.fits_second {c : Context} (hc : c ≠ .code) (next : Option Byte) : (Mode.second c c).Fits next := by
  rintro _ _ ⟨rfl, rfl⟩
  exact ⟨hc, Or.inl rfl⟩

theorem fits_stepQuoted {c : Context} (hc : c ≠ .code) (quote b : Byte) (next : Option Byte) :
    (stepQuoted c quote b next).2.Fits next := by
  unfold stepQuoted
  split
  case isTrue => exact Mode.fits_second hc next
  case isFalse =>
    repeat' split
    all_goals exact Mode.fits_within _ _

theorem Mode.fits_step (m : Mode) (b : Byte) (next : Option Byte) : (m.step b next).2.Fits next := by
  cases m with
  | second c after => exact fits_within _ _
  | within c =>
    cases c with
    | stringLiteral => exact fits_stepQuoted (by simp) _ _ _
    | runeLiteral => exact fits_stepQuoted (by simp) _ _ _
    | code =>
      rw [step]
      split
      case isTrue => exact fits_second (by simp) _
      split
      case isTrue => exact fits_second (by simp) _
      repeat' split
      all_goals exact fits_within _ _
    | blockComment =>
      rw [step]
      split
      case isTrue h =>
        rintro _ _ ⟨rfl, rfl⟩
        exact ⟨by simp, Or.inr h.2⟩
      case isFalse => exact fits_within _ _
    | _ =>
      rw [step]
      split <;> exact fits_within _ _

theorem Mode.fits_after {m : Mode} {bs : List Byte} {next : Option Byte} (h : m.Fits (bs.head?.or next)) :
    (m.after bs next).Fits next := by
  induction bs generalizing m with
  | nil => exact h
  | cons b bs ih => exact ih (fits_step m b _)

/-! ### Code -/

/-- A byte of code is read within code, or is the newline that ends something else. -/
theorem Mode.eq_code {m : Mode} {b : Byte} {next : Option Byte} (hm : m.Fits (some b)) (hb : b ≠ Mark.newline)
    (h : (m.step b next).1 = .code) : m = .within .code := by
  have hquoted : ∀ c quote, c ≠ .code → (stepQuoted c quote b next).1 ≠ .code := by
    intro c quote hc
    rw [stepQuoted, if_neg hb]
    repeat' split
    all_goals exact hc
  cases m with
  | second c after => exact absurd h (hm c after rfl).1
  | within c =>
    cases c with
    | code => rfl
    | lineComment => simp [step, hb] at h
    | blockComment =>
      rw [step] at h
      split at h <;> cases h
    | stringLiteral => exact absurd h (hquoted _ _ (by simp))
    | runeLiteral => exact absurd h (hquoted _ _ (by simp))
    | rawString =>
      rw [step] at h
      split at h <;> cases h

theorem Mode.step_code_plain {b : Byte} (hb : Mark.isPlain b = true) (next : Option Byte) :
    Mode.step b next (.within .code) = (.code, .within .code) := by
  simp only [Mark.isPlain, List.contains_cons, List.contains_nil, Bool.or_false, Bool.not_eq_true', Bool.or_eq_false_iff,
    beq_eq_false_iff_ne] at hb
  obtain ⟨hslash, -, hdouble, hsingle, hback⟩ := hb
  simp [step, hslash, hdouble, hsingle, hback]

variable {s : Strategy} {b : Byte}

/-- The bytes, where all of them are seen. -/
def seenBytes (bs : List Byte) : List MarkedByte := bs.map fun b => ⟨b, true⟩

@[simp]
theorem map_byte_seenBytes (bs : List Byte) : (seenBytes bs).map MarkedByte.byte = bs := by
  rw [seenBytes, List.map_map]
  exact List.map_id bs

theorem length_seenBytes (bs : List Byte) : (seenBytes bs).length = bs.length := List.length_map _

theorem markedFrom_plain {bs : List Byte} (hbs : ∀ b ∈ bs, Mark.isPlain b = true) (next : Option Byte) :
    markedFrom s (.within .code) bs next = seenBytes bs := by
  induction bs with
  | nil => rfl
  | cons b bs ih =>
    have hsees : s.sees .code = true := by cases s <;> rfl
    rw [markedFrom, Mode.step_code_plain (hbs b (by simp)), ih fun b' hb' => hbs b' (List.mem_cons_of_mem _ hb'), hsees]
    rfl

/-! ### Contexts of a piece -/

theorem drop_contextsFrom (m : Mode) (as bs : List Byte) :
    (contextsFrom m (as ++ bs)).drop as.length = contextsFrom (m.after as bs.head?) bs := by
  induction as generalizing m with
  | nil => rfl
  | cons a as ih =>
    have hhead : (as ++ bs).head? = as.head?.or bs.head? := List.head?_append
    rw [List.cons_append, contextsFrom_cons, hhead, List.length_cons, List.drop_succ_cons, ih, Mode.after]

/-- Up to a byte that begins no pair, the contexts are those of the bytes alone. -/
theorem take_contextsFrom (hb : Mark.beginsPair b = false) (m : Mode) (as bs : List Byte) :
    (contextsFrom m (as ++ b :: bs)).take (as.length + 1) = contextsFrom m (as ++ [b]) := by
  induction as generalizing m with
  | nil =>
    rw [List.nil_append, List.nil_append, contextsFrom_cons, contextsFrom_cons, Mode.step_congr hb m _ none]
    rfl
  | cons a as ih =>
    have hhead : (as ++ b :: bs).head? = (as ++ [b]).head? := by
      rw [List.head?_append, List.head?_append, List.head?_cons, List.head?_cons]
    rw [List.cons_append, List.cons_append, contextsFrom_cons, contextsFrom_cons, hhead, List.length_cons,
      List.take_succ_cons, ih]

/-! ### Two documents, one behind the other -/

section Joined
variable {next : Option Byte} {m : Mode}

/-- A comment opens where two documents meet: one ends in a slash, and the next starts with a slash or a star. -/
def OpensComment (last next : Option Byte) : Prop :=
  last = some Mark.slash ∧ (next = some Mark.slash ∨ next = some Mark.star)

/-- A byte of code leaves code behind it. -/
theorem Mode.step_eq_of_code (hm : m.Fits (some b)) (h : (m.step b next).1 = .code) :
    m.step b next = (.code, .within .code) := by
  by_cases hb : b = Mark.newline
  · subst hb
    cases m with
    | second c after => exact absurd h (hm c after rfl).1
    | within c =>
      cases c with
      | code => exact step_newline next
      | lineComment => rfl
      | stringLiteral => exact Quoted.string.step_newline next
      | runeLiteral => exact Quoted.rune.step_newline next
      | blockComment => cases h
      | rawString => cases h
  · obtain rfl := Mode.eq_code hm hb h
    rw [step] at h ⊢
    split_ifs at h ⊢
    rfl

/-- Within code, what follows a byte matters only where the two open a comment. -/
theorem Mode.step_code_congr (hseam : ¬OpensComment (some b) next) :
    Mode.step b next (.within .code) = Mode.step b none (.within .code) := by
  have hpair : ∀ mark, mark = Mark.slash ∨ mark = Mark.star → ¬(b = Mark.slash ∧ next = some mark) := by
    rintro mark hmark ⟨rfl, rfl⟩
    exact hseam ⟨rfl, hmark.imp (congrArg some) (congrArg some)⟩
  simp [step, hpair]

/-- A byte that is code with nothing behind it is so in front of other bytes too, just if the two open no comment. -/
theorem Mode.step_code_iff (hm : m.Fits (some b)) (h : (m.step b none).1 = .code) :
    (m.step b next).1 = .code ↔ ¬OpensComment (some b) next := by
  by_cases hb : b = Mark.newline
  · subst hb
    have hnone : ¬OpensComment (some Mark.newline) next := fun hseam => absurd hseam.1 (by decide)
    rw [step_congr (by decide) m next none]
    exact iff_of_true h hnone
  · obtain rfl := Mode.eq_code hm hb h
    refine ⟨?_, fun hseam => by rwa [step_code_congr hseam]⟩
    rintro hcode ⟨⟨⟩, rfl | rfl⟩
    · cases hcode
    · cases hcode

theorem contextsFrom_append_iff {as bs : List Byte} (hm : m.Fits as.head?)
    (hlast : (contextsFrom m as).getLast? = some .code) :
    contextsFrom m (as ++ bs) = contextsFrom m as ++ contextsFrom (.within .code) bs ↔
      ¬OpensComment as.getLast? bs.head? := by
  induction as generalizing m with
  | nil => cases hlast
  | cons a as ih =>
    cases as with
    | nil =>
      have ha : (m.step a none).1 = .code := Option.some.inj hlast
      have hsingle : contextsFrom m [a] = [.code] := by rw [contextsFrom_cons, List.head?_nil, ha, contextsFrom]
      have hcode : (m.step a bs.head?).1 = .code ↔ ¬OpensComment (some a) bs.head? := Mode.step_code_iff hm ha
      rw [hsingle, List.singleton_append, List.singleton_append, contextsFrom_cons, List.getLast?_singleton, ← hcode]
      refine ⟨fun h => (List.cons.inj h).1, fun h => ?_⟩
      rw [Mode.step_eq_of_code hm h]
    | cons a' as =>
      have hhead : (a' :: as ++ bs).head? = (a' :: as).head? := rfl
      have hrest : (contextsFrom (m.step a (some a')).2 (a' :: as)).getLast? = some .code := by
        rwa [contextsFrom_cons, contextsFrom_cons, List.getLast?_cons_cons] at hlast
      rw [List.cons_append, contextsFrom_cons, contextsFrom_cons, hhead, List.cons_append, List.getLast?_cons_cons,
        ← ih (Mode.fits_step m a _) hrest]
      exact ⟨fun h => (List.cons.inj h).2, congrArg _⟩

/-- Behind a document that is empty or ends in code, the next one is read as it would be alone, and neither changes the
    other's contexts, just if no comment opens where they meet. -/
theorem contexts_append_iff {a b : Text} (h : a = [] ∨ (contexts a).getLast? = some .code) :
    contexts (a ++ b) = contexts a ++ contexts b ↔ ¬OpensComment a.bytes.getLast? b.bytes.head? := by
  rcases h with rfl | hlast
  · have hnone : ¬OpensComment (Text.bytes []).getLast? b.bytes.head? := fun hseam => absurd hseam.1 (by simp)
    exact iff_of_true rfl hnone
  · rw [contexts, Text.bytes_append]
    exact contextsFrom_append_iff (Mode.fits_within _ _) hlast

/-- The line ends the first document's literal, behind a backslash. -/
theorem contexts_append_iff_literal :
    let a : Text := ['"', '{', '\\', '\n']
    let b : Text := ['/', '*', '"', '*', '/', '}', '/']
    ((contexts a).getLast? = some .code ∧ ¬OpensComment a.bytes.getLast? b.bytes.head?) ∧
      contexts (a ++ b) = contexts a ++ contexts b := by
  intro a b
  have hlast : (contexts a).getLast? = some .code := by decide
  have hseam : ¬OpensComment a.bytes.getLast? b.bytes.head? := fun hseam => absurd hseam.1 (by decide)
  exact ⟨⟨hlast, hseam⟩, (contexts_append_iff (Or.inr hlast)).mpr hseam⟩

end Joined

/-! ### Seeing a piece -/

section Piece
variable {t : Text} {as bs : List MarkedByte} {m : MarkedByte}

theorem bytes_of_marked (h : marked s t = as ++ bs) :
    t.bytes = as.map MarkedByte.byte ++ bs.map MarkedByte.byte := by
  have hmap := congrArg (List.map MarkedByte.byte) h
  rwa [marked_eq, map_byte_markedFrom, List.map_append] at hmap

theorem after_of_seen (h : marked .lexical t = as ++ m :: bs) (hn : m.byte ≠ Mark.newline) (hseen : m.seen = true) :
    (Mode.within .code).after (as.map MarkedByte.byte) (some m.byte) = .within .code := by
  have hbytes := bytes_of_marked h
  rw [marked_eq, hbytes, markedFrom_append] at h
  obtain ⟨hm, -⟩ := List.cons.inj (List.append_inj h (by simp)).2
  have hfits := Mode.fits_after (Mode.fits_within .code ((as.map MarkedByte.byte).head?.or (some m.byte)))
  exact Mode.eq_code hfits hn (of_decide_eq_true ((congrArg MarkedByte.seen hm).trans hseen))

/-- From a byte that is seen on, the search sees what it would see in a document that starts there. -/
theorem marked_of_seen (h : marked s t = as ++ m :: bs) (hn : m.byte ≠ Mark.newline) (hseen : m.seen = true) :
    m :: bs = markedFrom s (.within .code) ((m :: bs).map MarkedByte.byte) none := by
  have hbytes := bytes_of_marked h
  have hpiece := h
  rw [marked_eq, hbytes, markedFrom_append] at hpiece
  have hrest := (List.append_inj hpiece (by simp)).2
  cases s with
  | naive => exact hrest.symm.trans ((map_seen _ _ _).symm.trans (map_seen _ _ _))
  | lexical =>
    have hafter := after_of_seen h hn hseen
    rw [List.map_cons, List.head?_cons, Option.some_or, hafter] at hrest
    exact hrest.symm

/-- A header of plain bytes is seen as a whole. -/
theorem marked_of_begins {header : List Byte} (hplain : ∀ b ∈ header, Mark.isPlain b = true)
    (hn : Mark.newline ∉ header) (h : marked s t = as ++ m :: bs) (hbegins : beginsWith header (m :: bs) = true)
    (hseen : m.seen = true) : seenBytes header <+: m :: bs := by
  cases header with
  | nil => exact List.nil_prefix
  | cons f hs =>
    obtain ⟨rest, hrest⟩ := beginsWith_iff.mp hbegins
    have hf : m.byte = f := (List.cons.inj hrest).1.symm
    rw [List.mem_cons, not_or] at hn
    have hpiece := marked_of_seen h (hf ▸ Ne.symm hn.1) hseen
    rw [← hrest, markedFrom_append, markedFrom_plain hplain] at hpiece
    exact ⟨_, hpiece.symm⟩

section Alone
variable {k : MarkedByte} {ms ns : List MarkedByte} {v : Text}

/-- A piece from a byte that is seen up to one that begins no pair is seen as it would be alone. -/
theorem marked_alone (h : marked s t = as ++ (k :: ms ++ m :: ns)) (hn : k.byte ≠ Mark.newline) (hk : k.seen = true)
    (hm : Mark.beginsPair m.byte = false) (hv : v.bytes = (k :: ms ++ [m]).map MarkedByte.byte) :
    marked s v = k :: ms ++ [m] := by
  have hpiece : k :: ms ++ m :: ns = markedFrom s (.within .code) ((k :: ms ++ m :: ns).map MarkedByte.byte) none :=
    marked_of_seen h hn hk
  have hfront : k :: ms ++ m :: ns = (k :: ms ++ [m]) ++ ns := by simp
  rw [hfront, List.map_append, List.map_append, List.map_singleton, markedFrom_append,
    markedFrom_concat_congr hm _ _ _ none] at hpiece
  rw [marked_eq, hv, List.map_append, List.map_singleton]
  exact (List.append_inj hpiece (by simp)).1.symm

theorem contexts_alone (h : marked .lexical t = as ++ (k :: ms ++ m :: ns)) (hn : k.byte ≠ Mark.newline)
    (hk : k.seen = true) (hm : Mark.beginsPair m.byte = false) (hv : v.bytes = (k :: ms ++ [m]).map MarkedByte.byte) :
    contexts v = ((contexts t).drop as.length).take v.byteSize := by
  have hbytes : t.bytes = as.map MarkedByte.byte ++ ((k :: ms).map MarkedByte.byte ++ m.byte :: ns.map MarkedByte.byte) := by
    simpa using bytes_of_marked h
  have hsize : v.byteSize = ((k :: ms).map MarkedByte.byte).length + 1 := by
    rw [← Text.length_bytes, hv, List.length_map, List.length_append, List.length_map]
    rfl
  have hdrop : (as.map MarkedByte.byte).length = as.length := List.length_map _
  rw [contexts, contexts, hsize, hbytes, ← hdrop, drop_contextsFrom, List.map_cons, List.cons_append, List.head?_cons,
    after_of_seen h hn hk, ← List.cons_append, ← List.map_cons, take_contextsFrom hm, hv, List.map_append,
    List.map_singleton]

end Alone

end Piece

/-! ### Characters -/

theorem Mode.step_high (hb : 128 ≤ b) (c : Context) (next : Option Byte) :
    Mode.step b next (.within c) = (c, .within c) := by
  have hne : ∀ mark, mark < 128 → b ≠ mark := fun mark hmark heq => absurd hb (UInt8.not_le.mpr (heq ▸ hmark))
  have hnewline := hne Mark.newline (by decide)
  have hback := hne Mark.backslash (by decide)
  have hquoted : ∀ c quote, quote < 128 → stepQuoted c quote b next = (c, .within c) := by
    intro c quote hquote
    rw [stepQuoted, if_neg fun h => hback h.1, if_neg hnewline, if_neg (hne quote hquote)]
  cases c with
  | code => exact step_code_plain (Mark.isPlain_of_high hb) next
  | lineComment => rw [step, if_neg hnewline]
  | blockComment => rw [step, if_neg fun h => hne Mark.star (by decide) h.1]
  | stringLiteral => exact hquoted _ _ (by decide)
  | runeLiteral => exact hquoted _ _ (by decide)
  | rawString => rw [step, if_neg (hne Mark.backquote (by decide))]

/-- All bytes of a character have the same context. -/
theorem contextsFrom_char {m : Mode} {d : Char} {rest : List Byte}
    (hm : m.Fits (String.utf8EncodeChar d ++ rest).head?) :
    ∃ c after, contextsFrom m (String.utf8EncodeChar d ++ rest) =
        (String.utf8EncodeChar d).map (fun _ => c) ++ contextsFrom after rest ∧ after.Fits rest.head? := by
  rcases Text.utf8EncodeChar_ascii_or d with ⟨-, hd⟩ | hhigh
  · rw [hd]
    exact ⟨_, _, rfl, Mode.fits_step _ _ _⟩
  · obtain ⟨b, bs, hd⟩ := List.exists_cons_of_ne_nil (@String.utf8EncodeChar_ne_nil d)
    rw [hd] at hm hhigh ⊢
    have hslash : some b ≠ some Mark.slash := by
      rintro ⟨rfl⟩
      exact absurd (hhigh Mark.slash (by simp)) (by decide)
    -- The first byte is no second byte of a pair that ends its context, so all bytes are read in one.
    obtain ⟨c, hc⟩ : ∃ c, m.step b (bs ++ rest).head? = (c, .within c) := by
      cases m with
      | second c after =>
        obtain rfl := (hm c after rfl).2.resolve_right hslash
        exact ⟨after, rfl⟩
      | within c => exact ⟨c, Mode.step_high (hhigh b (by simp)) c _⟩
    refine ⟨c, .within c, ?_, Mode.fits_within _ _⟩
    have hbs : contextsFrom (.within c) (bs ++ rest) = bs.map (fun _ => c) ++ contextsFrom (.within c) rest := by
      refine contextsFrom_within fun as b' bs' hsplit => Mode.step_high (hhigh b' ?_) c _
      rw [hsplit]
      simp
    rw [List.cons_append, contextsFrom_cons, hc, hbs]
    rfl

end Abridge.Code
