import Abridge.Code.Block

/-! Reading bytes piece by piece. A byte is read in a mode and with an eye on the byte that follows, so a piece
    of a document is read from the mode behind what is in front of it and with the first byte of what is
    behind it (`markedFrom_append`). Only a slash, a star or a backslash cares what follows; and only code,
    block comments and raw strings go on to the next line. -/

namespace Abridge.Code

/-! ### Pieces -/

/-- Whether the search sees a byte of that context. -/
def Strategy.sees (s : Strategy) (c : Context) : Bool :=
  match s with
  | .lexical => c = .code
  | .naive => true

/-- The bytes of a piece as the search sees them, read from a mode on; `next` is the byte behind the piece. -/
def markedFrom (s : Strategy) : Mode → List Byte → Option Byte → List MarkedByte
  | _, [], _ => []
  | m, b :: bs, next =>
    ⟨b, s.sees (m.step b (bs.head?.or next)).1⟩ :: markedFrom s (m.step b (bs.head?.or next)).2 bs next

/-- The mode behind a piece. -/
def Mode.after : Mode → List Byte → Option Byte → Mode
  | m, [], _ => m
  | m, b :: bs, next => (m.step b (bs.head?.or next)).2.after bs next

variable {s : Strategy}

theorem zipWith_contextsFrom (m : Mode) (bs : List Byte) :
    List.zipWith (fun b c => MarkedByte.mk b (c = Context.code)) bs (contextsFrom m bs) = markedFrom .lexical m bs none := by
  induction bs generalizing m with
  | nil => rfl
  | cons b bs ih => rw [contextsFrom, List.zipWith_cons_cons, ih, markedFrom, Option.or_none, Strategy.sees]

theorem map_seen (m : Mode) (bs : List Byte) (next : Option Byte) :
    bs.map (fun b => MarkedByte.mk b true) = markedFrom .naive m bs next := by
  induction bs generalizing m with
  | nil => rfl
  | cons b bs ih => rw [List.map_cons, ih, markedFrom, Strategy.sees]

/-- A document is read as one piece, from code on. -/
theorem marked_eq (s : Strategy) (t : Text) : marked s t = markedFrom s (.within .code) t.bytes none := by
  cases s with
  | lexical => exact zipWith_contextsFrom _ _
  | naive => exact map_seen _ _ _

@[simp]
theorem map_byte_markedFrom (m : Mode) (bs : List Byte) (next : Option Byte) :
    (markedFrom s m bs next).map MarkedByte.byte = bs := by
  induction bs generalizing m with
  | nil => rfl
  | cons b bs ih => rw [markedFrom, List.map_cons, ih]

@[simp]
theorem length_markedFrom (m : Mode) (bs : List Byte) (next : Option Byte) :
    (markedFrom s m bs next).length = bs.length := by
  rw [← List.length_map MarkedByte.byte, map_byte_markedFrom]

theorem head?_append_or (as bs : List Byte) (next : Option Byte) :
    (as ++ bs).head?.or next = as.head?.or (bs.head?.or next) := by
  rw [List.head?_append, Option.or_assoc]

/-- Two pieces are read one after the other. -/
theorem markedFrom_append (m : Mode) (as bs : List Byte) (next : Option Byte) :
    markedFrom s m (as ++ bs) next =
      markedFrom s m as (bs.head?.or next) ++ markedFrom s (m.after as (bs.head?.or next)) bs next := by
  induction as generalizing m with
  | nil => rfl
  | cons a as ih => rw [List.cons_append, markedFrom, head?_append_or, ih, markedFrom, Mode.after, List.cons_append]

theorem Mode.after_append (m : Mode) (as bs : List Byte) (next : Option Byte) :
    m.after (as ++ bs) next = (m.after as (bs.head?.or next)).after bs next := by
  induction as generalizing m with
  | nil => rfl
  | cons a as ih => rw [List.cons_append, after, head?_append_or, ih, after]

/-! ### What the byte behind decides -/

/-- Whether a byte may begin a pair. -/
def Mark.beginsPair (b : Byte) : Bool := b = slash || b = star || b = backslash

theorem Mode.step_congr {b : Byte} (h : Mark.beginsPair b = false) (m : Mode) (next next' : Option Byte) :
    m.step b next = m.step b next' := by
  simp only [Mark.beginsPair, Bool.or_eq_false_iff, decide_eq_false_iff_not] at h
  obtain ⟨⟨hslash, hstar⟩, hback⟩ := h
  cases m with
  | second c after => rfl
  | within c => cases c <;> simp [step, stepQuoted, hslash, hstar, hback]

theorem markedFrom_concat_congr {b : Byte} (h : Mark.beginsPair b = false) (m : Mode) (bs : List Byte)
    (next next' : Option Byte) : markedFrom s m (bs ++ [b]) next = markedFrom s m (bs ++ [b]) next' := by
  rw [markedFrom_append, markedFrom_append]
  simp only [List.head?_cons, Option.some_or, markedFrom, List.head?_nil, Option.none_or]
  rw [Mode.step_congr h _ next next']

theorem Mode.after_concat_congr {b : Byte} (h : Mark.beginsPair b = false) (m : Mode) (bs : List Byte)
    (next next' : Option Byte) : m.after (bs ++ [b]) next = m.after (bs ++ [b]) next' := by
  rw [after_append, after_append]
  simp only [List.head?_cons, Option.some_or, after, List.head?_nil, Option.none_or]
  rw [step_congr h _ next next']

/-! ### The start of a line -/

/-- The modes in which a line may start: nothing else goes on behind a newline. -/
def Mode.AtLineStart (m : Mode) : Prop :=
  m = .within .code ∨ m = .within .blockComment ∨ m = .within .rawString

/-- The mode fits the next byte: no pair has a newline in it. -/
def Mode.Allows (m : Mode) (next : Option Byte) : Prop :=
  ∀ c after, m = .second c after → next ≠ some Mark.newline

theorem Mode.AtLineStart.allows {m : Mode} (h : m.AtLineStart) (next : Option Byte) : m.Allows next := by
  rcases h with rfl | rfl | rfl <;> exact fun _ _ h => by cases h

theorem allows_stepQuoted (c : Context) (quote b : Byte) (next : Option Byte) :
    (stepQuoted c quote b next).2.Allows next := by
  unfold stepQuoted
  split
  case isTrue h =>
    rintro _ _ _ rfl
    simp at h
  case isFalse =>
    repeat' split
    all_goals exact fun _ _ h => by cases h

theorem Mode.allows_step (m : Mode) (b : Byte) (next : Option Byte) : (m.step b next).2.Allows next := by
  have hslash : some Mark.slash ≠ some Mark.newline := by decide
  have hstar : some Mark.star ≠ some Mark.newline := by decide
  cases m with
  | second c after => exact fun _ _ h => by cases h
  | within c =>
    cases c with
    | stringLiteral => exact allows_stepQuoted _ _ _ _
    | runeLiteral => exact allows_stepQuoted _ _ _ _
    | code =>
      rw [step]
      split
      case isTrue h => exact fun _ _ _ => h.2 ▸ hslash
      split
      case isTrue h => exact fun _ _ _ => h.2 ▸ hstar
      repeat' split
      all_goals exact fun _ _ h => by cases h
    | blockComment =>
      rw [step]
      split
      case isTrue h => exact fun _ _ _ => h.2 ▸ hslash
      case isFalse => exact fun _ _ h => by cases h
    | _ =>
      rw [step]
      split <;> exact fun _ _ h => by cases h

theorem Mode.allows_after {m : Mode} {bs : List Byte} {next : Option Byte} (h : m.Allows (bs.head?.or next)) :
    (m.after bs next).Allows next := by
  induction bs generalizing m with
  | nil => exact h
  | cons b bs ih => exact ih (allows_step m b _)

theorem Mode.atLineStart_step {m : Mode} (h : m.Allows (some Mark.newline)) (next : Option Byte) :
    (m.step Mark.newline next).2.AtLineStart := by
  have hquoted : ∀ c quote, (stepQuoted c quote Mark.newline next).2 = .within .code := fun c quote => by
    simp [stepQuoted, show Mark.newline ≠ Mark.backslash by decide]
  cases m with
  | second c after => exact absurd rfl (h c after rfl)
  | within c =>
    cases c with
    | code => exact Or.inl (by simp [step, Mark.newline, Mark.slash, Mark.doubleQuote, Mark.singleQuote, Mark.backquote])
    | lineComment => exact Or.inl (by simp [step])
    | blockComment => exact Or.inr (Or.inl (by simp [step, Mark.newline, Mark.star]))
    | stringLiteral => exact Or.inl (hquoted _ _)
    | runeLiteral => exact Or.inl (hquoted _ _)
    | rawString => exact Or.inr (Or.inr (by simp [step, Mark.newline, Mark.backquote]))

theorem Mode.atLineStart_after {m : Mode} (h : m.AtLineStart) (bs : List Byte) (next : Option Byte) :
    (m.after (bs ++ [Mark.newline]) next).AtLineStart := by
  rw [after_append]
  exact atLineStart_step (allows_after (h.allows _)) next

/-! ### Plain bytes -/

/-- Whether a byte at the start of a line leads on in the same mode, whatever follows. -/
def Mark.isPlain (b : Byte) : Bool := !([slash, star, doubleQuote, singleQuote, backquote].contains b)

theorem Mark.isPlain_of_high {b : Byte} (hb : 128 ≤ b) : isPlain b = true := by
  have hmarks : ([slash, star, doubleQuote, singleQuote, backquote].all fun b => b < 128) = true := by decide
  simp only [isPlain, List.contains_eq_mem, Bool.not_eq_true', decide_eq_false_iff_not]
  intro hm
  exact absurd (of_decide_eq_true (List.all_eq_true.mp hmarks b hm)) (UInt8.not_lt.mpr hb)

theorem Mode.step_plain {m : Mode} {b : Byte} (hm : m.AtLineStart) (hb : Mark.isPlain b = true) (next : Option Byte) :
    (m.step b next).2 = m := by
  simp only [Mark.isPlain, List.contains_cons, List.contains_nil, Bool.or_false, Bool.not_eq_true', Bool.or_eq_false_iff,
    beq_eq_false_iff_ne] at hb
  obtain ⟨hslash, hstar, hdouble, hsingle, hback⟩ := hb
  rcases hm with rfl | rfl | rfl <;> simp [step, hslash, hstar, hdouble, hsingle, hback]

theorem Mode.after_plain {m : Mode} {bs : List Byte} (hm : m.AtLineStart) (hbs : ∀ b ∈ bs, Mark.isPlain b = true)
    (next : Option Byte) : m.after bs next = m := by
  induction bs with
  | nil => rfl
  | cons b bs ih =>
    rw [after, step_plain hm (hbs b (by simp))]
    exact ih fun b' hb' => hbs b' (List.mem_cons_of_mem _ hb')

end Abridge.Code
