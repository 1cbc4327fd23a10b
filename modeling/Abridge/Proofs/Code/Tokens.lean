import Abridge.Code.Context
import Mathlib.Data.List.Basic

/-! The tokens of a document: comments, literals, and the single bytes of code. `Token.Ends` and `Token.Stops`
    are their grammar, which looks at whole tokens; the contexts of a document, told byte by byte, are those of
    the tokens that it is cut into (`contexts_eq_iff_tokenized`). -/

namespace Abridge.Code

/-! ### The grammar -/

/-- Bytes that are read as one, and what they are part of. -/
structure Token where
  context : Context
  bytes : List Byte
  deriving DecidableEq, Repr

/-- No more bytes of the line come: these are none, or start with a newline. -/
def LineEnds (rest : List Byte) : Prop := ∀ b ∈ rest.head?, b = Mark.newline

/-- The literals that do not go on to the next line, with the mark that opens and closes them. -/
inductive Quoted : Context → Byte → Prop
  | string : Quoted .stringLiteral Mark.doubleQuote
  | rune : Quoted .runeLiteral Mark.singleQuote

/-- The bytes between the marks of a literal, in front of `rest`. A backslash takes the next byte of the line with
    it, and is a byte like any other where the line has no more. -/
inductive Items (quote : Byte) : List Byte → List Byte → Prop
  | nil {rest} : Items quote [] rest
  | escape {b bs rest} (hn : b ≠ Mark.newline) (h : Items quote bs rest) : Items quote (Mark.backslash :: b :: bs) rest
  | plain {b bs rest} (hq : b ≠ quote) (hn : b ≠ Mark.newline) (hb : b = Mark.backslash → LineEnds (bs ++ rest))
      (h : Items quote bs rest) : Items quote (b :: bs) rest

/-- The token stands in front of `rest`, and has an end of its own or goes up to the end of the document. -/
inductive Token.Ends : Token → List Byte → Prop
  | code {b rest} (hs : b = Mark.slash → ∀ c ∈ rest.head?, c ≠ Mark.slash ∧ c ≠ Mark.star)
      (hq : ∀ c, ¬Quoted c b) (hb : b ≠ Mark.backquote) : Ends ⟨.code, [b]⟩ rest
  | block {body rest} (h : ¬[Mark.star, Mark.slash] <:+: body) :
    Ends ⟨.blockComment, Mark.slash :: Mark.star :: body ++ [Mark.star, Mark.slash]⟩ rest
  | openBlock {body} (h : ¬[Mark.star, Mark.slash] <:+: body) : Ends ⟨.blockComment, Mark.slash :: Mark.star :: body⟩ []
  | literal {c quote body rest} (hq : Quoted c quote) (h : Items quote body (quote :: rest)) :
    Ends ⟨c, quote :: body ++ [quote]⟩ rest
  | raw {body rest} (h : Mark.backquote ∉ body) : Ends ⟨.rawString, Mark.backquote :: body ++ [Mark.backquote]⟩ rest
  | openRaw {body} (h : Mark.backquote ∉ body) : Ends ⟨.rawString, Mark.backquote :: body⟩ []

/-- The token stands in front of `rest`, and only the line puts an end to it. -/
inductive Token.Stops : Token → List Byte → Prop
  | comment {body rest} (h : Mark.newline ∉ body) (hr : LineEnds rest) :
    Stops ⟨.lineComment, Mark.slash :: Mark.slash :: body⟩ rest
  | openLiteral {c quote body rest} (hq : Quoted c quote) (h : Items quote body rest) (hr : LineEnds rest) :
    Stops ⟨c, quote :: body⟩ rest

/-- The token stands in front of `rest`. -/
def Token.Before (k : Token) (rest : List Byte) : Prop := k.Ends rest ∨ k.Stops rest

/-- The bytes are these tokens, one behind the other. -/
inductive Tokenized : List Token → List Byte → Prop
  | nil : Tokenized [] []
  | cons {k ks rest} (hk : k.Before rest) (h : Tokenized ks rest) : Tokenized (k :: ks) (k.bytes ++ rest)

/-- The context of each byte of the tokens: that of its token. -/
def labels (ks : List Token) : List Context := ks.flatMap fun k => k.bytes.map fun _ => k.context

/-! ### Reading a token -/

theorem contextsFrom_cons (m : Mode) (b : Byte) (bs : List Byte) :
    contextsFrom m (b :: bs) = (m.step b bs.head?).1 :: contextsFrom (m.step b bs.head?).2 bs := rfl

theorem step_newline (next : Option Byte) : Mode.step Mark.newline next (.within .code) = (.code, .within .code) := by
  simp [Mode.step, Mark.newline, Mark.slash, Mark.doubleQuote, Mark.singleQuote, Mark.backquote]

/-- What the line puts an end to is followed by code. -/
theorem contextsFrom_of_lineEnds {c : Context} {rest : List Byte}
    (hc : ∀ next, Mode.step Mark.newline next (.within c) = (.code, .within .code)) (hr : LineEnds rest) :
    contextsFrom (.within c) rest = contextsFrom (.within .code) rest := by
  cases rest with
  | nil => rfl
  | cons b bs =>
    obtain rfl : b = Mark.newline := hr b rfl
    rw [contextsFrom_cons, contextsFrom_cons, hc, step_newline]

section Body
variable {c : Context} {quote : Byte} {body rest : List Byte}

/-- Bytes that keep to their context are read in it, up to what is behind them. -/
theorem contextsFrom_within
    (h : ∀ as b bs, body = as ++ b :: bs → Mode.step b (bs ++ rest).head? (.within c) = (c, .within c)) :
    contextsFrom (.within c) (body ++ rest) = body.map (fun _ => c) ++ contextsFrom (.within c) rest := by
  induction body with
  | nil => rfl
  | cons b bs ih =>
    have hb := h [] b bs rfl
    have hbs : contextsFrom (.within c) (bs ++ rest) = bs.map (fun _ => c) ++ contextsFrom (.within c) rest := by
      refine ih fun as b' bs' hsplit => h (b :: as) b' bs' ?_
      rw [hsplit, List.cons_append]
    rw [List.cons_append, contextsFrom_cons, hb, hbs]
    rfl

/-- Up to the one mark that ends a context, all bytes keep to it. -/
theorem contextsFrom_until {mark : Byte} (hc : ∀ b next, b ≠ mark → Mode.step b next (.within c) = (c, .within c))
    (h : mark ∉ body) :
    contextsFrom (.within c) (body ++ rest) = body.map (fun _ => c) ++ contextsFrom (.within c) rest := by
  refine contextsFrom_within fun as b bs hbody => hc b _ ?_
  rintro rfl
  exact h (by simp [hbody])

theorem contextsFrom_block (h : ¬[Mark.star, Mark.slash] <:+: body) (hr : rest.head? ≠ some Mark.slash) :
    contextsFrom (.within .blockComment) (body ++ rest) =
      body.map (fun _ => .blockComment) ++ contextsFrom (.within .blockComment) rest := by
  refine contextsFrom_within fun as b bs hbody => ?_
  have hend : ¬(b = Mark.star ∧ (bs ++ rest).head? = some Mark.slash) := by
    rintro ⟨rfl, hhead⟩
    cases bs with
    | nil => exact hr hhead
    | cons b' bs =>
      obtain rfl : b' = Mark.slash := by simpa using hhead
      exact h ⟨as, bs, by simp [hbody]⟩
  rw [Mode.step, if_neg hend]

theorem Quoted.mark (hq : Quoted c quote) : quote ≠ Mark.newline ∧ quote ≠ Mark.backslash := by
  cases hq <;> decide

theorem Quoted.opens (hq : Quoted c quote) (next : Option Byte) : Mode.step quote next (.within .code) = (c, .within c) := by
  cases hq <;> rfl

theorem Quoted.step (hq : Quoted c quote) (b : Byte) (next : Option Byte) :
    Mode.step b next (.within c) = stepQuoted c quote b next := by
  cases hq <;> rfl

theorem Quoted.closes (hq : Quoted c quote) (next : Option Byte) : Mode.step quote next (.within c) = (c, .within .code) := by
  obtain ⟨hn, hb⟩ := hq.mark
  rw [hq.step, stepQuoted, if_neg fun h => hb h.1, if_neg hn, if_pos rfl]

theorem Quoted.step_newline (hq : Quoted c quote) (next : Option Byte) :
    Mode.step Mark.newline next (.within c) = (.code, .within .code) := by
  have hne : Mark.newline ≠ Mark.backslash := by decide
  rw [hq.step, stepQuoted, if_neg fun h => hne h.1, if_pos rfl]

theorem contextsFrom_items (hq : Quoted c quote) (h : Items quote body rest) :
    contextsFrom (.within c) (body ++ rest) = body.map (fun _ => c) ++ contextsFrom (.within c) rest := by
  induction h with
  | nil => rfl
  | @escape b bs rest hn _ ih =>
    have hback : Mode.step Mark.backslash (some b) (.within c) = (c, .second c c) := by
      rw [hq.step, stepQuoted, if_pos ⟨rfl, by simpa using hn⟩]
    have hpair : contextsFrom (.within c) (Mark.backslash :: b :: (bs ++ rest)) =
        c :: c :: contextsFrom (.within c) (bs ++ rest) := by
      rw [contextsFrom_cons, List.head?_cons, hback, contextsFrom_cons]
      rfl
    rw [List.cons_append, List.cons_append, hpair, ih]
    rfl
  | @plain b bs rest hne hn hb _ ih =>
    have halone : ¬(b = Mark.backslash ∧ (bs ++ rest).head?.any (· ≠ Mark.newline)) := by
      rintro ⟨hback, hany⟩
      rw [Option.any_eq_true] at hany
      obtain ⟨b', hb', hne'⟩ := hany
      exact of_decide_eq_true hne' (hb hback b' hb')
    have hplain : Mode.step b (bs ++ rest).head? (.within c) = (c, .within c) := by
      rw [hq.step, stepQuoted, if_neg halone, if_neg hn, if_neg hne]
    rw [List.cons_append, contextsFrom_cons, hplain, ih]
    rfl

end Body

theorem contextsFrom_ends {k : Token} {rest : List Byte} (h : k.Ends rest) :
    contextsFrom (.within .code) (k.bytes ++ rest) =
      k.bytes.map (fun _ => k.context) ++ contextsFrom (.within .code) rest := by
  -- The two bytes that open a block comment, and the mark that opens a raw string.
  have hblock : ∀ bs, contextsFrom (.within .code) (Mark.slash :: Mark.star :: bs) =
      .blockComment :: .blockComment :: contextsFrom (.within .blockComment) bs := fun _ => rfl
  have hraw : ∀ bs, contextsFrom (.within .code) (Mark.backquote :: bs) =
      .rawString :: contextsFrom (.within .rawString) bs := fun _ => rfl
  have hrawBody : ∀ body rest, Mark.backquote ∉ body → contextsFrom (.within .rawString) (body ++ rest) =
      body.map (fun _ => .rawString) ++ contextsFrom (.within .rawString) rest :=
    fun _ _ => contextsFrom_until fun _ _ hb => if_neg hb
  cases h with
  | @code b _ hs hq hb =>
    have hdouble : b ≠ Mark.doubleQuote := by
      rintro rfl
      exact hq _ .string
    have hsingle : b ≠ Mark.singleQuote := by
      rintro rfl
      exact hq _ .rune
    have hpair : ∀ mark, mark = Mark.slash ∨ mark = Mark.star → ¬(b = Mark.slash ∧ rest.head? = some mark) := by
      rintro mark hmark ⟨hslash, hhead⟩
      obtain ⟨h₁, h₂⟩ := hs hslash mark hhead
      exact hmark.elim h₁ h₂
    have hstep : Mode.step b rest.head? (.within .code) = (.code, .within .code) := by
      rw [Mode.step, if_neg (hpair _ (Or.inl rfl)), if_neg (hpair _ (Or.inr rfl)), if_neg hdouble, if_neg hsingle, if_neg hb]
    simp [contextsFrom_cons, hstep]
  | @block body _ h =>
    have hstar : some Mark.star ≠ some Mark.slash := by decide
    have hbody := @contextsFrom_block body (Mark.star :: Mark.slash :: rest) h hstar
    have hclose : contextsFrom (.within .blockComment) (Mark.star :: Mark.slash :: rest) =
        .blockComment :: .blockComment :: contextsFrom (.within .code) rest := rfl
    simp [hblock, hbody, hclose]
  | @openBlock body h =>
    have hbody := @contextsFrom_block body [] h (by simp)
    simpa [hblock, contextsFrom] using hbody
  | @literal c quote body _ hq h =>
    have hbody := contextsFrom_items hq h
    simp [contextsFrom_cons, hq.opens, hbody, hq.closes]
  | @raw body _ h =>
    have hclose : contextsFrom (.within .rawString) (Mark.backquote :: rest) =
        .rawString :: contextsFrom (.within .code) rest := rfl
    simp [hraw, hrawBody _ _ h, hclose]
  | @openRaw body h =>
    have hbody := hrawBody body [] h
    simpa [hraw, contextsFrom] using hbody

theorem contextsFrom_stops {k : Token} {rest : List Byte} (h : k.Stops rest) :
    contextsFrom (.within .code) (k.bytes ++ rest) =
      k.bytes.map (fun _ => k.context) ++ contextsFrom (.within .code) rest := by
  cases h with
  | @comment body _ h hr =>
    have hopen : ∀ bs, contextsFrom (.within .code) (Mark.slash :: Mark.slash :: bs) =
        .lineComment :: .lineComment :: contextsFrom (.within .lineComment) bs := fun _ => rfl
    have hbody : contextsFrom (.within .lineComment) (body ++ rest) =
        body.map (fun _ => .lineComment) ++ contextsFrom (.within .lineComment) rest :=
      contextsFrom_until (fun _ _ hb => if_neg hb) h
    have hend : contextsFrom (.within .lineComment) rest = contextsFrom (.within .code) rest :=
      contextsFrom_of_lineEnds (fun _ => rfl) hr
    simp [hopen, hbody, hend]
  | @openLiteral c quote body _ hq h hr =>
    have hbody := contextsFrom_items hq h
    have hend : contextsFrom (.within c) rest = contextsFrom (.within .code) rest :=
      contextsFrom_of_lineEnds hq.step_newline hr
    simp [contextsFrom_cons, hq.opens, hbody, hend]

/-- The contexts are those of the tokens, whatever way the bytes are cut. -/
theorem Tokenized.contextsFrom_eq {ks : List Token} {bs : List Byte} (h : Tokenized ks bs) :
    contextsFrom (.within .code) bs = labels ks := by
  induction h with
  | nil => rfl
  | @cons k ks rest hk _ ih =>
    have htoken := hk.elim contextsFrom_ends contextsFrom_stops
    rw [htoken, ih, labels, labels, List.flatMap_cons]

/-! ### Finding a token -/

/-- The end of a comment that occurs has a first occurrence, with no other in front of it. -/
theorem exists_close {bs : List Byte} (h : [Mark.star, Mark.slash] <:+: bs) :
    ∃ body rest, bs = body ++ Mark.star :: Mark.slash :: rest ∧ ¬[Mark.star, Mark.slash] <:+: body := by
  induction bs with
  | nil => simp at h
  | cons b bs ih =>
    by_cases hfirst : [Mark.star, Mark.slash] <+: b :: bs
    · obtain ⟨rest, hrest⟩ := hfirst
      exact ⟨[], rest, hrest.symm, by simp⟩
    · obtain ⟨body, rest, rfl, hbody⟩ := ih ((List.infix_cons_iff.mp h).resolve_left hfirst)
      refine ⟨b :: body, rest, rfl, ?_⟩
      rw [List.infix_cons_iff, not_or]
      exact ⟨fun hpre => hfirst (hpre.trans (List.prefix_append (b :: body) _)), hbody⟩

/-- The items of a literal go up to the mark that closes it or to the end of the line. -/
theorem exists_items (quote : Byte) (bs : List Byte) :
    ∃ body rest, bs = body ++ rest ∧ Items quote body rest ∧ (LineEnds rest ∨ ∃ ms, rest = quote :: ms) := by
  induction hn : bs.length using Nat.strongRecOn generalizing bs with
  | ind n ih =>
    subst hn
    cases bs with
    | nil => exact ⟨[], [], rfl, .nil, Or.inl (by simp [LineEnds])⟩
    | cons b bs =>
      by_cases hline : b = Mark.newline
      · exact ⟨[], b :: bs, rfl, .nil, Or.inl (by simp [LineEnds, hline])⟩
      by_cases hquote : b = quote
      · exact ⟨[], b :: bs, rfl, .nil, Or.inr ⟨bs, by rw [hquote]⟩⟩
      by_cases hescape : b = Mark.backslash ∧ ¬LineEnds bs
      · obtain ⟨rfl, hbs⟩ := hescape
        cases bs with
        | nil => exact absurd (by simp [LineEnds]) hbs
        | cons b' bs =>
          obtain ⟨body, rest, rfl, hitems, hend⟩ := ih bs.length (by simp only [List.length_cons]; omega) bs rfl
          exact ⟨Mark.backslash :: b' :: body, rest, rfl, .escape (by simpa [LineEnds] using hbs) hitems, hend⟩
      · obtain ⟨body, rest, rfl, hitems, hend⟩ := ih bs.length (by simp) bs rfl
        have halone : b = Mark.backslash → LineEnds (body ++ rest) := fun hb => not_not.mp fun hr => hescape ⟨hb, hr⟩
        exact ⟨b :: body, rest, rfl, .plain hquote hline halone hitems, hend⟩

/-- Some token stands in front of the bytes. -/
def StartsWithToken (bs : List Byte) : Prop :=
  ∃ (k : Token) (rest : List Byte), bs = k.bytes ++ rest ∧ k.bytes ≠ [] ∧ k.Before rest

theorem startsWithToken_literal {c : Context} {quote : Byte} (hq : Quoted c quote) (bs : List Byte) :
    StartsWithToken (quote :: bs) := by
  obtain ⟨body, rest, rfl, hitems, hend⟩ := exists_items quote bs
  rcases hend with hline | ⟨ms, rfl⟩
  · exact ⟨⟨c, quote :: body⟩, rest, rfl, by simp, Or.inr (.openLiteral hq hitems hline)⟩
  · exact ⟨⟨c, quote :: body ++ [quote]⟩, ms, by simp, by simp, Or.inl (.literal hq hitems)⟩

theorem startsWithToken_raw (bs : List Byte) : StartsWithToken (Mark.backquote :: bs) := by
  by_cases h : Mark.backquote ∈ bs
  · obtain ⟨body, rest, rfl, hbody⟩ := List.eq_append_cons_of_mem h
    exact ⟨⟨.rawString, Mark.backquote :: body ++ [Mark.backquote]⟩, rest, by simp, by simp, Or.inl (.raw hbody)⟩
  · exact ⟨⟨.rawString, Mark.backquote :: bs⟩, [], by simp, by simp, Or.inl (.openRaw h)⟩

theorem startsWithToken_comment (bs : List Byte) : StartsWithToken (Mark.slash :: Mark.slash :: bs) := by
  by_cases h : Mark.newline ∈ bs
  · obtain ⟨body, rest, rfl, hbody⟩ := List.eq_append_cons_of_mem h
    exact ⟨⟨.lineComment, Mark.slash :: Mark.slash :: body⟩, Mark.newline :: rest, by simp, by simp,
      Or.inr (.comment hbody (by simp [LineEnds]))⟩
  · exact ⟨⟨.lineComment, Mark.slash :: Mark.slash :: bs⟩, [], by simp, by simp, Or.inr (.comment h (by simp [LineEnds]))⟩

theorem startsWithToken_block (bs : List Byte) : StartsWithToken (Mark.slash :: Mark.star :: bs) := by
  by_cases h : [Mark.star, Mark.slash] <:+: bs
  · obtain ⟨body, rest, rfl, hbody⟩ := exists_close h
    exact ⟨⟨.blockComment, Mark.slash :: Mark.star :: body ++ [Mark.star, Mark.slash]⟩, rest, by simp, by simp,
      Or.inl (.block hbody)⟩
  · exact ⟨⟨.blockComment, Mark.slash :: Mark.star :: bs⟩, [], by simp, by simp, Or.inl (.openBlock h)⟩

theorem startsWithToken (b : Byte) (bs : List Byte) : StartsWithToken (b :: bs) := by
  by_cases hquoted : ∃ c, Quoted c b
  · obtain ⟨c, hq⟩ := hquoted
    exact startsWithToken_literal hq bs
  by_cases hraw : b = Mark.backquote
  · rw [hraw]
    exact startsWithToken_raw bs
  by_cases hline : ∃ ms, b :: bs = Mark.slash :: Mark.slash :: ms
  · obtain ⟨ms, hms⟩ := hline
    rw [hms]
    exact startsWithToken_comment ms
  by_cases hblock : ∃ ms, b :: bs = Mark.slash :: Mark.star :: ms
  · obtain ⟨ms, hms⟩ := hblock
    rw [hms]
    exact startsWithToken_block ms
  -- Nothing that is longer than a byte is opened here.
  refine ⟨⟨.code, [b]⟩, bs, rfl, by simp, Or.inl (.code ?_ (fun c hq => hquoted ⟨c, hq⟩) hraw)⟩
  rintro rfl mark hmark
  obtain ⟨ms, rfl⟩ := List.head?_eq_some_iff.mp hmark
  constructor
  · rintro rfl
    exact hline ⟨ms, rfl⟩
  · rintro rfl
    exact hblock ⟨ms, rfl⟩

theorem exists_tokenized (bs : List Byte) : ∃ ks, Tokenized ks bs := by
  induction hn : bs.length using Nat.strongRecOn generalizing bs with
  | ind n ih =>
    subst hn
    cases bs with
    | nil => exact ⟨[], .nil⟩
    | cons b bs =>
      obtain ⟨k, rest, hbs, hne, hk⟩ := startsWithToken b bs
      have hpos := List.length_pos_iff.mpr hne
      obtain ⟨ks, hks⟩ := ih rest.length (by rw [hbs, List.length_append]; omega) rest rfl
      rw [hbs]
      exact ⟨k :: ks, .cons hk hks⟩

/-! ### What follows a token that the line ends -/

theorem Tokenized.bytes_eq {ks : List Token} {bs : List Byte} (h : Tokenized ks bs) : ks.flatMap Token.bytes = bs := by
  induction h with
  | nil => rfl
  | cons _ _ ih => rw [List.flatMap_cons, ih]

theorem Tokenized.token {js ks : List Token} {k : Token} {bs : List Byte} (h : Tokenized (js ++ k :: ks) bs) :
    k.Before (ks.flatMap Token.bytes) := by
  induction js generalizing bs with
  | nil =>
    cases h with
    | cons hk hks => rwa [hks.bytes_eq]
  | cons j js ih =>
    cases h with
    | cons _ hjs => exact ih hjs

theorem Token.Stops.lineEnds {k : Token} {rest : List Byte} (h : k.Stops rest) : LineEnds rest := by
  cases h with
  | comment _ hr => exact hr
  | openLiteral _ _ hr => exact hr

/-- A token that starts with a newline is that newline, and is code. -/
theorem eq_newline {k : Token} {rest : List Byte} (hk : k.Before rest) (hl : LineEnds (k.bytes ++ rest)) :
    k = ⟨.code, [Mark.newline]⟩ := by
  have hslash : Mark.slash ≠ Mark.newline := by decide
  have hback : Mark.backquote ≠ Mark.newline := by decide
  rcases hk with hk | hk
  · cases hk with
    | code => rw [hl _ rfl]
    | block => exact absurd (hl _ rfl) hslash
    | openBlock => exact absurd (hl _ rfl) hslash
    | literal hq => exact absurd (hl _ rfl) hq.mark.1
    | raw => exact absurd (hl _ rfl) hback
    | openRaw => exact absurd (hl _ rfl) hback
  · cases hk with
    | comment => exact absurd (hl _ rfl) hslash
    | openLiteral hq => exact absurd (hl _ rfl) hq.mark.1

/-- Each byte of a document has one context, and these are the contexts of the tokens that the document is cut
    into. Behind a line comment or a literal that lacks its end, the newline is code. -/
theorem contexts_eq_iff_tokenized (t : Text) :
    (contexts t).length = t.bytes.length ∧
      (∀ cs, contexts t = cs ↔ ∃ ks, Tokenized ks t.bytes ∧ labels ks = cs) ∧
      ∀ js k k' ks, Tokenized (js ++ k :: k' :: ks) t.bytes → k.Stops ((k' :: ks).flatMap Token.bytes) →
        k' = ⟨.code, [Mark.newline]⟩ := by
  refine ⟨by rw [length_contexts, Text.length_bytes], fun cs => ⟨?_, ?_⟩, ?_⟩
  · rintro rfl
    obtain ⟨ks, hks⟩ := exists_tokenized t.bytes
    exact ⟨ks, hks, hks.contextsFrom_eq.symm⟩
  · rintro ⟨ks, hks, rfl⟩
    exact hks.contextsFrom_eq
  · intro js k k' ks htokens hstops
    rw [List.append_cons] at htokens
    exact eq_newline htokens.token hstops.lineEnds

end Abridge.Code
