import Abridge.Journal
import Abridge.Noise.Rule

/-!
The line filter. It reads a document line by line and keeps what teaches by code: a comment block of
fewer than four lines stays unless it holds a verbose phrase, a section phrase opens a section that goes
up to the next function declaration, and single lines go by a table of rules. A banner (edge, title,
edge) goes whole: its title is kept at first and taken back when the lower edge follows.

`Mode.action` decides what becomes of a line, `Filter.act` does it and `Filter.notes` words it, so the
lines that stay depend on the notes in no way.
-/

namespace Abridge.Noise

/-! ### What lines say -/

/-- The first section phrase, in the order of the vocabulary, that the line holds. -/
def sectionPhrase? (l : Line) : Option Text := sectionPhrases.find? (l.contains ·)

/-- The line starts a function declaration. -/
def isDeclaration (l : Line) : Bool := functionWord.isPrefixOf l.trimStart

/-- What follows the mark by which the line opens a comment block. -/
def afterOpening? (l : Line) : Option Text := commentOpen.isPrefixOf? l.trimStart

def isVerbose (l : Line) : Bool := verbosePhrases.any (l.contains ·)

/-! ### Comment blocks -/

/-- What becomes of a comment block once it is read to its end. -/
inductive Fate where
  | kept
  | tooLong
  | tooVerbose
  deriving DecidableEq, Repr

namespace Fate

/-- The fate of a block: a verbose phrase weighs more than the length. -/
def ofBlock (block : List Line) : Fate :=
  if block.any isVerbose then .tooVerbose
  else if block.length < commentLimit then .kept
  else .tooLong

def notes (size : Nat) : Fate → List Event
  | .kept => []
  | .tooLong => [.longCommentDropped size]
  | .tooVerbose => [.verboseCommentDropped size]

end Fate

/-- The lines of a block that stay: all or none. -/
def remains (block : List Line) : List Line := if Fate.ofBlock block = .kept then block else []

/-! ### The machine -/

/-- How far a banner has been read. -/
inductive Banner where
  | outside
  | afterEdge
  | afterTitle
  deriving DecidableEq, Repr

/-- How far a banner is read after a line outside of comments, which a rule dropped or not. -/
def Banner.next (b : Banner) (l : Line) (dropped : Bool) : Banner :=
  if isBannerEdge l then if b = .afterTitle then .outside else .afterEdge
  else if b = .afterEdge && !dropped && isBannerTitle l then .afterTitle
  else .outside

/-- What the filter is in the middle of. -/
inductive Mode where
  /-- Among code, maybe within a banner. -/
  | reading (banner : Banner)
  /-- In a comment block with these lines so far, the newest first. -/
  | comment (block : List Line)
  /-- In a section that is skipped. -/
  | skipping
  deriving DecidableEq, Repr

/-- The filter: its mode and the lines kept so far, the newest first. -/
structure Filter where
  mode : Mode := .reading .outside
  kept : List Line := []
  deriving DecidableEq, Repr

/-- What becomes of a line. -/
inductive Action where
  /-- The line opens a section that is skipped, and goes with it. -/
  | enterSection (phrase : Text)
  /-- The line goes with the section. -/
  | skip
  /-- The line declares a function, which ends the section, and stays. -/
  | leaveSection
  /-- The line opens a comment block or goes on with it, and the block has come to this. -/
  | hold (block : List Line)
  /-- The line ends this comment block. -/
  | close (block : List Line)
  /-- The line stays unless a rule drops it; the line kept last may be taken back before that. -/
  | place (rule : Option Rule) (takeBack : Bool) (banner : Banner)

/-- What becomes of a line in each mode. -/
def Mode.action (rules : List Rule) (l : Line) : Mode → Action
  | .skipping => if isDeclaration l && (sectionPhrase? l).isNone then .leaveSection else .skip
  | .comment block =>
    match sectionPhrase? l with
    | some phrase => .enterSection phrase
    | none => if l.contains commentClose then .close (l :: block) else .hold (l :: block)
  | .reading banner =>
    match sectionPhrase? l with
    | some phrase => .enterSection phrase
    | none =>
      match afterOpening? l with
      | some rest => if rest.contains commentClose then .close [l] else .hold [l]
      | none =>
        let rule := Rule.first? rules l
        .place rule (isBannerEdge l && banner = .afterTitle) (banner.next l rule.isSome)

namespace Filter

/-- Does to a line what was decided. -/
def act (f : Filter) (l : Line) : Action → Filter
  | .enterSection _ => { f with mode := .skipping }
  | .skip => f
  | .leaveSection => { mode := .reading .outside, kept := l :: f.kept }
  | .hold block => { f with mode := .comment block }
  | .close block => { mode := .reading .outside, kept := remains block ++ f.kept }
  | .place rule takeBack banner =>
    let kept := if takeBack then f.kept.tail else f.kept
    { mode := .reading banner, kept := if rule.isSome then kept else l :: kept }

def notes (f : Filter) (l : Line) : Action → List Event
  | .enterSection phrase => [.sectionEntered phrase (f.mode matches .comment _)]
  | .skip => [.lineSkipped l]
  | .leaveSection | .hold _ => []
  | .close block => (Fate.ofBlock block).notes block.length
  | .place rule takeBack _ =>
    (if takeBack then f.kept.head?.toList.map .titleDropped else []) ++
      rule.toList.map fun r => .lineDropped r.name l

def step (rules : List Rule) (f : Filter) (l : Line) : Filter := f.act l (f.mode.action rules l)

def stepNotes (rules : List Rule) (f : Filter) (l : Line) : List Event := f.notes l (f.mode.action rules l)

/-- The lines that stay when the document ends here, in order. A block still open ends with it. -/
def finish (f : Filter) : List Line :=
  match f.mode with
  | .comment block => (remains block ++ f.kept).reverse
  | _ => f.kept.reverse

def finishNotes (f : Filter) : List Event :=
  match f.mode with
  | .comment block => .commentUnclosed block.length :: (Fate.ofBlock block).notes block.length
  | _ => []

def steps (rules : List Rule) (f : Filter) (ls : List Line) : Filter := ls.foldl (step rules) f

@[simp]
theorem steps_nil {rules : List Rule} {f : Filter} : steps rules f [] = f := rfl

@[simp]
theorem steps_cons {rules : List Rule} {f : Filter} {l : Line} {ls : List Line} :
    steps rules f (l :: ls) = steps rules (step rules f l) ls := rfl

theorem steps_append {rules : List Rule} {f : Filter} {ls ms : List Line} :
    steps rules f (ls ++ ms) = steps rules (steps rules f ls) ms := List.foldl_append

def runNotes (rules : List Rule) : Filter → List Line → List Event
  | f, [] => f.finishNotes
  | f, l :: ls => f.stepNotes rules l ++ runNotes rules (f.step rules l) ls

end Filter

/-- The lines of a document that stay. -/
def keptLines (rules : List Rule) (ls : List Line) : List Line := (Filter.steps rules {} ls).finish

end Abridge.Noise
