import Abridge.Text.Basic

/-!
What a run notes down while it works, for whoever wants to know why a line went or a file failed. An
event says what happened; its level, its topic and its wording are given here once for all of them.
-/

namespace Abridge

inductive Level where
  | trace
  | debug
  | info
  | warn
  | error
  deriving DecidableEq, Repr

namespace Level

/-- The place of a level: what matters more has the smaller rank. -/
def rank : Level → Nat
  | .error => 1
  | .warn => 2
  | .info => 3
  | .debug => 4
  | .trace => 5

def name : Level → String
  | .trace => "TRACE"
  | .debug => "DEBUG"
  | .info => "INFO"
  | .warn => "WARN"
  | .error => "ERROR"

end Level

/-- Something worth noting. -/
inductive Event where
  /-- A phrase opened a section that is skipped, maybe inside a comment block. -/
  | sectionEntered (phrase : Text) (inComment : Bool)
  /-- A line went with a skipped section. -/
  | lineSkipped (line : Line)
  /-- The title of a banner went with the banner's lower edge. -/
  | titleDropped (title : Line)
  /-- A line went by the rule of that name. -/
  | lineDropped (rule : String) (line : Line)
  /-- A comment block went for a phrase in it. -/
  | verboseCommentDropped (size : Nat)
  /-- A comment block went for its length. -/
  | longCommentDropped (size : Nat)
  /-- The document ended inside a comment block. -/
  | commentUnclosed (size : Nat)
  /-- The entry function was not found. -/
  | headerMissing (header : Text)
  /-- The entry function, which starts at that byte, never closes. -/
  | blockUnclosed (start : Nat)
  /-- A file had nothing to abridge. -/
  | alreadySimple (path : Text)
  /-- A file would have been written, but for the dry run. -/
  | writeWithheld (path : Text)
  /-- A file went from one number of bytes to another. -/
  | resized (path : Text) (before after : Nat)
  /-- A file could not be handled. -/
  | fileFailed (path : Text) (reason : String)
  /-- The settings of the run. -/
  | configured (settings : String)

namespace Event

def level : Event → Level
  | .lineSkipped _ | .titleDropped _ | .lineDropped _ _ => .trace
  | .writeWithheld _ => .info
  | .blockUnclosed _ | .fileFailed _ _ => .warn
  | _ => .debug

def topic : Event → String
  | .headerMissing _ | .blockUnclosed _ => "entry_block::api"
  | .alreadySimple _ | .writeWithheld _ | .resized _ _ _ => "simplify_snippet::processor"
  | .fileFailed _ _ => "simplify_snippet::batch"
  | .configured _ => "simplify_snippet"
  | _ => "noise_filter"

def message : Event → String
  | .sectionEntered phrase false => s!"entering skipped section at '{phrase.toString}'"
  | .sectionEntered phrase true => s!"entering skipped section at '{phrase.toString}' inside a block comment"
  | .lineSkipped line => s!"skipped section line: {line.toString}"
  | .titleDropped title => s!"dropped banner title: {title.toString}"
  | .lineDropped rule line => s!"dropped line ({rule}): {line.toString}"
  | .verboseCommentDropped size => s!"dropped verbose block comment of {size} lines"
  | .longCommentDropped size => s!"dropped block comment of {size} lines"
  | .commentUnclosed size => s!"block comment not closed before end of document ({size} lines)"
  | .headerMissing header => s!"entry header '{header.toString}' not found; leaving document as-is"
  | .blockUnclosed start => s!"entry block starting at byte {start} never closes; skipping truncation"
  | .alreadySimple path => s!"{path.toString} already simplified"
  | .writeWithheld path => s!"dry run: not writing {path.toString}"
  | .resized path before after => s!"{path.toString}: {before} -> {after} bytes"
  | .fileFailed path reason => s!"failed to process {path.toString}: {reason}"
  | .configured settings => settings

end Event

end Abridge
