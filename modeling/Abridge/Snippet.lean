import Abridge.Code.Block
import Abridge.Noise.Clean
import Abridge.Package.Clause

/-!
Abridging one snippet: clean it of noise, cut it behind its entry function, relabel its package and, if
asked to, give it a package declaration.
-/

namespace Abridge

/-- The choices that a user has for each document. -/
structure Options where
  strategy : Code.Strategy := .lexical
  ensureHeader : Bool := false
  deriving DecidableEq, Repr

namespace Snippet

/-- The clean snippet, cut behind its entry function. -/
def core (o : Options) (t : Text) : Text := Code.cut o.strategy entryHeader (Noise.clean t)

def abridge (o : Options) (t : Text) : Text :=
  let relabelled := Package.relabel sourceLabel targetLabel (core o t)
  if o.ensureHeader then Package.ensureHeader targetLabel relabelled else relabelled

def notes (o : Options) (t : Text) : List Event :=
  Noise.cleanNotes t ++ Code.cutNotes o.strategy entryHeader (Noise.clean t)

end Snippet

end Abridge
