import Abridge.Main
import Abridge.Proofs.Code.Tokens
import Abridge.Proofs.Noise.LookAhead
import Abridge.Proofs.Snippet.FixedPoints
import Abridge.Proofs.Snippet.Locality
import Abridge.Proofs.Code.Seams
import Abridge.Proofs.Code.Masking
import Abridge.Proofs.Code.Balance
import Abridge.Proofs.Snippet.EntryFunction
import Abridge.Proofs.Snippet.Order
import Abridge.Proofs.Batch.Isolation
import Abridge.Proofs.Snippet.PackageClause
import Abridge.Proofs.Command.DryRun
import Abridge.Proofs.Code.Offsets
import Abridge.Proofs.Code.Closing
import Abridge.Proofs.Code.FirstHeader
import Abridge.Proofs.Code.Ranges
import Abridge.Proofs.Tree.Discovery
import Abridge.Proofs.Noise.Registers
import Abridge.Proofs.Noise.GlyphRuns
