import Cddl.Proofs.Acceptance
import Cddl.Proofs.Composition
import Cddl.Proofs.Continuation
import Cddl.Proofs.Publication
import Cddl.Proofs.Layout
import Cddl.Proofs.Placement
import Cddl.Proofs.Breakage
import Cddl.Proofs.Usage
import Cddl.Proofs.Cut
import Cddl.Proofs.Viable
import Cddl.Proofs.Postponed
import Cddl.Proofs.Rejection
import Cddl.Proofs.Validation
import Cddl.Proofs.Retention
import Cddl.Proofs.Isolation
import Cddl.Proofs.Declaration
import Cddl.Proofs.Scope
import Cddl.Proofs.Gap
import Cddl.Proofs.Mode
import Cddl.Proofs.Arrival
import Cddl.Proofs.Relabel
import Cddl.Proofs.Alignment
import Cddl.Proofs.Reach
import Cddl.Proofs.Relocation
import Cddl.Proofs.Margin
import Cddl.Proofs.Surround
import Cddl.Proofs.Prologue
import Cddl.Proofs.Juxtaposition
import Cddl.Proofs.LineEnding
import Cddl.Proofs.LineReading
import Cddl.Proofs.LineParse
import Cddl.Proofs.Position
import Cddl.Proofs.Diagnostic
import Cddl.Proofs.Outline
import Cddl.Proofs.Location
import Cddl.Proofs.Closing
import Cddl.Proofs.Decoding
import Cddl.Proofs.Partition
import Cddl.Proofs.Parenthesis
import Cddl.Proofs.Word
import Cddl.Proofs.LineWord
import Cddl.Proofs.Lookup
import Cddl.Proofs.Completion
import Cddl.Proofs.Resolution
import Cddl.Proofs.Settings
import Cddl.Proofs.Literal
import Cddl.Proofs.Expectation
