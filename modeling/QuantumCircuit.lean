import QuantumCircuit.Circuit.Builder
import QuantumCircuit.Circuit.Compose
import QuantumCircuit.Report.Circuit
import QuantumCircuit.Serial.Codec
import QuantumCircuit.Circuit.Assignment
import QuantumCircuit.Proofs.Keeping
import QuantumCircuit.Proofs.Checking
import QuantumCircuit.Proofs.Nesting
import QuantumCircuit.Proofs.Store
import QuantumCircuit.Proofs.Tracking
import QuantumCircuit.Proofs.Occurrence
import QuantumCircuit.Proofs.Bodies
import QuantumCircuit.Proofs.Reach
import QuantumCircuit.Proofs.Naming
import QuantumCircuit.Proofs.Takeover
import QuantumCircuit.Proofs.ParameterNames
import QuantumCircuit.Proofs.Substitution
import QuantumCircuit.Proofs.Fitting
import QuantumCircuit.Proofs.Leaves
import QuantumCircuit.Proofs.Renamed
import QuantumCircuit.Proofs.Moving
import QuantumCircuit.Proofs.Planning
import QuantumCircuit.Proofs.Taking
import QuantumCircuit.Proofs.Splicing
import QuantumCircuit.Proofs.Composing
import QuantumCircuit.Proofs.Scoping
import QuantumCircuit.Proofs.Capturing
import QuantumCircuit.Proofs.Sparing
import QuantumCircuit.Proofs.Closing
import QuantumCircuit.Proofs.Finishing
import QuantumCircuit.Proofs.Programs
import QuantumCircuit.Proofs.Running
import QuantumCircuit.Proofs.Settling
import QuantumCircuit.Proofs.Standing
import QuantumCircuit.Proofs.Composed
import QuantumCircuit.Proofs.Positions
import QuantumCircuit.Proofs.Relocating
import QuantumCircuit.Proofs.Forms
import QuantumCircuit.Proofs.Adding
import QuantumCircuit.Proofs.Spanning
import QuantumCircuit.Proofs.Footprints
import QuantumCircuit.Proofs.Mirroring
import QuantumCircuit.Proofs.Transparent
import QuantumCircuit.Proofs.Refusing
import QuantumCircuit.Proofs.Scripts
import QuantumCircuit.Proofs.Enclosing
import QuantumCircuit.Proofs.Lapsing
import QuantumCircuit.Proofs.Unwinding
import QuantumCircuit.Proofs.WellFormed
import QuantumCircuit.Proofs.Rewriting
import QuantumCircuit.Proofs.Images
import QuantumCircuit.Proofs.Gaining
import QuantumCircuit.Proofs.Restoring
import QuantumCircuit.Proofs.Binders
import QuantumCircuit.Proofs.Decomposing
import QuantumCircuit.Proofs.Folding
import QuantumCircuit.Proofs.Assigning
import QuantumCircuit.Proofs.Agreeing
import QuantumCircuit.Proofs.Restricting
import QuantumCircuit.Proofs.Valuing
import QuantumCircuit.Proofs.Merging
import QuantumCircuit.Proofs.Filling
import QuantumCircuit.Proofs.Summarizing
import QuantumCircuit.Proofs.Commuting
import QuantumCircuit.Proofs.Growing
import QuantumCircuit.Proofs.Timing
import QuantumCircuit.Proofs.Admitting
import QuantumCircuit.Proofs.Framing
import QuantumCircuit.Proofs.Stacking
import QuantumCircuit.Proofs.Answering
import QuantumCircuit.Proofs.Accepting
import QuantumCircuit.Proofs.Shadowing
import QuantumCircuit.Proofs.Reporting
import QuantumCircuit.Proofs.Resolving
import QuantumCircuit.Proofs.Jumping
import QuantumCircuit.Proofs.Following
import QuantumCircuit.Proofs.Looking
import QuantumCircuit.Proofs.Replaying
import QuantumCircuit.Proofs.Locating
import QuantumCircuit.Proofs.Tallying
import QuantumCircuit.Proofs.Prepending
import QuantumCircuit.Proofs.CriticalPath
import QuantumCircuit.Proofs.Broadcasting
import QuantumCircuit.Proofs.Inferring
import QuantumCircuit.Proofs.Chaining
import QuantumCircuit.Proofs.Drawing
import QuantumCircuit.Proofs.Measuring
import QuantumCircuit.Proofs.Repeating
import QuantumCircuit.Proofs.Lifting
import QuantumCircuit.Proofs.Simplifying
import QuantumCircuit.Proofs.Decoding
