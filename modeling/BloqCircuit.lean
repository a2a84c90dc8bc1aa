import BloqCircuit.Main
import BloqCircuit.Builder.Script
import BloqCircuit.Bloq.Diagram
import BloqCircuit.Proofs.RoundTrip.Circuits
import BloqCircuit.Proofs.RoundTrip.Composites
import BloqCircuit.Proofs.Reference
import BloqCircuit.Proofs.Naming
import BloqCircuit.Proofs.Walks
import BloqCircuit.Proofs.Nesting
import BloqCircuit.Proofs.ImportedTensors
import BloqCircuit.Proofs.Accounting
import BloqCircuit.Proofs.AdjointTensors
import BloqCircuit.Proofs.NestedTensors
import BloqCircuit.Proofs.Traversals
import BloqCircuit.Proofs.RoundTrip.Sources
import BloqCircuit.Proofs.Balance
import BloqCircuit.Proofs.Renamed.Evaluation
import BloqCircuit.Proofs.Failures
import BloqCircuit.Proofs.Deliveries
import BloqCircuit.Proofs.Rewrapping
import BloqCircuit.Proofs.RaisedTensors
import BloqCircuit.Proofs.Involution
import BloqCircuit.Proofs.Consumption
import BloqCircuit.Proofs.Custody
import BloqCircuit.Proofs.Renamed.Import
import BloqCircuit.Proofs.Renamed.Conversions
import BloqCircuit.Proofs.Ownership
import BloqCircuit.Proofs.Json.Readable
import BloqCircuit.Proofs.Schedules
import BloqCircuit.Proofs.Inverses
import BloqCircuit.Proofs.Operands
import BloqCircuit.Proofs.Distinctness
import BloqCircuit.Proofs.GatePowers
import BloqCircuit.Proofs.Strands
import BloqCircuit.Proofs.Refusals
import BloqCircuit.Proofs.Acceptance
import BloqCircuit.Proofs.Generations
import BloqCircuit.Proofs.Diagrams
import BloqCircuit.Proofs.Kinds
import BloqCircuit.Proofs.Expansion
import BloqCircuit.Proofs.RowMajor
import BloqCircuit.Proofs.Signatures
import BloqCircuit.Proofs.RoundTrip.Command
