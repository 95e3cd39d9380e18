import QubitTrace.Circuit.Diagram
import QubitTrace.Config.Document
import QubitTrace.Density.Text
import QubitTrace.Density.Tridiagonal
import QubitTrace.Json.Writer
import QubitTrace.Proofs.Angle.Halves
import QubitTrace.Proofs.Basis.Scatter
import QubitTrace.Proofs.Bloch.Hermiticity
import QubitTrace.Proofs.Bloch.Path
import QubitTrace.Proofs.Circuit.Diagram
import QubitTrace.Proofs.Circuit.History
import QubitTrace.Proofs.Density.Locality
import QubitTrace.Proofs.Density.Tracing
import QubitTrace.Proofs.Evolution.Commuting
import QubitTrace.Proofs.Evolution.Control
import QubitTrace.Proofs.Evolution.Norm
import QubitTrace.Proofs.Evolution.Refusal
import QubitTrace.Proofs.Evolution.Rotation
import QubitTrace.Proofs.Evolution.Undo
import QubitTrace.Proofs.Evolution.Word
import QubitTrace.Proofs.Program.Bounds
import QubitTrace.Proofs.Program.Breaks
import QubitTrace.Proofs.Program.Offsets
import QubitTrace.Proofs.Program.Transcript
import QubitTrace.Proofs.Service.Reduced
import QubitTrace.Proofs.Service.Status
import QubitTrace.Proofs.Service.Wire
import QubitTrace.Proofs.Timeline.Checked
import QubitTrace.Proofs.Timeline.Complement
import QubitTrace.Proofs.Timeline.Phase
import QubitTrace.Proofs.Timeline.Product
import QubitTrace.Proofs.Timeline.Relabel
import QubitTrace.Proofs.Timeline.Tolerance
import QubitTrace.Service
import QubitTrace.State.Random
import QubitTrace.Timeline.Text
