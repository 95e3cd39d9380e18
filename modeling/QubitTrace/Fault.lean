import QubitTrace.Config
import QubitTrace.Evolution
import QubitTrace.Invariant
import QubitTrace.Program.Interpreter
import QubitTrace.State.Text

/-! # Faults

Everything that can go wrong between a description of a circuit and its timeline, by
cause. Each fault belongs to one of five kinds; the kind gives the heading of its text and
says whether the request is to blame.
-/

namespace QubitTrace
set_option autoImplicit false

/-- The five kinds of faults. -/
inductive FaultKind where
  /-- The circuit, or what it is applied to, makes no sense. -/
  | invalidCircuit
  /-- An operator has the wrong dimensions. -/
  | shapeMismatch
  /-- A number breaks a physical invariant. -/
  | numericAnomaly
  | configuration
  /-- A request could not be decoded. -/
  | serialization
  deriving DecidableEq, Repr

namespace FaultKind

/-- The words in front of a fault's own text. -/
def heading : FaultKind → String
  | invalidCircuit => "Invalid Circuit: "
  | shapeMismatch => "Shape Mismatch: "
  | numericAnomaly => "Numeric Anomaly: "
  | configuration => "Configuration Error: "
  | serialization => "Serialization Error: "

/-- Whether the request is to blame, rather than the service. -/
def isClient : FaultKind → Bool
  | invalidCircuit | shapeMismatch | serialization => true
  | numericAnomaly | configuration => false

end FaultKind

/-- Why a request is not understood. -/
inductive RequestFault where
  /-- The body is not one JSON document. -/
  | malformed
  /-- The document is none of the known requests. -/
  | unknownShape
  deriving DecidableEq, Repr

/-- Why states make no timeline. -/
inductive TimelineFault where
  | noStates
  /-- A state has another number of qubits than the timeline. -/
  | sizeMismatch (step actual expected : Nat)
  deriving DecidableEq, Repr

/-- What a finished run should have left behind. -/
inductive Missing where
  | states
  | finalState
  | observables
  deriving DecidableEq, Repr

/-- Anything that can go wrong. -/
inductive Fault (K : Type) where
  | angle (fault : AngleFault)
  | words (fault : WordFault)
  | program (fault : ProgramFault K)
  | circuit (fault : CircuitFault K)
  | state (fault : StateFault K)
  | application (fault : ApplicationFault K)
  /-- A circuit on more qubits than the simulator allows. -/
  | tooManyQubits (qubits max : Nat)
  /-- An initial state on another number of qubits than the circuit. -/
  | initialState (actual expected : Nat)
  | trace (fault : TraceFault)
  | shape (fault : ShapeFault)
  | imaginary (axis : Axis) (im : K)
  | invariant (fault : InvariantFault K)
  | timeline (fault : TimelineFault)
  | missing (what : Missing)
  | config (fault : ConfigFault K)
  | request (fault : RequestFault)

/-- The fault of a state: a norm off one is a numeric anomaly, all else an invalid circuit. -/
def StateFault.kind {K : Type} : StateFault K → FaultKind
  | .notNormalized _ _ => .numericAnomaly
  | _ => .invalidCircuit

namespace Fault

variable {K : Type}

def ofObservable : ObservableFault K → Fault K
  | .shape fault => .shape fault
  | .imaginary axis im => .imaginary axis im
  | .trace fault => .trace fault

def kind : Fault K → FaultKind
  | angle _ | words _ | program _ | circuit _ | application _ | tooManyQubits _ _
  | initialState _ _ | trace _ | timeline _ => .invalidCircuit
  | state fault => fault.kind
  | shape _ => .shapeMismatch
  | imaginary _ _ | invariant _ | missing _ => .numericAnomaly
  | config _ => .configuration
  | request _ => .serialization

/-- Whether the request is to blame. -/
def isClient (f : Fault K) : Bool := f.kind.isClient

end Fault

open Decimal (natText shortest scientific)

/-- A complex number with both parts in the fewest digits that read back. -/
def Complex.shortestText (z : Complex Float) : String :=
  let magnitude (x : Float) : String := shortest (if x < 0 then 0 - x else x)
  let sign := if z.re < 0 then "-" else ""
  let joint := if z.im < 0 then "-" else "+"
  s!"{sign}{magnitude z.re}{joint}{magnitude z.im}i"

def TraceFault.message : TraceFault → String
  | .outOfRange q n => s!"cannot trace out qubit {natText q} of a {natText n}-qubit operator"
  | .repeatedQubit q => s!"qubit {natText q} listed twice for tracing out"
  | .everyQubit => "cannot trace out every qubit of the operator"
  | .noTarget q n => s!"qubit index {natText q} out of range for {natText n} qubits"

def ShapeFault.message (f : ShapeFault) : String :=
  s!"expected {natText f.expected.1}x{natText f.expected.2}, " ++
    s!"got {natText f.actual.1}x{natText f.actual.2}"

def Axis.name : Axis → String
  | .x => "x"
  | .y => "y"
  | .z => "z"

def InvariantFault.message : InvariantFault Float → String
  | .norm normSq tolerance =>
    s!"state vector normalization failed: sum(|c_i|^2) = {shortest normSq} " ++
      s!"(deviation > {shortest tolerance})"
  | .hermitian r c deviation =>
    s!"operator is not Hermitian: |rho[{natText r},{natText c}] - " ++
      s!"conj(rho[{natText c},{natText r}])| = {scientific 3 deviation}"
  | .trace t tolerance =>
    s!"operator trace is {t.shortestText} (expected 1 within {shortest tolerance})"
  | .negativeEigenvalue eigenvalue =>
    s!"operator has negative eigenvalue {scientific 3 eigenvalue}"
  | .purity p lower dim =>
    s!"purity {shortest p} outside [{shortest lower}, 1] for dimension {natText dim}"

def TimelineFault.message : TimelineFault → String
  | .noStates => "no states to assemble into a timeline"
  | .sizeMismatch step actual expected =>
    s!"step {natText step} holds {natText actual} qubit(s), expected {natText expected}"

def Missing.message : Missing → String
  | .states => "evolution produced no states"
  | .finalState => "timeline has no final state"
  | .observables => "timeline has no qubit observables"

def ConfigFault.message : ConfigFault Float → String
  | .document => "malformed configuration document"
  | .notPositive field value => s!"{field.key} must be a positive number, got {shortest value}"
  | .maxQubits n =>
    s!"max_qubits must be between 1 and {natText Config.ceiling}, got {natText n}"

def RequestFault.message : RequestFault → String
  | .malformed => "malformed JSON document"
  | .unknownShape => "data did not match any variant of untagged enum SimulationRequest"

namespace Fault

/-- The fault's own text, without the heading of its kind. -/
def detail : Fault Float → String
  | angle fault => fault.message
  | words fault => fault.message
  | program fault => fault.message
  | circuit fault => fault.message
  | state fault => fault.message
  | application fault => fault.message
  | tooManyQubits n max =>
    s!"circuit uses {natText n} qubits, more than the configured maximum of {natText max}"
  | initialState actual expected =>
    s!"initial state has {natText actual} qubit(s) but the circuit acts on {natText expected}"
  | trace fault => fault.message
  | shape fault => fault.message
  | imaginary axis im =>
    s!"Bloch {axis.name}-component has imaginary part {scientific 3 im}"
  | invariant fault => fault.message
  | timeline fault => fault.message
  | missing what => what.message
  | config fault => fault.message
  | request fault => fault.message

/-- The full text of a fault. -/
def message (f : Fault Float) : String := f.kind.heading ++ f.detail

end Fault

end QubitTrace
