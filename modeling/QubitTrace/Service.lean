import QubitTrace.Service.Request
import QubitTrace.Simulator
import QubitTrace.Timeline.Json

/-! # The service

Answers requests with replies. A run of gate words is answered with the state it ends in,
a run of a program with its timeline and, on demand, with what remains of the final state
after a partial trace. A fault becomes a reply with the status of its kind.
-/

namespace QubitTrace
set_option autoImplicit false

/-- The answer to a request that went well. -/
inductive Response (K : Type) where
  /-- The final state of a run of gate words and its point of the Bloch ball. -/
  | state (ψ : StateVector K) (bloch : BlochVector K) (source : String) (gates : Nat)
  /-- The steps of a run of a program on so many qubits, and what remains after a trace. -/
  | timeline (steps : List (Step K)) (qubits : Nat) (reduced : Option (SubsystemObservables K))

/-- What the service sends back. -/
structure Reply (K : Type) where
  outcome : Except (Fault K) (Response K)

namespace Service

variable {K : Type} [Scalar K] [Spectral K]

/-- The gate words that run where none are given. -/
def defaultWords : String := "H"

/-- The final state of a run, which every run has. -/
def finalState (t : Timeline K) : Except (Fault K) (StateVector K) :=
  match t.finalState with
  | some ψ => .ok ψ
  | none => .error (.missing .finalState)

/-- The point of the Bloch ball of the first qubit at the end of a run. -/
def finalBloch (t : Timeline K) : Except (Fault K) (BlochVector K) :=
  match t.finalStep.bind fun s => s.qubits.head? with
  | some q => .ok q.bloch
  | none => .error (.missing .observables)

/-- Runs gate words; a blank text stands for `defaultWords`. -/
def runWords (s : Simulator K) (source : String) : Except (Fault K) (Response K) := do
  let source := if Text.isBlankText source.toList then defaultWords else source
  let c ← s.readWords source.toList
  let t ← s.run c
  let ψ ← finalState t
  let bloch ← finalBloch t
  return .state ψ bloch source c.gateCount

/-- Runs a program and traces out the listed qubits of its final state, if any are listed. -/
def runProgram (s : Simulator K) (source : String) (qubits : Option Nat) (traced : List Nat) :
    Except (Fault K) (Response K) := do
  let c ← s.readProgram qubits source.toList
  let t ← s.run c
  let reduced ←
    if traced.isEmpty then pure none
    else do
      let ψ ← finalState t
      some <$> (SubsystemObservables.afterTrace (DensityOperator.ofState ψ) traced).mapError
        Fault.ofObservable
  return .timeline t.steps t.qubits reduced

/-- Runs a request. -/
def handle (s : Simulator K) : Request → Except (Fault K) (Response K)
  | .program source qubits traced => runProgram s source qubits traced
  | .words source => runWords s source

/-- Runs the request of a body. -/
def handleBody (s : Simulator K) (body : String) : Except (Fault K) (Response K) := do
  handle s (← (Request.decode body).mapError .request)

/-- The reply to a body; there always is one. -/
def respond (s : Simulator K) (body : String) : Reply K := ⟨handleBody s body⟩

/-- The answer to a question after the service itself. -/
def health {N : Type} : Json N :=
  .object [("status", .string "healthy"),
    ("message", .string "Bloch path simulation service is running")]

end Service

namespace Response

/-- The body of a response. -/
def toJson : Response Float → Json (Json.Number Float)
  | state ψ bloch source gates =>
    .object [("statevector", .string ψ.text),
      ("bloch_coordinates", .object [("x", Json.real bloch.x), ("y", Json.real bloch.y),
        ("z", Json.real bloch.z)]),
      ("circuit", .string source), ("gates_applied", Json.size gates), ("success", .bool true)]
  | timeline steps qubits reduced =>
    .object <| [("timeline", .array (steps.map Step.toJson)), ("num_qubits", Json.size qubits)]
      ++ (reduced.map fun r => ("reduced_subsystem", r.toJson)).toList
      ++ [("success", .bool true)]

end Response

namespace Reply

variable {K : Type}

/-- Whether the request went well. -/
def success (r : Reply K) : Bool :=
  match r.outcome with
  | .ok _ => true
  | .error _ => false

/-- 200 for a response, 400 for a fault of the request and 500 for any other. -/
def status (r : Reply K) : Nat :=
  match r.outcome with
  | .ok _ => 200
  | .error fault => if fault.isClient then 400 else 500

/-- The body of a reply. -/
def body (r : Reply Float) : Json (Json.Number Float) :=
  match r.outcome with
  | .ok response => response.toJson
  | .error fault => .object [("error", .string fault.message), ("success", .bool r.success)]

end Reply

end QubitTrace
