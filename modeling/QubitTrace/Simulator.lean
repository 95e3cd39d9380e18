import QubitTrace.Timeline
import QubitTrace.Trajectory

/-! # Simulators

A simulator runs circuits, gate words and programs under one configuration.
-/

namespace QubitTrace
set_option autoImplicit false

/-- Something that runs circuits under a configuration. -/
structure Simulator (K : Type) where
  config : Config K

namespace Simulator

variable {K : Type} [Scalar K]

/-- The simulator of the default configuration. -/
def default : Simulator K := ⟨Config.default⟩

/-- The simulator of a configuration that keeps its bounds. -/
def ofConfig (config : Config K) : Except (Fault K) (Simulator K) := do
  config.validate.mapError .config
  return ⟨config⟩

/-- The states a circuit passes through, from all bits zero unless another state is given. -/
def evolve (s : Simulator K) (c : Circuit K) (initial : Option (StateVector K)) :
    Except (Fault K) (List (StateVector K)) :=
  if s.config.maxQubits < c.qubits then .error (.tooManyQubits c.qubits s.config.maxQubits)
  else Evolution.trajectory s.config.normTolerance c initial

/-- The state after the last gate. -/
def finalState (s : Simulator K) (c : Circuit K) : Except (Fault K) (StateVector K) := do
  match (← s.evolve c none).getLast? with
  | some ψ => return ψ
  | none => .error (.missing .states)

/-- The circuit of a text of gate words. -/
def readWords (s : Simulator K) (source : Text) : Except (Fault K) (Circuit K) :=
  (Words.parse s.config.mode source).mapError .words

/-- The circuit of a program, on the given number of qubits if there is one. -/
def readProgram (s : Simulator K) (expected : Option Nat) (source : Text) :
    Except (Fault K) (Circuit K) :=
  (Program.parse ⟨s.config.mode, some s.config.maxQubits⟩ expected source).mapError .program

/-- The timeline of a circuit. -/
def run [Spectral K] (s : Simulator K) (c : Circuit K) : Except (Fault K) (Timeline K) := do
  Timeline.assemble s.config c.qubits (← s.evolve c none)

end Simulator

end QubitTrace
