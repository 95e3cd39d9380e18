import QubitTrace.Fault

/-! # Trajectories

The states a circuit passes through: the initial one, then one after each gate.
Measurements and barriers leave no trace.
-/

namespace QubitTrace
set_option autoImplicit false

namespace Evolution

variable {K : Type} [Scalar K]

/-- The states from `ψ` on, one more after each gate. -/
def states (ψ : StateVector K) : List (Operation K) → Except (Fault K) (List (StateVector K))
  | [] => .ok [ψ]
  | .gate g qubits :: ops => do
    let next ← (apply ψ g qubits).mapError .application
    return ψ :: (← states next ops)
  | .measure _ _ :: ops | .barrier _ :: ops => states ψ ops

/-- The state a run of `n` qubits starts from; a given one must fit and be normalized. -/
def start (tolerance : K) (n : Nat) : Option (StateVector K) → Except (Fault K) (StateVector K)
  | none => (StateVector.zero n).mapError .state
  | some ψ => do
    if ψ.qubits ≠ n then .error (.initialState ψ.qubits n)
    else
      (Invariant.normalized ψ tolerance).mapError .invariant
      return ψ

/-- The states a circuit passes through. -/
def trajectory (tolerance : K) (c : Circuit K) (initial : Option (StateVector K)) :
    Except (Fault K) (List (StateVector K)) := do
  c.validate.mapError .circuit
  let ψ ← start tolerance c.qubits initial
  states ψ c.operations

end Evolution

end QubitTrace
