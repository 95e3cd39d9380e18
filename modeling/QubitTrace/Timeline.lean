import QubitTrace.Fault

/-! # Timelines

What is reported of a run: for each of its states the observables of every qubit and the
figures of the whole register. `Timeline.assemble` builds the report, checking each state
and each reduced operator on the way if the configuration asks for it.
-/

namespace QubitTrace
set_option autoImplicit false

/-- Figures of the whole register at one step. -/
structure SystemMetrics (K : Type) where
  entropy : K
  purity : K
  /-- Always one: the simulation is without noise. -/
  fidelity : K
  /-- Whether purity and entropy suggest entanglement. -/
  isEntangled : Bool
  /-- The largest entropy of a single qubit. -/
  maxQubitEntropy : K
  deriving BEq, Repr

/-- The report of one step; step 0 is the initial state. -/
structure Step (K : Type) where
  number : Nat
  qubits : List (QubitObservables K)
  metrics : SystemMetrics K
  deriving BEq, Repr

/-- The reports of a run in order, and the state it ended in, if that is known. -/
structure Timeline (K : Type) where
  qubits : Nat
  steps : List (Step K)
  finalState : Option (StateVector K)

namespace Timeline

variable {K : Type}

/-- The report after the last gate. -/
def finalStep (t : Timeline K) : Option (Step K) := t.steps.getLast?

variable [Scalar K]

/-- Purity below three fifths together with entropy above one half suggests entanglement. -/
def showsEntanglement (purity entropy : K) : Bool :=
  decide (purity < Scalar.ofDecimal 6 (-1)) && decide (Scalar.ofDecimal 5 (-1) < entropy)

variable [Spectral K]

/-- The figures of the whole register. -/
def metrics (ρ : DensityOperator K) (qubits : List (QubitObservables K)) : SystemMetrics K :=
  let purity := Observable.purity ρ
  let entropy := Observable.entropy ρ
  { entropy, purity
    fidelity := 1
    isEntangled := decide (1 < ρ.qubits) &&
      (showsEntanglement purity entropy || qubits.any fun q => showsEntanglement q.purity q.entropy)
    maxQubitEntropy := qubits.foldl (fun most q => Scalar.atLeast most q.entropy) 0 }

/-- The observables of one qubit of a register, checked if the configuration asks for it. -/
def qubitReport (config : Config K) (ρ : DensityOperator K) (q : Nat) :
    Except (Fault K) (QubitObservables K) := do
  let reduced ← (ρ.reduceToQubit q).mapError .trace
  let observables ←
    (QubitObservables.ofReduced q reduced config.hermitianTolerance).mapError Fault.ofObservable
  if config.validateSnapshots then
    (Invariant.positive reduced config.hermitianTolerance).mapError .invariant
    (Invariant.purityBounds observables.purity reduced.dim config.normTolerance).mapError
      .invariant
  return observables

/-- The report of a state of `n` qubits as step `number`. -/
def report (config : Config K) (n number : Nat) (ψ : StateVector K) :
    Except (Fault K) (Step K) := do
  if ψ.qubits ≠ n then .error (.timeline (.sizeMismatch number ψ.qubits n))
  else
    let ρ := DensityOperator.ofState ψ
    if config.validateSnapshots then
      (Invariant.normalized ψ config.normTolerance).mapError .invariant
      (Invariant.density ρ config.hermitianTolerance).mapError .invariant
    let qubits ← (List.range n).mapM (qubitReport config ρ)
    return { number, qubits, metrics := metrics ρ qubits }

/-- The timeline of a list of states of `n` qubits. -/
def assemble (config : Config K) (n : Nat) (states : List (StateVector K)) :
    Except (Fault K) (Timeline K) :=
  match states.getLast? with
  | none => .error (.timeline .noStates)
  | some last => do
    let steps ← states.zipIdx.mapM fun (ψ, number) => report config n number ψ
    return ⟨n, steps, some last⟩

end Timeline

end QubitTrace
