import QubitTrace.Bloch
import QubitTrace.Density.Spectrum

/-! # Observables

Figures that describe a density operator: its purity, its entropy, and for one qubit the
point of the Bloch ball. Nothing is corrected on the way; an expectation value with an
imaginary part beyond the tolerance is an error.
-/

namespace QubitTrace
set_option autoImplicit false

/-- The axes of the Bloch ball. -/
inductive Axis where
  | x | y | z
  deriving DecidableEq, Repr

/-- Why an observable has no value. -/
inductive ObservableFault (K : Type) where
  /-- The operator is not that of one qubit. -/
  | shape (fault : ShapeFault)
  /-- An expectation value is not real. -/
  | imaginary (axis : Axis) (im : K)
  | trace (fault : TraceFault)

namespace Observable

variable {K : Type} [Scalar K]

/-- The real part of the trace of the squared operator: 1 for a pure state, less for a mixed one. -/
def purity (ρ : DensityOperator K) : K :=
  let entries := List.range ρ.dim
  (Complex.sum (entries.flatMap fun i => entries.map fun j => ρ.entry i j * ρ.entry j i)).re

/-- The eigenvalue from which on a state contributes to the entropy. -/
def leastEigenvalue : K := Scalar.ofDecimal 1 (-9)

/-- The entropy in bits, from the eigenvalues above `leastEigenvalue`; never negative. -/
def entropy [Spectral K] (ρ : DensityOperator K) : K :=
  let contributions := ((Spectral.eigenvalues ρ.entries).filter (leastEigenvalue < ·)).map
    fun p => -p * Scalar.log2 p
  Scalar.atLeast 0 (contributions.foldl (· + ·) 0)

/-- The Pauli operator of an axis. -/
def pauli : Axis → SquareMatrix K 2
  | .x => Gate.pauliX
  | .y => Gate.pauliY
  | .z => Gate.pauliZ

/-- The trace of the product of an operator on one qubit with a Pauli operator. -/
def expectation (ρ : DensityOperator K) (axis : Axis) : Complex K :=
  let m : SquareMatrix K 2 := pauli axis
  Complex.sum [ρ.entry 0 0 * m.entry 0 0, ρ.entry 0 1 * m.entry 1 0,
    ρ.entry 1 0 * m.entry 0 1, ρ.entry 1 1 * m.entry 1 1]

/-- An expectation value with no imaginary part beyond the tolerance. -/
def realExpectation (ρ : DensityOperator K) (tolerance : K) (axis : Axis) :
    Except (ObservableFault K) K :=
  let value := expectation ρ axis
  if tolerance < Scalar.abs value.im then .error (.imaginary axis value.im) else .ok value.re

/-- The point of the Bloch ball of an operator on one qubit. -/
def blochVector (ρ : DensityOperator K) (tolerance : K) :
    Except (ObservableFault K) (BlochVector K) := do
  if ρ.qubits ≠ 1 then .error (.shape ⟨(2, 2), (ρ.dim, ρ.dim)⟩)
  else
    let x ← realExpectation ρ tolerance .x
    let y ← realExpectation ρ tolerance .y
    let z ← realExpectation ρ tolerance .z
    return ⟨x, y, z⟩

/-- The purity above which a state counts as pure. -/
def pureThreshold : K := Scalar.ofDecimal 999 (-3)

/-- Whether a purity counts as that of a pure state; an approximate test. -/
def isPure (purity : K) : Bool := decide (pureThreshold < purity)

/-- The tolerance of imaginary parts unless another one is given. -/
def defaultTolerance : K := Scalar.ofDecimal 1 (-9)

end Observable

/-- What is reported of one qubit. -/
structure QubitObservables (K : Type) where
  qubit : Nat
  bloch : BlochVector K
  entropy : K
  purity : K
  isPure : Bool
  deriving BEq, Repr

/-- What is reported of the qubits that remain after a partial trace. -/
structure SubsystemObservables (K : Type) where
  /-- The remaining qubits under their old numbers, in ascending order. -/
  remaining : List Nat
  purity : K
  entropy : K
  isPure : Bool
  /-- Known for one remaining qubit only. -/
  bloch : Option (BlochVector K)
  deriving BEq, Repr

variable {K : Type} [Scalar K] [Spectral K]

/-- The observables of a qubit, from its reduced operator. -/
def QubitObservables.ofReduced (qubit : Nat) (ρ : DensityOperator K) (tolerance : K) :
    Except (ObservableFault K) (QubitObservables K) := do
  let bloch ← Observable.blochVector ρ tolerance
  let purity := Observable.purity ρ
  return {
    qubit, bloch, purity
    entropy := Observable.entropy ρ
    isPure := Observable.isPure purity }

/-- The observables of what remains when the listed qubits are traced out. -/
def SubsystemObservables.afterTrace (ρ : DensityOperator K) (traced : List Nat) :
    Except (ObservableFault K) (SubsystemObservables K) := do
  let reduced ← (ρ.partialTrace traced).mapError .trace
  let purity := Observable.purity reduced
  let bloch ←
    if reduced.qubits = 1 then some <$> Observable.blochVector reduced Observable.defaultTolerance
    else pure none
  return {
    remaining := (List.range ρ.qubits).filter fun q => !traced.contains q
    purity, bloch
    entropy := Observable.entropy reduced
    isPure := Observable.isPure purity }

end QubitTrace
