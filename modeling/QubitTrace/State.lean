import QubitTrace.Basis.Index
import QubitTrace.Complex

/-! # State vectors

Pure states of a register of qubits. Basis indices are little-endian: qubit `q` is bit `q`
of the index, so the amplitudes of two qubits stand in the order `00, 01, 10, 11` of
`q₁ q₀`.
-/

namespace QubitTrace
set_option autoImplicit false

/-- How many qubits a register has: at least one. -/
structure QubitCount where
  val : Nat
  positive : 0 < val

/-- A vector of `2 ^ qubits` amplitudes over at least one qubit. -/
structure StateVector (K : Type) where
  qubits : Nat
  positive : 0 < qubits
  amplitudes : Vector (Complex K) (Basis.dimension qubits)

/-- Why no state could be made. -/
inductive StateFault (K : Type) where
  | noQubits
  /-- The dimension of a state of that many qubits is no size. -/
  | overflow (qubits : Nat)
  | basisOutOfRange (index qubits : Nat)
  /-- The number of amplitudes is not a power of two from two on. -/
  | length (d : Nat)
  /-- The squared norm is further from one than the tolerance. -/
  | notNormalized (normSq tolerance : K)

namespace StateVector

variable {K : Type}

/-- The number of amplitudes. -/
def dim (ψ : StateVector K) : Nat := Basis.dimension ψ.qubits

/-- The largest number of qubits with a dimension that is a size. -/
def maxQubits : Nat := 63

/-- The number of qubits, when it has a dimension. -/
def register (n : Nat) : Except (StateFault K) QubitCount :=
  if positive : 0 < n then
    if n ≤ maxQubits then .ok ⟨n, positive⟩ else .error (.overflow n)
  else .error .noQubits

variable [Scalar K]

/-- The basis state with amplitude one at `index`. -/
def basis (n index : Nat) : Except (StateFault K) (StateVector K) := do
  let n ← register n
  if index < Basis.dimension n.val then
    return ⟨n.val, n.positive, Vector.ofFn fun i => if i.val = index then 1 else 0⟩
  else .error (.basisOutOfRange index n.val)

/-- The basis state with all bits zero. -/
def zero (n : Nat) : Except (StateFault K) (StateVector K) := basis n 0

/-- The squared norm, added up in the order of the amplitudes. -/
def normSq (ψ : StateVector K) : K := ψ.amplitudes.foldl (fun total c => total + c.normSq) 0

/-- Whether the squared norm is off one by more than the tolerance. -/
def deviates (ψ : StateVector K) (tolerance : K) : Bool :=
  decide (tolerance < Scalar.abs (ψ.normSq - 1))

/-- The tolerance of the squared norm unless another one is given. -/
def defaultTolerance : K := Scalar.ofDecimal 1 (-9)

/-- A state of given amplitudes, which are kept as they are. -/
def ofAmplitudes (amplitudes : Array (Complex K)) (tolerance : K) :
    Except (StateFault K) (StateVector K) :=
  let d := amplitudes.size
  if h : 2 ≤ d ∧ Basis.dimension (Nat.log2 d) = d then
    let ψ : StateVector K :=
      { qubits := Nat.log2 d
        positive := Basis.log2_pos_of_dimension h.1 h.2
        amplitudes := ⟨amplitudes, h.2.symm⟩ }
    if ψ.deviates tolerance then .error (.notNormalized ψ.normSq tolerance) else .ok ψ
  else .error (.length d)

/-- The inner product, conjugate in the first state; none between registers of different sizes. -/
def inner? (ψ φ : StateVector K) : Option (Complex K) :=
  if ψ.qubits = φ.qubits then
    some (Complex.sum
      (List.zipWith (fun a b => a.conj * b) ψ.amplitudes.toList φ.amplitudes.toList))
  else none

/-- Whether two states agree entry by entry within a tolerance; phases count. -/
def approxEq (ψ φ : StateVector K) (tolerance : K) : Bool :=
  ψ.qubits == φ.qubits &&
    (List.zip ψ.amplitudes.toList φ.amplitudes.toList).all fun (a, b) =>
      decide ((a - b).norm ≤ tolerance)

/-- Equality entry by entry, as the scalars compare. -/
instance : BEq (StateVector K) where
  beq ψ φ := ψ.qubits == φ.qubits && ψ.amplitudes.toList == φ.amplitudes.toList

end StateVector

end QubitTrace
