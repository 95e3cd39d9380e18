import QubitTrace.Complex
import QubitTrace.Gate

/-! # Gate matrices

The unitary of each gate in its local basis. For a gate on two qubits the row and column
index is `2 * b₀ + b₁`, where `b₀` is the bit of the first listed qubit and `b₁` that of
the second.
-/

namespace QubitTrace
set_option autoImplicit false

/-- A square matrix of complex numbers, by rows. -/
abbrev SquareMatrix (K : Type) (d : Nat) := Vector (Vector (Complex K) d) d

/-- The entry in a row and a column; nothing stands outside the matrix. -/
def SquareMatrix.entry {K : Type} [Scalar K] {d : Nat} (m : SquareMatrix K d) (r c : Nat) :
    Complex K :=
  ((m[r]?).bind (·[c]?)).getD 0

/-- The unitary of a gate, by the number of qubits it acts on. -/
inductive GateMatrix (K : Type) where
  | single (m : SquareMatrix K 2)
  | pair (m : SquareMatrix K 4)

namespace Gate

variable {K : Type} [Scalar K]

/-- `diag(1, e ^ (i * lam))`. -/
def phaseMatrix (lam : K) : SquareMatrix K 2 := #v[#v[1, 0], #v[0, Complex.polar 1 lam]]

def pauliX : SquareMatrix K 2 := #v[#v[0, 1], #v[1, 0]]

def pauliY : SquareMatrix K 2 := #v[#v[0, -Complex.i], #v[Complex.i, 0]]

def pauliZ : SquareMatrix K 2 := #v[#v[1, 0], #v[0, -1]]

def hadamard : SquareMatrix K 2 :=
  let r : Complex K := .ofReal (Scalar.sqrt (Scalar.ofDecimal 5 (-1)))
  #v[#v[r, r], #v[r, -r]]

/-- The rotation by `θ` about the first axis. -/
def rxMatrix (θ : K) : SquareMatrix K 2 :=
  let s := Scalar.sin (Scalar.half θ)
  let c := Scalar.cos (Scalar.half θ)
  #v[#v[⟨c, 0⟩, ⟨0, -s⟩], #v[⟨0, -s⟩, ⟨c, 0⟩]]

/-- The rotation by `θ` about the second axis. -/
def ryMatrix (θ : K) : SquareMatrix K 2 :=
  let s := Scalar.sin (Scalar.half θ)
  let c := Scalar.cos (Scalar.half θ)
  #v[#v[⟨c, 0⟩, ⟨-s, 0⟩], #v[⟨s, 0⟩, ⟨c, 0⟩]]

/-- The rotation by `θ` about the third axis. -/
def rzMatrix (θ : K) : SquareMatrix K 2 :=
  #v[#v[Complex.polar 1 (Scalar.half (-θ)), 0], #v[0, Complex.polar 1 (Scalar.half θ)]]

/-- The rotation by `θ` with the phases `φ` and `lam` of its columns. -/
def uMatrix (θ φ lam : K) : SquareMatrix K 2 :=
  let s := Scalar.sin (Scalar.half θ)
  let c := Scalar.cos (Scalar.half θ)
  #v[#v[⟨c, 0⟩, -Complex.polar s lam], #v[Complex.polar s φ, Complex.polar c (φ + lam)]]

/-- A square root of `x`, with the imaginary parts of sign `im`. -/
def rootOfX (im : K) : SquareMatrix K 2 :=
  let half : K := Scalar.ofDecimal 5 (-1)
  #v[#v[⟨half, im⟩, ⟨half, -im⟩], #v[⟨half, -im⟩, ⟨half, im⟩]]

/-- The identity where the first qubit is 0, and `m` on the second where it is 1. -/
def controlled (m : SquareMatrix K 2) : SquareMatrix K 4 :=
  #v[#v[1, 0, 0, 0], #v[0, 1, 0, 0], #v[0, 0, m.entry 0 0, m.entry 0 1],
    #v[0, 0, m.entry 1 0, m.entry 1 1]]

def swapMatrix : SquareMatrix K 4 :=
  #v[#v[1, 0, 0, 0], #v[0, 0, 1, 0], #v[0, 1, 0, 0], #v[0, 0, 0, 1]]

/-- The unitary of a gate. -/
def matrix : Gate K → GateMatrix K
  | id => .single #v[#v[1, 0], #v[0, 1]]
  | h => .single hadamard
  | x => .single pauliX
  | y => .single pauliY
  | z => .single pauliZ
  | s => .single (phaseMatrix (Scalar.half Scalar.pi))
  | sdg => .single (phaseMatrix (-Scalar.half Scalar.pi))
  | t => .single (phaseMatrix (Scalar.half (Scalar.half Scalar.pi)))
  | tdg => .single (phaseMatrix (-Scalar.half (Scalar.half Scalar.pi)))
  | sx => .single (rootOfX (Scalar.ofDecimal 5 (-1)))
  | sxdg => .single (rootOfX (-Scalar.ofDecimal 5 (-1)))
  | rx θ => .single (rxMatrix θ)
  | ry θ => .single (ryMatrix θ)
  | rz θ => .single (rzMatrix θ)
  | phase lam => .single (phaseMatrix lam)
  | u θ φ lam => .single (uMatrix θ φ lam)
  | cx => .pair (controlled pauliX)
  | cy => .pair (controlled pauliY)
  | cz => .pair (controlled pauliZ)
  | ch => .pair (controlled hadamard)
  | cphase lam => .pair (controlled (phaseMatrix lam))
  | crx θ => .pair (controlled (rxMatrix θ))
  | cry θ => .pair (controlled (ryMatrix θ))
  | crz θ => .pair (controlled (rzMatrix θ))
  | swap => .pair swapMatrix

end Gate

end QubitTrace
