import QubitTrace.Basis.Index
import QubitTrace.Gate.Matrix
import QubitTrace.State

/-! # Density operators

Mixed states of a register of qubits, as matrices in the same little-endian basis as state
vectors: qubit `q` is bit `q` of both the row and the column. Tracing out qubits keeps the
others in their order, the lowest as the new qubit 0.
-/

namespace QubitTrace
set_option autoImplicit false

/-- A matrix of dimension `2 ^ qubits` over at least one qubit. -/
structure DensityOperator (K : Type) where
  qubits : Nat
  positive : 0 < qubits
  entries : SquareMatrix K (Basis.dimension qubits)

/-- Why qubits cannot be traced out. -/
inductive TraceFault where
  | outOfRange (qubit size : Nat)
  | repeatedQubit (qubit : Nat)
  /-- No qubit would remain. -/
  | everyQubit
  /-- There is no such qubit to keep. -/
  | noTarget (qubit size : Nat)
  deriving DecidableEq, Repr

/-- The shape that an operator should have had, and the one it has. -/
structure ShapeFault where
  expected : Nat × Nat
  actual : Nat × Nat
  deriving DecidableEq, Repr

namespace DensityOperator

variable {K : Type}

/-- The dimension of the matrix. -/
def dim (ρ : DensityOperator K) : Nat := Basis.dimension ρ.qubits

variable [Scalar K]

/-- The entry in a row and a column. -/
def entry (ρ : DensityOperator K) (r c : Nat) : Complex K :=
  ρ.entries.entry r c

/-- The operator with the given entries. -/
def ofEntries (n : Nat) (positive : 0 < n) (entry : Nat → Nat → Complex K) : DensityOperator K :=
  ⟨n, positive, Vector.ofFn fun r => Vector.ofFn fun c => entry r c⟩

/-- A pure state's part in a mixture: weight times column times conjugate row. -/
def ofWeighted (weight : Complex K) (ψ : StateVector K) : DensityOperator K where
  qubits := ψ.qubits
  positive := ψ.positive
  entries := ψ.amplitudes.map fun a => ψ.amplitudes.map fun b => weight * a * b.conj

/-- The projection onto a pure state, which is the whole mixture. -/
def ofState (ψ : StateVector K) : DensityOperator K := ofWeighted 1 ψ

/-- The least power of two, from two on, that is no smaller than `n`. -/
def fittingDimension (n : Nat) : Nat := max 2 n.nextPowerOfTwo

/-- The operator of a square matrix, given row by row, whose dimension is a power of two. -/
def ofMatrix (rows cols : Nat) (data : Array (Complex K)) :
    Except ShapeFault (DensityOperator K) :=
  if h : rows = cols ∧ 2 ≤ rows ∧ Basis.dimension (Nat.log2 rows) = rows then
    have positive := Basis.log2_pos_of_dimension h.2.1 h.2.2
    .ok (ofEntries (Nat.log2 rows) positive fun r c => data[r * cols + c]?.getD 0)
  else .error ⟨(fittingDimension rows, fittingDimension rows), (rows, cols)⟩

/-- The state in which every basis state is equally likely. -/
def mixed (n : Nat) : Except (StateFault K) (DensityOperator K) := do
  let n ← StateVector.register n
  let weight : Complex K := .ofReal (1 / (Basis.dimension n.val : K))
  return ofEntries n.val n.positive fun r c => if r = c then weight else 0

/-- The sum of the diagonal. -/
def trace (ρ : DensityOperator K) : Complex K :=
  Complex.sum ((List.range ρ.dim).map fun i => ρ.entry i i)

/-- The first of a list of qubits that cannot be traced out after those in `seen`. -/
def traceFault? (n : Nat) : (seen : List Nat) → List Nat → Option TraceFault
  | _, [] => none
  | seen, q :: qubits =>
    if n ≤ q then some (.outOfRange q n)
    else if q ∈ seen then some (.repeatedQubit q)
    else traceFault? n (q :: seen) qubits

/-- The entry that remains when the qubits in `environment` are summed over. -/
def reducedEntry (ρ : DensityOperator K) (keep environment : List Nat) (r c : Nat) : Complex K :=
  let row := Basis.scatter r keep
  let col := Basis.scatter c keep
  Complex.sum ((List.range (Basis.dimension environment.length)).map fun e =>
    let bits := Basis.scatter e environment
    ρ.entry (row ||| bits) (col ||| bits))

/-- The operator of the qubits that remain when those listed are traced out. -/
def partialTrace (ρ : DensityOperator K) (qubits : List Nat) :
    Except TraceFault (DensityOperator K) :=
  match traceFault? ρ.qubits [] qubits with
  | some fault => .error fault
  | none =>
    if qubits.isEmpty then .ok ρ
    else
      let keep := (List.range ρ.qubits).filter fun q => !qubits.contains q
      let environment := (List.range ρ.qubits).filter fun q => qubits.contains q
      if remains : 0 < keep.length then
        .ok (ofEntries keep.length remains (ρ.reducedEntry keep environment))
      else .error .everyQubit

/-- The operator of one qubit, with all others traced out. -/
def reduceToQubit (ρ : DensityOperator K) (target : Nat) : Except TraceFault (DensityOperator K) :=
  if target < ρ.qubits then
    ρ.partialTrace ((List.range ρ.qubits).filter (· ≠ target))
  else .error (.noTarget target ρ.qubits)

end DensityOperator

end QubitTrace
