import Mathlib
import QubitTrace.Basis.Index
import QubitTrace.Gate.Matrix

/-! # Gates in their local basis

What a gate does to its own qubits: the size and the entries of its matrix, the order in
which a row of it is added up, which gates act under a control, and the lists of qubits the gate
can be given.
-/

namespace QubitTrace
set_option autoImplicit false

variable {K : Type}

/-- The listed qubits are ones a register of `n` qubits can apply the gate to. -/
structure Gate.Fits (g : Gate K) (n : Nat) (qubits : List Nat) : Prop where
  length : qubits.length = g.arity
  distinct : qubits.Nodup
  range : ∀ q ∈ qubits, q < n

/-- There are no more different qubits of a register than it has. -/
theorem length_le_of_distinct {n : Nat} {qubits : List Nat} (distinct : qubits.Nodup)
    (range : ∀ q ∈ qubits, q < n) : qubits.length ≤ n := by
  have inside : qubits ⊆ List.range n := fun q mem => List.mem_range.2 (range q mem)
  simpa using (distinct.subperm inside).length_le

theorem Gate.Fits.length_le {g : Gate K} {n : Nat} {qubits : List Nat} (fits : g.Fits n qubits) :
    qubits.length ≤ n :=
  length_le_of_distinct fits.distinct fits.range

/-- The controlled gates, each with the gate that it applies to its second qubit. -/
inductive Gate.Controls : Gate K → Gate K → Prop
  | x : Controls .cx .x
  | y : Controls .cy .y
  | z : Controls .cz .z
  | h : Controls .ch .h
  | phase (lam : K) : Controls (.cphase lam) (.phase lam)
  | rx (θ : K) : Controls (.crx θ) (.rx θ)
  | ry (θ : K) : Controls (.cry θ) (.ry θ)
  | rz (θ : K) : Controls (.crz θ) (.rz θ)

theorem Gate.base?_eq_some_iff {g b : Gate K} : g.base? = some b ↔ g.Controls b := by
  constructor
  · intro based
    cases g <;> cases based <;> constructor
  · intro controls
    cases controls <;> rfl

theorem Gate.isControlled_iff {g : Gate K} : g.isControlled = true ↔ ∃ b, g.Controls b := by
  simp only [isControlled, Option.isSome_iff_exists, base?_eq_some_iff]

variable [Scalar K]

namespace GateMatrix

/-- The number of qubits the matrix acts on. -/
def arity : GateMatrix K → Nat
  | single _ => 1
  | pair _ => 2

omit [Scalar K] in
theorem exists_single {m : GateMatrix K} (one : m.arity = 1) : ∃ s, m = .single s := by
  cases m with
  | single s => exact ⟨s, rfl⟩
  | pair s => cases one

def entry : GateMatrix K → (r c : Nat) → Complex K
  | single m => m.entry
  | pair m => m.entry

/-- A row of the matrix times a vector of the local basis, in the order of the additions. -/
def row : GateMatrix K → (r : Nat) → (v : Nat → Complex K) → Complex K
  | single m, r, v => m.entry r 0 * v 0 + m.entry r 1 * v 1
  | pair m, r, v => Complex.sum ((List.range 4).map fun l => m.entry r l * v l)

theorem row_congr (m : GateMatrix K) (r : Nat) {v w : Nat → Complex K}
    (same : ∀ l, l < Basis.dimension m.arity → v l = w l) : m.row r v = m.row r w := by
  cases m with
  | single m =>
    have zero := same 0 (show 0 < Basis.dimension 1 by decide)
    have one := same 1 (show 1 < Basis.dimension 1 by decide)
    rw [row, row, zero, one]
  | pair m =>
    refine congrArg Complex.sum (List.map_congr_left fun l mem => ?_)
    rw [same l (List.mem_range.1 mem)]

end GateMatrix

theorem Gate.arity_matrix (g : Gate K) : g.matrix.arity = g.arity := by
  cases g <;> rfl

theorem Gate.arity_of_single {g : Gate K} {m : SquareMatrix K 2} (single : g.matrix = .single m) :
    g.arity = 1 := by
  rw [← g.arity_matrix, single, GateMatrix.arity]

theorem Gate.arity_of_pair {g : Gate K} {m : SquareMatrix K 4} (pair : g.matrix = .pair m) :
    g.arity = 2 := by
  rw [← g.arity_matrix, pair, GateMatrix.arity]

end QubitTrace
