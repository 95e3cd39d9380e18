import QubitTrace.Basis.Index
import QubitTrace.Circuit
import QubitTrace.Gate.Matrix
import QubitTrace.State

/-! # Applying gates

A gate acts on the bits of its qubits in every basis index and leaves the other bits
alone. The amplitudes are visited in groups that differ in those bits only: one group for
each setting of the others, found by putting zeros in at the gate's bits. Every access to an
amplitude is checked.
-/

namespace QubitTrace
set_option autoImplicit false

/-- Why a gate cannot be applied to a state. -/
inductive ApplicationFault (K : Type) where
  | outOfRange (qubit size : Nat)
  /-- The list of qubits does not fit the gate. -/
  | unsuitable (gate : Gate K) (qubits : List Nat)

namespace ApplicationFault
open Decimal (natText)

def message {K : Type} : ApplicationFault K → String
  | outOfRange q n => s!"qubit index {natText q} out of range for {natText n} qubits"
  | unsuitable gate qubits =>
    s!"gate '{gate.name}' cannot act on qubits {CircuitFault.listText qubits}"

end ApplicationFault

namespace Evolution

variable {K : Type} [Scalar K] {d : Nat}

/-- Writes at an index of a vector, if it has one there. -/
def put? {α : Type} (out : Vector α d) (i : Nat) (x : α) : Option (Vector α d) :=
  if inside : i < d then some (out.set i x inside) else none

/-- A matrix on bit `target` of every index; there is no result if an access is out of range. -/
def applySingle? (m : SquareMatrix K 2) (target : Nat) (ψ : Vector (Complex K) d) :
    Option (Vector (Complex K) d) :=
  (List.range (d / 2)).foldlM (fun out i => do
    let i₀ := Basis.insertZeroBit i target
    let i₁ := i₀ ||| 1 <<< target
    let a₀ ← ψ[i₀]?
    let a₁ ← ψ[i₁]?
    let out ← put? out i₀ (m.entry 0 0 * a₀ + m.entry 0 1 * a₁)
    put? out i₁ (m.entry 1 0 * a₀ + m.entry 1 1 * a₁)) (Vector.replicate d 0)

/-- The vector after `applySingle?`; it stays as it is if there is no result. -/
def applySingle (m : SquareMatrix K 2) (target : Nat) (ψ : Vector (Complex K) d) :
    Vector (Complex K) d :=
  (applySingle? m target ψ).getD ψ

/-- The indices of a group, in the order of the local basis. -/
def group (first second i : Nat) : Vector Nat 4 :=
  let base := Basis.insertZeroBit (Basis.insertZeroBit i (min first second)) (max first second)
  #v[base, base ||| 1 <<< second, base ||| 1 <<< first, base ||| 1 <<< first ||| 1 <<< second]

/-- A matrix on bits `first` and `second` of every index, the first as the higher local bit; there
is no result if an access is out of range. -/
def applyPair? (m : SquareMatrix K 4) (first second : Nat) (ψ : Vector (Complex K) d) :
    Option (Vector (Complex K) d) :=
  (List.range (d / 4)).foldlM (fun out i => do
    let indices := group first second i
    let a₀ ← ψ[indices.get 0]?
    let a₁ ← ψ[indices.get 1]?
    let a₂ ← ψ[indices.get 2]?
    let a₃ ← ψ[indices.get 3]?
    let locals := #v[a₀, a₁, a₂, a₃]
    (List.finRange 4).foldlM (fun out row => put? out (indices.get row)
      (Complex.sum ((List.finRange 4).map fun col => m[row][col] * locals[col]))) out)
    (Vector.replicate d 0)

/-- The vector after `applyPair?`; it stays as it is if there is no result. -/
def applyPair (m : SquareMatrix K 4) (first second : Nat) (ψ : Vector (Complex K) d) :
    Vector (Complex K) d :=
  (applyPair? m first second ψ).getD ψ

/-- The state after a gate on the listed qubits. -/
def apply (ψ : StateVector K) (g : Gate K) (qubits : List Nat) :
    Except (ApplicationFault K) (StateVector K) :=
  match qubits.find? (ψ.qubits ≤ ·) with
  | some q => .error (.outOfRange q ψ.qubits)
  | none =>
    match g.matrix, qubits with
    | .single m, [target] => .ok { ψ with amplitudes := applySingle m target ψ.amplitudes }
    | .pair m, [first, second] =>
      if first = second then .error (.unsuitable g qubits)
      else .ok { ψ with amplitudes := applyPair m first second ψ.amplitudes }
    | _, _ => .error (.unsuitable g qubits)

end Evolution

end QubitTrace
