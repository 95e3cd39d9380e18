import Mathlib
import QubitTrace.Proofs.Circuit.Reachable

/-! # Operations with other angles

An operation that is given other angles stays on its qubits and fits the same registers.
-/

namespace QubitTrace
set_option autoImplicit false

variable {K L : Type} {f : K → L}

namespace Gate

/-- The gate with each angle replaced. -/
def mapAngles (f : K → L) : Gate K → Gate L
  | id => id
  | h => h
  | x => x
  | y => y
  | z => z
  | s => s
  | sdg => sdg
  | t => t
  | tdg => tdg
  | sx => sx
  | sxdg => sxdg
  | rx θ => rx (f θ)
  | ry θ => ry (f θ)
  | rz θ => rz (f θ)
  | phase lam => phase (f lam)
  | u θ φ lam => u (f θ) (f φ) (f lam)
  | cx => cx
  | cy => cy
  | cz => cz
  | ch => ch
  | cphase lam => cphase (f lam)
  | crx θ => crx (f θ)
  | cry θ => cry (f θ)
  | crz θ => crz (f θ)
  | swap => swap

@[simp] theorem mapAngles_arity (f : K → L) (g : Gate K) : (g.mapAngles f).arity = g.arity := by
  cases g <;> rfl

end Gate

namespace Operation

/-- The operation with each angle replaced. -/
def mapAngles (f : K → L) : Operation K → Operation L
  | gate g qubits => gate (g.mapAngles f) qubits
  | measure qubit clbit => measure qubit clbit
  | barrier qubits => barrier qubits

/-- With other angles an operation fits the registers it fitted. -/
theorem fault?_mapAngles {n : Nat} {op : Operation K} (accepted : op.fault? n = none) :
    (op.mapAngles f).fault? n = none := by
  cases op with
  | gate g qubits =>
    obtain ⟨length, distinct, range⟩ := fault?_gate_eq_none_iff.1 accepted
    exact fault?_gate_eq_none_iff.2 ⟨by simpa using length, distinct, range⟩
  | measure qubit clbit =>
    have inside := find?_le_eq_none_iff.2 (lt_of_fault?_eq_none accepted)
    simp only [fault?, mapAngles, qubits] at inside ⊢
    rw [inside]
  | barrier qubits =>
    have inside := find?_le_eq_none_iff.2 (lt_of_fault?_eq_none accepted)
    simp only [fault?, mapAngles, Operation.qubits] at inside ⊢
    rw [inside]

end Operation

end QubitTrace
