import Mathlib
import QubitTrace.Proofs.Basis.Relabel
import QubitTrace.Proofs.Evolution.Norm

/-! # Runs of renamed circuits

Renaming the qubits of a circuit renames them in every state it passes through
(`trajectory_relabel`). A gate reads and writes the same amplitudes in the renamed state, in the
same order (`apply_relabel`), so this holds of rounded numbers as well.
-/

namespace QubitTrace
set_option autoImplicit false

open QubitTrace.Basis

variable {K : Type}

/-- The operation with its qubits renamed; classical bits keep their numbers. -/
def Operation.relabel (π : Nat → Nat) : Operation K → Operation K
  | gate g qubits => gate g (qubits.map π)
  | measure qubit clbit => measure (π qubit) clbit
  | barrier qubits => barrier (qubits.map π)

/-- The circuit with its qubits renamed. -/
def Circuit.relabel (π : Nat → Nat) (c : Circuit K) : Circuit K :=
  { c with operations := c.operations.map (Operation.relabel π) }

/-- The state with its qubits renamed: amplitudes go where the bits of their index go. -/
def StateVector.relabel [Scalar K] (π : Nat → Nat) (ψ : StateVector K) : StateVector K :=
  { ψ with amplitudes := .ofFn fun j =>
      Evolution.amplitude ψ.amplitudes (unmoved ψ.qubits π j) }

section Operations

variable {n : Nat} {π : Nat → Nat}

theorem Gate.Fits.relabel {g : Gate K} {qubits : List Nat} (fits : g.Fits n qubits)
    (permutes : Permutes n π) : g.Fits n (qubits.map π) where
  length := by rw [List.length_map, fits.length]
  distinct := permutes.nodup_map fits.range fits.distinct
  range := List.forall_mem_map.2 fun q listed => permutes.lt (fits.range q listed)

theorem Operation.qubits_relabel (op : Operation K) :
    (op.relabel π).qubits = op.qubits.map π := by
  cases op <;> rfl

/-- A register takes an operation with its qubits renamed if it takes the operation. -/
theorem Operation.fault?_relabel {op : Operation K} (permutes : Permutes n π)
    (accepted : op.fault? n = none) : (op.relabel π).fault? n = none := by
  have inside : (op.relabel π).qubits.find? (n ≤ ·) = none := by
    rw [qubits_relabel, find?_le_eq_none_iff]
    exact List.forall_mem_map.2 fun q listed =>
      permutes.lt (lt_of_fault?_eq_none accepted q listed)
  cases op with
  | gate g qubits =>
    exact fault?_gate_eq_none_iff.2 ((fault?_gate_eq_none_iff.1 accepted).relabel permutes)
  | measure qubit clbit =>
    unfold fault?
    rw [inside]
    rfl
  | barrier qubits =>
    unfold fault?
    rw [inside]
    rfl

/-- Renaming the qubits of a circuit made by additions gives one made by additions. -/
theorem Circuit.Reachable.relabel {c : Circuit K} (reachable : c.Reachable)
    (permutes : Permutes c.qubits π) : (c.relabel π).Reachable := by
  induction reachable with
  | empty n => exact .empty n
  | @add c c' op reachable added ih =>
    obtain ⟨accepted, rfl⟩ := Circuit.add_eq_ok_iff.1 added
    have fine := Operation.fault?_relabel permutes accepted
    refine (ih permutes).add (Circuit.add_eq_ok_iff.2 ⟨fine, ?_⟩)
    rw [Circuit.relabel, Circuit.relabel, List.map_append]
    rfl

end Operations

namespace Evolution

variable [Scalar K] {n : Nat} {π : Nat → Nat}

theorem amplitude_ofFn {d : Nat} (f : Fin d → Complex K) {i : Nat} (lt : i < d) :
    amplitude (.ofFn f) i = f ⟨i, lt⟩ := by
  simp [amplitude, lt]

theorem amplitude_relabel {ψ : StateVector K} {j : Nat} (lt : j < dimension ψ.qubits) :
    amplitude (ψ.relabel π).amplitudes j = amplitude ψ.amplitudes (unmoved ψ.qubits π j) :=
  amplitude_ofFn _ lt

/-- What the state has at an index the renamed one has where the index is moved to. -/
theorem amplitude_relabel_moved {ψ : StateVector K} (permutes : Permutes ψ.qubits π) {i : Nat}
    (lt : i < dimension ψ.qubits) :
    amplitude (ψ.relabel π).amplitudes (moved ψ.qubits π i) = amplitude ψ.amplitudes i := by
  rw [amplitude_relabel (permutes.moved_lt i), permutes.unmoved_moved lt]

/-- A gate on the renamed qubits does to the renamed state what the gate does to the state. -/
theorem apply_relabel {ψ φ : StateVector K} {g : Gate K} {qubits : List Nat}
    (permutes : Permutes ψ.qubits π) (fits : g.Fits ψ.qubits qubits)
    (applied : apply ψ g qubits = .ok φ) :
    apply (ψ.relabel π) g (qubits.map π) = .ok (φ.relabel π) := by
  have renamed : g.Fits (ψ.relabel π).qubits (qubits.map π) := fits.relabel permutes
  rw [apply_eq fits] at applied
  cases applied
  rw [apply_eq renamed, StateVector.relabel]
  congr 3
  funext j
  -- `j` is where some index `i` of the state is moved to
  obtain ⟨i, lt, place⟩ : ∃ i < dimension ψ.qubits, moved ψ.qubits π i = j :=
    ⟨_, Permutes.unmoved_lt _ π j, permutes.moved_unmoved j.isLt⟩
  rw [← place, permutes.unmoved_moved lt, amplitude_ofFn _ lt,
    permutes.localIndex_moved fits.range]
  refine g.matrix.row_congr _ fun l _ => ?_
  rw [← permutes.moved_assign fits.range]
  exact amplitude_relabel_moved permutes (assign_lt fits.range l lt)

/-- Renamed operations take the renamed state through the renamed states. -/
theorem states_relabel (permutes : Permutes n π) {ops : List (Operation K)}
    (accepted : ∀ op ∈ ops, op.fault? n = none) {ψ : StateVector K} (sized : ψ.qubits = n)
    {φs : List (StateVector K)} (run : states ψ ops = .ok φs) :
    states (ψ.relabel π) (ops.map (Operation.relabel π)) = .ok (φs.map (.relabel π)) := by
  induction ops generalizing ψ φs with
  | nil =>
    cases run
    rfl
  | cons op ops ih =>
    obtain ⟨first, rest⟩ := List.forall_mem_cons.1 accepted
    cases op with
    | gate g qubits =>
      have fits : g.Fits ψ.qubits qubits := sized ▸ Operation.fault?_gate_eq_none_iff.1 first
      obtain ⟨next, applied, run⟩ := bind_eq_ok_iff.1 run
      obtain ⟨later, rests, run⟩ := bind_eq_ok_iff.1 run
      cases run
      rw [mapError_eq_ok_iff] at applied
      obtain ⟨next', applied', same⟩ := exists_apply fits
      cases applied.symm.trans applied'
      have step := apply_relabel (sized ▸ permutes) fits applied
      rw [List.map_cons, Operation.relabel, states, step, mapError_ok, ok_bind,
        ih rest (same.trans sized) rests]
      rfl
    | measure qubit clbit => exact ih rest sized run
    | barrier qubits => exact ih rest sized run

/-- The state with all bits zero is the same whatever its qubits are called. -/
theorem relabel_zero {ψ : StateVector K} (permutes : Permutes n π)
    (zeroed : StateVector.zero n = .ok ψ) : ψ.relabel π = ψ := by
  obtain ⟨-, inside, positive, rfl⟩ := StateVector.basis_eq_ok_iff.1 zeroed
  rw [StateVector.relabel]
  congr 2
  funext j
  rw [amplitude_ofFn _ (Permutes.unmoved_lt n π j)]
  -- no bit is set in an index exactly if none is in the one it comes from
  have fixed : unmoved n π j = 0 ↔ (j : Nat) = 0 := by
    constructor
    · intro none
      rw [← permutes.moved_unmoved j.isLt, none]
      exact permutes.eq_of_testBit (permutes.moved_lt 0) inside fun q lt => by
        rw [permutes.testBit_moved lt, Nat.zero_testBit, Nat.zero_testBit]
    · intro none
      refine eq_of_testBit_lt (Permutes.unmoved_lt n π j) inside fun q lt => ?_
      rw [Permutes.testBit_unmoved lt, none, Nat.zero_testBit, Nat.zero_testBit]
  simp only [fixed]

/-- A circuit with its qubits renamed passes through the states of the circuit with their qubits
renamed. -/
theorem trajectory_relabel {c : Circuit K} (permutes : Permutes c.qubits π) {tolerance : K}
    {φs : List (StateVector K)} (run : trajectory tolerance c none = .ok φs) :
    trajectory tolerance (c.relabel π) none = .ok (φs.map (.relabel π)) := by
  obtain ⟨reachable, positive, small⟩ := reachable_of_trajectory run
  obtain ⟨ψ, zeroed⟩ := StateVector.exists_zero (K := K) positive small
  have started : start tolerance c.qubits none = .ok ψ := start_of_zero zeroed
  rw [trajectory_eq_states reachable started] at run
  have renamed := states_relabel permutes reachable.fault?_eq_none (start_eq_ok started).1 run
  rw [relabel_zero permutes zeroed] at renamed
  exact (trajectory_eq_states (reachable.relabel permutes) started).trans renamed

end Evolution

end QubitTrace
