import Mathlib
import QubitTrace.Circuit
import QubitTrace.Proofs.Gate.Local

/-! # Circuits that can be built

A circuit takes a gate on qubits that fit (`Gate.Fits`) and no other. Circuits come from
`Circuit.empty` by `Circuit.add` alone, so a reachable one holds operations that have been
let in, and `Circuit.validate` finds nothing to object to in it.
-/

namespace QubitTrace
set_option autoImplicit false

variable {K : Type}

theorem find?_le_eq_none_iff {qubits : List Nat} {n : Nat} :
    qubits.find? (n ≤ ·) = none ↔ ∀ q ∈ qubits, q < n := by
  simp [List.find?_eq_none]

theorem Operation.lt_of_fault?_eq_none {n : Nat} {op : Operation K}
    (accepted : op.fault? n = none) : ∀ q ∈ op.qubits, q < n := by
  unfold Operation.fault? at accepted
  split at accepted
  · cases accepted
  · next inside => exact find?_le_eq_none_iff.1 inside

/-- A circuit takes a gate exactly on qubits that fit. -/
theorem Operation.fault?_gate_eq_none_iff {n : Nat} {g : Gate K} {qubits : List Nat} :
    (Operation.gate g qubits).fault? n = none ↔ g.Fits n qubits := by
  unfold Operation.fault?
  simp only [Operation.qubits]
  constructor
  · intro accepted
    split at accepted
    · cases accepted
    · next inside =>
      split_ifs at accepted with length distinct
      exact ⟨by simpa using length, by simpa using distinct, find?_le_eq_none_iff.1 inside⟩
  · intro fits
    rw [find?_le_eq_none_iff.2 fits.range]
    simp [fits.length, fits.distinct]

namespace Circuit

/-- A circuit made by additions to an empty one. -/
inductive Reachable : Circuit K → Prop where
  | empty (n : Nat) : Reachable (Circuit.empty n)
  | add {c c' : Circuit K} {op : Operation K} :
      Reachable c → c.add op = .ok c' → Reachable c'

theorem attempt_of_accepted {c : Circuit K} {op : Operation K}
    (accepted : op.fault? c.qubits = none) :
    c.attempt op = ({ c with operations := c.operations ++ [op] }, none) := by
  rw [attempt, accepted]

/-- An operation that is turned away leaves the circuit as it was. -/
theorem attempt_of_refused {c : Circuit K} {op : Operation K} {fault : CircuitFault K}
    (refused : op.fault? c.qubits = some fault) : c.attempt op = (c, some fault) := by
  rw [attempt, refused]

theorem add_eq_ok_iff {c c' : Circuit K} {op : Operation K} :
    c.add op = .ok c' ↔
      op.fault? c.qubits = none ∧ c' = { c with operations := c.operations ++ [op] } := by
  unfold add
  cases fault : op.fault? c.qubits with
  | none => simp [attempt_of_accepted fault, eq_comm]
  | some fault' => simp [attempt_of_refused fault]

/-- What an addition has let in fits the register. -/
theorem Reachable.fault?_eq_none {c : Circuit K} (reachable : c.Reachable) :
    ∀ op ∈ c.operations, op.fault? c.qubits = none := by
  induction reachable with
  | empty n => intro op mem; cases mem
  | add _ added ih =>
    obtain ⟨accepted, rfl⟩ := add_eq_ok_iff.1 added
    intro op mem
    rcases List.mem_append.1 mem with old | new
    · exact ih op old
    · rw [List.mem_singleton.1 new]
      exact accepted

theorem Reachable.extend {c : Circuit K} (reachable : c.Reachable) (ops : List (Operation K)) :
    (c.extend ops).1.Reachable := by
  induction ops generalizing c with
  | nil => exact reachable
  | cons op ops ih =>
    unfold Circuit.extend
    cases fault : op.fault? c.qubits with
    | none =>
      rw [attempt_of_accepted fault]
      exact ih (reachable.add (add_eq_ok_iff.2 ⟨fault, rfl⟩))
    | some fault' =>
      rw [attempt_of_refused fault]
      exact reachable

/-- A circuit takes a list of operations exactly if it takes each of them. -/
theorem addAll_eq_ok_iff {c c' : Circuit K} {ops : List (Operation K)} :
    c.addAll ops = .ok c' ↔
      (∀ op ∈ ops, op.fault? c.qubits = none) ∧
        c' = { c with operations := c.operations ++ ops } := by
  unfold addAll
  induction ops generalizing c with
  | nil => simp [Circuit.extend, eq_comm]
  | cons op ops ih =>
    unfold Circuit.extend
    cases fault : op.fault? c.qubits with
    | none =>
      rw [attempt_of_accepted fault]
      refine ih.trans ?_
      simp [fault]
    | some fault' =>
      rw [attempt_of_refused fault]
      refine iff_of_false (by simp) fun fine => ?_
      rw [fine.1 op List.mem_cons_self] at fault
      cases fault

theorem Reachable.addAll {c c' : Circuit K} (reachable : c.Reachable) {ops : List (Operation K)}
    (added : c.addAll ops = .ok c') : c'.Reachable := by
  have whole := reachable.extend ops
  unfold Circuit.addAll at added
  split at added
  · next same =>
    cases added
    rwa [same] at whole
  · cases added

/-- The circuits that can be built are those whose operations all fit their register. -/
theorem reachable_iff {c : Circuit K} :
    c.Reachable ↔ ∀ op ∈ c.operations, op.fault? c.qubits = none :=
  ⟨Reachable.fault?_eq_none, fun accepted =>
    (Reachable.empty c.qubits).addAll (addAll_eq_ok_iff.2 ⟨accepted, rfl⟩)⟩

/-- The circuits the builder makes are reachable. -/
theorem reachable_of_build {n : Nat} {ops : List (Operation K)} {c : Circuit K}
    (built : build n ops = .ok c) : c.Reachable := by
  unfold build at built
  split_ifs at built
  exact (Reachable.empty n).addAll built

/-- A register with operations that all fit it is reachable. -/
theorem reachable_of_accepted {n : Nat} (positive : 0 < n) {ops : List (Operation K)}
    (accepted : ∀ op ∈ ops, op.fault? n = none) : Reachable ⟨n, ops⟩ := by
  apply reachable_of_build
  rw [build, if_neg positive.ne', addAll_eq_ok_iff.2 ⟨accepted, rfl⟩]
  rfl

/-- What passes the checks could have been made by additions. -/
theorem reachable_of_validate {c : Circuit K} (checked : c.validate = .ok ()) : c.Reachable := by
  unfold validate at checked
  split_ifs at checked with none
  refine reachable_of_accepted (Nat.pos_of_ne_zero none) fun op mem => ?_
  cases clean : c.operations.findSome? (Operation.fault? c.qubits) with
  | none => exact List.findSome?_eq_none_iff.1 clean op mem
  | some fault =>
    rw [clean] at checked
    cases checked

theorem validate_of_reachable {c : Circuit K} (reachable : c.Reachable) (positive : 0 < c.qubits) :
    c.validate = .ok () := by
  have clean : c.operations.findSome? (Operation.fault? c.qubits) = none :=
    List.findSome?_eq_none_iff.2 reachable.fault?_eq_none
  rw [validate, if_neg (by omega), clean]

end Circuit

end QubitTrace
