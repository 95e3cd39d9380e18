import Mathlib
import QubitTrace.Proofs.Circuit.Reachable

/-! # The history of a circuit

A circuit is filled by calls that add one operation or several, and any of them may fail. All that a
call can do is said by `Circuit.extend_eq`: it takes the operations before the first that does not
fit, and that one is what it reports. One operation is a list of one (`Circuit.perform_one`). So
after any calls the circuit holds what they took, in order (`Circuit.history_eq`).
-/

namespace QubitTrace
set_option autoImplicit false

variable {K : Type}

/-- The operation names qubits of a register of `n` only, and a gate as many different ones as it
acts on. -/
structure Operation.Fits (n : Nat) (op : Operation K) : Prop where
  range : ∀ q ∈ op.qubits, q < n
  targets : ∀ g qubits, op = .gate g qubits → qubits.length = g.arity ∧ qubits.Nodup

/-- A circuit objects to an operation exactly if it does not fit. -/
theorem Operation.fault?_eq_none_iff {n : Nat} {op : Operation K} :
    op.fault? n = none ↔ op.Fits n := by
  constructor
  · intro accepted
    refine ⟨lt_of_fault?_eq_none accepted, ?_⟩
    rintro g qubits rfl
    have fits := fault?_gate_eq_none_iff.1 accepted
    exact ⟨fits.length, fits.distinct⟩
  · intro fits
    cases op with
    | gate g qubits =>
      obtain ⟨length, distinct⟩ := fits.targets g qubits rfl
      exact fault?_gate_eq_none_iff.2 ⟨length, distinct, fits.range⟩
    | measure qubit clbit =>
      rw [fault?, find?_le_eq_none_iff.2 fits.range]
    | barrier qubits =>
      rw [fault?, find?_le_eq_none_iff.2 fits.range]

theorem Operation.not_fits_of_fault?_eq_some {n : Nat} {op : Operation K} {fault : CircuitFault K}
    (refused : op.fault? n = some fault) : ¬ op.Fits n := by
  intro fits
  rw [fault?_eq_none_iff.2 fits] at refused
  cases refused

instance (n : Nat) (op : Operation K) : Decidable (op.Fits n) :=
  decidable_of_iff ((op.fault? n).isNone = true)
    (Option.isNone_iff_eq_none.trans Operation.fault?_eq_none_iff)

/-- A call that adds operations to a circuit. -/
inductive Addition (K : Type) where
  | one (op : Operation K)
  | many (ops : List (Operation K))

/-- The operations a call adds to a register of `n` qubits: those before the first that does not
fit. -/
def Addition.taken (n : Nat) : Addition K → List (Operation K)
  | one op => if op.Fits n then [op] else []
  | many ops => ops.takeWhile fun op => decide (op.Fits n)

namespace Circuit

/-- The circuit that a call leaves behind, and the fault it reports if it fails. -/
def perform (c : Circuit K) : Addition K → Circuit K × Option (CircuitFault K)
  | .one op => c.attempt op
  | .many ops => c.extend ops

/-- The circuit after calls one after another, whether they fail or not. -/
def history (c : Circuit K) (calls : List (Addition K)) : Circuit K :=
  calls.foldl (fun c call => (c.perform call).1) c

/-! ## One call -/

/-- A list of operations is added up to the first that does not fit, which is the one reported. -/
theorem extend_eq (c : Circuit K) (ops : List (Operation K)) :
    c.extend ops =
      ({ c with operations := c.operations ++ (Addition.many ops).taken c.qubits },
        ops.findSome? (Operation.fault? c.qubits)) := by
  induction ops generalizing c with
  | nil => simp [extend, Addition.taken]
  | cons op ops ih =>
    unfold extend
    cases fault : op.fault? c.qubits with
    | none =>
      have fits : op.Fits c.qubits := Operation.fault?_eq_none_iff.1 fault
      simp only [attempt_of_accepted fault, ih, Addition.taken]
      rw [List.takeWhile_cons_of_pos (by simpa using fits), List.findSome?_cons, fault,
        List.append_assoc, List.singleton_append]
    | some fault' =>
      have misfit := Operation.not_fits_of_fault?_eq_some fault
      simp only [attempt_of_refused fault, Addition.taken]
      rw [List.takeWhile_cons_of_neg (by simpa using misfit), List.findSome?_cons, fault,
        List.append_nil]

/-- One operation is a list of one. -/
theorem perform_one (c : Circuit K) (op : Operation K) :
    c.perform (.one op) = c.perform (.many [op]) := by
  cases fault : op.fault? c.qubits with
  | none => simp only [perform, extend, attempt_of_accepted fault]
  | some fault' => simp only [perform, extend, attempt_of_refused fault]

theorem taken_one (n : Nat) (op : Operation K) :
    (Addition.one op).taken n = (Addition.many [op]).taken n := by
  simp [Addition.taken, List.takeWhile_cons]

/-- A call adds to a circuit what it takes, and nothing else. -/
theorem perform_fst (c : Circuit K) (call : Addition K) :
    (c.perform call).1 = { c with operations := c.operations ++ call.taken c.qubits } := by
  cases call with
  | one op => rw [perform_one, taken_one, perform, extend_eq]
  | many ops => rw [perform, extend_eq]

/-- A call succeeds exactly if all its operations fit. -/
theorem perform_many_eq_none_iff {c : Circuit K} {ops : List (Operation K)} :
    (c.perform (.many ops)).2 = none ↔ ∀ op ∈ ops, op.Fits c.qubits := by
  rw [perform, extend_eq, List.findSome?_eq_none_iff]
  simp only [Operation.fault?_eq_none_iff]

/-- A call that fails has added what stands before the first operation that does not fit. -/
theorem perform_many_of_fault {c : Circuit K} {ops : List (Operation K)} {fault : CircuitFault K}
    (failed : (c.perform (.many ops)).2 = some fault) :
    ∃ before op after, ops = before ++ op :: after ∧ (∀ o ∈ before, o.Fits c.qubits) ∧
      ¬ op.Fits c.qubits ∧ op.fault? c.qubits = some fault ∧
      (c.perform (.many ops)).1 = { c with operations := c.operations ++ before } := by
  rw [perform, extend_eq] at failed
  obtain ⟨before, op, after, rfl, reported, fine⟩ := List.findSome?_eq_some_iff.1 failed
  have fits : ∀ o ∈ before, o.Fits c.qubits := fun o mem =>
    Operation.fault?_eq_none_iff.1 (fine o mem)
  have misfit := Operation.not_fits_of_fault?_eq_some reported
  refine ⟨before, op, after, rfl, fits, misfit, reported, ?_⟩
  rw [perform_fst, Addition.taken, List.takeWhile_append_of_pos (by simpa using fits),
    List.takeWhile_cons_of_neg (by simpa using misfit), List.append_nil]

/-! ## Any number of calls -/

/-- A circuit after a history of calls has what it had before and what the calls took. -/
theorem history_eq (c : Circuit K) (calls : List (Addition K)) :
    c.history calls =
      { c with operations := c.operations ++ calls.flatMap (Addition.taken c.qubits) } := by
  induction calls generalizing c with
  | nil => simp [history]
  | cons call calls ih =>
    have step : c.history (call :: calls) = (c.perform call).1.history calls := rfl
    rw [step, perform_fst, ih, List.flatMap_cons, List.append_assoc]

theorem fits_of_mem_taken {n : Nat} {call : Addition K} {op : Operation K}
    (mem : op ∈ call.taken n) : op.Fits n := by
  cases call with
  | one o =>
    rw [taken_one] at mem
    simpa using List.mem_takeWhile_imp mem
  | many ops => simpa using List.mem_takeWhile_imp mem

theorem Reachable.perform {c : Circuit K} (reachable : c.Reachable) (call : Addition K) :
    (c.perform call).1.Reachable := by
  cases call with
  | one op =>
    rw [perform_one]
    exact reachable.extend [op]
  | many ops => exact reachable.extend ops

/-- Calls keep a circuit one that is made by additions. -/
theorem Reachable.history {c : Circuit K} (reachable : c.Reachable) (calls : List (Addition K)) :
    (c.history calls).Reachable := by
  induction calls generalizing c with
  | nil => exact reachable
  | cons call calls ih => exact ih (reachable.perform call)

/-- Operations that all fit are taken one by one as they are all at once. -/
theorem flatMap_taken_one {n : Nat} {ops : List (Operation K)} (fits : ∀ op ∈ ops, op.Fits n) :
    (ops.map Addition.one).flatMap (Addition.taken n) = ops := by
  rw [List.flatMap_map]
  refine (List.flatMap_congr fun op mem => ?_).trans (List.flatMap_singleton' ops)
  exact if_pos (fits op mem)

/-- A circuit passes its checks exactly if it has a qubit, whatever calls have filled it. -/
theorem validate_history_iff {n : Nat} {calls : List (Addition K)} :
    ((empty n).history calls).validate = .ok () ↔ 1 ≤ n := by
  have sized : ((empty n).history calls).qubits = n := by rw [history_eq]; rfl
  constructor
  · intro checked
    by_contra none
    rw [validate, if_pos (by omega)] at checked
    cases checked
  · intro some
    exact validate_of_reachable ((Reachable.empty n).history calls) (by omega)

/-- Operations that fit a register with a qubit, and only those, are built into a circuit. -/
theorem build_eq_ok_iff {n : Nat} {ops : List (Operation K)} {c : Circuit K} :
    build n ops = .ok c ↔ 1 ≤ n ∧ (∀ op ∈ ops, op.Fits n) ∧ c = ⟨n, ops⟩ := by
  unfold build
  split_ifs with none
  · exact iff_of_false nofun (by omega)
  · simp only [addAll_eq_ok_iff, Operation.fault?_eq_none_iff, empty, List.nil_append,
      Nat.one_le_iff_ne_zero, ne_eq, none, not_false_iff, true_and]

/-- **Circuits hold what they accepted.** After any calls, failed ones among them, a circuit over `n`
qubits holds the operations the calls took, in order, and each of them fits. One that does not fit
changes nothing; a list with one that does not fit adds those before the first such. The circuit
passes its checks exactly if it has a qubit. A list of operations can be built into a circuit
exactly if there is a qubit and each of them fits, and then adding them one by one makes the same
circuit. -/
theorem history_spec (n : Nat) (calls : List (Addition K)) :
    let c := (empty n).history calls
    c.qubits = n ∧ c.operations = calls.flatMap (Addition.taken n) ∧
    (∀ op ∈ c.operations, op.Fits n) ∧
    (∀ op, ((c.perform (.one op)).2 = none ↔ op.Fits n) ∧
      (¬ op.Fits n → (c.perform (.one op)).1 = c)) ∧
    (∀ ops, ((c.perform (.many ops)).2 = none ↔ ∀ op ∈ ops, op.Fits n) ∧
      ∀ fault, (c.perform (.many ops)).2 = some fault →
        ∃ before op after, ops = before ++ op :: after ∧ (∀ o ∈ before, o.Fits n) ∧
          ¬ op.Fits n ∧ op.fault? n = some fault ∧
          (c.perform (.many ops)).1 = { c with operations := c.operations ++ before }) ∧
    (c.validate = .ok () ↔ 1 ≤ n) ∧
    ∀ ops : List (Operation K), ((∃ b, build n ops = .ok b) ↔ 1 ≤ n ∧ ∀ op ∈ ops, op.Fits n) ∧
      ∀ b, build n ops = .ok b → b = (empty n).history (ops.map .one) := by
  intro c
  have holds : c = ⟨n, calls.flatMap (Addition.taken n)⟩ := by
    simp only [c, history_eq, empty, List.nil_append]
  have sized : c.qubits = n := by rw [holds]
  refine ⟨sized, by rw [holds], ?_, fun op => ⟨?_, fun misfit => ?_⟩, fun ops => ⟨?_, ?_⟩,
    validate_history_iff, fun ops => ⟨?_, fun b built => ?_⟩⟩
  · rw [holds]
    intro op mem
    obtain ⟨call, -, taken⟩ := List.mem_flatMap.1 mem
    exact fits_of_mem_taken taken
  · rw [perform_one, perform_many_eq_none_iff, sized, List.forall_mem_singleton]
  · rw [perform_fst, Addition.taken, sized, if_neg misfit, List.append_nil, ← sized]
  · rw [perform_many_eq_none_iff, sized]
  · intro fault failed
    have stopped := perform_many_of_fault failed
    simp only [sized] at stopped ⊢
    exact stopped
  · simp only [build_eq_ok_iff, exists_and_left, exists_eq, and_true]
  · obtain ⟨-, fits, rfl⟩ := build_eq_ok_iff.1 built
    rw [history_eq]
    simp only [empty, List.nil_append, flatMap_taken_one fits]

/-- A gate on one qubit twice is turned away, and a list of operations stops at a qubit that is not
there. -/
example :
    ((Circuit.empty 2).history [.one (.gate .cx [0, 0]),
      .many [.gate .h [1], .measure 5 0, .gate .x [0]], .one (.barrier [])] : Circuit Nat).operations =
      [.gate .h [1], .barrier []] := by
  decide

end Circuit

end QubitTrace
