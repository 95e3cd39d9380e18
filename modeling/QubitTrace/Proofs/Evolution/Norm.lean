import Mathlib
import QubitTrace.Proofs.Circuit.Reachable
import QubitTrace.Proofs.Evolution.Lifted
import QubitTrace.Proofs.Except
import QubitTrace.Trajectory

/-! # Runs keep the norm

A run of operations that a circuit let in never stops, and what every gate keeps holds of all
its states (`states_invariant`). Gates are unitary, so each state a circuit passes through has
the squared norm of the first one.
-/

namespace QubitTrace
set_option autoImplicit false

/-- A state passes the check of its norm exactly if it does not deviate. -/
theorem Invariant.normalized_eq_ok_iff {K : Type} [Scalar K] {ψ : StateVector K} {tolerance : K} :
    normalized ψ tolerance = .ok () ↔ ψ.deviates tolerance = false := by
  unfold normalized
  cases ψ.deviates tolerance <;> simp

namespace Evolution

section Run

variable {K : Type} [Scalar K]

theorem exists_apply {ψ : StateVector K} {g : Gate K} {qubits : List Nat}
    (fits : g.Fits ψ.qubits qubits) : ∃ φ, apply ψ g qubits = .ok φ ∧ φ.qubits = ψ.qubits :=
  ⟨_, apply_eq fits, rfl⟩

/-- Operations that fit the register run to the end, and what each of their gates keeps holds
throughout. -/
theorem states_invariant_of_mem {P : StateVector K → Prop} {n : Nat} {ops : List (Operation K)}
    (kept : ∀ ψ φ g qubits, .gate g qubits ∈ ops → ψ.qubits = n → g.Fits n qubits →
      apply ψ g qubits = .ok φ → P ψ → P φ)
    (accepted : ∀ op ∈ ops, op.fault? n = none) {ψ : StateVector K} (sized : ψ.qubits = n)
    (holds : P ψ) :
    ∃ φs, states ψ ops = .ok φs ∧ φs.head? = some ψ ∧
      φs.length = ops.countP Operation.isUnitary + 1 ∧ ∀ φ ∈ φs, φ.qubits = n ∧ P φ := by
  induction ops generalizing ψ with
  | nil =>
    refine ⟨[ψ], rfl, rfl, rfl, fun φ mem => ?_⟩
    rw [List.mem_singleton.1 mem]
    exact ⟨sized, holds⟩
  | cons op ops ih =>
    have rest : ∀ op ∈ ops, op.fault? n = none := fun op mem =>
      accepted op (List.mem_cons_of_mem _ mem)
    replace ih := fun {ψ} => @ih (fun ψ φ g qubits mem => kept ψ φ g qubits
      (List.mem_cons_of_mem _ mem)) rest ψ
    cases op with
    | gate g qubits =>
      have fits : g.Fits n qubits :=
        Operation.fault?_gate_eq_none_iff.1 (accepted _ List.mem_cons_self)
      obtain ⟨next, applied, same⟩ := exists_apply (sized ▸ fits)
      obtain ⟨φs, run, _, length, all⟩ := ih (same.trans sized)
        (kept ψ next g qubits List.mem_cons_self sized fits applied holds)
      refine ⟨ψ :: φs, ?_, rfl, ?_, fun φ mem => ?_⟩
      · rw [states, applied]
        change (states next ops >>= fun φs => pure (ψ :: φs)) = _
        rw [run]
        rfl
      · rw [List.length_cons, length, List.countP_cons_of_pos rfl]
      · rcases List.mem_cons.1 mem with rfl | later
        · exact ⟨sized, holds⟩
        · exact all φ later
    | measure qubit clbit =>
      obtain ⟨φs, run, head, length, all⟩ := ih sized holds
      exact ⟨φs, run, head, length.trans (by rw [List.countP_cons_of_neg Bool.false_ne_true]), all⟩
    | barrier qubits =>
      obtain ⟨φs, run, head, length, all⟩ := ih sized holds
      exact ⟨φs, run, head, length.trans (by rw [List.countP_cons_of_neg Bool.false_ne_true]), all⟩

/-- Operations that fit the register run to the end, and what every gate keeps holds throughout. -/
theorem states_invariant {P : StateVector K → Prop} {n : Nat}
    (kept : ∀ ψ φ g qubits, ψ.qubits = n → g.Fits n qubits → apply ψ g qubits = .ok φ → P ψ → P φ)
    {ops : List (Operation K)} (accepted : ∀ op ∈ ops, op.fault? n = none) {ψ : StateVector K}
    (sized : ψ.qubits = n) (holds : P ψ) :
    ∃ φs, states ψ ops = .ok φs ∧ φs.head? = some ψ ∧
      φs.length = ops.countP Operation.isUnitary + 1 ∧ ∀ φ ∈ φs, φ.qubits = n ∧ P φ :=
  states_invariant_of_mem (fun ψ φ g qubits _ => kept ψ φ g qubits) accepted sized holds

/-- A run starts from the given state, or from the one with all bits zero. -/
theorem start_eq_ok {tolerance : K} {n : Nat} {initial : Option (StateVector K)}
    {ψ : StateVector K} (started : start tolerance n initial = .ok ψ) :
    ψ.qubits = n ∧ (initial = some ψ ∨ initial = none ∧ StateVector.zero n = .ok ψ) := by
  cases initial with
  | none =>
    unfold start at started
    cases zeroed : StateVector.zero (K := K) n with
    | error fault =>
      rw [zeroed] at started
      cases started
    | ok φ =>
      rw [zeroed] at started
      cases started
      obtain ⟨-, -, positive, rfl⟩ := StateVector.basis_eq_ok_iff.1 zeroed
      exact ⟨rfl, Or.inr ⟨rfl, rfl⟩⟩
  | some φ =>
    change (if φ.qubits ≠ n then _ else _) = _ at started
    split_ifs at started with other
    cases normal : Invariant.normalized φ tolerance with
    | error fault =>
      rw [normal] at started
      cases started
    | ok _ =>
      rw [normal] at started
      cases started
      exact ⟨not_not.1 other, Or.inl rfl⟩

theorem start_of_zero {tolerance : K} {n : Nat} {ψ : StateVector K}
    (zeroed : StateVector.zero n = .ok ψ) : start tolerance n none = .ok ψ := by
  rw [start, zeroed]
  rfl

/-- A circuit made by additions runs from every state it accepts. -/
theorem trajectory_eq_states {c : Circuit K} (reachable : c.Reachable) {tolerance : K}
    {initial : Option (StateVector K)} {ψ : StateVector K}
    (started : start tolerance c.qubits initial = .ok ψ) :
    trajectory tolerance c initial = states ψ c.operations := by
  have positive : 0 < c.qubits := (start_eq_ok started).1 ▸ ψ.positive
  rw [trajectory, Circuit.validate_of_reachable reachable positive, started]
  rfl

/-- What runs from all bits zero is a circuit made by additions, over a register that has a
state. -/
theorem reachable_of_trajectory {c : Circuit K} {tolerance : K} {φs : List (StateVector K)}
    (run : trajectory tolerance c none = .ok φs) :
    c.Reachable ∧ 0 < c.qubits ∧ c.qubits ≤ StateVector.maxQubits := by
  obtain ⟨_, checked, run⟩ := bind_eq_ok_iff.1 run
  obtain ⟨ψ, started, -⟩ := bind_eq_ok_iff.1 run
  obtain ⟨small, -, positive, -⟩ :=
    StateVector.basis_eq_ok_iff.1 (mapError_eq_ok_iff.1 started)
  exact ⟨Circuit.reachable_of_validate (mapError_eq_ok_iff.1 checked), positive, small⟩

/-- A circuit made by additions runs from all bits zero, and what each of its gates keeps holds of
all its states. -/
theorem trajectory_invariant {P : StateVector K → Prop} {c : Circuit K} (reachable : c.Reachable)
    (positive : 0 < c.qubits) (small : c.qubits ≤ StateVector.maxQubits)
    (zero : ∀ ψ, StateVector.zero c.qubits = .ok ψ → P ψ)
    (kept : ∀ ψ φ g qubits, .gate g qubits ∈ c.operations → ψ.qubits = c.qubits →
      g.Fits c.qubits qubits → apply ψ g qubits = .ok φ → P ψ → P φ) (tolerance : K) :
    ∃ φs, trajectory tolerance c none = .ok φs ∧ φs.length = c.gateCount + 1 ∧
      ∀ φ ∈ φs, φ.qubits = c.qubits ∧ P φ := by
  obtain ⟨ψ, zeroed⟩ := StateVector.exists_zero (K := K) positive small
  have started : start tolerance c.qubits none = .ok ψ := start_of_zero zeroed
  obtain ⟨φs, run, -, length, all⟩ := states_invariant_of_mem kept reachable.fault?_eq_none
    (start_eq_ok started).1 (zero ψ zeroed)
  exact ⟨φs, (trajectory_eq_states reachable started).trans run, length, all⟩

end Run

/-- A gate keeps the squared norm. -/
theorem normSq_apply {ψ φ : StateVector ℝ} {g : Gate ℝ} {qubits : List Nat}
    (fits : g.Fits ψ.qubits qubits) (applied : apply ψ g qubits = .ok φ) :
    φ.normSq = ψ.normSq := by
  rw [apply_eq_image fits] at applied
  cases applied
  exact StateVector.normSq_image (unitary_lifted fits)

/-- From all bits zero every state of a run is normalized. -/
theorem exists_normalized_trajectory {c : Circuit ℝ} (reachable : c.Reachable)
    (positive : 0 < c.qubits) (small : c.qubits ≤ StateVector.maxQubits) (tolerance : ℝ) :
    ∃ φs, trajectory tolerance c none = .ok φs ∧ φs.length = c.gateCount + 1 ∧
      ∀ φ ∈ φs, φ.qubits = c.qubits ∧ φ.normSq = 1 := by
  refine trajectory_invariant reachable positive small (fun ψ => StateVector.normSq_of_basis) ?_ _
  intro ψ φ g qubits _ sized fits applied unit
  rw [normSq_apply (sized ▸ fits) applied, unit]

/-- What runs from all bits zero passes through normalized states. -/
theorem normalized_of_trajectory {c : Circuit ℝ} {tolerance : ℝ} {φs : List (StateVector ℝ)}
    (run : trajectory tolerance c none = .ok φs) :
    φs.length = c.gateCount + 1 ∧ ∀ φ ∈ φs, φ.qubits = c.qubits ∧ φ.normSq = 1 := by
  obtain ⟨reachable, positive, small⟩ := reachable_of_trajectory run
  obtain ⟨φs', run', length, all⟩ :=
    exists_normalized_trajectory reachable positive small tolerance
  cases run.symm.trans run'
  exact ⟨length, all⟩

/-- **Runs keep the norm.** A circuit made by additions runs from every state it accepts; the
states it passes through, one more than it has gates, all have the squared norm of the first,
which is one unless another state is given. -/
theorem trajectory_normSq {c : Circuit ℝ} (reachable : c.Reachable) {tolerance : ℝ}
    {initial : Option (StateVector ℝ)} {ψ : StateVector ℝ}
    (started : start tolerance c.qubits initial = .ok ψ) :
    ∃ φs, trajectory tolerance c initial = .ok φs ∧ φs.head? = some ψ ∧
      φs.length = c.gateCount + 1 ∧ (∀ given, initial = some given → given = ψ) ∧
      (∀ φ ∈ φs, φ.normSq = ψ.normSq) ∧ (initial = none → ∀ φ ∈ φs, φ.normSq = 1) := by
  obtain ⟨sized, origin⟩ := start_eq_ok started
  have kept : ∀ (φ φ' : StateVector ℝ) (g : Gate ℝ) (qubits : List Nat), φ.qubits = c.qubits →
      g.Fits c.qubits qubits → apply φ g qubits = .ok φ' → φ.normSq = ψ.normSq →
        φ'.normSq = ψ.normSq := by
    intro φ φ' g qubits same fits applied norm
    rw [normSq_apply (same ▸ fits) applied, norm]
  obtain ⟨φs, run, head, length, all⟩ :=
    states_invariant kept reachable.fault?_eq_none sized rfl
  have norms : ∀ φ ∈ φs, φ.normSq = ψ.normSq := fun φ mem => (all φ mem).2
  refine ⟨φs, (trajectory_eq_states reachable started).trans run, head, length, ?_, norms, ?_⟩
  · rintro given rfl
    obtain same | ⟨impossible, _⟩ := origin
    · exact Option.some.inj same
    · cases impossible
  · rintro rfl φ mem
    obtain impossible | ⟨_, zeroed⟩ := origin
    · cases impossible
    · rw [norms φ mem, StateVector.normSq_of_basis zeroed]

/-- A run through a rotation, a controlled gate with its control on top, and a measurement. -/
theorem trajectory_normSq_entangled :
    ∃ (c : Circuit ℝ) (ψ : StateVector ℝ) (φs : List (StateVector ℝ)),
      Circuit.build 3 [.gate .h [2], .gate (.u 1 2 3) [1], .measure 1 0, .gate (.crx 5) [2, 0]] =
        .ok c ∧
      start 0 3 none = .ok ψ ∧ trajectory 0 c none = .ok φs ∧ φs.length = 4 ∧
      ∀ φ ∈ φs, φ.normSq = 1 := by
  let ψ : StateVector ℝ := ⟨3, by decide, .ofFn fun i => if i.val = 0 then 1 else 0⟩
  let c : Circuit ℝ :=
    ⟨3, [.gate .h [2], .gate (.u 1 2 3) [1], .measure 1 0, .gate (.crx 5) [2, 0]]⟩
  have built : Circuit.build 3
      [.gate .h [2], .gate (.u 1 2 3) [1], .measure 1 0, .gate (.crx 5) [2, 0]] = .ok c := rfl
  have started : start (0 : ℝ) c.qubits none = .ok ψ := rfl
  obtain ⟨φs, run, -, length, -, -, norms⟩ :=
    trajectory_normSq (Circuit.reachable_of_build built) started
  exact ⟨c, ψ, φs, built, started, run, length, norms rfl⟩

end Evolution

end QubitTrace
