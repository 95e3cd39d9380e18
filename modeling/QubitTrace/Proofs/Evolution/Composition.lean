import Mathlib
import QubitTrace.Proofs.Timeline.Report

/-! # Runs one after another

The states of a run are those of its gates (`states_filter`), and the run of two lists of operations
is that of the first, continued from its last state by that of the second (`states_append`). Gates
keep the squared norm, and a state with the squared norm of an accepted one is accepted
(`start_of_normSq`): a run can be cut anywhere and taken up again.
-/

namespace QubitTrace
set_option autoImplicit false

namespace Evolution

section Run

variable {K : Type} [Scalar K]

/-- Measurements and barriers leave no trace in a run. -/
theorem states_filter (ψ : StateVector K) (ops : List (Operation K)) :
    states ψ (ops.filter Operation.isUnitary) = states ψ ops := by
  induction ops generalizing ψ with
  | nil => rfl
  | cons op ops ih =>
    cases op with
    | gate g qubits =>
      rw [List.filter_cons_of_pos rfl, states, states]
      simp only [ih]
    | measure qubit clbit => rw [List.filter_cons_of_neg Bool.false_ne_true, ih, states]
    | barrier qubits => rw [List.filter_cons_of_neg Bool.false_ne_true, ih, states]

/-- A run is its first state, followed by what its first gate leads to. -/
theorem states_gate_eq_ok_iff {ψ : StateVector K} {g : Gate K} {qubits : List Nat}
    {ops : List (Operation K)} {φs : List (StateVector K)} :
    states ψ (.gate g qubits :: ops) = .ok φs ↔
      ∃ next rest, apply ψ g qubits = .ok next ∧ states next ops = .ok rest ∧ φs = ψ :: rest := by
  rw [states]
  constructor
  · intro run
    obtain ⟨next, applied, run⟩ := bind_eq_ok_iff.1 run
    obtain ⟨rest, later, made⟩ := bind_eq_ok_iff.1 run
    cases made
    exact ⟨next, rest, mapError_eq_ok_iff.1 applied, later, rfl⟩
  · rintro ⟨next, rest, applied, later, rfl⟩
    rw [applied, mapError_ok, ok_bind, later]
    rfl

/-- A run starts with the state it is given. -/
theorem exists_cons_of_states {ψ : StateVector K} {ops : List (Operation K)}
    {φs : List (StateVector K)} (run : states ψ ops = .ok φs) : ∃ rest, φs = ψ :: rest := by
  induction ops with
  | nil =>
    cases run
    exact ⟨[], rfl⟩
  | cons op ops ih =>
    cases op with
    | gate g qubits =>
      obtain ⟨-, rest, -, -, rfl⟩ := states_gate_eq_ok_iff.1 run
      exact ⟨rest, rfl⟩
    | measure qubit clbit => exact ih run
    | barrier qubits => exact ih run

/-- A run has a state for its start and one for each gate. -/
theorem length_of_states {ψ : StateVector K} {ops : List (Operation K)} {φs : List (StateVector K)}
    (run : states ψ ops = .ok φs) : φs.length = ops.countP Operation.isUnitary + 1 := by
  induction ops generalizing ψ φs with
  | nil =>
    cases run
    rfl
  | cons op ops ih =>
    cases op with
    | gate g qubits =>
      obtain ⟨next, rest, -, later, rfl⟩ := states_gate_eq_ok_iff.1 run
      rw [List.length_cons, ih later, List.countP_cons_of_pos rfl]
    | measure qubit clbit => exact (ih run).trans (by rw [List.countP_cons_of_neg Bool.false_ne_true])
    | barrier qubits => exact (ih run).trans (by rw [List.countP_cons_of_neg Bool.false_ne_true])

/-- A run of two lists of operations is a run of the first, continued from its last state by a run
of the second. -/
theorem states_append {ψ last : StateVector K} {ops ops' : List (Operation K)}
    {φs χs : List (StateVector K)} (run : states ψ ops = .ok φs) (ends : φs.getLast? = some last)
    (continued : states last ops' = .ok χs) : states ψ (ops ++ ops') = .ok (φs ++ χs.tail) := by
  induction ops generalizing ψ φs with
  | nil =>
    cases run
    cases ends
    obtain ⟨rest, rfl⟩ := exists_cons_of_states continued
    exact continued
  | cons op ops ih =>
    cases op with
    | gate g qubits =>
      obtain ⟨next, rest, applied, later, rfl⟩ := states_gate_eq_ok_iff.1 run
      obtain ⟨others, rfl⟩ := exists_cons_of_states later
      rw [List.getLast?_cons_cons] at ends
      exact states_gate_eq_ok_iff.2 ⟨next, _, applied, ih later ends, rfl⟩
    | measure qubit clbit => exact ih run ends
    | barrier qubits => exact ih run ends

/-- A given state is accepted, as it is, if it has the right size and does not deviate. -/
theorem start_some_eq_ok_iff {tolerance : K} {n : Nat} {ψ φ : StateVector K} :
    start tolerance n (some ψ) = .ok φ ↔
      ψ.qubits = n ∧ ψ.deviates tolerance = false ∧ φ = ψ := by
  rw [start]
  by_cases sized : ψ.qubits = n
  · rw [if_neg (not_not.2 sized)]
    constructor
    · intro started
      obtain ⟨_, passed, made⟩ := bind_eq_ok_iff.1 started
      cases made
      exact ⟨sized, Invariant.normalized_eq_ok_iff.1 (mapError_eq_ok_iff.1 passed), rfl⟩
    · rintro ⟨-, accepted, rfl⟩
      rw [Invariant.normalized_eq_ok_iff.2 accepted]
      rfl
  · rw [if_pos sized]
    constructor
    · intro started
      cases started
    · intro accepted
      exact absurd accepted.1 sized

/-- Cutting a list of operations short cuts its run short. -/
theorem exists_states_take {ψ : StateVector K} {ops : List (Operation K)}
    {φs : List (StateVector K)} (run : states ψ ops = .ok φs) (k : Nat) :
    ∃ part, states ψ (ops.take k) = .ok part ∧ part <+: φs := by
  induction ops generalizing ψ φs k with
  | nil =>
    rw [List.take_nil]
    exact ⟨φs, run, List.prefix_rfl⟩
  | cons op ops ih =>
    cases k with
    | zero =>
      obtain ⟨rest, rfl⟩ := exists_cons_of_states run
      exact ⟨[ψ], rfl, rest, rfl⟩
    | succ k =>
      rw [List.take_succ_cons]
      cases op with
      | gate g qubits =>
        obtain ⟨next, rest, applied, later, rfl⟩ := states_gate_eq_ok_iff.1 run
        obtain ⟨part, shorter, front⟩ := ih later k
        exact ⟨ψ :: part, states_gate_eq_ok_iff.2 ⟨next, part, applied, shorter, rfl⟩,
          List.cons_prefix_cons.2 ⟨rfl, front⟩⟩
      | measure qubit clbit => exact ih run k
      | barrier qubits => exact ih run k

end Run

/-! ## Continued runs -/

/-- Operations that fit run to the end through states of the size and the squared norm of the
first. -/
theorem exists_states {n : Nat} {ops : List (Operation ℝ)}
    (accepted : ∀ op ∈ ops, op.fault? n = none) {ψ : StateVector ℝ} (sized : ψ.qubits = n) :
    ∃ φs, states ψ ops = .ok φs ∧ ∀ φ ∈ φs, φ.qubits = n ∧ φ.normSq = ψ.normSq := by
  obtain ⟨φs, run, -, -, all⟩ := states_invariant (P := fun φ => φ.normSq = ψ.normSq)
    (fun φ φ' g qubits same fits applied norm => (normSq_apply (same ▸ fits) applied).trans norm)
    accepted sized rfl
  exact ⟨φs, run, all⟩

/-- What starts a run does not deviate. A state that is given was asked; from all bits zero the
squared norm is one, which no tolerance forbids that is not negative. -/
theorem deviates_of_start {tolerance : ℝ} {n : Nat} {initial : Option (StateVector ℝ)}
    {ψ : StateVector ℝ} (nonneg : initial = none → 0 ≤ tolerance)
    (started : start tolerance n initial = .ok ψ) : ψ.deviates tolerance = false := by
  cases initial with
  | some φ =>
    obtain ⟨-, accepted, rfl⟩ := start_some_eq_ok_iff.1 started
    exact accepted
  | none =>
    have unit := StateVector.normSq_of_basis (mapError_eq_ok_iff.1 started)
    exact Invariant.normalized_eq_ok_iff.1 (Invariant.normalized_eq_ok unit (nonneg rfl))

/-- A run can be taken up again from any state of the size and the squared norm of its first. -/
theorem start_of_normSq {tolerance : ℝ} {n : Nat} {ψ φ : StateVector ℝ} (sized : φ.qubits = n)
    (accepted : ψ.deviates tolerance = false) (same : φ.normSq = ψ.normSq) :
    start tolerance n (some φ) = .ok φ := by
  refine start_some_eq_ok_iff.2 ⟨sized, ?_, rfl⟩
  rw [StateVector.deviates, same]
  exact accepted

end Evolution

namespace Simulator

open QubitTrace.Evolution

/-- A simulator runs every circuit made by additions that it allows, from whatever it accepts. -/
theorem evolve_eq_states {K : Type} [Scalar K] {s : Simulator K} {c : Circuit K}
    (reachable : c.Reachable) (fits : c.qubits ≤ s.config.maxQubits)
    {initial : Option (StateVector K)} {ψ : StateVector K}
    (started : start s.config.normTolerance c.qubits initial = .ok ψ) :
    s.evolve c initial = states ψ c.operations := by
  rw [evolve, if_neg (not_lt.2 fits), trajectory_eq_states reachable started]

/-- **Runs compose.** Two circuits made by additions over the same qubits, in whatever state the
first is started: the operations of the second can be added to the first, and the run of the whole is
the run of the first, followed by the run of the second from the last state of the first, without
its first state. All states on the way are accepted as the start of a run, and a circuit that is
cut short after any number of operations runs through the first of these states. Only a run from
all bits zero needs to be told that no squared norm of one is forbidden, which is so under every
valid configuration. -/
theorem evolve_append {s : Simulator ℝ} {c₁ c₂ : Circuit ℝ} (first : c₁.Reachable)
    (second : c₂.Reachable) (sized : c₂.qubits = c₁.qubits)
    (fits : c₁.qubits ≤ s.config.maxQubits) {initial : Option (StateVector ℝ)}
    {ψ : StateVector ℝ} (nonneg : initial = none → 0 ≤ s.config.normTolerance)
    (started : start s.config.normTolerance c₁.qubits initial = .ok ψ) :
    ∃ c φs last χs, c₁.addAll c₂.operations = .ok c ∧
      s.evolve c₁ initial = .ok φs ∧ φs.getLast? = some last ∧
      s.evolve c₂ (some last) = .ok χs ∧ s.evolve c initial = .ok (φs ++ χs.tail) ∧
      (∀ φ ∈ φs ++ χs.tail, start s.config.normTolerance c₁.qubits (some φ) = .ok φ) ∧
      ∀ k, ∃ part, s.evolve { c with operations := c.operations.take k } initial = .ok part ∧
        part <+: φs ++ χs.tail := by
  have accepted := deviates_of_start nonneg started
  have size := (start_eq_ok started).1
  have fine₁ := first.fault?_eq_none
  have fine₂ : ∀ op ∈ c₂.operations, op.fault? c₁.qubits = none := sized ▸ second.fault?_eq_none
  let c : Circuit ℝ := { c₁ with operations := c₁.operations ++ c₂.operations }
  have fine : ∀ op ∈ c.operations, op.fault? c.qubits = none := fun op mem =>
    (List.mem_append.1 mem).elim (fine₁ op) (fine₂ op)
  have positive : 0 < c.qubits := size ▸ ψ.positive
  have whole : c.Reachable := Circuit.reachable_of_accepted positive fine
  -- the first run, and the second from the state it ends in
  obtain ⟨φs, run₁, kept₁⟩ := exists_states fine₁ size
  obtain ⟨rest, rfl⟩ := exists_cons_of_states run₁
  have ends := List.getLast?_eq_some_getLast (List.cons_ne_nil ψ rest)
  obtain ⟨lastSize, lastNorm⟩ := kept₁ _ (List.getLast_mem (List.cons_ne_nil ψ rest))
  have restart := start_of_normSq lastSize accepted lastNorm
  obtain ⟨χs, run₂, kept₂⟩ := exists_states fine₂ lastSize
  have run := states_append run₁ ends run₂
  refine ⟨c, _, _, χs, Circuit.addAll_eq_ok_iff.2 ⟨fine₂, rfl⟩,
    (evolve_eq_states first fits started).trans run₁, ends, ?_,
    (evolve_eq_states whole fits started).trans run, fun φ mem => ?_, fun k => ?_⟩
  · rw [evolve_eq_states second (sized ▸ fits) (sized ▸ restart), run₂]
  · obtain early | late := List.mem_append.1 mem
    · obtain ⟨same, norm⟩ := kept₁ φ early
      exact start_of_normSq same accepted norm
    · obtain ⟨same, norm⟩ := kept₂ φ (List.mem_of_mem_tail late)
      exact start_of_normSq same accepted (norm.trans lastNorm)
  · obtain ⟨part, shorter, front⟩ := exists_states_take run k
    have cut : (⟨c.qubits, c.operations.take k⟩ : Circuit ℝ).Reachable :=
      Circuit.reachable_of_accepted positive fun op mem => fine op (List.mem_of_mem_take mem)
    exact ⟨part, (evolve_eq_states cut fits started).trans shorter, front⟩

/-- A run from a state that is not quite normalized, cut behind a measurement. -/
theorem evolve_append_measured :
    ∃ (ψ : StateVector ℝ) (φs : List (StateVector ℝ)) (last : StateVector ℝ)
      (χs : List (StateVector ℝ)), ψ.normSq ≠ 1 ∧
      (default : Simulator ℝ).evolve ⟨2, [.gate .h [0], .measure 0 0]⟩ (some ψ) = .ok φs ∧
      φs.getLast? = some last ∧
      (default : Simulator ℝ).evolve ⟨2, [.gate .cx [0, 1], .gate (.rz 3) [1]]⟩ (some last) =
        .ok χs ∧
      (default : Simulator ℝ).evolve
        ⟨2, [.gate .h [0], .measure 0 0, .gate .cx [0, 1], .gate (.rz 3) [1]]⟩ (some ψ) =
        .ok (φs ++ χs.tail) := by
  let ψ : StateVector ℝ := ⟨2, by decide, #v[1, 0, 0, ⟨0, 1 / 10 ^ 5⟩]⟩
  have norm : ψ.normSq = 1 + 1 / 10 ^ 10 := by
    have added : ψ.normSq = 0 + (1 * 1 + 0 * 0) + (0 * 0 + 0 * 0) + (0 * 0 + 0 * 0) +
      (0 * 0 + 1 / 10 ^ 5 * (1 / 10 ^ 5)) := rfl
    rw [added]
    norm_num
  have near : ψ.deviates (Scalar.ofDecimal 1 (-9)) = false := by
    refine decide_eq_false ?_
    rw [norm, Scalar.abs, if_neg (by norm_num), Scalar.ofDecimal_real]
    norm_num
  have built₁ : Circuit.build 2 [.gate .h [0], .measure 0 0] =
    .ok (⟨2, [.gate .h [0], .measure 0 0]⟩ : Circuit ℝ) := rfl
  have built₂ : Circuit.build 2 [.gate .cx [0, 1], .gate (.rz 3) [1]] =
    .ok (⟨2, [.gate .cx [0, 1], .gate (.rz 3) [1]]⟩ : Circuit ℝ) := rfl
  have started : start (default : Simulator ℝ).config.normTolerance 2 (some ψ) = .ok ψ :=
    start_some_eq_ok_iff.2 ⟨rfl, near, rfl⟩
  have given : some ψ = none → 0 ≤ (default : Simulator ℝ).config.normTolerance := nofun
  obtain ⟨c, φs, last, χs, made, run₁, ends, run₂, run, -⟩ :=
    evolve_append (Circuit.reachable_of_build built₁) (Circuit.reachable_of_build built₂) rfl
      (show 2 ≤ 10 by decide) given started
  cases made
  refine ⟨ψ, φs, last, χs, ?_, run₁, ends, run₂, run⟩
  rw [norm]
  norm_num

end Simulator

end QubitTrace
