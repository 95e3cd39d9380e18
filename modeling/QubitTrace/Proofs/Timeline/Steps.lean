import Mathlib
import QubitTrace.Proofs.Except
import QubitTrace.Simulator

/-! # What a timeline is made of

The steps of a timeline are the reports of its states, one for one (`getElem?_steps`), and what a
step says of its qubits are their reports in order (`getElem?_qubits`). The checks of a
configuration can keep a report from being made but add nothing to it: what is said of a qubit are
the figures of its reduced operator (`qubitReport_eq_ok`).
-/

namespace QubitTrace
set_option autoImplicit false

/-- Checks that were passed leave no trace. -/
theorem eq_ok_of_checks {ε α : Type} {asked : Prop} [Decidable asked] {x y : Except ε Unit}
    {k : Unit → Except ε α} {a : α}
    (made : (if asked then x >>= fun _ => y >>= k else k ()) = .ok a) : k () = .ok a := by
  by_cases checked : asked
  · rw [if_pos checked] at made
    obtain ⟨_, -, made⟩ := bind_eq_ok_iff.1 made
    obtain ⟨_, -, made⟩ := bind_eq_ok_iff.1 made
    exact made
  · rwa [if_neg checked] at made

variable {K : Type} [Scalar K]

namespace Observable

/-- A Bloch vector holds the real parts of the expectation values. -/
theorem blochVector_eq_re {ρ : DensityOperator K} {tolerance : K} {v : BlochVector K}
    (located : blochVector ρ tolerance = .ok v) :
    ρ.qubits = 1 ∧ v = ⟨(expectation ρ .x).re, (expectation ρ .y).re, (expectation ρ .z).re⟩ := by
  have real {axis : Axis} {x : K} (found : realExpectation ρ tolerance axis = .ok x) :
      x = (expectation ρ axis).re := by
    unfold realExpectation at found
    dsimp only at found
    split_ifs at found
    exact (Except.ok.inj found).symm
  unfold blochVector at located
  split_ifs at located with other
  obtain ⟨x, foundx, located⟩ := bind_eq_ok_iff.1 located
  obtain ⟨y, foundy, located⟩ := bind_eq_ok_iff.1 located
  obtain ⟨z, foundz, located⟩ := bind_eq_ok_iff.1 located
  cases located
  rw [real foundx, real foundy, real foundz]
  exact ⟨not_not.1 other, rfl⟩

end Observable

variable [Spectral K]

/-- What is said of a qubit are the figures of its reduced operator. -/
theorem QubitObservables.ofReduced_eq_ok {q : Nat} {ρ : DensityOperator K} {tolerance : K}
    {o : QubitObservables K} (observed : ofReduced q ρ tolerance = .ok o) :
    o.qubit = q ∧ Observable.blochVector ρ tolerance = .ok o.bloch ∧
      o.purity = Observable.purity ρ ∧ o.isPure = Observable.isPure (Observable.purity ρ) ∧
      o.entropy = Observable.entropy ρ := by
  obtain ⟨bloch, located, made⟩ := bind_eq_ok_iff.1 observed
  cases made
  exact ⟨rfl, located, rfl, rfl, rfl⟩

namespace Timeline

variable {config : Config K} {n number : Nat} {ψ : StateVector K}

theorem qubitReport_eq_ok {ρ : DensityOperator K} {q : Nat} {o : QubitObservables K}
    (reported : qubitReport config ρ q = .ok o) :
    ∃ σ, ρ.reduceToQubit q = .ok σ ∧
      QubitObservables.ofReduced q σ config.hermitianTolerance = .ok o := by
  obtain ⟨σ, reduced, reported⟩ := bind_eq_ok_iff.1 reported
  obtain ⟨observed, figures, reported⟩ := bind_eq_ok_iff.1 reported
  cases eq_ok_of_checks reported
  exact ⟨σ, mapError_eq_ok_iff.1 reduced, mapError_eq_ok_iff.1 figures⟩

/-- What the report of a state is made of. -/
theorem report_eq_ok {step : Step K} (reported : report config n number ψ = .ok step) :
    ψ.qubits = n ∧ step.number = number ∧ step.metrics = metrics (.ofState ψ) step.qubits ∧
      (List.range n).mapM (qubitReport config (.ofState ψ)) = .ok step.qubits := by
  unfold report at reported
  by_cases other : ψ.qubits ≠ n
  · rw [if_pos other] at reported
    cases reported
  · rw [if_neg other] at reported
    obtain ⟨qubits, made, reported⟩ := bind_eq_ok_iff.1 (eq_ok_of_checks reported)
    cases reported
    exact ⟨not_not.1 other, rfl, rfl, made⟩

/-- A report says of each qubit what the report of that qubit says. -/
theorem getElem?_qubits {step : Step K} (reported : report config n number ψ = .ok step) {q : Nat}
    {o : QubitObservables K} :
    step.qubits[q]? = some o ↔ q < n ∧ qubitReport config (.ofState ψ) q = .ok o := by
  obtain ⟨-, -, -, made⟩ := report_eq_ok reported
  rw [getElem?_of_mapM made]
  constructor
  · rintro ⟨p, listed, value⟩
    obtain ⟨lt, same⟩ := List.getElem?_eq_some_iff.1 listed
    rw [List.getElem_range] at same
    subst same
    exact ⟨by simpa using lt, value⟩
  · rintro ⟨lt, value⟩
    exact ⟨q, List.getElem?_range lt, value⟩

theorem length_qubits {step : Step K} (reported : report config n number ψ = .ok step) :
    step.qubits.length = n := by
  obtain ⟨-, -, -, made⟩ := report_eq_ok reported
  have length := congrArg List.length (mapM_eq_ok_iff.1 made)
  simpa using length.symm

/-- A report says something of every qubit. -/
theorem exists_qubit_of_report {step : Step K} (reported : report config n number ψ = .ok step)
    {q : Nat} (lt : q < n) :
    ∃ o, step.qubits[q]? = some o ∧ o.qubit = q ∧ qubitReport config (.ofState ψ) q = .ok o := by
  obtain ⟨o, listed⟩ : ∃ o, step.qubits[q]? = some o :=
    ⟨_, List.getElem?_eq_getElem (lt.trans_eq (length_qubits reported).symm)⟩
  have made := ((getElem?_qubits reported).1 listed).2
  obtain ⟨σ, -, observed⟩ := qubitReport_eq_ok made
  exact ⟨o, listed, (QubitObservables.ofReduced_eq_ok observed).1, made⟩

/-- A timeline is made of the reports of its states, and ends in the last of them. -/
theorem assemble_eq_ok_iff {states : List (StateVector K)} {t : Timeline K} :
    assemble config n states = .ok t ↔ states ≠ [] ∧
      (t.qubits = n ∧ t.finalState = states.getLast?) ∧
        (states.zipIdx.mapM fun p => report config n p.2 p.1) = .ok t.steps := by
  obtain ⟨qubits, steps, final⟩ := t
  unfold assemble
  cases last : states.getLast? with
  | none => simp [List.getLast?_eq_none_iff.1 last]
  | some ψ =>
    have some : states ≠ [] := by
      rintro rfl
      cases last
    simp only [bind_eq_ok_iff]
    constructor
    · rintro ⟨steps, made, same⟩
      cases same
      exact ⟨some, ⟨rfl, rfl⟩, made⟩
    · rintro ⟨-, ⟨rfl, rfl⟩, made⟩
      exact ⟨steps, made, rfl⟩

/-- The steps of a timeline are the reports of its states. -/
theorem getElem?_steps {states : List (StateVector K)} {t : Timeline K}
    (assembled : assemble config n states = .ok t) {k : Nat} {step : Step K} :
    t.steps[k]? = some step ↔ ∃ ψ, states[k]? = some ψ ∧ report config n k ψ = .ok step := by
  obtain ⟨-, -, made⟩ := assemble_eq_ok_iff.1 assembled
  rw [getElem?_of_mapM made]
  simp

theorem length_steps {states : List (StateVector K)} {t : Timeline K}
    (assembled : assemble config n states = .ok t) : t.steps.length = states.length := by
  obtain ⟨-, -, made⟩ := assemble_eq_ok_iff.1 assembled
  have length := congrArg List.length (mapM_eq_ok_iff.1 made)
  simpa using length.symm

/-- Each step of a timeline is the report of one of its states. -/
theorem exists_report_of_mem {states : List (StateVector K)} {t : Timeline K}
    (assembled : assemble config n states = .ok t) {step : Step K} (mem : step ∈ t.steps) :
    ∃ ψ ∈ states, ∃ k, report config n k ψ = .ok step := by
  obtain ⟨k, lt, here⟩ := List.getElem_of_mem mem
  obtain ⟨ψ, listed, reported⟩ :=
    (getElem?_steps assembled).1 ((List.getElem?_eq_getElem lt).trans (congrArg some here))
  exact ⟨ψ, List.mem_of_getElem? listed, k, reported⟩

/-- Each state of a timeline has a report. -/
theorem exists_report_of_state {states : List (StateVector K)} {t : Timeline K}
    (assembled : assemble config n states = .ok t) (mem : ψ ∈ states) :
    ∃ k step, report config n k ψ = .ok step := by
  obtain ⟨k, lt, here⟩ := List.getElem_of_mem mem
  have inside : k < t.steps.length := (length_steps assembled).symm ▸ lt
  obtain ⟨φ, listed, reported⟩ :=
    (getElem?_steps assembled).1 (List.getElem?_eq_getElem inside)
  rw [List.getElem?_eq_getElem lt, here] at listed
  cases listed
  exact ⟨k, _, reported⟩

end Timeline

/-- A run reports the states of a trajectory. -/
theorem Simulator.run_eq_ok {s : Simulator K} {c : Circuit K} {t : Timeline K}
    (ran : s.run c = .ok t) :
    ∃ φs, Evolution.trajectory s.config.normTolerance c none = .ok φs ∧
      Timeline.assemble s.config c.qubits φs = .ok t := by
  obtain ⟨φs, evolved, assembled⟩ := bind_eq_ok_iff.1 ran
  unfold evolve at evolved
  split_ifs at evolved
  exact ⟨φs, evolved, assembled⟩

end QubitTrace
