import Mathlib
import QubitTrace.Proofs.Evolution.Composition
import QubitTrace.Proofs.Timeline.Steps

/-! # The shape of a timeline

A circuit made by additions passes its checks whenever it has a qubit, and a run is that of its
gates (`Evolution.states_filter`). So all that a simulator makes of a circuit depends on its gates
alone (`Simulator.evolve_eq_of_gates`). Its timeline has one step for the initial state and one for
each gate: number, state and report stand at the same place (`Timeline.shape_of_assemble`).
-/

namespace QubitTrace
set_option autoImplicit false

variable {K : Type} [Scalar K]

namespace Simulator

/-- Circuits with the same gates run the same way, from any state. -/
theorem evolve_eq_of_gates (s : Simulator K) {c c' : Circuit K} (reachable : c.Reachable)
    (reachable' : c'.Reachable) (sized : c'.qubits = c.qubits)
    (gates : c'.operations.filter Operation.isUnitary = c.operations.filter Operation.isUnitary)
    (initial : Option (StateVector K)) : s.evolve c' initial = s.evolve c initial := by
  have checks : c'.validate = c.validate := by
    rcases Nat.eq_zero_or_pos c.qubits with empty | positive
    · rw [Circuit.validate, Circuit.validate, if_pos empty, if_pos (sized.trans empty)]
    · rw [Circuit.validate_of_reachable reachable positive,
        Circuit.validate_of_reachable reachable' (sized ▸ positive)]
  have runs (ψ : StateVector K) :
      Evolution.states ψ c'.operations = Evolution.states ψ c.operations := by
    rw [← Evolution.states_filter, gates, Evolution.states_filter]
  unfold evolve Evolution.trajectory
  simp only [sized, checks, runs]

/-- A circuit passes through a state for its start and one for each gate. -/
theorem length_of_evolve {s : Simulator K} {c : Circuit K} {initial : Option (StateVector K)}
    {φs : List (StateVector K)} (evolved : s.evolve c initial = .ok φs) :
    φs.length = c.gateCount + 1 := by
  unfold evolve at evolved
  split_ifs at evolved
  obtain ⟨_, -, started⟩ := bind_eq_ok_iff.1 evolved
  obtain ⟨ψ, -, run⟩ := bind_eq_ok_iff.1 started
  exact Evolution.length_of_states run

theorem finalState_eq_ok_iff {s : Simulator K} {c : Circuit K} {ψ : StateVector K} :
    s.finalState c = .ok ψ ↔ ∃ φs, s.evolve c none = .ok φs ∧ φs.getLast? = some ψ := by
  unfold finalState
  rw [bind_eq_ok_iff]
  refine exists_congr fun φs => and_congr_right fun _ => ?_
  cases φs.getLast? with
  | none => exact iff_of_false nofun nofun
  | some φ => exact ⟨fun same => congrArg some (Except.ok.inj same), fun same => by
      rw [Option.some.inj same]; rfl⟩

end Simulator

variable [Spectral K]

/-- What a step says of its register of `n` qubits is read off the state `ψ`: under the label `j`,
and in this order, the figures of the reduction to qubit `j`. -/
def Step.ReadOff (tolerance : K) (n : Nat) (ψ : StateVector K) (step : Step K) : Prop :=
  step.qubits.length = n ∧ ∀ j < n, ∃ σ o, (DensityOperator.ofState ψ).reduceToQubit j = .ok σ ∧
    QubitObservables.ofReduced j σ tolerance = .ok o ∧ step.qubits[j]? = some o ∧ o.qubit = j

namespace Timeline

theorem readOff_of_report {config : Config K} {n number : Nat} {ψ : StateVector K} {step : Step K}
    (reported : report config n number ψ = .ok step) :
    step.ReadOff config.hermitianTolerance n ψ := by
  refine ⟨length_qubits reported, fun j lt => ?_⟩
  obtain ⟨o, here, label, made⟩ := exists_qubit_of_report reported lt
  obtain ⟨σ, reduced, observed⟩ := qubitReport_eq_ok made
  exact ⟨σ, o, reduced, observed, here, label⟩

/-- The steps of a timeline are numbered in the order of the states, and each is read off its
state. -/
theorem shape_of_assemble {config : Config K} {n : Nat} {φs : List (StateVector K)} {t : Timeline K}
    (assembled : assemble config n φs = .ok t) :
    t.qubits = n ∧ t.finalState = φs.getLast? ∧ t.steps.length = φs.length ∧
      ∀ k (step : Step K), t.steps[k]? = some step → step.number = k ∧
        ∃ ψ, φs[k]? = some ψ ∧ step.ReadOff config.hermitianTolerance n ψ := by
  obtain ⟨-, frame, -⟩ := assemble_eq_ok_iff.1 assembled
  refine ⟨frame.1, frame.2, length_steps assembled, fun k step here => ?_⟩
  obtain ⟨ψ, listed, reported⟩ := (getElem?_steps assembled).1 here
  exact ⟨(report_eq_ok reported).2.1, ψ, listed, readOff_of_report reported⟩

end Timeline

/-- **Only gates matter.** A simulator makes the same of two circuits made by additions over the same
qubits that have the same gates, wherever measurements and barriers stand between them: the states
they pass through from any start, their final states and their timelines, faults included. A timeline
has a step for the initial state and one for each gate; step `k` carries the number `k` and is read
off state `k` of the run, and the last state of the run is the final state. -/
theorem Simulator.run_eq_of_gates (s : Simulator K) {c c' : Circuit K} (reachable : c.Reachable)
    (reachable' : c'.Reachable) (sized : c'.qubits = c.qubits)
    (gates : c'.operations.filter Operation.isUnitary = c.operations.filter Operation.isUnitary) :
    (∀ initial, s.evolve c' initial = s.evolve c initial) ∧ s.finalState c' = s.finalState c ∧
    s.run c' = s.run c ∧
    ∀ t, s.run c = .ok t → ∃ φs last, s.evolve c none = .ok φs ∧ φs.length = c.gateCount + 1 ∧
      t.qubits = c.qubits ∧ t.steps.length = c.gateCount + 1 ∧
      (∀ k (step : Step K), t.steps[k]? = some step → step.number = k ∧
        ∃ ψ, φs[k]? = some ψ ∧ step.ReadOff s.config.hermitianTolerance c.qubits ψ) ∧
      φs.getLast? = some last ∧ t.finalState = some last ∧ s.finalState c = .ok last := by
  have same := s.evolve_eq_of_gates reachable reachable' sized gates
  refine ⟨same, ?_, ?_, fun t ran => ?_⟩
  · unfold finalState
    rw [same]
  · unfold run
    rw [same, sized]
  · obtain ⟨φs, evolved, assembled⟩ := bind_eq_ok_iff.1 ran
    obtain ⟨qubits, final, length, steps⟩ := Timeline.shape_of_assemble assembled
    have states := length_of_evolve evolved
    have some : φs ≠ [] := by
      rintro rfl
      cases states
    have ends := List.getLast?_eq_some_getLast some
    exact ⟨φs, _, evolved, states, qubits, length.trans states, steps, ends, final.trans ends,
      finalState_eq_ok_iff.2 ⟨φs, evolved, ends⟩⟩

/-- A pair of entangled qubits, measured on the way or at the end, behind a barrier. -/
theorem Simulator.run_eq_of_gates_entangled :
    let _ := Spectral.ofRoots
    let s : Simulator ℝ := default
    let c : Circuit ℝ := ⟨2, [.gate .h [0], .measure 1 0, .gate .cx [0, 1]]⟩
    let c' : Circuit ℝ := ⟨2, [.barrier [1, 0, 1], .gate .h [0], .gate .cx [0, 1], .measure 0 5]⟩
    (∀ initial, s.evolve c' initial = s.evolve c initial) ∧
      ∃ t ψ, s.run c = .ok t ∧ s.run c' = .ok t ∧ t.steps.length = 3 ∧
        t.finalState = some ψ ∧ s.finalState c' = .ok ψ := by
  intro _ s c c'
  have built : Circuit.build 2 [.gate .h [0], .measure 1 0, .gate .cx [0, 1]] = .ok c := rfl
  have built' : Circuit.build 2
      [.barrier [1, 0, 1], .gate .h [0], .gate .cx [0, 1], .measure 0 5] = .ok c' := rfl
  have reachable := Circuit.reachable_of_build built
  obtain ⟨t, ran, -⟩ := exists_run (s := s) Spectral.exact_ofRoots validate_default reachable
    (show 0 < 2 by decide) (show 2 ≤ 10 by decide)
  obtain ⟨evolved, final, same, shape⟩ :=
    run_eq_of_gates s reachable (Circuit.reachable_of_build built') rfl rfl
  obtain ⟨φs, ψ, -, -, -, steps, -, -, last, ends⟩ := shape t ran
  exact ⟨evolved, t, ψ, ran, same.trans ran, steps, last, final.trans ends⟩

end QubitTrace
