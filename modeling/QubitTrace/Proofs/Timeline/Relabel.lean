import Mathlib
import QubitTrace.Proofs.Density.Marginal
import QubitTrace.Proofs.Timeline.Report
import QubitTrace.Proofs.Timeline.Steps

/-! # Reports of renamed circuits

Renaming the qubits of a circuit renames them in its states, and a renamed qubit has the reduced
operator of the qubit (`DensityOperator.reduceToQubit_relabel`). So the reports say the same of the
qubits under their new names (`Timeline.qubitReport_relabel`).
-/

namespace QubitTrace
set_option autoImplicit false

open QubitTrace.Basis
open QubitTrace.Evolution (amplitude trajectory)

/-- One state has what the other has at the index with bit `q` moved to bit `π q`. -/
def StateVector.Renamed {K : Type} [Scalar K] (π : Nat → Nat) (ψ φ : StateVector K) : Prop :=
  φ.qubits = ψ.qubits ∧ ∀ i < dimension ψ.qubits, ∃ j < dimension ψ.qubits,
    (∀ q < ψ.qubits, bit j (π q) = bit i q) ∧ amplitude φ.amplitudes j = amplitude ψ.amplitudes i

/-- One report says of each qubit `π q` what the other says of qubit `q`. -/
def Step.Renamed {K : Type} (n : Nat) (π : Nat → Nat) (s t : Step K) : Prop :=
  ∀ q < n, ∃ o, s.qubits[q]? = some o ∧ o.qubit = q ∧
    t.qubits[π q]? = some { o with qubit := π q }

theorem StateVector.renamed_relabel {K : Type} [Scalar K] {ψ : StateVector K} {π : Nat → Nat}
    (permutes : Permutes ψ.qubits π) : ψ.Renamed π (ψ.relabel π) := by
  refine ⟨rfl, fun i lt => ⟨moved ψ.qubits π i, permutes.moved_lt i, fun q small => ?_, ?_⟩⟩
  · exact permutes.bit_moved small i
  · exact Evolution.amplitude_relabel_moved permutes lt

theorem QubitObservables.ofReduced_rename {K : Type} [Scalar K] [Spectral K] (p q : Nat)
    (ρ : DensityOperator K) (tolerance : K) :
    ofReduced p ρ tolerance = (ofReduced q ρ tolerance).map fun o => { o with qubit := p } := by
  unfold ofReduced
  cases Observable.blochVector ρ tolerance <;> rfl

namespace Timeline

variable [Spectral ℝ] {config : Config ℝ} {ψ : StateVector ℝ} {π : Nat → Nat}

/-- A renamed qubit has the report of the qubit, under its new name. -/
theorem qubitReport_relabel (permutes : Permutes ψ.qubits π) {q : Nat} (lt : q < ψ.qubits)
    {o : QubitObservables ℝ} (reported : qubitReport config (.ofState ψ) q = .ok o) :
    qubitReport config (.ofState (ψ.relabel π)) (π q) = .ok { o with qubit := π q } := by
  unfold qubitReport at reported ⊢
  rw [DensityOperator.reduceToQubit_relabel permutes lt]
  obtain ⟨σ, reduced, reported⟩ := bind_eq_ok_iff.1 reported
  obtain ⟨observed, figures, reported⟩ := bind_eq_ok_iff.1 reported
  rw [reduced, ok_bind, QubitObservables.ofReduced_rename (π q) q]
  rw [mapError_eq_ok_iff.1 figures]
  cases eq_ok_of_checks reported
  simp only [Except.map, mapError_ok, ok_bind]
  -- the checks read the operator and the purity, not the number of the qubit
  by_cases checked : config.validateSnapshots = true
  · rw [if_pos checked] at reported ⊢
    obtain ⟨_, positive, reported⟩ := bind_eq_ok_iff.1 reported
    obtain ⟨_, bounded, -⟩ := bind_eq_ok_iff.1 reported
    rw [positive, ok_bind, bounded]
    rfl
  · rw [if_neg checked]
    rfl

/-- The report of a renamed state says the same of the qubits under their new names. -/
theorem renamed_of_report (permutes : Permutes ψ.qubits π) {n k : Nat} {s t : Step ℝ}
    (reported : report config n k ψ = .ok s) (renamed : report config n k (ψ.relabel π) = .ok t) :
    s.Renamed n π t := by
  intro q lt
  obtain ⟨sized, -⟩ := report_eq_ok reported
  obtain ⟨o, here, number, made⟩ := exists_qubit_of_report reported lt
  refine ⟨o, here, number, (getElem?_qubits renamed).2 ⟨?_, ?_⟩⟩
  · exact sized ▸ permutes.lt (sized ▸ lt)
  · exact qubitReport_relabel permutes (sized ▸ lt) made

/-- The timeline of renamed states is the timeline of the states, renamed step by step. -/
theorem renamed_of_assemble {n : Nat} (permutes : Permutes n π) {φs : List (StateVector ℝ)}
    {t t' : Timeline ℝ} (assembled : assemble config n φs = .ok t)
    (renamed : assemble config n (φs.map (.relabel π)) = .ok t') :
    List.Forall₂ (Step.Renamed n π) t.steps t'.steps := by
  have length : t.steps.length = t'.steps.length := by
    rw [length_steps assembled, length_steps renamed, List.length_map]
  refine List.forall₂_of_length_eq_of_get length fun k lt lt' => ?_
  obtain ⟨ψ, listed, reported⟩ :=
    (getElem?_steps assembled).1 (List.getElem?_eq_getElem lt)
  obtain ⟨φ, listed', reported'⟩ :=
    (getElem?_steps renamed).1 (List.getElem?_eq_getElem lt')
  rw [List.getElem?_map, listed] at listed'
  cases listed'
  have sized := (report_eq_ok reported).1
  exact renamed_of_report (sized ▸ permutes) reported reported'

end Timeline

/-- **The numbers of the qubits mean nothing.** From all bits zero a circuit with its qubits renamed
passes through the states of the circuit, where bit `q` of every index has become bit `π q`; under
any configuration the reports of all states say of each qubit `π q` what they say of qubit `q` in
the run of the circuit. Both runs exist, and so do both timelines under a valid configuration. -/
theorem Circuit.run_relabel {c : Circuit ℝ} {π : Nat → Nat} (permutes : Permutes c.qubits π)
    (tolerance : ℝ) :
    (c.Reachable → 0 < c.qubits → c.qubits ≤ StateVector.maxQubits →
      ∃ φs, trajectory tolerance c none = .ok φs) ∧
    ∀ φs, trajectory tolerance c none = .ok φs → φs.length = c.gateCount + 1 ∧
      ∃ φs', trajectory tolerance (c.relabel π) none = .ok φs' ∧
        List.Forall₂ (StateVector.Renamed π) φs φs' ∧
        ∀ [Spectral ℝ] (config : Config ℝ),
          (Spectral.Exact → config.validate = .ok () → ∃ t t',
            Timeline.assemble config c.qubits φs = .ok t ∧
              Timeline.assemble config c.qubits φs' = .ok t') ∧
          ∀ t t', Timeline.assemble config c.qubits φs = .ok t →
            Timeline.assemble config c.qubits φs' = .ok t' →
              t.steps.length = φs.length ∧
                List.Forall₂ (Step.Renamed c.qubits π) t.steps t'.steps := by
  constructor
  · intro reachable positive small
    obtain ⟨φs, run, -⟩ :=
      Evolution.exists_normalized_trajectory reachable positive small tolerance
    exact ⟨φs, run⟩
  · intro φs run
    have run' := Evolution.trajectory_relabel permutes run
    obtain ⟨length, normalized⟩ := Evolution.normalized_of_trajectory run
    refine ⟨length, φs.map (.relabel π), run', ?_, fun config => ⟨?_, ?_⟩⟩
    · refine List.forall₂_map_right_iff.2 (List.forall₂_same.2 fun ψ listed => ?_)
      exact StateVector.renamed_relabel ((normalized ψ listed).1 ▸ permutes)
    · intro exact valid
      obtain ⟨t, assembled⟩ := Timeline.exists_assemble_of_trajectory exact valid run
      obtain ⟨t', renamed⟩ := Timeline.exists_assemble_of_trajectory exact valid run'
      exact ⟨t, t', assembled, renamed⟩
    · intro t t' assembled renamed
      exact ⟨Timeline.length_steps assembled,
        Timeline.renamed_of_assemble permutes assembled renamed⟩

/-- Three qubits in a circle, each renamed to the next one. -/
theorem Circuit.run_relabel_circle :
    let _ := Spectral.ofRoots
    let c : Circuit ℝ := ⟨3, [.gate (.ry 1) [2], .gate .cx [2, 0], .measure 0 0]⟩
    let c' : Circuit ℝ := ⟨3, [.gate (.ry 1) [0], .gate .cx [0, 1], .measure 1 0]⟩
    ∃ φs φs' t t', trajectory 0 c none = .ok φs ∧ trajectory 0 c' none = .ok φs' ∧
      List.Forall₂ (StateVector.Renamed fun q => (q + 1) % 3) φs φs' ∧
      Timeline.assemble .default 3 φs = .ok t ∧ Timeline.assemble .default 3 φs' = .ok t' ∧
      List.Forall₂ (Step.Renamed 3 fun q => (q + 1) % 3) t.steps t'.steps := by
  intro _ c c'
  have built : Circuit.build 3 [.gate (.ry 1) [2], .gate .cx [2, 0], .measure 0 0] = .ok c := rfl
  have circle : Permutes c.qubits fun q => (q + 1) % 3 := by decide
  obtain ⟨runs, renamed⟩ := run_relabel circle 0
  obtain ⟨φs, run⟩ := runs (Circuit.reachable_of_build built) (show 0 < 3 by decide)
    (show 3 ≤ 63 by decide)
  obtain ⟨-, φs', run', states, reports⟩ := renamed φs run
  obtain ⟨t, t', assembled, assembled'⟩ :=
    (reports .default).1 Spectral.exact_ofRoots validate_default
  exact ⟨φs, φs', t, t', run, run', states, assembled, assembled',
    ((reports .default).2 t t' assembled assembled').2⟩

end QubitTrace
