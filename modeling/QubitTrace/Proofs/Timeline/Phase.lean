import Mathlib
import QubitTrace.Proofs.Evolution.Phase
import QubitTrace.Proofs.Timeline.Report
import QubitTrace.Proofs.Timeline.Steps

/-! # Reports do not show a phase

A number of modulus one cancels against its conjugate in the operator of a state
(`DensityOperator.ofState_scale`) and is lost in the squared norm. A report reads nothing else of a
state, so states of the same phase have the same report (`Timeline.report_eq_of_samePhase`).
-/

namespace QubitTrace
set_option autoImplicit false

open QubitTrace.Evolution (amplitude trajectory)

/-- The amplitudes differ by one number of modulus one, and no operator shows it. -/
structure StateVector.Indistinguishable (ψ φ : StateVector ℝ) : Prop where
  sized : φ.qubits = ψ.qubits
  phase : ∃ u : Complex ℝ, u.normSq = 1 ∧
    ∀ i, amplitude φ.amplitudes i = u * amplitude ψ.amplitudes i
  whole : DensityOperator.ofState φ = .ofState ψ
  part : ∀ gone, (DensityOperator.ofState φ).partialTrace gone =
    (DensityOperator.ofState ψ).partialTrace gone
  qubit : ∀ q, (DensityOperator.ofState φ).reduceToQubit q =
    (DensityOperator.ofState ψ).reduceToQubit q

section Scale

variable {u : Complex ℝ}

theorem StateVector.normSq_scale (unit : u.normSq = 1) (ψ : StateVector ℝ) :
    (ψ.scale u).normSq = ψ.normSq := by
  have entry (i : Fin (Basis.dimension ψ.qubits)) :
      ((ψ.scale u).column i).normSq = (ψ.column i).normSq := by
    have scaled : (ψ.scale u).column i = u * ψ.column i := by
      simp [column, scale, Vector.get_eq_getElem]
    rw [scaled, Complex.normSq_mul, unit, one_mul]
  rw [normSq_eq_sum, normSq_eq_sum]
  exact Finset.sum_congr rfl fun i _ => entry i

/-- The operator of a state does not change with its phase. -/
theorem DensityOperator.ofState_scale (unit : u.normSq = 1) (ψ : StateVector ℝ) :
    ofState (ψ.scale u) = ofState ψ := by
  have cancel (a b : Complex ℝ) : 1 * (u * a) * (u * b).conj = 1 * a * b.conj := by
    have modulus : u * star u = 1 := by rw [mul_comm, Complex.star_mul_self, unit, map_one]
    have product : (u * b).conj = star u * star b := (star_mul u b).trans (mul_comm _ _)
    rw [product]
    linear_combination a * star b * modulus
  simp only [ofState, ofWeighted, StateVector.scale, Vector.map_map, Function.comp_def, cancel]

end Scale

/-- States of the same phase cannot be told apart. -/
theorem StateVector.SamePhase.indistinguishable {ψ φ : StateVector ℝ} (same : ψ.SamePhase φ) :
    ψ.Indistinguishable φ := by
  obtain ⟨u, unit, rfl⟩ := same
  have whole := DensityOperator.ofState_scale unit ψ
  exact ⟨rfl, ⟨u, unit, Evolution.amplitude_map_mul ψ.amplitudes⟩, whole,
    fun gone => by rw [whole], fun q => by rw [whole]⟩

namespace Timeline

variable [Spectral ℝ] {config : Config ℝ}

/-- States of the same phase have the same report, or it fails of the same fault. -/
theorem report_eq_of_samePhase {ψ φ : StateVector ℝ} (same : ψ.SamePhase φ) (n number : Nat) :
    report config n number φ = report config n number ψ := by
  obtain ⟨u, unit, rfl⟩ := same
  have size : (ψ.scale u).qubits = ψ.qubits := rfl
  unfold report Invariant.normalized StateVector.deviates
  rw [StateVector.normSq_scale unit, DensityOperator.ofState_scale unit, size]

/-- The timelines of states of the same phases have the same steps. -/
theorem exists_assemble_of_samePhase {n : Nat} {φs φs' : List (StateVector ℝ)}
    (phases : List.Forall₂ StateVector.SamePhase φs φs') {t : Timeline ℝ}
    (assembled : assemble config n φs = .ok t) :
    ∃ t', assemble config n φs' = .ok t' ∧ t'.steps = t.steps := by
  have reports : (φs'.zipIdx.map fun p => report config n p.2 p.1) =
      φs.zipIdx.map fun p => report config n p.2 p.1 := by
    refine List.ext_getElem (by simp [phases.length_eq]) fun k lt' lt => ?_
    simp only [List.length_map, List.length_zipIdx] at lt lt'
    simp only [List.getElem_map, List.getElem_zipIdx]
    exact report_eq_of_samePhase (phases.get lt lt') n _
  obtain ⟨some, -, made⟩ := assemble_eq_ok_iff.1 assembled
  have some' : φs' ≠ [] := by
    rintro rfl
    exact some (List.forall₂_nil_right_iff.1 phases)
  refine ⟨⟨n, t.steps, φs'.getLast?⟩, assemble_eq_ok_iff.2 ⟨some', ⟨rfl, rfl⟩, ?_⟩, rfl⟩
  rw [mapM_eq_ok_iff, reports, ← mapM_eq_ok_iff, made]

end Timeline

/-- **A phase does not show.** From all bits zero a circuit in which some rotations about the third
axis are replaced by shifts of the phase by the same angles, on the same qubits, passes through
states whose amplitudes are those of the circuit times one number of modulus one for each state. The
operator of each state and all its reductions are the same, and so, under any configuration, are
the steps of the timeline. The run of the circuit exists, and so does its timeline under a valid
configuration. -/
theorem Circuit.run_rephased {c c' : Circuit ℝ} (rephased : c.Rephased c') (tolerance : ℝ) :
    (c.Reachable → 0 < c.qubits → c.qubits ≤ StateVector.maxQubits →
      ∃ φs, trajectory tolerance c none = .ok φs) ∧
    ∀ φs, trajectory tolerance c none = .ok φs → φs.length = c.gateCount + 1 ∧
      ∃ φs', trajectory tolerance c' none = .ok φs' ∧
        List.Forall₂ StateVector.Indistinguishable φs φs' ∧
        ∀ [Spectral ℝ] (config : Config ℝ),
          (Spectral.Exact → config.validate = .ok () →
            ∃ t, Timeline.assemble config c.qubits φs = .ok t) ∧
          ∀ t, Timeline.assemble config c.qubits φs = .ok t → t.steps.length = φs.length ∧
            ∃ t', Timeline.assemble config c'.qubits φs' = .ok t' ∧ t'.steps = t.steps := by
  constructor
  · intro reachable positive small
    obtain ⟨φs, run, -⟩ :=
      Evolution.exists_normalized_trajectory reachable positive small tolerance
    exact ⟨φs, run⟩
  · intro φs run
    obtain ⟨length, -⟩ := Evolution.normalized_of_trajectory run
    obtain ⟨φs', run', phases⟩ := Evolution.trajectory_rephased rephased run
    refine ⟨length, φs', run', phases.imp fun _ _ same => same.indistinguishable,
      fun config => ⟨?_, ?_⟩⟩
    · intro exact valid
      exact Timeline.exists_assemble_of_trajectory exact valid run
    · intro t assembled
      rw [rephased.1]
      exact ⟨Timeline.length_steps assembled,
        Timeline.exists_assemble_of_samePhase phases assembled⟩

/-- A rotated control: the rotation of the control and that of the target replaced, the controlled
rotation kept. -/
theorem Circuit.run_rephased_controlled :
    let _ := Spectral.ofRoots
    let c : Circuit ℝ := ⟨2, [.gate .h [1], .gate (.rz 1) [1], .gate (.crz 2) [1, 0], .measure 1 0,
      .gate (.rz 3) [0], .gate (.rz 4) [1]]⟩
    let c' : Circuit ℝ := ⟨2, [.gate .h [1], .gate (.phase 1) [1], .gate (.crz 2) [1, 0],
      .measure 1 0, .gate (.phase 3) [0], .gate (.rz 4) [1]]⟩
    c.Rephased c' ∧ ∃ φs φs' t t', trajectory 0 c none = .ok φs ∧ trajectory 0 c' none = .ok φs' ∧
      φs.length = 6 ∧ List.Forall₂ StateVector.Indistinguishable φs φs' ∧
      Timeline.assemble .default 2 φs = .ok t ∧ Timeline.assemble .default 2 φs' = .ok t' ∧
      t'.steps = t.steps := by
  intro _ c c'
  have built : Circuit.build 2 c.operations = .ok c := rfl
  have rephased : c.Rephased c' := by
    refine ⟨rfl, .cons (.same _) (.cons (.shift 1 _) (.cons (.same _) (.cons (.same _) ?_)))⟩
    exact .cons (.shift 3 _) (.cons (.same _) .nil)
  obtain ⟨runs, states⟩ := run_rephased rephased 0
  obtain ⟨φs, run⟩ := runs (Circuit.reachable_of_build built) (show 0 < 2 by decide)
    (show 2 ≤ 63 by decide)
  obtain ⟨length, φs', run', same, reports⟩ := states φs run
  obtain ⟨t, assembled⟩ := (reports .default).1 Spectral.exact_ofRoots validate_default
  obtain ⟨-, t', assembled', steps⟩ := (reports .default).2 t assembled
  exact ⟨rephased, φs, φs', t, t', run, run', length, same, assembled, assembled', steps⟩

end QubitTrace
