import Mathlib
import QubitTrace.Proofs.Timeline.Report
import QubitTrace.Proofs.Timeline.Steps

/-! # Reports stay in the ball

The purity of an operator is the trace of its square, so that of a pure state is one
(`purity_of_pure`). For a qubit it also tells the length of the Bloch vector: both are made of the
same three numbers of its operator (`sq_bloch`). All states of a run are normalized, so what is
reported of them are figures of this kind.
-/

namespace QubitTrace
set_option autoImplicit false

open QubitTrace.Basis
open scoped Matrix

namespace Observable

variable {ρ : DensityOperator ℝ}

theorem purity_eq_trace (ρ : DensityOperator ℝ) :
    purity ρ = (ρ.toMatrix ρ.dim * ρ.toMatrix ρ.dim).trace.re := by
  have row (i : Nat) : ((List.range ρ.dim).map fun j => ρ.entry i j * ρ.entry j i).sum =
      ∑ j : Fin ρ.dim, ρ.entry i j * ρ.entry j i := by
    rw [← Complex.sum_eq, Complex.sum_map_range]
  rw [purity, Complex.sum_eq, List.flatMap_def, List.sum_flatten, List.map_map]
  simp only [Function.comp_def, row]
  rw [← Complex.sum_eq, Complex.sum_map_range]
  rfl

/-- A column of length one times its conjugate row has purity one. -/
theorem purity_of_pure {d : Nat} (sized : ρ.dim = d) {v : Fin d → Complex ℝ}
    (pure : ρ.toMatrix d = Matrix.vecMulVec v (star v)) (unit : star v ⬝ᵥ v = 1) :
    purity ρ = 1 := by
  subst sized
  rw [purity_eq_trace, pure, Matrix.vecMulVec_mul_vecMulVec, unit, one_smul,
    Matrix.trace_vecMulVec, dotProduct_comm, unit, Complex.re_one]

/-- The whole register of a run is pure. -/
theorem purity_ofState {ψ : StateVector ℝ} (normalized : ψ.normSq = 1) :
    purity (.ofState ψ) = 1 := by
  have unit : star ψ.column ⬝ᵥ ψ.column = 1 := by
    rw [← ψ.ofRealHom_normSq, normalized, map_one]
  exact purity_of_pure rfl (DensityOperator.toMatrix_ofState ψ) unit

/-- The squared length of the Bloch vector is twice the purity less one. -/
theorem sq_bloch (physical : ρ.Physical) (one : ρ.qubits = 1) :
    (expectation ρ .x).re ^ 2 + (expectation ρ .y).re ^ 2 + (expectation ρ .z).re ^ 2 =
      2 * purity ρ - 1 := by
  have state := physical.qubit one
  have diagonal : (ρ.entry 0 0).re + (ρ.entry 1 1).re = 1 := state.re_diagonal
  have mirrored : ρ.entry 1 0 = star (ρ.entry 0 1) := state.mirrored
  have x : (expectation ρ .x).re = 2 * (ρ.entry 0 1).re := by
    simp [expectation, pauli, Complex.sum_eq, SquareMatrix.entry, Gate.pauliX, mirrored]
    ring
  have y : (expectation ρ .y).re = -2 * (ρ.entry 0 1).im := by
    simp [expectation, pauli, Complex.sum_eq, SquareMatrix.entry, Gate.pauliY, Complex.i, mirrored]
    ring
  have z : (expectation ρ .z).re = (ρ.entry 0 0).re - (ρ.entry 1 1).re := by
    simp [expectation, pauli, Complex.sum_eq, SquareMatrix.entry, Gate.pauliZ]
    ring
  rw [x, y, z, DensityOperator.purity_eq physical one, Complex.normSq]
  linear_combination (-((ρ.entry 0 0).re + (ρ.entry 1 1).re) - 1) * diagonal

end Observable

theorem BlochVector.ext {v w : BlochVector ℝ} (x : v.x = w.x) (y : v.y = w.y) (z : v.z = w.z) :
    v = w := by
  cases v
  cases w
  congr

theorem BlochVector.norm_eq (v : BlochVector ℝ) : v.norm = √(v.x ^ 2 + v.y ^ 2 + v.z ^ 2) := by
  rw [norm, Scalar.sqrt_real]
  simp only [pow_two]

/-- A point whose squared distance a purity decides is in the ball, and on the sphere if the state
is pure. -/
theorem BlochVector.norm_of_purity {v : BlochVector ℝ} {p : ℝ} (upper : p ≤ 1)
    (distance : v.x ^ 2 + v.y ^ 2 + v.z ^ 2 = 2 * p - 1) :
    v.norm ≤ 1 ∧ (v.norm = 1 ↔ p = 1) := by
  rw [norm_eq, distance, Real.sqrt_eq_one]
  refine ⟨Real.sqrt_le_one.2 (by linarith), ?_⟩
  constructor
  · intro outside
    linarith
  · intro pure
    linarith

/-! ## What is said of the qubits of a run -/

namespace Timeline

variable [Spectral ℝ] {config : Config ℝ}

/-- What is said of a qubit of a normalized state is true of a point of the ball. -/
theorem qubitReport_mem_ball {ψ : StateVector ℝ} (normalized : ψ.normSq = 1) {q : Nat}
    (lt : q < ψ.qubits) {o : QubitObservables ℝ}
    (reported : qubitReport config (.ofState ψ) q = .ok o) :
    1 / 2 ≤ o.purity ∧ o.purity ≤ 1 ∧
      o.bloch.x ^ 2 + o.bloch.y ^ 2 + o.bloch.z ^ 2 = 2 * o.purity - 1 := by
  obtain ⟨σ, reduced, observed⟩ := qubitReport_eq_ok reported
  obtain ⟨-, located, purity, -⟩ := QubitObservables.ofReduced_eq_ok observed
  obtain ⟨σ', reduced', one, physical⟩ :=
    (DensityOperator.physical_ofState normalized).exists_reduceToQubit (q := q) lt
  cases reduced.symm.trans reduced'
  obtain ⟨lower, upper⟩ := physical.purity_mem one
  obtain ⟨-, vector⟩ := Observable.blochVector_eq_re located
  rw [purity, vector]
  exact ⟨lower, upper, Observable.sq_bloch physical one⟩

/-- What is said of the register of a normalized state is that it is pure. -/
theorem purity_of_report {ψ : StateVector ℝ} (normalized : ψ.normSq = 1) {n number : Nat}
    {step : Step ℝ} (reported : report config n number ψ = .ok step) :
    step.metrics.purity = 1 := by
  obtain ⟨-, -, figures, -⟩ := report_eq_ok reported
  rw [figures]
  exact Observable.purity_ofState normalized

end Timeline

/-- **Reports stay in the ball.** Under a valid configuration every circuit of an allowed size
runs, and each of its steps, one more than it has gates, reports a pure register and says of every
qubit in order a purity `p` from one half to one and a point at squared distance `2 * p - 1` from
the centre. So the point is in the unit ball, and on the sphere exactly when `p` is one. -/
theorem Simulator.run_in_ball [Spectral ℝ] {s : Simulator ℝ} (valid : s.config.validate = .ok ())
    (c : Circuit ℝ) :
    (Spectral.Exact → c.Reachable → 0 < c.qubits → c.qubits ≤ s.config.maxQubits →
      ∃ t, s.run c = .ok t) ∧
    ∀ t, s.run c = .ok t → t.steps.length = c.gateCount + 1 ∧ ∀ step ∈ t.steps,
      step.metrics.purity = 1 ∧ step.qubits.length = c.qubits ∧
      ∀ q < c.qubits, ∃ o, step.qubits[q]? = some o ∧ o.qubit = q ∧
        1 / 2 ≤ o.purity ∧ o.purity ≤ 1 ∧
        o.bloch.x ^ 2 + o.bloch.y ^ 2 + o.bloch.z ^ 2 = 2 * o.purity - 1 ∧
        o.bloch.norm ≤ 1 ∧ (o.bloch.norm = 1 ↔ o.purity = 1) := by
  constructor
  · intro exact reachable positive fits
    obtain ⟨t, ran, -⟩ := exists_run exact valid reachable positive fits
    exact ⟨t, ran⟩
  · intro t ran
    obtain ⟨φs, run, assembled⟩ := run_eq_ok ran
    obtain ⟨length, normalized⟩ := Evolution.normalized_of_trajectory run
    refine ⟨(Timeline.length_steps assembled).trans length, fun step mem => ?_⟩
    obtain ⟨ψ, listed, k, reported⟩ := Timeline.exists_report_of_mem assembled mem
    obtain ⟨sized, unit⟩ := normalized ψ listed
    refine ⟨Timeline.purity_of_report unit reported, Timeline.length_qubits reported,
      fun q lt => ?_⟩
    obtain ⟨o, here, number, made⟩ := Timeline.exists_qubit_of_report reported lt
    obtain ⟨lower, upper, distance⟩ := Timeline.qubitReport_mem_ball unit (sized ▸ lt) made
    exact ⟨o, here, number, lower, upper, distance, BlochVector.norm_of_purity upper distance⟩

/-- A circuit that entangles a rotated qubit with another one, as the default configuration runs
it. -/
theorem Simulator.run_in_ball_entangled :
    let _ := Spectral.ofRoots
    let c : Circuit ℝ := ⟨3, [.gate (.ry 1) [2], .gate .cx [2, 0], .measure 0 0]⟩
    ∃ t, (default : Simulator ℝ).run c = .ok t ∧ t.steps.length = 3 ∧
      ∀ step ∈ t.steps, step.metrics.purity = 1 ∧ ∃ o, step.qubits[2]? = some o ∧
        o.bloch.norm ≤ 1 ∧ (o.bloch.norm = 1 ↔ o.purity = 1) := by
  intro _ c
  have built : Circuit.build 3 [.gate (.ry 1) [2], .gate .cx [2, 0], .measure 0 0] = .ok c := rfl
  obtain ⟨runs, reports⟩ := run_in_ball (s := default) validate_default c
  obtain ⟨t, ran⟩ := runs Spectral.exact_ofRoots (Circuit.reachable_of_build built)
    (show 0 < 3 by decide) (show 3 ≤ 10 by decide)
  obtain ⟨length, steps⟩ := reports t ran
  refine ⟨t, ran, length, fun step mem => ?_⟩
  obtain ⟨pure, -, qubits⟩ := steps step mem
  obtain ⟨o, here, -, -, -, -, inside, sphere⟩ := qubits 2 (show 2 < 3 by decide)
  exact ⟨pure, o, here, inside, sphere⟩

end QubitTrace
