import Mathlib
import QubitTrace.Proofs.Density.Tracing
import QubitTrace.Proofs.Timeline.Ball

/-! # Rotations turn the Bloch vector

A gate on one qubit acts on the reduced operator of that qubit from both sides, whatever the qubit
is entangled with. If its unitary is a rotation by `θ`, the expectation values of what comes out are
those of what went in, turned by `θ` about the axis (`ofMatrix_rx`, `ofMatrix_ry`,
`ofMatrix_diagonal`): the half angles of the unitary and of its adjoint meet in the double-angle
formulas. A diagonal unitary turns about the third axis by the difference of its two phases, so
the rotation `rz` and the phase shift, which differ in a phase only, turn alike.
-/

namespace QubitTrace
set_option autoImplicit false

open QubitTrace.Basis
open scoped Matrix

namespace BlochVector

/-- The point after a turn by `θ` about an axis, counterclockwise as seen from its tip. -/
noncomputable def turn (v : BlochVector ℝ) (θ : ℝ) : Axis → BlochVector ℝ
  | .x => ⟨v.x, v.y * Real.cos θ - v.z * Real.sin θ, v.y * Real.sin θ + v.z * Real.cos θ⟩
  | .y => ⟨v.x * Real.cos θ + v.z * Real.sin θ, v.y, v.z * Real.cos θ - v.x * Real.sin θ⟩
  | .z => ⟨v.x * Real.cos θ - v.y * Real.sin θ, v.x * Real.sin θ + v.y * Real.cos θ, v.z⟩

/-! ## Operators between a unitary and its adjoint -/

section Conjugate

variable (M : Matrix (Fin 2) (Fin 2) (Complex ℝ))

theorem ofMatrix_eq : ofMatrix M =
    ⟨(M 0 1).re + (M 1 0).re, (M 1 0).im - (M 0 1).im, (M 0 0).re - (M 1 1).re⟩ := by
  have value (axis : Axis) : (M * (Observable.pauli axis).toMatrix).trace =
      M 0 0 * (Observable.pauli axis).entry 0 0 + M 0 1 * (Observable.pauli axis).entry 1 0 +
        (M 1 0 * (Observable.pauli axis).entry 0 1 +
          M 1 1 * (Observable.pauli axis).entry 1 1) := by
    rw [Matrix.trace_fin_two, Matrix.mul_apply, Matrix.mul_apply, Fin.sum_univ_two,
      Fin.sum_univ_two]
    rfl
  apply ext <;> simp only [ofMatrix, value] <;>
    simp [SquareMatrix.entry, Observable.pauli, Gate.pauliX, Gate.pauliY, Gate.pauliZ,
      Complex.i] <;>
    ring

/-- The entries of an operator between a matrix and its adjoint. -/
theorem conj_fin_two (a b c d : Complex ℝ) :
    let U : SquareMatrix ℝ 2 := #v[#v[a, b], #v[c, d]]
    U.toMatrix * M * U.toMatrixᴴ =
      !![(a * M 0 0 + b * M 1 0) * star a + (a * M 0 1 + b * M 1 1) * star b,
        (a * M 0 0 + b * M 1 0) * star c + (a * M 0 1 + b * M 1 1) * star d;
        (c * M 0 0 + d * M 1 0) * star a + (c * M 0 1 + d * M 1 1) * star b,
        (c * M 0 0 + d * M 1 0) * star c + (c * M 0 1 + d * M 1 1) * star d] := by
  intro U
  rw [SquareMatrix.toMatrix_fin_two, SquareMatrix.conjTranspose_fin_two]
  conv_lhs => rw [Matrix.eta_fin_two M, Matrix.mul_fin_two, Matrix.mul_fin_two]

theorem ofMatrix_fin_two (p q r s : Complex ℝ) :
    ofMatrix !![p, q; r, s] = ⟨q.re + r.re, r.im - q.im, p.re - s.re⟩ := ofMatrix_eq _

variable (θ : ℝ)

theorem cos_eq_half : Real.cos θ = Real.cos (θ / 2) ^ 2 - Real.sin (θ / 2) ^ 2 := by
  rw [← Real.cos_two_mul', mul_div_cancel₀ θ two_ne_zero]

theorem sin_eq_half : Real.sin θ = 2 * Real.sin (θ / 2) * Real.cos (θ / 2) := by
  rw [← Real.sin_two_mul, mul_div_cancel₀ θ two_ne_zero]

theorem ofMatrix_rx :
    ofMatrix ((Gate.rxMatrix θ).toMatrix * M * (Gate.rxMatrix θ).toMatrixᴴ) =
      (ofMatrix M).turn θ .x := by
  have circle := Real.cos_sq_add_sin_sq (θ / 2)
  rw [Gate.rxMatrix, conj_fin_two, ofMatrix_fin_two, ofMatrix_eq, turn, cos_eq_half θ,
    sin_eq_half θ]
  simp only [Complex.re_add, Complex.im_add, Complex.re_mul, Complex.im_mul, Complex.re_star,
    Complex.im_star, Scalar.cos_real, Scalar.sin_real, Scalar.half_real]
  apply ext
  · linear_combination ((M 0 1).re + (M 1 0).re) * circle
  · ring
  · ring

theorem ofMatrix_ry :
    ofMatrix ((Gate.ryMatrix θ).toMatrix * M * (Gate.ryMatrix θ).toMatrixᴴ) =
      (ofMatrix M).turn θ .y := by
  have circle := Real.cos_sq_add_sin_sq (θ / 2)
  rw [Gate.ryMatrix, conj_fin_two, ofMatrix_fin_two, ofMatrix_eq, turn, cos_eq_half θ,
    sin_eq_half θ]
  simp only [Complex.re_add, Complex.im_add, Complex.re_mul, Complex.im_mul, Complex.re_star,
    Complex.im_star, Scalar.cos_real, Scalar.sin_real, Scalar.half_real]
  apply ext
  · ring
  · linear_combination ((M 1 0).im - (M 0 1).im) * circle
  · ring

/-- A diagonal unitary turns about the third axis by the difference of its phases. -/
theorem ofMatrix_diagonal (α β : ℝ) :
    let U : SquareMatrix ℝ 2 := #v[#v[Complex.polar 1 α, 0], #v[0, Complex.polar 1 β]]
    ofMatrix (U.toMatrix * M * U.toMatrixᴴ) = (ofMatrix M).turn (β - α) .z := by
  have first := Real.cos_sq_add_sin_sq α
  have second := Real.cos_sq_add_sin_sq β
  intro U
  rw [conj_fin_two, ofMatrix_fin_two, ofMatrix_eq, turn, Real.cos_sub, Real.sin_sub]
  simp only [Complex.polar, Complex.re_add, Complex.im_add, Complex.re_mul, Complex.im_mul,
    Complex.re_star, Complex.im_star, Complex.re_zero, Complex.im_zero, Scalar.cos_real,
    Scalar.sin_real]
  apply ext
  · ring
  · ring
  · linear_combination (M 0 0).re * first - (M 1 1).re * second

end Conjugate

end BlochVector

/-- A unitary and its adjoint leave the trace of the square as it is. -/
theorem trace_sq_conj {n : Type} [Fintype n] [DecidableEq n] {U : Matrix n n (Complex ℝ)}
    (unitary : U ∈ Matrix.unitaryGroup n (Complex ℝ)) (M : Matrix n n (Complex ℝ)) :
    ((U * M * Uᴴ) * (U * M * Uᴴ)).trace = (M * M).trace := by
  have cancels : Uᴴ * U = 1 := Matrix.mem_unitaryGroup_iff'.1 unitary
  calc ((U * M * Uᴴ) * (U * M * Uᴴ)).trace
      = (U * M * (Uᴴ * U) * M * Uᴴ).trace := by simp only [Matrix.mul_assoc]
    _ = (U * (M * M) * Uᴴ).trace := by rw [cancels, Matrix.mul_one, Matrix.mul_assoc U]
    _ = (M * M).trace := by
        rw [Matrix.trace_mul_comm, ← Matrix.mul_assoc, cancels, Matrix.one_mul]

/-! ## Reduced operators -/

namespace DensityOperator

variable {ρ σ : DensityOperator ℝ} {q : Nat}

/-- The operator of a pure state is its own adjoint, also if the state is not normalized. -/
theorem hermitian_ofState (ψ : StateVector ℝ) : (ofState ψ).Hermitian := by
  have matrix := toMatrix_ofState ψ
  change ((ofState ψ).toMatrix (dimension ψ.qubits)).IsHermitian
  exact matrix.symm ▸ isHermitian_vecMulVec ψ.column

theorem Hermitian.reduceToQubit (hermitian : ρ.Hermitian) (lt : q < ρ.qubits)
    (reduced : ρ.reduceToQubit q = .ok σ) (one : σ.qubits = 1) : (σ.toMatrix 2).IsHermitian := by
  rw [reduceToQubit_eq lt] at reduced
  have remains := hermitian.partialTrace reduced
  rw [Hermitian, one] at remains
  exact remains

theorem purity_of_qubit (one : σ.qubits = 1) :
    Observable.purity σ = (σ.toMatrix 2 * σ.toMatrix 2).trace.re := by
  have two : σ.dim = 2 := congrArg dimension one
  rw [Observable.purity_eq_trace, two]

end DensityOperator

/-! ## Rotations in a circuit -/

/-- The axis and the angle of a rotation; a phase shift is one up to the phase of the register. -/
inductive Gate.Turns : Gate ℝ → Axis → ℝ → Prop
  | rx (θ : ℝ) : Turns (.rx θ) .x θ
  | ry (θ : ℝ) : Turns (.ry θ) .y θ
  | rz (θ : ℝ) : Turns (.rz θ) .z θ
  | phase (lam : ℝ) : Turns (.phase lam) .z lam

/-- The unitary of a rotation turns the point of every operator on one qubit. -/
theorem Gate.Turns.exists_matrix {g : Gate ℝ} {axis : Axis} {θ : ℝ} (turns : g.Turns axis θ) :
    ∃ U : SquareMatrix ℝ 2, g.matrix = .single U ∧
      U.toMatrix ∈ Matrix.unitaryGroup (Fin 2) (Complex ℝ) ∧
      ∀ M, BlochVector.ofMatrix (U.toMatrix * M * U.toMatrixᴴ) =
        (BlochVector.ofMatrix M).turn θ axis := by
  cases turns with
  | rx => exact ⟨_, rfl, SquareMatrix.unitary_rx θ, fun M => BlochVector.ofMatrix_rx M θ⟩
  | ry => exact ⟨_, rfl, SquareMatrix.unitary_ry θ, fun M => BlochVector.ofMatrix_ry M θ⟩
  | rz =>
    refine ⟨_, rfl, SquareMatrix.unitary_rz θ, fun M => ?_⟩
    have turned := BlochVector.ofMatrix_diagonal M (-θ / 2) (θ / 2)
    rwa [show θ / 2 - -θ / 2 = θ by ring] at turned
  | phase =>
    refine ⟨_, rfl, SquareMatrix.unitary_phase θ, fun M => ?_⟩
    have turned := BlochVector.ofMatrix_diagonal M 0 θ
    have still : (Complex.polar 1 0 : Complex ℝ) = 1 := by
      apply Complex.ext <;> simp [Complex.polar, Scalar.cos_real, Scalar.sin_real]
    rwa [sub_zero, still] at turned

namespace Evolution

open DensityOperator (ofState)

/-- **Rotations turn the Bloch vector.** A rotation by `θ` about an axis on one qubit of a register
in any state, entangled or not, turns the Bloch vector of that qubit by `θ` about the axis, and the
phase shift by `θ` turns it as `rz` does. The purity of the qubit stays as it is. -/
theorem blochVector_apply_of_turns {ψ : StateVector ℝ} {q : Nat} (lt : q < ψ.qubits) {g : Gate ℝ}
    {axis : Axis} {θ : ℝ} (turns : g.Turns axis θ) :
    ∃ φ σ σ' v, apply ψ g [q] = .ok φ ∧ (ofState ψ).reduceToQubit q = .ok σ ∧
      (ofState φ).reduceToQubit q = .ok σ' ∧
      (∀ tolerance, 0 ≤ tolerance → Observable.blochVector σ tolerance = .ok v ∧
        Observable.blochVector σ' tolerance = .ok (v.turn θ axis)) ∧
      Observable.purity σ' = Observable.purity σ := by
  obtain ⟨U, matrix, unitary, turned⟩ := turns.exists_matrix
  obtain ⟨φ, σ, σ', applied, before, after, one, one', moved⟩ :=
    DensityOperator.exists_reduceToQubit_apply matrix lt
  have hermitian : (σ.toMatrix 2).IsHermitian :=
    (DensityOperator.hermitian_ofState ψ).reduceToQubit lt before one
  have hermitian' : (σ'.toMatrix 2).IsHermitian := by
    rw [moved]
    exact Matrix.isHermitian_mul_mul_conjTranspose _ hermitian
  refine ⟨φ, σ, σ', .ofMatrix (σ.toMatrix 2), applied, before, after, ?_, ?_⟩
  · intro tolerance nonneg
    refine ⟨Observable.blochVector_eq_ok hermitian one nonneg, ?_⟩
    rw [Observable.blochVector_eq_ok hermitian' one' nonneg, moved, turned]
  · rw [DensityOperator.purity_of_qubit one', DensityOperator.purity_of_qubit one, moved,
      trace_sq_conj unitary]

/-- A quarter turn of the second of two entangled qubits. -/
theorem blochVector_apply_of_turns_entangled :
    let amplitude (i : Nat) : Complex ℝ :=
      if i = 0 then ⟨3 / 5, 0⟩ else if i = 3 then ⟨0, 4 / 5⟩ else 0
    let ψ : StateVector ℝ := ⟨2, by decide, .ofFn fun i => amplitude i⟩
    1 < ψ.qubits ∧ (Gate.rx (Real.pi / 2)).Turns .x (Real.pi / 2) ∧
      ∃ φ σ σ' v, apply ψ (.rx (Real.pi / 2)) [1] = .ok φ ∧
        (ofState ψ).reduceToQubit 1 = .ok σ ∧ (ofState φ).reduceToQubit 1 = .ok σ' ∧
        (∀ tolerance, 0 ≤ tolerance → Observable.blochVector σ tolerance = .ok v ∧
          Observable.blochVector σ' tolerance = .ok (v.turn (Real.pi / 2) .x)) ∧
        Observable.purity σ' = Observable.purity σ := by
  intro amplitude ψ
  exact ⟨by decide, .rx _, blochVector_apply_of_turns (ψ := ψ) (by decide) (.rx _)⟩

end Evolution

end QubitTrace
