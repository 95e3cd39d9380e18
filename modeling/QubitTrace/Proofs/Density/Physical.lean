import Mathlib
import QubitTrace.Invariant
import QubitTrace.Proofs.Density.Locality
import QubitTrace.Proofs.Density.Spectrum

/-! # Operators of states

The operator of a normalized state is its own adjoint, turns no vector by more than a right
angle and has trace one (`IsState`). Summing over a part of the index keeps all three, so what
a partial trace leaves is again the operator of a state (`Physical.partialTrace`). On one qubit
this puts the purity between one half and one. The expectation values of an operator on one qubit
are traces of products with the Pauli operators, and real if the operator is its own adjoint
(`Observable.expectation_eq`).
-/

namespace QubitTrace
set_option autoImplicit false

open QubitTrace.Basis
open scoped Matrix

theorem Complex.re_sum {ι : Type} (s : Finset ι) (f : ι → Complex ℝ) :
    (∑ i ∈ s, f i).re = ∑ i ∈ s, (f i).re :=
  map_sum (⟨⟨re, rfl⟩, fun _ _ => rfl⟩ : Complex ℝ →+ ℝ) f s

/-! ## What a sum over the second part of the index keeps -/

section TraceRight

variable {m e n : Type} [Fintype m] [Fintype e] [Fintype n]

theorem nonneg_submatrix {M : Matrix n n (Complex ℝ)}
    (positive : ∀ v, 0 ≤ (star v ⬝ᵥ M *ᵥ v).re) (s : m ≃ n) (v : m → Complex ℝ) :
    0 ≤ (star v ⬝ᵥ M.submatrix s s *ᵥ v).re := by
  have moved := positive (v ∘ s.symm)
  rw [Matrix.submatrix_mulVec_equiv, ← Equiv.symm_symm s, dotProduct_comp_equiv_symm]
  exact moved

theorem trace_submatrix {M : Matrix n n (Complex ℝ)} (s : m ≃ n) :
    (M.submatrix s s).trace = M.trace :=
  s.sum_comp fun i => M i i

omit [Fintype m] in
theorem isHermitian_traceRight {M : Matrix (m × e) (m × e) (Complex ℝ)}
    (hermitian : M.IsHermitian) : (traceRight M).IsHermitian := by
  refine Matrix.IsHermitian.ext fun a a' => ?_
  rw [traceRight, Matrix.of_apply, Matrix.of_apply, star_sum]
  exact Finset.sum_congr rfl fun b _ => hermitian.apply (a, b) (a', b)

theorem nonneg_traceRight {M : Matrix (m × e) (m × e) (Complex ℝ)}
    (positive : ∀ v, 0 ≤ (star v ⬝ᵥ M *ᵥ v).re) (v : m → Complex ℝ) :
    0 ≤ (star v ⬝ᵥ traceRight M *ᵥ v).re := by
  classical
  -- the vector that is `v` in one slice of the index and zero in the others
  let slice (b : e) : m × e → Complex ℝ := fun p => if p.2 = b then v p.1 else 0
  have within (b : e) : star (slice b) ⬝ᵥ M *ᵥ slice b =
      ∑ a, star (v a) * ∑ a', M (a, b) (a', b) * v a' := by
    simp only [dotProduct, Matrix.mulVec, slice, Fintype.sum_prod_type, Pi.star_apply,
      apply_ite star, star_zero, ite_mul, zero_mul, mul_ite, mul_zero, Finset.sum_ite_eq',
      Finset.mem_univ, if_true]
  have sliced : star v ⬝ᵥ traceRight M *ᵥ v = ∑ b, star (slice b) ⬝ᵥ M *ᵥ slice b := by
    rw [Finset.sum_congr rfl fun b _ => within b, Finset.sum_comm]
    refine Finset.sum_congr rfl fun a _ => ?_
    rw [← Finset.mul_sum, Finset.sum_comm]
    simp only [Matrix.mulVec, dotProduct, traceRight, Matrix.of_apply, Finset.sum_mul]
    rfl
  rw [sliced, Complex.re_sum]
  exact Finset.sum_nonneg fun b _ => positive (slice b)

theorem trace_traceRight (M : Matrix (m × e) (m × e) (Complex ℝ)) :
    (traceRight M).trace = M.trace := by
  rw [Matrix.trace, Matrix.trace, Fintype.sum_prod_type]
  rfl

end TraceRight

/-- The trace of a product of two matrices that are their own adjoints is real. -/
theorem im_trace_mul {n : Type} [Fintype n] {A B : Matrix n n (Complex ℝ)} (left : A.IsHermitian)
    (right : B.IsHermitian) : (A * B).trace.im = 0 := by
  have mirrored : star (A * B).trace = (A * B).trace := by
    rw [← Matrix.trace_conjTranspose, Matrix.conjTranspose_mul, left.eq, right.eq,
      Matrix.trace_mul_comm]
  have same : -(A * B).trace.im = (A * B).trace.im := congrArg Complex.im mirrored
  linarith

theorem isHermitian_vecMulVec {n : Type} (ψ : n → Complex ℝ) :
    (Matrix.vecMulVec ψ (star ψ)).IsHermitian := by
  rw [Matrix.IsHermitian, Matrix.conjTranspose_vecMulVec, star_star]

/-- A matrix that is its own adjoint, turns no vector by more than a right angle and has
trace one. -/
structure IsState {n : Type} [Fintype n] (M : Matrix n n (Complex ℝ)) : Prop where
  hermitian : M.IsHermitian
  positive : ∀ v, 0 ≤ (star v ⬝ᵥ M *ᵥ v).re
  trace : M.trace = 1

namespace IsState

variable {m e n : Type} [Fintype m] [Fintype e] [Fintype n]

/-- A column of length one times its conjugate row. -/
theorem vecMulVec {ψ : n → Complex ℝ} (unit : star ψ ⬝ᵥ ψ = 1) :
    IsState (Matrix.vecMulVec ψ (star ψ)) where
  hermitian := isHermitian_vecMulVec ψ
  positive v := by
    rw [Matrix.vecMulVec_mulVec, op_smul_eq_smul, dotProduct_smul, smul_eq_mul]
    have mirrored : star v ⬝ᵥ ψ = star (star ψ ⬝ᵥ v) := by
      rw [Matrix.star_dotProduct]
    rw [mirrored, mul_comm, Complex.star_mul_self, Complex.re_ofRealHom]
    exact Complex.normSq_nonneg _
  trace := by rw [Matrix.trace_vecMulVec, dotProduct_comm, unit]

theorem submatrix {M : Matrix n n (Complex ℝ)} (state : IsState M) (s : m ≃ n) :
    IsState (M.submatrix s s) where
  hermitian := state.hermitian.submatrix s
  positive := nonneg_submatrix state.positive s
  trace := (trace_submatrix s).trans state.trace

/-- Summing over the second part of the index keeps the operator of a state one. -/
theorem traceRight {M : Matrix (m × e) (m × e) (Complex ℝ)} (state : IsState M) :
    IsState (traceRight M) where
  hermitian := isHermitian_traceRight state.hermitian
  positive := nonneg_traceRight state.positive
  trace := (trace_traceRight M).trans state.trace

/-! ### One qubit -/

section Qubit

variable {M : Matrix (Fin 2) (Fin 2) (Complex ℝ)}

theorem mirrored (state : IsState M) : M 1 0 = star (M 0 1) :=
  (state.hermitian.apply 1 0).symm

theorem im_diagonal (state : IsState M) (i : Fin 2) : (M i i).im = 0 := by
  have same : -(M i i).im = (M i i).im := congrArg Complex.im (state.hermitian.apply i i)
  linarith

theorem re_diagonal (state : IsState M) : (M 0 0).re + (M 1 1).re = 1 := by
  have sum := congrArg Complex.re state.trace
  rwa [Matrix.trace_fin_two, Complex.re_add, Complex.re_one] at sum

/-- The angle of a vector with its image, by its two components. -/
theorem re_form (state : IsState M) (v : Fin 2 → Complex ℝ) :
    (star v ⬝ᵥ M *ᵥ v).re = (M 0 0).re * (v 0).normSq + (M 1 1).re * (v 1).normSq +
      2 * (star (v 0) * M 0 1 * v 1).re := by
  have low := state.im_diagonal 0
  have high := state.im_diagonal 1
  simp only [dotProduct, Matrix.mulVec, Fin.sum_univ_two, state.mirrored, Pi.star_apply,
    Complex.normSq, Complex.re_add, Complex.re_mul, Complex.im_add, Complex.im_mul,
    Complex.re_star, Complex.im_star, low, high]
  ring

/-- The determinant is not negative. -/
theorem normSq_le (state : IsState M) : (M 0 1).normSq ≤ (M 0 0).re * (M 1 1).re := by
  -- both vectors make an angle with their image that is a multiple of the determinant
  have low := state.positive ![Complex.ofRealHom (M 1 1).re, -star (M 0 1)]
  have high := state.positive ![-M 0 1, Complex.ofRealHom (M 0 0).re]
  rw [state.re_form] at low high
  have product : 0 ≤ ((M 0 0).re + (M 1 1).re) *
      ((M 0 0).re * (M 1 1).re - (M 0 1).normSq) := by
    simp only [Matrix.cons_val_zero, Matrix.cons_val_one, Complex.normSq, Complex.re_mul,
      Complex.im_mul, Complex.re_star, Complex.im_star, Complex.re_neg, Complex.im_neg,
      Complex.re_ofRealHom, Complex.im_ofRealHom] at low high ⊢
    linarith
  rw [state.re_diagonal, one_mul] at product
  exact sub_nonneg.1 product

end Qubit

end IsState

namespace DensityOperator

/-- The operator of a state. -/
def Physical (ρ : DensityOperator ℝ) : Prop := IsState (ρ.toMatrix (dimension ρ.qubits))

theorem physical_ofState {ψ : StateVector ℝ} (normalized : ψ.normSq = 1) :
    (ofState ψ).Physical := by
  have unit : star ψ.column ⬝ᵥ ψ.column = 1 := by
    rw [← ψ.ofRealHom_normSq, normalized, map_one]
  have state := IsState.vecMulVec unit
  rwa [← toMatrix_ofState] at state

/-- What a partial trace leaves of the operator of a state is one again. -/
theorem Physical.partialTrace {ρ σ : DensityOperator ℝ} (physical : ρ.Physical)
    {qubits : List Nat} (traced : ρ.partialTrace qubits = .ok σ) : σ.Physical := by
  obtain ⟨sized, matrix⟩ := toMatrix_of_partialTrace traced
  rw [Physical, sized, matrix]
  exact (physical.submatrix (shares_kept ρ.qubits qubits).split.symm).traceRight

/-- There is a reduced operator for every qubit of a register, and it is that of a state. -/
theorem Physical.exists_reduceToQubit {ρ : DensityOperator ℝ} (physical : ρ.Physical) {q : Nat}
    (lt : q < ρ.qubits) : ∃ σ, ρ.reduceToQubit q = .ok σ ∧ σ.qubits = 1 ∧ σ.Physical := by
  obtain ⟨σ, traced, sized, -⟩ := exists_partialTrace (ρ := ρ) rfl (traceable_filter_ne lt)
  rw [kept_filter_ne lt] at sized
  exact ⟨σ, (reduceToQubit_eq lt).trans traced, sized, physical.partialTrace traced⟩

theorem trace_eq (ρ : DensityOperator ℝ) : ρ.trace = (ρ.toMatrix (dimension ρ.qubits)).trace :=
  Complex.sum_map_range ρ.dim fun i => ρ.entry i i

variable {ρ : DensityOperator ℝ}

theorem Physical.trace_eq_one (physical : ρ.Physical) : ρ.trace = 1 :=
  ρ.trace_eq.trans (IsState.trace physical)

/-- No listed eigenvalue of the operator of a state is negative. -/
theorem Physical.eigenvalue_nonneg [Spectral ℝ] (exact : Spectral.Exact) (physical : ρ.Physical)
    {p : ℝ} (listed : p ∈ Spectral.eigenvalues ρ.entries) : 0 ≤ p :=
  exact.nonneg physical.hermitian physical.positive listed

theorem Physical.qubit (physical : ρ.Physical) (one : ρ.qubits = 1) : IsState (ρ.toMatrix 2) := by
  rw [Physical, one] at physical
  exact physical

theorem purity_eq (physical : ρ.Physical) (one : ρ.qubits = 1) :
    Observable.purity ρ = (ρ.entry 0 0).re ^ 2 + (ρ.entry 1 1).re ^ 2 +
      2 * (ρ.entry 0 1).normSq := by
  have state := physical.qubit one
  have low : (ρ.entry 0 0).im = 0 := state.im_diagonal 0
  have high : (ρ.entry 1 1).im = 0 := state.im_diagonal 1
  have mirrored : ρ.entry 1 0 = star (ρ.entry 0 1) := state.mirrored
  have two : ρ.dim = 2 := congrArg dimension one
  rw [Observable.purity, two]
  simp only [List.range_succ, List.range_zero, Complex.sum_eq]
  simp [mirrored, low, high, Complex.normSq]
  ring

/-- The purity of a qubit lies between one half and one. -/
theorem Physical.purity_mem (physical : ρ.Physical) (one : ρ.qubits = 1) :
    1 / 2 ≤ Observable.purity ρ ∧ Observable.purity ρ ≤ 1 := by
  have state := physical.qubit one
  have determinant : (ρ.entry 0 1).normSq ≤ (ρ.entry 0 0).re * (ρ.entry 1 1).re := state.normSq_le
  have sum : (ρ.entry 0 0).re + (ρ.entry 1 1).re = 1 := state.re_diagonal
  rw [purity_eq physical one]
  constructor
  · have := (ρ.entry 0 1).normSq_nonneg
    nlinarith [sq_nonneg ((ρ.entry 0 0).re - (ρ.entry 1 1).re)]
  · nlinarith

end DensityOperator

/-! ## Points of the ball -/

theorem Observable.isHermitian_pauli (axis : Axis) :
    (pauli (K := ℝ) axis).toMatrix.IsHermitian := by
  cases axis with
  | x =>
    rw [pauli, Gate.pauliX, SquareMatrix.toMatrix_fin_two, Matrix.IsHermitian,
      SquareMatrix.conjTranspose_fin_two, star_zero, star_one]
  | y =>
    have mirrored : star (Complex.i : Complex ℝ) = -Complex.i := Complex.ext neg_zero.symm rfl
    rw [pauli, Gate.pauliY, SquareMatrix.toMatrix_fin_two, Matrix.IsHermitian,
      SquareMatrix.conjTranspose_fin_two, star_neg, mirrored, neg_neg, star_zero]
  | z =>
    rw [pauli, Gate.pauliZ, SquareMatrix.toMatrix_fin_two, Matrix.IsHermitian,
      SquareMatrix.conjTranspose_fin_two, star_zero, star_neg, star_one]

/-- The coordinate on an axis. -/
def BlochVector.along {K : Type} (v : BlochVector K) : Axis → K
  | .x => v.x
  | .y => v.y
  | .z => v.z

/-- The point whose coordinates are the expectation values of an operator on one qubit. -/
noncomputable def BlochVector.ofMatrix (M : Matrix (Fin 2) (Fin 2) (Complex ℝ)) : BlochVector ℝ :=
  let value (axis : Axis) := (M * (Observable.pauli axis).toMatrix).trace.re
  ⟨value .x, value .y, value .z⟩

theorem BlochVector.along_ofMatrix (M : Matrix (Fin 2) (Fin 2) (Complex ℝ)) (axis : Axis) :
    (ofMatrix M).along axis = (M * (Observable.pauli axis).toMatrix).trace.re := by
  cases axis <;> rfl

theorem Observable.expectation_eq_trace (ρ : DensityOperator ℝ) (axis : Axis) :
    expectation ρ axis = (ρ.toMatrix 2 * (pauli axis).toMatrix).trace := by
  rw [expectation, Complex.sum_eq, Matrix.trace_fin_two, Matrix.mul_apply, Matrix.mul_apply,
    Fin.sum_univ_two, Fin.sum_univ_two]
  simp only [List.sum_cons, List.sum_nil, add_zero, ← add_assoc]
  rfl

/-- The expectation values of an operator that is its own adjoint are real, and the coordinates of
its point. -/
theorem Observable.expectation_eq {ρ : DensityOperator ℝ}
    (hermitian : (ρ.toMatrix 2).IsHermitian) (axis : Axis) :
    expectation ρ axis =
      Complex.ofRealHom ((BlochVector.ofMatrix (ρ.toMatrix 2)).along axis) := by
  rw [expectation_eq_trace, BlochVector.along_ofMatrix]
  exact Complex.ext rfl (im_trace_mul hermitian (isHermitian_pauli axis))

end QubitTrace
