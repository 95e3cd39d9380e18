import Mathlib
import QubitTrace.Proofs.Exact
import QubitTrace.Proofs.Gate.Local

/-! # Every gate is unitary

A matrix on one qubit is unitary when its columns are of length one and orthogonal. For the
gates of the catalogue this is the identity of sine and cosine, for `uMatrix` with the law
of angle addition; a controlled gate is unitary because its base gate is.
-/

namespace QubitTrace
set_option autoImplicit false

/-- The entries of a square matrix, as a matrix of Mathlib. -/
def SquareMatrix.toMatrix {K : Type} [Scalar K] {d : Nat} (m : SquareMatrix K d) :
    Matrix (Fin d) (Fin d) (Complex K) :=
  .of fun r c => m.entry r c

/-- The first rows and columns of a gate's matrix; all of them for the dimension it has. -/
def GateMatrix.toMatrix {K : Type} [Scalar K] (m : GateMatrix K) (d : Nat) :
    Matrix (Fin d) (Fin d) (Complex K) :=
  .of fun r c => m.entry r c

/-- Renaming rows and columns alike takes nothing from a unitary matrix. -/
theorem unitary_of_submatrix {m n R : Type} [Fintype m] [DecidableEq m] [Fintype n] [DecidableEq n]
    [CommRing R] [StarRing R] (e : m ≃ n) {A : Matrix n n R}
    (unitary : A.submatrix e e ∈ Matrix.unitaryGroup m R) : A ∈ Matrix.unitaryGroup n R := by
  rw [Matrix.mem_unitaryGroup_iff', Matrix.star_eq_conjTranspose] at unitary ⊢
  rw [Matrix.conjTranspose_submatrix, Matrix.submatrix_mul_equiv] at unitary
  refine (Matrix.reindex e.symm e.symm).injective ?_
  rw [Matrix.reindex_apply, Matrix.reindex_apply, Equiv.symm_symm, unitary,
    Matrix.submatrix_one_equiv]

namespace Complex

theorem normSq_polar (r θ : ℝ) : (polar r θ).normSq = r * r := by
  simp only [normSq, polar, Scalar.cos_real, Scalar.sin_real]
  linear_combination r * r * Real.cos_sq_add_sin_sq θ

theorem star_polar_mul (r s θ φ : ℝ) : star (polar r θ) * polar s φ = polar (r * s) (φ - θ) := by
  apply Complex.ext
  · simp only [polar, re_mul, re_star, im_star, Scalar.cos_real, Scalar.sin_real, Real.cos_sub]
    ring
  · simp only [polar, im_mul, re_star, im_star, Scalar.cos_real, Scalar.sin_real, Real.sin_sub]
    ring

end Complex

open QubitTrace.Complex
open scoped Matrix

namespace SquareMatrix

theorem toMatrix_fin_two (a b c d : Complex ℝ) :
    toMatrix #v[#v[a, b], #v[c, d]] = !![a, b; c, d] := by
  refine Matrix.ext fun r s => ?_
  fin_cases r <;> fin_cases s <;> rfl

theorem conjTranspose_fin_two (a b c d : Complex ℝ) :
    (!![a, b; c, d])ᴴ = !![star a, star c; star b, star d] := by
  refine Matrix.ext fun r s => ?_
  fin_cases r <;> fin_cases s <;> rfl

/-- Columns of length one that are orthogonal make a matrix on one qubit unitary. -/
theorem unitary_of_columns {a b c d : Complex ℝ} (left : a.normSq + c.normSq = 1)
    (right : b.normSq + d.normSq = 1) (cross : star a * b + star c * d = 0) :
    toMatrix #v[#v[a, b], #v[c, d]] ∈ Matrix.unitaryGroup (Fin 2) (Complex ℝ) := by
  have mirror : star b * a + star d * c = 0 := by
    have := congrArg star cross
    simpa [mul_comm] using this
  rw [toMatrix_fin_two, Matrix.mem_unitaryGroup_iff', Matrix.star_eq_conjTranspose,
    conjTranspose_fin_two, Matrix.mul_fin_two, Matrix.one_fin_two, cross, mirror]
  rw [star_mul_self, star_mul_self, star_mul_self, star_mul_self, ← map_add, ← map_add, left, right,
    map_one]

/-- A controlled gate is the identity next to its base gate. -/
theorem submatrix_controlled (m : SquareMatrix ℝ 2) :
    (toMatrix (Gate.controlled m)).submatrix finSumFinEquiv finSumFinEquiv =
      Matrix.fromBlocks 1 0 0 m.toMatrix := by
  refine Matrix.ext fun r s => ?_
  rcases r with r | r <;> rcases s with s | s <;> fin_cases r <;> fin_cases s <;> rfl

theorem unitary_controlled {m : SquareMatrix ℝ 2}
    (unitary : m.toMatrix ∈ Matrix.unitaryGroup (Fin 2) (Complex ℝ)) :
    toMatrix (Gate.controlled m) ∈ Matrix.unitaryGroup (Fin 4) (Complex ℝ) := by
  refine unitary_of_submatrix (finSumFinEquiv : Fin 2 ⊕ Fin 2 ≃ Fin 4) ?_
  rw [Matrix.mem_unitaryGroup_iff', Matrix.star_eq_conjTranspose] at unitary
  rw [submatrix_controlled, Matrix.mem_unitaryGroup_iff', Matrix.star_eq_conjTranspose,
    Matrix.fromBlocks_conjTranspose, Matrix.fromBlocks_multiply, unitary]
  simp

/-- The exchange is the identity with two of its rows exchanged. -/
theorem unitary_swap : toMatrix Gate.swapMatrix ∈ Matrix.unitaryGroup (Fin 4) (Complex ℝ) := by
  let turn : Equiv.Perm (Fin 4) := Equiv.swap 1 2
  have shape : toMatrix (Gate.swapMatrix (K := ℝ)) =
      (1 : Matrix (Fin 4) (Fin 4) (Complex ℝ)).submatrix turn id := by
    refine Matrix.ext fun r s => ?_
    fin_cases r <;> fin_cases s <;> rfl
  rw [shape, Matrix.mem_unitaryGroup_iff', Matrix.star_eq_conjTranspose,
    Matrix.conjTranspose_submatrix, Matrix.conjTranspose_one, Matrix.submatrix_mul_equiv, mul_one,
    Matrix.submatrix_id_id]

theorem unitary_pauliX : toMatrix Gate.pauliX ∈ Matrix.unitaryGroup (Fin 2) (Complex ℝ) :=
  unitary_of_columns (by simp [normSq]) (by simp [normSq]) (by simp)

theorem unitary_pauliY : toMatrix Gate.pauliY ∈ Matrix.unitaryGroup (Fin 2) (Complex ℝ) :=
  unitary_of_columns (by simp [normSq, i]) (by simp [normSq, i]) (by simp)

theorem unitary_pauliZ : toMatrix Gate.pauliZ ∈ Matrix.unitaryGroup (Fin 2) (Complex ℝ) :=
  unitary_of_columns (by simp [normSq]) (by simp [normSq]) (by simp)

theorem unitary_hadamard : toMatrix Gate.hadamard ∈ Matrix.unitaryGroup (Fin 2) (Complex ℝ) := by
  have root : √((5 : Nat) * (10 : ℝ) ^ (-1 : ℤ)) * √((5 : Nat) * (10 : ℝ) ^ (-1 : ℤ)) = 1 / 2 := by
    rw [Real.mul_self_sqrt (by positivity)]
    norm_num
  refine unitary_of_columns ?_ ?_ (by ring)
  · simp only [normSq, ofReal, Scalar.sqrt_real, Scalar.ofDecimal_real, root]
    norm_num
  · simp only [normSq, re_neg, im_neg, ofReal, Scalar.sqrt_real, Scalar.ofDecimal_real, neg_mul_neg,
      root]
    norm_num

theorem unitary_phase (lam : ℝ) :
    toMatrix (Gate.phaseMatrix lam) ∈ Matrix.unitaryGroup (Fin 2) (Complex ℝ) :=
  unitary_of_columns (by simp [normSq]) (by rw [normSq_polar]; simp [normSq]) (by simp)

theorem unitary_rx (θ : ℝ) :
    toMatrix (Gate.rxMatrix θ) ∈ Matrix.unitaryGroup (Fin 2) (Complex ℝ) := by
  have circle := Real.cos_sq_add_sin_sq (θ / 2)
  refine unitary_of_columns ?_ ?_ ?_
  · simp only [normSq, Scalar.cos_real, Scalar.sin_real, Scalar.half_real]
    linear_combination circle
  · simp only [normSq, Scalar.cos_real, Scalar.sin_real, Scalar.half_real]
    linear_combination circle
  · apply Complex.ext <;> simp [mul_comm]

theorem unitary_ry (θ : ℝ) :
    toMatrix (Gate.ryMatrix θ) ∈ Matrix.unitaryGroup (Fin 2) (Complex ℝ) := by
  have circle := Real.cos_sq_add_sin_sq (θ / 2)
  refine unitary_of_columns ?_ ?_ ?_
  · simp only [normSq, Scalar.cos_real, Scalar.sin_real, Scalar.half_real]
    linear_combination circle
  · simp only [normSq, Scalar.cos_real, Scalar.sin_real, Scalar.half_real]
    linear_combination circle
  · apply Complex.ext <;> simp [mul_comm]

theorem unitary_rz (θ : ℝ) :
    toMatrix (Gate.rzMatrix θ) ∈ Matrix.unitaryGroup (Fin 2) (Complex ℝ) :=
  unitary_of_columns (by rw [normSq_polar]; simp [normSq]) (by rw [normSq_polar]; simp [normSq])
    (by simp)

/-- The phases of the columns cancel by the law of angle addition. -/
theorem unitary_u (θ φ lam : ℝ) :
    toMatrix (Gate.uMatrix θ φ lam) ∈ Matrix.unitaryGroup (Fin 2) (Complex ℝ) := by
  have circle := Real.cos_sq_add_sin_sq (θ / 2)
  generalize hc : Real.cos (θ / 2) = c at circle
  generalize hs : Real.sin (θ / 2) = s at circle
  have shape : Gate.uMatrix θ φ lam =
      #v[#v[⟨c, 0⟩, -polar s lam], #v[polar s φ, polar c (φ + lam)]] := by
    rw [← hc, ← hs]
    rfl
  rw [shape]
  refine unitary_of_columns ?_ ?_ ?_
  · rw [normSq_polar]
    simp only [normSq]
    linear_combination circle
  · have turned : (-polar s lam).normSq = s * s := by
      rw [← normSq_polar s lam]
      simp [normSq]
    rw [turned, normSq_polar]
    linear_combination circle
  · have real : (⟨c, 0⟩ : Complex ℝ) = polar c 0 := by
      apply Complex.ext <;> simp [polar, Scalar.cos_real, Scalar.sin_real]
    rw [real, mul_neg, star_polar_mul, star_polar_mul, sub_zero, add_sub_cancel_left, mul_comm c s,
      neg_add_cancel]

/-- A square root of `x` is unitary whichever sign its imaginary parts have. -/
theorem unitary_rootOfX {im : ℝ} (half : im * im = 1 / 4) :
    toMatrix (Gate.rootOfX im) ∈ Matrix.unitaryGroup (Fin 2) (Complex ℝ) := by
  have real : (Scalar.ofDecimal 5 (-1) : ℝ) = 1 / 2 := by
    rw [Scalar.ofDecimal_real]
    norm_num
  refine unitary_of_columns ?_ ?_ ?_
  · simp only [normSq, real]
    linear_combination 2 * half
  · simp only [normSq, real]
    linear_combination 2 * half
  · apply Complex.ext
    · simp only [re_add, re_mul, re_star, im_star, re_zero, real]
      linear_combination -2 * half
    · simp only [im_add, im_mul, re_star, im_star, im_zero, real]
      ring

end SquareMatrix

open SquareMatrix in
/-- Every gate of the catalogue is unitary, whatever its angles. -/
theorem Gate.unitary_matrix (g : Gate ℝ) :
    g.matrix.toMatrix (Basis.dimension g.arity) ∈
      Matrix.unitaryGroup (Fin (Basis.dimension g.arity)) (Complex ℝ) := by
  have quarter : (Scalar.ofDecimal 5 (-1) : ℝ) * Scalar.ofDecimal 5 (-1) = 1 / 4 := by
    rw [Scalar.ofDecimal_real]
    norm_num
  cases g with
  | id => exact unitary_of_columns (by simp [normSq]) (by simp [normSq]) (by simp)
  | h => exact unitary_hadamard
  | x => exact unitary_pauliX
  | y => exact unitary_pauliY
  | z => exact unitary_pauliZ
  | s | sdg | t | tdg => exact unitary_phase _
  | sx => exact unitary_rootOfX quarter
  | sxdg => exact unitary_rootOfX ((neg_mul_neg _ _).trans quarter)
  | rx θ => exact unitary_rx θ
  | ry θ => exact unitary_ry θ
  | rz θ => exact unitary_rz θ
  | phase lam => exact unitary_phase lam
  | u θ φ lam => exact unitary_u θ φ lam
  | cx => exact unitary_controlled unitary_pauliX
  | cy => exact unitary_controlled unitary_pauliY
  | cz => exact unitary_controlled unitary_pauliZ
  | ch => exact unitary_controlled unitary_hadamard
  | cphase lam => exact unitary_controlled (unitary_phase lam)
  | crx θ => exact unitary_controlled (unitary_rx θ)
  | cry θ => exact unitary_controlled (unitary_ry θ)
  | crz θ => exact unitary_controlled (unitary_rz θ)
  | swap => exact unitary_swap

end QubitTrace
