import Mathlib
import QubitTrace.Density.Spectrum
import QubitTrace.Proofs.Gate.Unitary

/-! # Exact spectra

Over exact numbers a solver is exact when the eigenvalues it lists for a Hermitian matrix are
the roots of its characteristic polynomial (`Spectral.Exact`). Such a solver exists
(`Spectral.ofRoots`), and it lists no negative eigenvalue of a positive matrix
(`Spectral.Exact.nonneg`).
-/

namespace QubitTrace
set_option autoImplicit false

open scoped Matrix
open Polynomial (X C)

namespace Complex

/-- The complex numbers of the library are those of Mathlib. -/
noncomputable def ringEquiv : Complex ℝ ≃+* ℂ where
  toFun z := ⟨z.re, z.im⟩
  invFun z := ⟨z.re, z.im⟩
  left_inv _ := rfl
  right_inv _ := rfl
  map_mul' _ _ := rfl
  map_add' _ _ := rfl

theorem normSq_nonneg (z : Complex ℝ) : 0 ≤ z.normSq :=
  add_nonneg (mul_self_nonneg z.re) (mul_self_nonneg z.im)

theorem normSq_pos {z : Complex ℝ} (nonzero : z ≠ 0) : 0 < z.normSq := by
  refine lt_of_le_of_ne z.normSq_nonneg fun vanishes => nonzero ?_
  obtain ⟨re, im⟩ := (add_eq_zero_iff_of_nonneg (mul_self_nonneg z.re) (mul_self_nonneg z.im)).1
    vanishes.symm
  exact ext (mul_self_eq_zero.1 re) (mul_self_eq_zero.1 im)

instance : IsDomain (Complex ℝ) := ringEquiv.toMulEquiv.isDomain ℂ

end Complex

namespace Spectral

/--
A solver that lists the true eigenvalues of a Hermitian matrix, each as often as it is a root of
the characteristic polynomial.
-/
structure Exact [Spectral ℝ] : Prop where
  charpoly {d : Nat} (m : SquareMatrix ℝ d) (hermitian : m.toMatrix.IsHermitian) :
    m.toMatrix.charpoly = ((eigenvalues m).map fun p => X - C (Complex.ofRealHom p)).prod

/-- A listed eigenvalue has an eigenvector. -/
theorem Exact.exists_eigenvector [Spectral ℝ] (exact : Exact) {d : Nat} {m : SquareMatrix ℝ d}
    (hermitian : m.toMatrix.IsHermitian) {p : ℝ} (listed : p ∈ eigenvalues m) :
    ∃ v ≠ 0, m.toMatrix *ᵥ v = Complex.ofRealHom p • v := by
  have root : m.toMatrix.charpoly.eval (Complex.ofRealHom p) = 0 := by
    rw [exact.charpoly m hermitian, Polynomial.eval_list_prod, List.map_map]
    refine List.prod_eq_zero (List.mem_map.2 ⟨p, listed, ?_⟩)
    simp
  rw [Matrix.eval_charpoly] at root
  obtain ⟨v, nonzero, vanishes⟩ := Matrix.exists_mulVec_eq_zero_iff.2 root
  rw [Matrix.sub_mulVec, sub_eq_zero] at vanishes
  refine ⟨v, nonzero, vanishes.symm.trans ?_⟩
  rw [Matrix.scalar_apply, ← Matrix.smul_one_eq_diagonal, Matrix.smul_mulVec, Matrix.one_mulVec]

/-- A matrix that turns no vector by more than a right angle has no negative eigenvalue. -/
theorem Exact.nonneg [Spectral ℝ] (exact : Exact) {d : Nat} {m : SquareMatrix ℝ d}
    (hermitian : m.toMatrix.IsHermitian)
    (positive : ∀ v, 0 ≤ (star v ⬝ᵥ m.toMatrix *ᵥ v).re) {p : ℝ} (listed : p ∈ eigenvalues m) :
    0 ≤ p := by
  obtain ⟨v, nonzero, turned⟩ := exact.exists_eigenvector hermitian listed
  have square : star v ⬝ᵥ v = Complex.ofRealHom (∑ i, (v i).normSq) := by
    rw [map_sum, dotProduct]
    exact Finset.sum_congr rfl fun i _ => Complex.star_mul_self _
  obtain ⟨i, entry⟩ := Function.ne_iff.1 nonzero
  have length : 0 < ∑ i, (v i).normSq :=
    Finset.sum_pos' (fun j _ => (v j).normSq_nonneg)
      ⟨i, Finset.mem_univ i, Complex.normSq_pos entry⟩
  have product : 0 ≤ p * ∑ i, (v i).normSq := by
    have angle := positive v
    rwa [turned, dotProduct_smul, square, smul_eq_mul, ← map_mul, Complex.re_ofRealHom] at angle
  exact nonneg_of_mul_nonneg_left product length

/-! ## A solver that is exact -/

open Classical in
/-- The solver that lists the roots of the characteristic polynomial of a Hermitian matrix. -/
@[reducible] noncomputable def ofRoots : Spectral ℝ where
  eigenvalues m :=
    if hermitian : (m.toMatrix.map Complex.ringEquiv).IsHermitian then
      List.ofFn hermitian.eigenvalues
    else []

theorem exact_ofRoots : @Exact ofRoots := by
  let _ := ofRoots
  refine ⟨fun {d} m hermitian => ?_⟩
  have moved : (m.toMatrix.map Complex.ringEquiv).IsHermitian := hermitian.map _ fun _ => rfl
  have listed : eigenvalues m = List.ofFn moved.eigenvalues := dif_pos moved
  apply Polynomial.map_injective Complex.ringEquiv.toRingHom Complex.ringEquiv.injective
  rw [← Matrix.charpoly_map, listed, Polynomial.map_list_prod, List.map_map, List.map_ofFn,
    List.prod_ofFn]
  refine (Matrix.IsHermitian.charpoly_eq moved).trans (Finset.prod_congr rfl fun i _ => ?_)
  simp only [Function.comp_apply, Polynomial.map_sub, Polynomial.map_X, Polynomial.map_C]
  rfl

end Spectral

end QubitTrace
