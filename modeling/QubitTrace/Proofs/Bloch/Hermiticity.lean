import Mathlib
import QubitTrace.Fault
import QubitTrace.Proofs.Timeline.Report

/-! # Hermitian operators have real coordinates

Two checks ask whether an operator is its own adjoint. One compares mirrored entries, in the upper
triangle only, which is enough since mirroring turns a deviation around and keeps its modulus
(`hermitian_eq_ok_iff_all`). The other asks the three expectation values of an operator on one
qubit for their imaginary parts. Each of these parts is a component of one such deviation, or half
the difference of two (`im_expectation_x`, `im_expectation_y`, `im_expectation_z`), so it is within
every tolerance that the first check allows.
-/

namespace QubitTrace
set_option autoImplicit false

theorem Scalar.abs_real (x : ℝ) : Scalar.abs x = |x| := by
  unfold Scalar.abs
  split
  · next negative => exact (abs_of_neg negative).symm
  · next positive => exact (abs_of_nonneg (not_lt.1 positive)).symm

namespace Complex

theorem norm_real (z : Complex ℝ) : z.norm = √(z.re * z.re + z.im * z.im) := rfl

theorem abs_re_le_norm (z : Complex ℝ) : |z.re| ≤ z.norm := by
  rw [norm_real]
  apply Real.abs_le_sqrt
  nlinarith [mul_self_nonneg z.im]

theorem abs_im_le_norm (z : Complex ℝ) : |z.im| ≤ z.norm := by
  rw [norm_real]
  apply Real.abs_le_sqrt
  nlinarith [mul_self_nonneg z.re]

end Complex

/-! ## Mirrored entries -/

namespace Invariant

/-- An operator that fails the comparison has an entry that is too far from its mirror image. -/
theorem hermitian_eq_error {K : Type} [Scalar K] {ρ : DensityOperator K} {tolerance : K}
    {fault : InvariantFault K} (failed : hermitian ρ tolerance = .error fault) :
    ∃ r c, r ≤ c ∧ c < ρ.dim ∧ tolerance < asymmetry ρ r c ∧
      fault = .hermitian r c (asymmetry ρ r c) := by
  unfold hermitian at failed
  dsimp only at failed
  split at failed
  · next found scanned =>
    cases failed
    obtain ⟨r, row, scanned⟩ := List.exists_of_findSome?_eq_some scanned
    obtain ⟨c, column, scanned⟩ := List.exists_of_findSome?_eq_some scanned
    obtain ⟨i, lt, rfl⟩ := List.mem_range'.1 column
    have inside := List.mem_range.1 row
    split at scanned
    · next far =>
      cases scanned
      exact ⟨r, _, by omega, by omega, far, rfl⟩
    · cases scanned
  · cases failed

variable {ρ : DensityOperator ℝ} {tolerance : ℝ}

/-- An entry is as far from its mirror image as that is from the entry. -/
theorem asymmetry_comm (ρ : DensityOperator ℝ) (r c : Nat) :
    asymmetry ρ r c = asymmetry ρ c r := by
  rw [asymmetry, asymmetry, Complex.norm_real, Complex.norm_real]
  congr 1
  simp
  ring

/-- The upper triangle speaks for the whole operator. -/
theorem hermitian_eq_ok_iff_all : hermitian ρ tolerance = .ok () ↔
    ∀ r < ρ.dim, ∀ c < ρ.dim, asymmetry ρ r c ≤ tolerance := by
  rw [hermitian_eq_ok_iff]
  constructor
  · intro upper
    have ordered (r c : Nat) (le : r ≤ c) (lt : c < ρ.dim) : asymmetry ρ r c ≤ tolerance := by
      refine not_lt.1 (upper r (List.mem_range.2 (by omega)) c ?_)
      exact List.mem_range'.2 ⟨c - r, by omega, by omega⟩
    intro r row c column
    rcases Nat.le_total r c with le | le
    · exact ordered r c le column
    · rw [asymmetry_comm]
      exact ordered c r le row
  · intro all r row c column
    obtain ⟨i, lt, rfl⟩ := List.mem_range'.1 column
    have inside := List.mem_range.1 row
    exact not_lt.2 (all r inside _ (by omega))

end Invariant

/-! ## Expectation values -/

namespace Observable

open Invariant (asymmetry)

variable {ρ : DensityOperator ℝ} {tolerance : ℝ}

theorem im_expectation_x (ρ : DensityOperator ℝ) :
    (expectation ρ .x).im = (ρ.entry 0 1 - (ρ.entry 1 0).conj).im := by
  simp [expectation, pauli, Complex.sum_eq, SquareMatrix.entry, Gate.pauliX]

theorem im_expectation_y (ρ : DensityOperator ℝ) :
    (expectation ρ .y).im = (ρ.entry 0 1 - (ρ.entry 1 0).conj).re := by
  simp [expectation, pauli, Complex.sum_eq, SquareMatrix.entry, Gate.pauliY, Complex.i]
  ring

/-- On the diagonal a deviation is twice an imaginary part, so the two halves make up for the
difference. -/
theorem im_expectation_z (ρ : DensityOperator ℝ) : (expectation ρ .z).im =
    ((ρ.entry 0 0 - (ρ.entry 0 0).conj).im - (ρ.entry 1 1 - (ρ.entry 1 1).conj).im) / 2 := by
  simp [expectation, pauli, Complex.sum_eq, SquareMatrix.entry, Gate.pauliZ]
  ring

/-- The imaginary part of an expectation value is within what mirrored entries deviate by. -/
theorem abs_im_expectation_le (near : ∀ r < 2, ∀ c < 2, asymmetry ρ r c ≤ tolerance) (axis : Axis) :
    |(expectation ρ axis).im| ≤ tolerance := by
  have corner := near 0 (by omega) 1 (by omega)
  cases axis with
  | x =>
    rw [im_expectation_x]
    exact (Complex.abs_im_le_norm _).trans corner
  | y =>
    rw [im_expectation_y]
    exact (Complex.abs_re_le_norm _).trans corner
  | z =>
    have first := (Complex.abs_im_le_norm _).trans (near 0 (by omega) 0 (by omega))
    have second := (Complex.abs_im_le_norm _).trans (near 1 (by omega) 1 (by omega))
    rw [abs_le] at first second
    rw [im_expectation_z, abs_le]
    constructor <;> linarith

/-- An operator on one qubit whose expectation values have small imaginary parts has a point. -/
theorem blochVector_of_im_le (one : ρ.qubits = 1)
    (small : ∀ axis, |(expectation ρ axis).im| ≤ tolerance) : blochVector ρ tolerance =
      .ok ⟨(expectation ρ .x).re, (expectation ρ .y).re, (expectation ρ .z).re⟩ := by
  have real (axis : Axis) : realExpectation ρ tolerance axis = .ok (expectation ρ axis).re := by
    refine if_neg (not_lt.2 ?_)
    rw [Scalar.abs_real]
    exact small axis
  rw [blochVector, if_neg (not_not.2 one)]
  simp only [real]
  rfl

/-- Only an operator on another number of qubits is refused for its shape. -/
theorem qubits_of_numericAnomaly {K : Type} [Scalar K] {ρ : DensityOperator K} {tolerance : K}
    {fault : ObservableFault K} (failed : blochVector ρ tolerance = .error fault)
    (numeric : (Fault.ofObservable fault).kind = .numericAnomaly) : ρ.qubits = 1 := by
  by_contra other
  rw [blochVector, if_pos other] at failed
  cases failed
  cases numeric

/-- **The two checks agree.** The comparison of the upper triangle passes exactly if all mirrored
entries are within the tolerance, whatever the dimension. An operator on one qubit that passes has a
Bloch vector at the same tolerance, as none of its expectation values has an imaginary part beyond
it. So a numeric anomaly of the Bloch vector always means that the comparison fails as well. -/
theorem blochVector_of_hermitian (ρ : DensityOperator ℝ) (tolerance : ℝ) :
    (Invariant.hermitian ρ tolerance = .ok () ↔
      ∀ r < ρ.dim, ∀ c < ρ.dim, (ρ.entry r c - (ρ.entry c r).conj).norm ≤ tolerance) ∧
    (ρ.qubits = 1 → Invariant.hermitian ρ tolerance = .ok () →
      (∀ axis, |(expectation ρ axis).im| ≤ tolerance) ∧
      blochVector ρ tolerance =
        .ok ⟨(expectation ρ .x).re, (expectation ρ .y).re, (expectation ρ .z).re⟩) ∧
    ∀ fault, blochVector ρ tolerance = .error fault →
      (Fault.ofObservable fault).kind = .numericAnomaly →
        ∃ r c deviation, Invariant.hermitian ρ tolerance = .error (.hermitian r c deviation) ∧
          tolerance < deviation := by
  have located (one : ρ.qubits = 1) (passed : Invariant.hermitian ρ tolerance = .ok ()) :
      (∀ axis, |(expectation ρ axis).im| ≤ tolerance) ∧ blochVector ρ tolerance =
        .ok ⟨(expectation ρ .x).re, (expectation ρ .y).re, (expectation ρ .z).re⟩ := by
    have two : ρ.dim = 2 := by rw [DensityOperator.dim, one]; rfl
    have near := Invariant.hermitian_eq_ok_iff_all.1 passed
    rw [two] at near
    have small := abs_im_expectation_le near
    exact ⟨small, blochVector_of_im_le one small⟩
  refine ⟨Invariant.hermitian_eq_ok_iff_all, located, fun fault failed numeric => ?_⟩
  have one := qubits_of_numericAnomaly failed numeric
  cases checked : Invariant.hermitian ρ tolerance with
  | ok _ =>
    rw [(located one checked).2] at failed
    cases failed
  | error cause =>
    obtain ⟨r, c, -, -, far, rfl⟩ := Invariant.hermitian_eq_error checked
    exact ⟨r, c, _, rfl, far⟩

/-- An operator of trace one, with the diagonal `1 + i`, `-i`. -/
def skewed : DensityOperator ℝ :=
  ⟨1, Nat.one_pos, #v[#v[⟨1, 1⟩, ⟨0, 0⟩], #v[⟨0, 0⟩, ⟨0, -1⟩]]⟩

/-- The tolerance is used up to the last: the third expectation value is as far from real as the
diagonal entries are from their conjugates. -/
theorem blochVector_of_hermitian_skewed :
    Invariant.hermitian skewed 2 = .ok () ∧ (expectation skewed .z).im = 2 ∧
      blochVector skewed 2 = .ok ⟨0, 0, 1⟩ := by
  obtain ⟨passes, located, -⟩ := blochVector_of_hermitian skewed 2
  have entries : skewed.entry 0 0 = ⟨1, 1⟩ ∧ skewed.entry 0 1 = ⟨0, 0⟩ ∧
      skewed.entry 1 0 = ⟨0, 0⟩ ∧ skewed.entry 1 1 = ⟨0, -1⟩ := by
    refine ⟨?_, ?_, ?_, ?_⟩ <;> rfl
  obtain ⟨e00, e01, e10, e11⟩ := entries
  have passed : Invariant.hermitian skewed 2 = .ok () := by
    refine passes.2 fun r row c column => ?_
    have two : skewed.dim = 2 := rfl
    rw [two] at row column
    interval_cases r <;> interval_cases c <;> simp [e00, e01, e10, e11, Complex.norm_real] <;>
      norm_num
  have values : (expectation skewed .z).im = 2 ∧ (expectation skewed .x).re = 0 ∧
      (expectation skewed .y).re = 0 ∧ (expectation skewed .z).re = 1 := by
    simp [expectation, pauli, Complex.sum_eq, SquareMatrix.entry, Gate.pauliX, Gate.pauliY,
      Gate.pauliZ, Complex.i, e00, e01, e10, e11]
    norm_num
  obtain ⟨tight, x, y, z⟩ := values
  have point := (located rfl passed).2
  rw [x, y, z] at point
  exact ⟨passed, tight, point⟩

end Observable

end QubitTrace
