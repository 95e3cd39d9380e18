import Mathlib
import QubitTrace.Proofs.Basis.Relabel
import QubitTrace.Proofs.Density.Locality
import QubitTrace.Proofs.Evolution.Relabel

/-! # The operator of one qubit

Tracing all qubits but one out of a pure state leaves the sums of its amplitudes times the
conjugates of those at the indices that differ in that qubit at most (`marginal`). They are sums
over the whole basis, so that renaming the qubits only changes the order of the terms.
-/

namespace QubitTrace
set_option autoImplicit false

open QubitTrace.Basis
open QubitTrace.Evolution (amplitude)

/-- The sum of the amplitudes with bit `q` equal to `r`, each times the conjugate of the one with
bit `q` replaced by `c`. -/
noncomputable def StateVector.marginal (ψ : StateVector ℝ) (q r c : Nat) : Complex ℝ :=
  ∑ i : Fin (dimension ψ.qubits),
    if bit i q = r then
      amplitude ψ.amplitudes i * star (amplitude ψ.amplitudes (setBit i q c))
    else 0

section Single

variable {n q : Nat} {R : List Nat}

theorem testBit_join_singleton (shares : Shares n [q] R) {a : Nat} (ha : a < 2) (b : Nat) :
    (join [q] R a b).testBit q = decide (a = 1) := by
  have here := shares.testBit_join a b (j := 0) Nat.one_pos
  rw [List.getElem_cons_zero] at here
  rw [here, Nat.testBit_zero, Nat.mod_eq_of_lt ha]

theorem bit_join_singleton (shares : Shares n [q] R) {a : Nat} (ha : a < 2) (b : Nat) :
    bit (join [q] R a b) q = a := by
  rw [bit_eq_toNat, testBit_join_singleton shares ha, toNat_decide_eq_one ha]

/-- Replacing the bit of the only qubit of a share replaces the part of that share. -/
theorem setBit_join_singleton (shares : Shares n [q] R) (a b : Nat) {c : Nat} (hc : c < 2) :
    setBit (join [q] R a b) q c = join [q] R c b := by
  have small : q < n := shares.lt_of_mem List.mem_cons_self
  refine eq_of_testBit_lt (setBit_lt (shares.join_lt a b) small hc) (shares.join_lt c b)
    fun p lt => ?_
  rw [testBit_setBit hc]
  obtain left | right := shares.mem_iff.2 lt
  · obtain rfl := List.mem_singleton.1 left
    rw [if_pos rfl, testBit_join_singleton shares hc]
  · have other : p ≠ q := fun same => shares.disjoint (same ▸ List.mem_cons_self) right
    obtain ⟨j, hj, rfl⟩ := List.getElem_of_mem right
    rw [if_neg other, shares.testBit_join_right, shares.testBit_join_right]

end Single

namespace DensityOperator

theorem entry_ofState (ψ : StateVector ℝ) {r c : Nat} (hr : r < dimension ψ.qubits)
    (hc : c < dimension ψ.qubits) :
    (ofState ψ).entry r c = amplitude ψ.amplitudes r * star (amplitude ψ.amplitudes c) := by
  have entry := congrFun (congrFun (toMatrix_ofState ψ) ⟨r, hr⟩) ⟨c, hc⟩
  rw [Matrix.vecMulVec_apply] at entry
  refine entry.trans ?_
  rw [Pi.star_apply, ← Evolution.amplitude_eq_column, ← Evolution.amplitude_eq_column]

/-- Summing over all qubits but one leaves the sums over the indices with a given bit there. -/
theorem sum_entry_join {ψ : StateVector ℝ} {q : Nat} {R : List Nat}
    (shares : Shares ψ.qubits [q] R) {r c : Nat} (hr : r < 2) (hc : c < 2) :
    ∑ b : Fin (dimension R.length),
      (ofState ψ).entry (join [q] R r b) (join [q] R c b) = ψ.marginal q r c := by
  have parted := shares.split.symm.sum_comp fun i : Fin (dimension ψ.qubits) =>
    if bit i q = r then
      amplitude ψ.amplitudes i * star (amplitude ψ.amplitudes (setBit i q c))
    else 0
  have inside : r < dimension [q].length := hr
  rw [StateVector.marginal, ← parted, Fintype.sum_prod_type]
  -- of the two parts the first can be, only `r` contributes
  rw [Finset.sum_eq_single (⟨r, inside⟩ : Fin (dimension [q].length))]
  · refine Finset.sum_congr rfl fun b _ => ?_
    refine Eq.trans ?_ (if_pos (bit_join_singleton shares hr b)).symm
    rw [entry_ofState ψ (shares.join_lt r b) (shares.join_lt c b),
      ← setBit_join_singleton shares r b hc]
    rfl
  · intro a _ other
    refine Finset.sum_eq_zero fun b _ => if_neg fun same => other (Fin.ext ?_)
    exact (bit_join_singleton shares a.isLt b).symm.trans same
  · exact fun outside => absurd (Finset.mem_univ _) outside

/-- The reduced operator of a qubit of a pure state. -/
theorem exists_reduceToQubit_eq {ψ : StateVector ℝ} {q : Nat} (lt : q < ψ.qubits) :
    ∃ σ, (ofState ψ).reduceToQubit q = .ok σ ∧ σ.qubits = 1 ∧
      ∀ r < 2, ∀ c < 2, σ.entry r c = ψ.marginal q r c := by
  have single := kept_filter_ne lt
  have size : (ofState ψ).qubits = ψ.qubits := rfl
  obtain ⟨σ, traced, sized, matrix⟩ := exists_partialTrace size (traceable_filter_ne lt)
  refine ⟨σ, (reduceToQubit_eq lt).trans traced, by rw [sized, single]; rfl, ?_⟩
  intro r hr c hc
  have two : dimension (kept ψ.qubits ((List.range ψ.qubits).filter (· ≠ q))).length = 2 := by
    rw [single]
    rfl
  have shares := shares_kept ψ.qubits ((List.range ψ.qubits).filter (· ≠ q))
  rw [single] at shares
  rw [← sum_entry_join shares hr hc]
  have entry := congrFun (congrFun matrix ⟨r, hr.trans_eq two.symm⟩) ⟨c, hc.trans_eq two.symm⟩
  refine entry.trans ?_
  simp only [remainder, traceRight, Matrix.of_apply, Matrix.submatrix_apply, Shares.split_symm_val,
    toMatrix]
  rw [single]

end DensityOperator

/-! ## Renamed qubits -/

variable {ψ : StateVector ℝ} {π : Nat → Nat} {q : Nat}

theorem StateVector.marginal_relabel (permutes : Permutes ψ.qubits π) (lt : q < ψ.qubits) (r : Nat)
    {c : Nat} (hc : c < 2) : (ψ.relabel π).marginal (π q) r c = ψ.marginal q r c := by
  rw [marginal, marginal]
  refine (Equiv.sum_comp permutes.index _).symm.trans (Finset.sum_congr rfl fun i _ => ?_)
  have place : (permutes.index i : Nat) = moved ψ.qubits π i := rfl
  rw [place, permutes.bit_moved lt, ← permutes.moved_setBit lt hc]
  rw [Evolution.amplitude_relabel_moved permutes i.isLt,
    Evolution.amplitude_relabel_moved permutes (setBit_lt i.isLt lt hc)]

/-- A renamed qubit has the reduced operator of the qubit. -/
theorem DensityOperator.reduceToQubit_relabel (permutes : Permutes ψ.qubits π)
    (lt : q < ψ.qubits) :
    (ofState (ψ.relabel π)).reduceToQubit (π q) = (ofState ψ).reduceToQubit q := by
  obtain ⟨σ, reduced, one, entries⟩ := exists_reduceToQubit_eq lt
  obtain ⟨σ', reduced', one', entries'⟩ :=
    exists_reduceToQubit_eq (ψ := ψ.relabel π) (permutes.lt lt)
  have same : σ'.toMatrix (dimension 1) = σ.toMatrix (dimension 1) := by
    refine Matrix.ext fun r c => ?_
    rw [toMatrix, toMatrix, Matrix.of_apply, Matrix.of_apply, entries' r r.isLt c c.isLt,
      entries r r.isLt c c.isLt, StateVector.marginal_relabel permutes lt r c.isLt]
  rw [reduced, reduced', eq_of_toMatrix_eq one' one same]

end QubitTrace
