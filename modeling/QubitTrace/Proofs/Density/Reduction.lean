import Mathlib
import QubitTrace.Density
import QubitTrace.Proofs.Basis.Split
import QubitTrace.Proofs.State.Column

/-! # Reduced operators

A reduced operator is a sum over the second part of the index, once the basis is split into
the qubits that remain and those that are traced out (`toMatrix_of_partialTrace`). An operator
on the first part passes through this sum, and a unitary one on the second part is lost in it.
-/

namespace QubitTrace
set_option autoImplicit false

open QubitTrace.Basis
open scoped Matrix Kronecker

/-! ## Sums over the second part of an index -/

/-- The matrix on the first part of the index that is left when the second is summed over. -/
def traceRight {m e R : Type} [Fintype e] [AddCommMonoid R] (B : Matrix (m × e) (m × e) R) :
    Matrix m m R :=
  .of fun a a' => ∑ b, B (a, b) (a', b)

section TraceRight

variable {m e R : Type} [Fintype m] [Fintype e] [CommRing R]

theorem traceRight_kronecker_one_mul [DecidableEq e] (L : Matrix m m R)
    (B : Matrix (m × e) (m × e) R) :
    traceRight (L ⊗ₖ (1 : Matrix e e R) * B) = L * traceRight B := by
  refine Matrix.ext fun a a' => ?_
  simp only [traceRight, Matrix.of_apply, Matrix.mul_apply, Fintype.sum_prod_type,
    Matrix.kroneckerMap_apply, Matrix.one_apply, mul_ite, mul_one, mul_zero, ite_mul, zero_mul,
    Finset.sum_ite_eq, Finset.mem_univ, if_true, Finset.mul_sum]
  exact Finset.sum_comm

theorem traceRight_mul_kronecker_one [DecidableEq e] (L : Matrix m m R)
    (B : Matrix (m × e) (m × e) R) :
    traceRight (B * L ⊗ₖ (1 : Matrix e e R)) = traceRight B * L := by
  refine Matrix.ext fun a a' => ?_
  simp only [traceRight, Matrix.of_apply, Matrix.mul_apply, Fintype.sum_prod_type,
    Matrix.kroneckerMap_apply, Matrix.one_apply, mul_ite, mul_one, mul_zero, Finset.sum_ite_eq',
    Finset.mem_univ, if_true, Finset.sum_mul]
  exact Finset.sum_comm

/-- A factor on the second part may change sides. -/
theorem traceRight_one_kronecker_mul_comm [DecidableEq m] (V : Matrix e e R)
    (B : Matrix (m × e) (m × e) R) :
    traceRight ((1 : Matrix m m R) ⊗ₖ V * B) = traceRight (B * (1 : Matrix m m R) ⊗ₖ V) := by
  refine Matrix.ext fun a a' => ?_
  simp only [traceRight, Matrix.of_apply, Matrix.mul_apply, Fintype.sum_prod_type_right,
    Matrix.kroneckerMap_apply, Matrix.one_apply, ite_mul, one_mul, zero_mul, mul_ite, mul_zero,
    Finset.sum_ite_eq, Finset.sum_ite_eq', Finset.mem_univ, if_true]
  rw [Finset.sum_comm]
  simp only [mul_comm]

variable [StarRing R] [DecidableEq e]

/-- An operator on the first part passes through the sum over the second. -/
theorem traceRight_conj_left (L : Matrix m m R) (B : Matrix (m × e) (m × e) R) :
    traceRight (L ⊗ₖ (1 : Matrix e e R) * B * (L ⊗ₖ (1 : Matrix e e R))ᴴ) =
      L * traceRight B * Lᴴ := by
  rw [Matrix.conjTranspose_kronecker, Matrix.conjTranspose_one, traceRight_mul_kronecker_one,
    traceRight_kronecker_one_mul]

/-- A unitary operator on the second part is lost in the sum over it. -/
theorem traceRight_conj_right [DecidableEq m] {V : Matrix e e R}
    (unitary : V ∈ Matrix.unitaryGroup e R) (B : Matrix (m × e) (m × e) R) :
    traceRight ((1 : Matrix m m R) ⊗ₖ V * B * ((1 : Matrix m m R) ⊗ₖ V)ᴴ) = traceRight B := by
  have product : ((1 : Matrix m m R) ⊗ₖ V)ᴴ * (1 : Matrix m m R) ⊗ₖ V = 1 :=
    Matrix.mem_unitaryGroup_iff'.1 (Matrix.kronecker_mem_unitary (one_mem _) unitary)
  rw [mul_assoc, traceRight_one_kronecker_mul_comm, mul_assoc, product, mul_one]

end TraceRight

/-! ## Operators as matrices -/

namespace DensityOperator

/-- The first rows and columns of an operator; all of them for its dimension. -/
def toMatrix {K : Type} [Scalar K] (ρ : DensityOperator K) (d : Nat) :
    Matrix (Fin d) (Fin d) (Complex K) :=
  .of fun r c => ρ.entry r c

section Entries

variable {K : Type} [Scalar K]

theorem entry_eq_getElem (ρ : DensityOperator K) {r c : Nat} (hr : r < dimension ρ.qubits)
    (hc : c < dimension ρ.qubits) : ρ.entry r c = ρ.entries[r][c] := by
  simp [entry, SquareMatrix.entry, hr, hc]

theorem entry_ofEntries {n : Nat} {positive : 0 < n} {f : Nat → Nat → Complex K} {r c : Nat}
    (hr : r < dimension n) (hc : c < dimension n) : (ofEntries n positive f).entry r c = f r c := by
  rw [entry_eq_getElem _ hr hc]
  simp [ofEntries]

/-- Operators on as many qubits with the same matrix are the same. -/
theorem eq_of_toMatrix_eq {ρ σ : DensityOperator K} {n : Nat} (hρ : ρ.qubits = n)
    (hσ : σ.qubits = n) (same : ρ.toMatrix (dimension n) = σ.toMatrix (dimension n)) : ρ = σ := by
  obtain ⟨n', positive, entries⟩ := ρ
  obtain ⟨m, positive', entries'⟩ := σ
  cases hρ
  cases hσ
  congr 1
  refine Vector.ext fun r hr => Vector.ext fun c hc => ?_
  have entry := congrFun (congrFun same ⟨r, hr⟩) ⟨c, hc⟩
  simp only [toMatrix, Matrix.of_apply] at entry
  rwa [entry_eq_getElem _ hr hc, entry_eq_getElem _ hr hc] at entry

end Entries

/-- The operator of a pure state is its column times its conjugate row. -/
theorem toMatrix_ofState (ψ : StateVector ℝ) :
    (ofState ψ).toMatrix (dimension ψ.qubits) = Matrix.vecMulVec ψ.column (star ψ.column) := by
  refine Matrix.ext fun r c => ?_
  rw [toMatrix, Matrix.of_apply, entry_eq_getElem _ r.isLt c.isLt, Matrix.vecMulVec_apply]
  simp only [ofState, ofWeighted, Vector.getElem_map, one_mul]
  rfl

/-- An operator on a pure state acts on the operator of the state from both sides. -/
theorem toMatrix_ofState_image (ψ : StateVector ℝ)
    (G : Matrix (Fin (dimension ψ.qubits)) (Fin (dimension ψ.qubits)) (Complex ℝ)) :
    (ofState (ψ.image G)).toMatrix (dimension ψ.qubits) =
      G * (ofState ψ).toMatrix (dimension ψ.qubits) * Gᴴ := by
  rw [toMatrix_ofState, Matrix.mul_vecMulVec, Matrix.vecMulVec_mul, ← Matrix.star_mulVec]
  have moved := toMatrix_ofState (ψ.image G)
  rw [StateVector.column_image] at moved
  exact moved

/-! ## Tracing out -/

/-- The qubits below `n` that remain when those listed are traced out, in ascending order. -/
def kept (n : Nat) (qubits : List Nat) : List Nat :=
  (List.range n).filter fun q => !qubits.contains q

/-- The qubits below `n` that are traced out, in ascending order. -/
def traced (n : Nat) (qubits : List Nat) : List Nat :=
  (List.range n).filter fun q => qubits.contains q

theorem mem_kept_iff {n q : Nat} {qubits : List Nat} :
    q ∈ kept n qubits ↔ q < n ∧ q ∉ qubits := by
  simp [kept]

theorem mem_traced_iff {n q : Nat} {qubits : List Nat} :
    q ∈ traced n qubits ↔ q < n ∧ q ∈ qubits := by
  simp [traced]

/-- The qubits of a register are those that remain and those that are traced out. -/
theorem shares_kept (n : Nat) (qubits : List Nat) : Shares n (kept n qubits) (traced n qubits) :=
  List.perm_append_comm.trans (List.filter_append_perm _ _)

/-- Distinct qubits of a register that leave some of it. -/
structure Traceable (n : Nat) (qubits : List Nat) : Prop where
  distinct : qubits.Nodup
  range : ∀ q ∈ qubits, q < n
  remains : qubits.length < n

theorem length_traced {n : Nat} {qubits : List Nat} (distinct : qubits.Nodup)
    (range : ∀ q ∈ qubits, q < n) : (traced n qubits).length = qubits.length := by
  refine ((List.perm_ext_iff_of_nodup (List.nodup_range.filter _) distinct).2 fun q => ?_).length_eq
  exact mem_traced_iff.trans ⟨And.right, fun listed => ⟨range q listed, listed⟩⟩

theorem length_kept {n : Nat} {qubits : List Nat} (distinct : qubits.Nodup)
    (range : ∀ q ∈ qubits, q < n) : (kept n qubits).length = n - qubits.length := by
  have total := (shares_kept n qubits).length_add
  rw [length_traced distinct range] at total
  omega

section Faults

variable {K : Type} [Scalar K]

theorem traceFault?_eq_none_iff {n : Nat} {seen qubits : List Nat} :
    traceFault? n seen qubits = none ↔
      (∀ q ∈ qubits, q < n) ∧ qubits.Nodup ∧ ∀ q ∈ qubits, q ∉ seen := by
  induction qubits generalizing seen with
  | nil => simp [traceFault?]
  | cons q qubits ih =>
    unfold traceFault?
    split_ifs with outside repeated
    · refine iff_of_false not_false fun fine => ?_
      have inside := fine.1 q List.mem_cons_self
      omega
    · exact iff_of_false not_false fun fine => fine.2.2 q List.mem_cons_self repeated
    · rw [ih, List.forall_mem_cons, List.forall_mem_cons, List.nodup_cons]
      simp only [List.mem_cons, not_or]
      constructor
      · rintro ⟨range, distinct, unseen⟩
        exact ⟨⟨by omega, range⟩, ⟨fun mem => (unseen q mem).1 rfl, distinct⟩, repeated,
          fun p mem => (unseen p mem).2⟩
      · rintro ⟨⟨_, range⟩, ⟨new, distinct⟩, _, unseen⟩
        exact ⟨range, distinct, fun p mem => ⟨fun same => new (same ▸ mem), unseen p mem⟩⟩

/-- When something remains of the register, tracing out sums over the qubits listed. -/
theorem partialTrace_eq {ρ : DensityOperator K} {qubits : List Nat} {n : Nat} (sized : ρ.qubits = n)
    (traceable : Traceable n qubits) (some : qubits ≠ []) :
    ∃ remains, ρ.partialTrace qubits = .ok (ofEntries (kept n qubits).length remains
      (ρ.reducedEntry (kept n qubits) (traced n qubits))) := by
  subst sized
  have clean : traceFault? ρ.qubits [] qubits = none :=
    traceFault?_eq_none_iff.2 ⟨traceable.range, traceable.distinct, by simp⟩
  have remains : 0 < (kept ρ.qubits qubits).length := by
    rw [length_kept traceable.distinct traceable.range]
    have := traceable.remains
    omega
  refine ⟨remains, ?_⟩
  unfold partialTrace
  rw [clean]
  change (if qubits.isEmpty then _ else _) = _
  rw [if_neg (by simpa using some)]
  exact dif_pos remains

/-- What cannot be traced out is refused, for a reason that only the register's size decides. -/
theorem partialTrace_eq_error {n : Nat} {qubits : List Nat} (refused : ¬ Traceable n qubits) :
    ∃ fault, ∀ ρ : DensityOperator K, ρ.qubits = n → ρ.partialTrace qubits = .error fault := by
  cases clean : traceFault? n [] qubits with
  | some fault =>
    refine ⟨fault, fun ρ sized => ?_⟩
    subst sized
    unfold partialTrace
    rw [clean]
  | none =>
    obtain ⟨range, distinct, -⟩ := traceFault?_eq_none_iff.1 clean
    have whole : n ≤ qubits.length := not_lt.1 fun remains => refused ⟨distinct, range, remains⟩
    refine ⟨.everyQubit, fun ρ sized => ?_⟩
    subst sized
    have some : qubits ≠ [] := by
      rintro rfl
      exact absurd ρ.positive (by simpa using whole)
    have none : ¬ 0 < (kept ρ.qubits qubits).length := by
      rw [length_kept distinct range]
      omega
    unfold partialTrace
    rw [clean]
    change (if qubits.isEmpty then _ else _) = _
    rw [if_neg (by simpa using some)]
    exact dif_neg none

/-- Only lists of distinct qubits that leave some of the register can be traced out. -/
theorem traceable_of_partialTrace {ρ σ : DensityOperator K} {qubits : List Nat}
    (traced : ρ.partialTrace qubits = .ok σ) : Traceable ρ.qubits qubits := by
  by_contra refused
  obtain ⟨fault, fails⟩ := partialTrace_eq_error (K := K) refused
  rw [fails ρ rfl] at traced
  cases traced

/-- What remains has as many qubits as are left out of the list. -/
theorem qubits_of_partialTrace {ρ σ : DensityOperator K} {qubits : List Nat}
    (traced : ρ.partialTrace qubits = .ok σ) : σ.qubits = (kept ρ.qubits qubits).length := by
  have traceable := traceable_of_partialTrace traced
  by_cases none : qubits = []
  · subst none
    cases traced
    simp [kept]
  · obtain ⟨remains, reduced⟩ := partialTrace_eq rfl traceable none
    cases traced.symm.trans reduced
    rfl

/-- The order in which qubits are listed to be traced out does not matter. -/
theorem partialTrace_of_perm {ρ σ : DensityOperator K} {qubits qubits' : List Nat}
    (perm : qubits.Perm qubits') (traced : ρ.partialTrace qubits = .ok σ) :
    ρ.partialTrace qubits' = .ok σ := by
  have traceable := traceable_of_partialTrace traced
  have clean : traceFault? ρ.qubits [] qubits = none :=
    traceFault?_eq_none_iff.2 ⟨traceable.range, traceable.distinct, by simp⟩
  have clean' : traceFault? ρ.qubits [] qubits' = none :=
    traceFault?_eq_none_iff.2 ⟨fun q mem => traceable.range q (perm.mem_iff.2 mem),
      perm.nodup_iff.1 traceable.distinct, by simp⟩
  have listed (q : Nat) : qubits'.contains q = qubits.contains q := perm.symm.contains_eq
  have empty : qubits'.isEmpty = qubits.isEmpty := perm.symm.isEmpty_eq
  unfold partialTrace at traced ⊢
  simp only [clean] at traced
  simp only [clean', listed, empty]
  exact traced

end Faults

/-- Over exact numbers a reduced operator is a sum over the second part of the split basis. -/
theorem reducedEntry_eq (ρ : DensityOperator ℝ) {n : Nat} {P R : List Nat} (shares : Shares n P R)
    (r c : Fin (dimension P.length)) :
    ρ.reducedEntry P R r c =
      traceRight ((ρ.toMatrix (dimension n)).submatrix shares.split.symm shares.split.symm)
        r c := by
  rw [reducedEntry]
  exact Complex.sum_map_range _ _

/-- What remains of an operator, as a matrix. -/
noncomputable def remainder (ρ : DensityOperator ℝ) (n : Nat) (qubits : List Nat) :
    Matrix (Fin (dimension (kept n qubits).length)) (Fin (dimension (kept n qubits).length))
      (Complex ℝ) :=
  traceRight ((ρ.toMatrix (dimension n)).submatrix (shares_kept n qubits).split.symm
    (shares_kept n qubits).split.symm)

/-- When nothing is traced out every entry stays. -/
theorem reducedEntry_of_nothing (ρ : DensityOperator ℝ) {n r c : Nat} {P R : List Nat}
    (shares : Shares n P R) (whole : P = List.range n) (nothing : R = []) (hr : r < dimension n)
    (hc : c < dimension n) : ρ.reducedEntry P R r c = ρ.entry r c := by
  subst whole
  subst nothing
  have place : ∀ i < dimension n, join (List.range n) [] i 0 = i := by
    intro i hi
    refine eq_of_testBit_lt (shares.join_lt _ _) hi fun q lt => ?_
    have bit := shares.testBit_join i 0 (j := q) (by rwa [List.length_range])
    rwa [List.getElem_range] at bit
  rw [reducedEntry]
  refine (Complex.sum_map_range 1 _).trans ?_
  rw [Fin.sum_univ_one]
  exact congrArg₂ ρ.entry (place r hr) (place c hc)

/-- Tracing out gives the operator that is the sum over the traced qubits. -/
theorem exists_partialTrace {ρ : DensityOperator ℝ} {n : Nat} (sized : ρ.qubits = n)
    {qubits : List Nat} (traceable : Traceable n qubits) :
    ∃ σ, ρ.partialTrace qubits = .ok σ ∧ σ.qubits = (kept n qubits).length ∧
      σ.toMatrix (dimension (kept n qubits).length) = ρ.remainder n qubits := by
  by_cases none : qubits = []
  · subst none
    have whole : kept n [] = List.range n := by simp [kept]
    have size : (kept n []).length = n := by rw [whole, List.length_range]
    refine ⟨ρ, rfl, sized.trans size.symm, Matrix.ext fun r c => ?_⟩
    refine Eq.trans ?_ (reducedEntry_eq ρ (shares_kept n []) r c)
    exact (reducedEntry_of_nothing ρ (shares_kept n []) whole (by simp [traced])
      (r.isLt.trans_eq (congrArg dimension size)) (c.isLt.trans_eq (congrArg dimension size))).symm
  · obtain ⟨remains, traced⟩ := partialTrace_eq sized traceable none
    refine ⟨_, traced, rfl, Matrix.ext fun r c => ?_⟩
    rw [toMatrix, Matrix.of_apply, entry_ofEntries r.isLt c.isLt]
    exact reducedEntry_eq ρ (shares_kept n qubits) r c

/-- What a partial trace has left is the sum over the traced qubits. -/
theorem toMatrix_of_partialTrace {ρ σ : DensityOperator ℝ} {qubits : List Nat}
    (traced : ρ.partialTrace qubits = .ok σ) : σ.qubits = (kept ρ.qubits qubits).length ∧
      σ.toMatrix (dimension (kept ρ.qubits qubits).length) = ρ.remainder ρ.qubits qubits := by
  obtain ⟨σ', traced', sized, matrix⟩ := exists_partialTrace rfl (traceable_of_partialTrace traced)
  cases traced.symm.trans traced'
  exact ⟨sized, matrix⟩

/-- Operators on as many qubits that leave the same sum are reduced to the same operator. -/
theorem partialTrace_congr {ρ σ : DensityOperator ℝ} {n : Nat} (hρ : ρ.qubits = n)
    (hσ : σ.qubits = n) {qubits : List Nat}
    (same : ρ.remainder n qubits = σ.remainder n qubits) :
    ρ.partialTrace qubits = σ.partialTrace qubits := by
  by_cases traceable : Traceable n qubits
  · obtain ⟨ρ', tracedρ, sizedρ, matrixρ⟩ := exists_partialTrace hρ traceable
    obtain ⟨σ', tracedσ, sizedσ, matrixσ⟩ := exists_partialTrace hσ traceable
    rw [tracedρ, tracedσ, eq_of_toMatrix_eq sizedρ sizedσ (by rw [matrixρ, same, matrixσ])]
  · obtain ⟨fault, fails⟩ := partialTrace_eq_error (K := ℝ) traceable
    rw [fails ρ hρ, fails σ hσ]

end DensityOperator

end QubitTrace
