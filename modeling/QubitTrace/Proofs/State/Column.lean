import Mathlib
import QubitTrace.Proofs.Basis.Bits
import QubitTrace.Proofs.Exact
import QubitTrace.State

/-! # States as columns

A state over exact numbers is a column of amplitudes, which an operator of the same dimension
takes to another (`StateVector.image`). Its squared norm is the inner product of the column
with itself, and a unitary operator keeps it.
-/

namespace QubitTrace
set_option autoImplicit false

open QubitTrace.Basis
open scoped Matrix

namespace StateVector

/-- The amplitudes as a column. -/
def column {K : Type} (ψ : StateVector K) : Fin (dimension ψ.qubits) → Complex K :=
  ψ.amplitudes.get

/-- The state whose amplitudes are those of `ψ` times a matrix. -/
noncomputable def image (ψ : StateVector ℝ)
    (G : Matrix (Fin (dimension ψ.qubits)) (Fin (dimension ψ.qubits)) (Complex ℝ)) :
    StateVector ℝ :=
  { ψ with amplitudes := .ofFn (G *ᵥ ψ.column) }

theorem column_image (ψ : StateVector ℝ)
    (G : Matrix (Fin (dimension ψ.qubits)) (Fin (dimension ψ.qubits)) (Complex ℝ)) :
    (ψ.image G).column = G *ᵥ ψ.column :=
  funext fun i => Vector.get_ofFn (G *ᵥ ψ.column) i

/-- Operators in turn are their product. -/
theorem image_image (ψ : StateVector ℝ)
    (G H : Matrix (Fin (dimension ψ.qubits)) (Fin (dimension ψ.qubits)) (Complex ℝ)) :
    (ψ.image G).image H = ψ.image (H * G) := by
  have product : H *ᵥ (ψ.image G).column = (H * G) *ᵥ ψ.column := by
    rw [column_image, Matrix.mulVec_mulVec]
  exact congrArg (fun v => { ψ with amplitudes := .ofFn v }) product

theorem image_one (ψ : StateVector ℝ) : ψ.image 1 = ψ := by
  rw [image, Matrix.one_mulVec]
  congr
  exact Vector.ext fun i lt => Vector.getElem_ofFn lt

/-- Over exact numbers the squared norm is a plain sum over the basis. -/
theorem normSq_eq_sum (ψ : StateVector ℝ) : ψ.normSq = ∑ i, (ψ.column i).normSq := by
  have listed : ψ.amplitudes.toList = List.ofFn ψ.column :=
    List.ext_getElem (by simp) (by simp [column, Vector.get_eq_getElem])
  rw [normSq, ← Vector.foldl_toList, listed, ← List.sum_ofFn, List.sum_eq_foldl]
  rw [← List.foldl_map, List.map_ofFn]
  rfl

/-- The squared norm is the inner product of the column with itself. -/
theorem ofRealHom_normSq (ψ : StateVector ℝ) :
    Complex.ofRealHom ψ.normSq = star ψ.column ⬝ᵥ ψ.column := by
  rw [normSq_eq_sum, map_sum, dotProduct]
  exact Finset.sum_congr rfl fun i _ => (Complex.star_mul_self _).symm

/-- A unitary operator keeps the inner product of a column with itself. -/
theorem dotProduct_star_mulVec {m : Type} [Fintype m] [DecidableEq m] {G : Matrix m m (Complex ℝ)}
    (unitary : G ∈ Matrix.unitaryGroup m (Complex ℝ)) (v : m → Complex ℝ) :
    star (G *ᵥ v) ⬝ᵥ (G *ᵥ v) = star v ⬝ᵥ v := by
  have product : Gᴴ * G = 1 := Matrix.mem_unitaryGroup_iff'.1 unitary
  rw [Matrix.star_mulVec, ← Matrix.dotProduct_mulVec, Matrix.mulVec_mulVec, product,
    Matrix.one_mulVec]

/-- A unitary operator keeps the squared norm. -/
theorem normSq_image {ψ : StateVector ℝ}
    {G : Matrix (Fin (dimension ψ.qubits)) (Fin (dimension ψ.qubits)) (Complex ℝ)}
    (unitary : G ∈ Matrix.unitaryGroup _ (Complex ℝ)) : (ψ.image G).normSq = ψ.normSq := by
  have moved : Complex.ofRealHom (ψ.image G).normSq = star (G *ᵥ ψ.column) ⬝ᵥ (G *ᵥ ψ.column) := by
    rw [ofRealHom_normSq, column_image]
    rfl
  apply Complex.ofRealHom_injective
  rw [moved, ofRealHom_normSq, dotProduct_star_mulVec unitary]

/-! ## Basis states -/

section Basis

variable {K : Type}

theorem register_eq_ok_iff {n : Nat} {count : QubitCount} :
    register (K := K) n = .ok count ↔ n ≤ maxQubits ∧ count.val = n := by
  unfold register
  obtain ⟨m, positive⟩ := count
  constructor
  · intro sized
    split_ifs at sized with some fits
    cases sized
    exact ⟨fits, rfl⟩
  · rintro ⟨fits, rfl⟩
    rw [dif_pos positive, if_pos fits]

/-- There is a basis state for every index below the dimension of a register that has one. -/
theorem basis_eq_ok_iff [Scalar K] {n index : Nat} {ψ : StateVector K} :
    basis n index = .ok ψ ↔ n ≤ maxQubits ∧ index < dimension n ∧
      ∃ positive, ψ = ⟨n, positive, .ofFn fun i => if i.val = index then 1 else 0⟩ := by
  unfold basis
  constructor
  · intro made
    cases sized : register (K := K) n with
    | error fault =>
      rw [sized] at made
      cases made
    | ok count =>
      obtain ⟨fits, rfl⟩ := register_eq_ok_iff.1 sized
      rw [sized] at made
      change (if index < dimension count.val then _ else _) = _ at made
      split_ifs at made with inside
      cases made
      exact ⟨fits, inside, count.positive, rfl⟩
  · rintro ⟨fits, inside, positive, rfl⟩
    have sized : register (K := K) n = .ok ⟨n, positive⟩ := register_eq_ok_iff.2 ⟨fits, rfl⟩
    rw [sized]
    exact if_pos inside

/-- A register that has a state has the one with all bits zero. -/
theorem exists_zero [Scalar K] {n : Nat} (positive : 0 < n) (small : n ≤ maxQubits) :
    ∃ ψ : StateVector K, zero n = .ok ψ :=
  ⟨_, basis_eq_ok_iff.2 ⟨small, dimension_pos n, positive, rfl⟩⟩

/-- Basis states are normalized. -/
theorem normSq_of_basis {n index : Nat} {ψ : StateVector ℝ} (made : basis n index = .ok ψ) :
    ψ.normSq = 1 := by
  obtain ⟨-, inside, positive, rfl⟩ := basis_eq_ok_iff.1 made
  have entry : ∀ i : Fin (dimension n), ((Vector.ofFn fun i : Fin (dimension n) =>
      if i.val = index then (1 : Complex ℝ) else 0).get i).normSq =
        if i = ⟨index, inside⟩ then 1 else 0 := fun i => by
    rw [Vector.get_ofFn]
    by_cases here : i.val = index
    · rw [if_pos here, if_pos (Fin.ext here)]
      simp [Complex.normSq]
    · rw [if_neg here, if_neg fun same => here (congrArg Fin.val same)]
      simp [Complex.normSq]
  rw [normSq_eq_sum]
  exact (Finset.sum_congr rfl fun i _ => entry i).trans (by simp)

end Basis

end StateVector

end QubitTrace
