import Mathlib
import QubitTrace.Proofs.Basis.Split
import QubitTrace.Proofs.Evolution.Rounds
import QubitTrace.Proofs.Gate.Unitary
import QubitTrace.Proofs.State.Column

/-! # Gates as operators on the whole register

The operator of a gate on a register of `n` qubits (`lifted`) has the entries of the gate's
matrix where row and column agree outside the gate's qubits, and zero elsewhere. Split at
qubits among which the gate's are, it is the gate on fewer qubits next to the identity
(`lifted_submatrix`), so it is unitary, and applying the gate is multiplying by it
(`apply_eq_image`).
-/

namespace QubitTrace
set_option autoImplicit false

open QubitTrace.Basis
open scoped Kronecker

/-- A gate on the listed qubits of a register, with the identity on all others. -/
def lifted {K : Type} [Scalar K] (n : Nat) (g : Gate K) (qubits : List Nat) :
    Matrix (Fin (dimension n)) (Fin (dimension n)) (Complex K) :=
  .of fun i j =>
    if ∀ q < n, q ∉ qubits → bit i q = bit j q then
      g.matrix.entry (localIndex qubits i) (localIndex qubits j)
    else 0

namespace Evolution

theorem amplitude_eq_column {K : Type} [Scalar K] (ψ : StateVector K)
    (i : Fin (dimension ψ.qubits)) : amplitude ψ.amplitudes i = ψ.column i := by
  simp [amplitude, StateVector.column, Vector.get_eq_getElem]

end Evolution

section Relative

variable {n : Nat} {P R qubits : List Nat}

theorem bit_join_idxOf (shares : Shares n P R) {q : Nat} (mem : q ∈ P) (a b : Nat) :
    bit (join P R a b) q = bit a (P.idxOf q) := by
  have lt := List.idxOf_lt_length_iff.2 mem
  have here := shares.testBit_join a b lt
  rw [List.getElem_idxOf lt] at here
  exact bit_eq_bit_iff.2 here

/-- The local index depends on the share the gate's qubits are in, where they are counted anew. -/
theorem localIndex_join (shares : Shares n P R) (inside : ∀ q ∈ qubits, q ∈ P) (a b : Nat) :
    localIndex qubits (join P R a b) = localIndex (qubits.map P.idxOf) a := by
  rw [localIndex, localIndex, List.foldl_map]
  refine List.foldl_ext _ _ _ fun l q mem => ?_
  rw [bit_join_idxOf shares (inside q mem)]

/-- Counting qubits anew keeps them apart. -/
theorem idxOf_mem_map_iff (inside : ∀ q ∈ qubits, q ∈ P) {q : Nat} (mem : q ∈ P) :
    P.idxOf q ∈ qubits.map P.idxOf ↔ q ∈ qubits := by
  constructor
  · intro counted
    obtain ⟨p, listed, same⟩ := List.mem_map.1 counted
    have hp := List.getElem_idxOf (List.idxOf_lt_length_iff.2 (inside p listed))
    have hq := List.getElem_idxOf (List.idxOf_lt_length_iff.2 mem)
    simp only [same] at hp
    rwa [← hq, hp]
  · exact List.mem_map_of_mem

/-- United indices agree outside a gate in the first share when their second parts are the same. -/
theorem agree_join_iff (shares : Shares n P R) (inside : ∀ q ∈ qubits, q ∈ P) {a a' b b' : Nat}
    (hb : b < dimension R.length) (hb' : b' < dimension R.length) :
    (∀ q < n, q ∉ qubits → bit (join P R a b) q = bit (join P R a' b') q) ↔
      (∀ j < P.length, j ∉ qubits.map P.idxOf → bit a j = bit a' j) ∧ b = b' := by
  constructor
  · intro agree
    refine ⟨fun j lt free => ?_, eq_of_testBit_lt hb hb' fun j lt => ?_⟩
    · have mem : P[j] ∈ P := List.getElem_mem lt
      have counted : P.idxOf P[j] = j := shares.left_nodup.idxOf_getElem j lt
      have same := agree P[j] (shares.lt_of_mem mem) fun listed => free <| by
        rw [← counted]
        exact List.mem_map_of_mem listed
      rwa [bit_join_idxOf shares mem, bit_join_idxOf shares mem, counted] at same
    · have mem : R[j] ∈ R := List.getElem_mem lt
      have same := agree R[j] (shares.symm.lt_of_mem mem) fun listed =>
        shares.disjoint (inside _ listed) mem
      rwa [bit_eq_bit_iff, shares.testBit_join_right, shares.testBit_join_right] at same
  · rintro ⟨agree, rfl⟩ q lt free
    obtain left | right := shares.mem_iff.2 lt
    · rw [bit_join_idxOf shares left, bit_join_idxOf shares left]
      refine agree _ (List.idxOf_lt_length_iff.2 left) fun counted => free ?_
      exact (idxOf_mem_map_iff inside left).1 counted
    · rw [join_comm, join_comm P R, bit_join_idxOf shares.symm right,
        bit_join_idxOf shares.symm right]

/-- A gate inside one share of the register is a gate on that share, next to the identity. -/
theorem lifted_submatrix (shares : Shares n P R) (g : Gate ℝ) (inside : ∀ q ∈ qubits, q ∈ P) :
    (lifted n g qubits).submatrix shares.split.symm shares.split.symm =
      lifted P.length g (qubits.map P.idxOf) ⊗ₖ
        (1 : Matrix (Fin (dimension R.length)) (Fin (dimension R.length)) (Complex ℝ)) := by
  refine Matrix.ext fun ⟨a, b⟩ ⟨a', b'⟩ => ?_
  rw [Matrix.submatrix_apply, Matrix.kroneckerMap_apply, Matrix.one_apply, mul_ite, mul_one,
    mul_zero]
  simp only [lifted, Matrix.of_apply, Shares.split_symm_val]
  rw [localIndex_join shares inside, localIndex_join shares inside]
  simp only [agree_join_iff shares inside b.isLt b'.isLt, Fin.ext_iff]
  by_cases same : (b : Nat) = b'
  · simp only [same, and_true, if_true]
  · simp only [same, and_false, if_false]

theorem lifted_submatrix_right (shares : Shares n P R) (g : Gate ℝ)
    (inside : ∀ q ∈ qubits, q ∈ R) :
    (lifted n g qubits).submatrix shares.split.symm shares.split.symm =
      (1 : Matrix (Fin (dimension P.length)) (Fin (dimension P.length)) (Complex ℝ)) ⊗ₖ
        lifted R.length g (qubits.map R.idxOf) := by
  have swapped := lifted_submatrix shares.symm g inside
  refine Matrix.ext fun ⟨a, b⟩ ⟨a', b'⟩ => ?_
  have entry := congrFun (congrFun swapped (b, a)) (b', a')
  have turn : ∀ x y, shares.symm.split.symm (y, x) = shares.split.symm (x, y) := fun x y =>
    Fin.ext (join_comm R P y x)
  rw [Matrix.submatrix_apply, turn, turn, Matrix.kroneckerMap_apply] at entry
  rw [Matrix.submatrix_apply, entry, Matrix.kroneckerMap_apply, mul_comm]

end Relative

/-! ## The operator of a gate -/

theorem map_idxOf_self {P : List Nat} (distinct : P.Nodup) :
    P.map P.idxOf = List.range P.length := by
  refine List.ext_getElem (by simp) fun j lt _ => ?_
  rw [List.getElem_map, List.getElem_range, distinct.idxOf_getElem]

/-- On a register of its own qubits only, the highest first, a gate is its matrix. -/
theorem lifted_range_reverse {K : Type} [Scalar K] (k : Nat) (g : Gate K) :
    lifted k g (List.range k).reverse = g.matrix.toMatrix (dimension k) := by
  have whole : ∀ i : Fin (dimension k), localIndex (List.range k).reverse i = i := fun i => by
    have bound := gather_lt (List.range k) i
    rw [List.length_range] at bound
    refine eq_of_testBit_lt bound i.isLt fun q lt => ?_
    have listed : q < (List.range k).length := by simpa using lt
    exact (testBit_gather i listed).trans (by rw [List.getElem_range])
  refine Matrix.ext fun i j => ?_
  simp only [lifted, GateMatrix.toMatrix, Matrix.of_apply, whole]
  exact if_pos fun q lt free => absurd (by simpa using lt) free

variable {n : Nat} {g : Gate ℝ} {qubits : List Nat}

theorem shares_reverse_others (fits : g.Fits n qubits) :
    Shares n qubits.reverse (others n qubits) :=
  ((List.reverse_perm qubits).append_right _).trans (shares_others fits.distinct fits.range)

/-- A gate is its matrix on its own qubits next to the identity on the others. -/
theorem lifted_submatrix_own (fits : g.Fits n qubits) :
    (lifted n g qubits).submatrix (shares_reverse_others fits).split.symm
        (shares_reverse_others fits).split.symm =
      g.matrix.toMatrix (dimension qubits.reverse.length) ⊗ₖ
        (1 : Matrix (Fin (dimension (others n qubits).length)) _ (Complex ℝ)) := by
  have counted : qubits.map qubits.reverse.idxOf = (List.range qubits.reverse.length).reverse := by
    rw [← map_idxOf_self (List.nodup_reverse.2 fits.distinct), ← List.map_reverse,
      List.reverse_reverse]
  rw [lifted_submatrix _ g fun q mem => List.mem_reverse.2 mem, counted, lifted_range_reverse]

/-- The operator of a gate is unitary. -/
theorem unitary_lifted (fits : g.Fits n qubits) :
    lifted n g qubits ∈ Matrix.unitaryGroup (Fin (dimension n)) (Complex ℝ) := by
  have unitary := g.unitary_matrix
  rw [← fits.length, ← List.length_reverse] at unitary
  refine unitary_of_submatrix (shares_reverse_others fits).split.symm ?_
  rw [lifted_submatrix_own fits]
  exact Matrix.kronecker_mem_unitary unitary (one_mem _)

theorem GateMatrix.row_eq_sum (m : GateMatrix ℝ) (r : Nat) (v : Nat → Complex ℝ) :
    m.row r v = ∑ l : Fin (dimension m.arity), m.entry r l * v l := by
  cases m with
  | single m => exact (Fin.sum_univ_two fun l : Fin 2 => m.entry r l * v l).symm
  | pair m => exact Complex.sum_map_range 4 _

theorem kronecker_one_mulVec {l m R : Type} [Fintype l] [Fintype m] [DecidableEq m] [CommRing R]
    (A : Matrix l l R) (v : l × m → R) (a : l) (b : m) :
    ((A ⊗ₖ (1 : Matrix m m R)).mulVec v) (a, b) = ∑ c, A a c * v (c, b) := by
  simp only [Matrix.mulVec, dotProduct, Fintype.sum_prod_type, Matrix.kroneckerMap_apply,
    Matrix.one_apply, mul_ite, mul_one, mul_zero, ite_mul, zero_mul, Finset.sum_ite_eq,
    Finset.mem_univ, if_true]

/-- A row of the operator has an entry for every setting of the gate's bits. -/
theorem lifted_mulVec (fits : g.Fits n qubits) (v : Nat → Complex ℝ) (i : Fin (dimension n)) :
    (lifted n g qubits).mulVec (fun j => v j) i =
      g.matrix.row (localIndex qubits i) fun l => v (assign qubits l i) := by
  have arity : g.matrix.arity = qubits.reverse.length := by
    rw [g.arity_matrix, List.length_reverse, fits.length]
  let e := (shares_reverse_others fits).split
  have split := congrFun (Matrix.submatrix_mulVec_equiv (lifted n g qubits)
    (fun x => v (e.symm x)) e.symm e.symm) (e i)
  simp only [Function.comp_def, Equiv.symm_symm, Equiv.symm_apply_apply] at split
  rw [← split, lifted_submatrix_own fits, GateMatrix.row_eq_sum, arity]
  refine (kronecker_one_mulVec _ _ (e i).1 (e i).2).trans (Finset.sum_congr rfl fun l _ => ?_)
  have row : ((e i).1 : Nat) = localIndex qubits i := (localIndex_eq_gather qubits i).symm
  have place : (e.symm (l, (e i).2) : Nat) = assign qubits l i :=
    (assign_eq_join fits.distinct fits.range i.isLt l).symm
  rw [GateMatrix.toMatrix, Matrix.of_apply, row, place]

namespace Evolution

theorem lifted_mulVec_column {ψ : StateVector ℝ} (fits : g.Fits ψ.qubits qubits)
    (i : Fin (dimension ψ.qubits)) :
    (lifted ψ.qubits g qubits).mulVec ψ.column i =
      g.matrix.row (localIndex qubits i) fun l => amplitude ψ.amplitudes (assign qubits l i) := by
  rw [← lifted_mulVec fits]
  congr 1
  funext j
  exact (amplitude_eq_column ψ j).symm

/-- Applying a gate is multiplying by its operator. -/
theorem apply_eq_image {ψ : StateVector ℝ} (fits : g.Fits ψ.qubits qubits) :
    apply ψ g qubits = .ok (ψ.image (lifted ψ.qubits g qubits)) := by
  rw [apply_eq fits, StateVector.image]
  congr 3
  funext i
  exact (lifted_mulVec_column fits i).symm

/-- Two gates in turn are the product of their operators. -/
theorem apply_twice {ψ : StateVector ℝ} {g' : Gate ℝ} {qubits' : List Nat}
    (first : g.Fits ψ.qubits qubits) (second : g'.Fits ψ.qubits qubits') :
    (apply ψ g qubits >>= fun χ => apply χ g' qubits') =
      .ok (ψ.image (lifted ψ.qubits g' qubits' * lifted ψ.qubits g qubits)) := by
  rw [apply_eq_image first]
  refine (apply_eq_image (ψ := ψ.image _) second).trans ?_
  exact congrArg _ (ψ.image_image _ _)

/-- **A gate is its operator on the register.** Its loop, in which every read and every write is
checked, has a result exactly if no round visits an index outside the vector. The gate accepts the
lists of qubits that fit; for them the loop has a result and is a list of writes, one to every
index of the register, which leaves in each place the row of the matrix that the gate's bits there
name. Over exact numbers that is the product of the lifted operator with the state. -/
theorem apply_eq_lifted_product :
    (∀ {K : Type} [Scalar K] {d : Nat} (m : GateMatrix K) (qubits : List Nat)
        (ψ : Vector (Complex K) d),
      (∃ after, loop? m qubits ψ = some after) ↔
        m.arity = qubits.length ∧
          ∀ i < d / dimension qubits.length, ∀ j ∈ visited qubits i, j < d) ∧
    (∀ {K : Type} [Scalar K] (ψ : StateVector K) (g : Gate K) (qubits : List Nat),
      ((∃ φ, apply ψ g qubits = .ok φ) ↔ g.Fits ψ.qubits qubits) ∧
      (g.Fits ψ.qubits qubits →
        let rounds := dimension (ψ.qubits - qubits.length)
        let written := writes g.matrix qubits (amplitude ψ.amplitudes) rounds
        ∃ after, loop? g.matrix qubits ψ.amplitudes = some after ∧
          apply ψ g qubits = .ok { ψ with amplitudes := after } ∧
          store? (.replicate _ 0) written = some after ∧
          (written.map Prod.fst).Perm (List.range ψ.dim) ∧
          after = .ofFn fun i => g.matrix.row (localIndex qubits i) fun l =>
            amplitude ψ.amplitudes (assign qubits l i))) ∧
    (∀ (ψ : StateVector ℝ) (g : Gate ℝ) (qubits : List Nat), g.Fits ψ.qubits qubits →
      apply ψ g qubits = .ok (ψ.image (lifted ψ.qubits g qubits)) ∧
      ∀ i, (lifted ψ.qubits g qubits).mulVec ψ.column i =
        ∑ l : Fin (dimension g.arity), g.matrix.entry (localIndex qubits i) l *
          amplitude ψ.amplitudes (assign qubits l i)) := by
  refine ⟨fun m qubits ψ => exists_loop?_iff, fun ψ g qubits => ?_, fun ψ g qubits fits => ?_⟩
  · refine ⟨exists_apply_iff, fun fits => ?_⟩
    have targets := targets_of_fits fits
    have arity : g.matrix.arity = qubits.length := by rw [g.arity_matrix, fits.length]
    have changed := loop?_eq targets arity fits.range ψ.amplitudes
    refine ⟨_, changed, apply_eq fits, ?_, ?_, rfl⟩
    · rw [← changed, loop?_eq_store? arity, dimension_div fits.length_le]
    · exact map_fst_writes_perm targets fits.range _ _
  · refine ⟨apply_eq_image fits, fun i => ?_⟩
    rw [lifted_mulVec_column fits, GateMatrix.row_eq_sum, g.arity_matrix]

/-- A controlled gate whose control stands above its target in the register. On a register without
a third qubit its loop would leave the vector. -/
theorem apply_eq_lifted_product_cx :
    let ψ : StateVector ℝ := ⟨3, by decide, .ofFn fun i => if i.val = 5 then 1 else 0⟩
    (Gate.cx : Gate ℝ).Fits ψ.qubits [2, 0] ∧
      apply ψ .cx [2, 0] = .ok (ψ.image (lifted 3 .cx [2, 0])) ∧
      (∃ after, loop? (Gate.cx : Gate ℝ).matrix [2, 0] ψ.amplitudes = some after ∧
        apply ψ .cx [2, 0] = .ok { ψ with amplitudes := after }) ∧
      ¬∃ after, loop? (Gate.cx : Gate ℝ).matrix [2, 0] (.replicate 4 0 : Vector _ 4) =
        some after := by
  intro ψ
  have fits : (Gate.cx : Gate ℝ).Fits ψ.qubits [2, 0] := ⟨rfl, by decide, by decide⟩
  refine ⟨fits, (apply_eq_lifted_product.2.2 ψ .cx [2, 0] fits).1, ?_, fun changed => ?_⟩
  · obtain ⟨after, changed, applied, -⟩ := (apply_eq_lifted_product.2.1 ψ .cx [2, 0]).2 fits
    exact ⟨after, changed, applied⟩
  · have inside := ((apply_eq_lifted_product.1 _ [2, 0] _).1 changed).2 0 (by decide) 5 (by decide)
    exact absurd inside (by decide)

end Evolution

end QubitTrace
