import Mathlib
import QubitTrace.Proofs.Density.Reduction
import QubitTrace.Proofs.Evolution.Lifted
import QubitTrace.Timeline

/-! # Gates act where they are applied

The reduced operator of some qubits after a gate is decided by the reduced operator before. A
gate on qubits that are traced out leaves it as it is; a gate on qubits that remain acts on it
as the same gate on a smaller register, where the qubits are numbered in their order.
-/

namespace QubitTrace
set_option autoImplicit false

open QubitTrace.Basis
open scoped Matrix Kronecker

/-- The number a qubit has among those that remain: how many of them are below it. -/
def rank (traced : List Nat) (q : Nat) : Nat := (List.range q).countP (· ∉ traced)

/-- Counting qubits anew inside a share of the register keeps them fit for the gate. -/
theorem Gate.Fits.renumber {K : Type} {g : Gate K} {n : Nat} {qubits P : List Nat}
    (fits : g.Fits n qubits) (inside : ∀ q ∈ qubits, q ∈ P) :
    g.Fits P.length (qubits.map P.idxOf) where
  length := by rw [List.length_map, fits.length]
  distinct := by
    refine fits.distinct.map_on fun p hp q hq same => ?_
    exact (List.idxOf_inj (inside p hp)).1 same
  range := by
    intro j counted
    obtain ⟨q, listed, rfl⟩ := List.mem_map.1 counted
    exact List.idxOf_lt_length_iff.2 (inside q listed)

theorem submatrix_conj {m n R : Type} [Fintype m] [Fintype n] [CommRing R] [StarRing R] (e : m ≃ n)
    (G A : Matrix n n R) : (G * A * Gᴴ).submatrix e e =
      G.submatrix e e * A.submatrix e e * (G.submatrix e e)ᴴ := by
  rw [Matrix.conjTranspose_submatrix, Matrix.submatrix_mul_equiv, Matrix.submatrix_mul_equiv]

namespace DensityOperator

theorem length_kept_eq_rank (q : Nat) (gone : List Nat) : (kept q gone).length = rank gone q := by
  rw [kept, rank, List.countP_eq_length_filter]
  simp

/-- A qubit that remains stands at the place its rank says. -/
theorem idxOf_kept {n q : Nat} {gone : List Nat} (lt : q < n) (free : q ∉ gone) :
    (kept n gone).idxOf q = rank gone q := by
  -- the qubits below `q` that remain come first, and `q` is the next
  obtain ⟨k, rfl⟩ : ∃ k, n = q + (k + 1) := ⟨n - q - 1, by omega⟩
  obtain ⟨above, shape⟩ : ∃ above, kept (q + (k + 1)) gone = kept q gone ++ q :: above := by
    rw [kept, List.range_add, List.filter_append, List.range_succ_eq_map, List.map_cons,
      List.filter_cons_of_pos (by simpa using free)]
    exact ⟨_, rfl⟩
  have below : q ∉ kept q gone := fun mem => absurd (mem_kept_iff.1 mem).1 (lt_irrefl q)
  rw [shape, List.idxOf_append_of_notMem below, List.idxOf_cons_self, Nat.add_zero,
    length_kept_eq_rank]

section Remainder

variable {ψ : StateVector ℝ} {g : Gate ℝ} {qubits gone : List Nat}

/-- A gate on qubits that are traced out leaves the remainder as it is. -/
theorem remainder_image_of_traced (fits : g.Fits ψ.qubits qubits)
    (inside : ∀ q ∈ qubits, q ∈ gone) :
    (ofState (ψ.image (lifted ψ.qubits g qubits))).remainder ψ.qubits gone =
      (ofState ψ).remainder ψ.qubits gone := by
  have listed : ∀ q ∈ qubits, q ∈ traced ψ.qubits gone := fun q mem =>
    mem_traced_iff.2 ⟨fits.range q mem, inside q mem⟩
  rw [remainder, toMatrix_ofState_image, submatrix_conj, lifted_submatrix_right _ g listed]
  exact traceRight_conj_right (unitary_lifted (fits.renumber listed)) _

theorem map_rank_eq (fits : g.Fits ψ.qubits qubits) (disjoint : ∀ q ∈ qubits, q ∉ gone) :
    qubits.map (rank gone) = qubits.map (kept ψ.qubits gone).idxOf :=
  List.map_congr_left fun q mem => (idxOf_kept (fits.range q mem) (disjoint q mem)).symm

theorem mem_kept_of_disjoint (fits : g.Fits ψ.qubits qubits) (disjoint : ∀ q ∈ qubits, q ∉ gone) :
    ∀ q ∈ qubits, q ∈ kept ψ.qubits gone := fun q mem =>
  mem_kept_iff.2 ⟨fits.range q mem, disjoint q mem⟩

/-- A gate on qubits that remain acts on the remainder. -/
theorem remainder_image_of_kept (fits : g.Fits ψ.qubits qubits)
    (disjoint : ∀ q ∈ qubits, q ∉ gone) :
    (ofState (ψ.image (lifted ψ.qubits g qubits))).remainder ψ.qubits gone =
      lifted (kept ψ.qubits gone).length g (qubits.map (rank gone)) *
        (ofState ψ).remainder ψ.qubits gone *
          (lifted (kept ψ.qubits gone).length g (qubits.map (rank gone)))ᴴ := by
  rw [map_rank_eq fits disjoint, remainder, toMatrix_ofState_image, submatrix_conj,
    lifted_submatrix _ g (mem_kept_of_disjoint fits disjoint)]
  exact traceRight_conj_left _ _

/-- A gate on qubits that remain acts on what a partial trace returns. -/
theorem exists_partialTrace_apply (fits : g.Fits ψ.qubits qubits)
    (disjoint : ∀ q ∈ qubits, q ∉ gone) (traceable : Traceable ψ.qubits gone) {k : Nat}
    (remaining : k = (kept ψ.qubits gone).length) :
    ∃ φ σ σ', Evolution.apply ψ g qubits = .ok φ ∧ φ.qubits = ψ.qubits ∧
      (ofState ψ).partialTrace gone = .ok σ ∧ (ofState φ).partialTrace gone = .ok σ' ∧
      σ.qubits = k ∧ σ'.qubits = k ∧
      σ'.toMatrix (dimension k) = lifted k g (qubits.map (rank gone)) * σ.toMatrix (dimension k) *
        (lifted k g (qubits.map (rank gone)))ᴴ := by
  subst remaining
  let φ := ψ.image (lifted ψ.qubits g qubits)
  have size : (ofState ψ).qubits = ψ.qubits := rfl
  have size' : (ofState φ).qubits = ψ.qubits := rfl
  obtain ⟨σ, before, sized, matrix⟩ := exists_partialTrace size traceable
  obtain ⟨σ', after, sized', matrix'⟩ := exists_partialTrace size' traceable
  refine ⟨φ, σ, σ', Evolution.apply_eq_image fits, rfl, before, after, sized, sized', ?_⟩
  rw [matrix, matrix', remainder_image_of_kept fits disjoint]

end Remainder

/-! ## One qubit -/

theorem reduceToQubit_eq {K : Type} [Scalar K] {ρ : DensityOperator K} {q : Nat}
    (lt : q < ρ.qubits) :
    ρ.reduceToQubit q = ρ.partialTrace ((List.range ρ.qubits).filter (· ≠ q)) := if_pos lt

theorem traceable_filter_ne {n q : Nat} (lt : q < n) :
    Traceable n ((List.range n).filter (· ≠ q)) where
  distinct := List.nodup_range.filter _
  range p mem := List.mem_range.1 (List.mem_filter.1 mem).1
  remains := by
    have fewer : ((List.range n).filter (· ≠ q)).length < (List.range n).length :=
      List.length_filter_lt_length_iff_exists.2 ⟨q, List.mem_range.2 lt, by simp⟩
    rwa [List.length_range] at fewer

/-- A list that leaves out one qubit of the register leaves this qubit. -/
theorem kept_eq_singleton {n q : Nat} {gone : List Nat} (only : ∀ p, p < n ∧ p ∉ gone ↔ p = q) :
    kept n gone = [q] := by
  have distinct : (kept n gone).Nodup := List.nodup_range.filter _
  apply List.perm_singleton.1
  refine (List.perm_ext_iff_of_nodup distinct (List.nodup_singleton q)).2 fun p => ?_
  rw [mem_kept_iff, only, List.mem_singleton]

theorem kept_filter_ne {n q : Nat} (lt : q < n) :
    kept n ((List.range n).filter (· ≠ q)) = [q] := by
  refine kept_eq_singleton fun p => ?_
  rw [List.mem_filter, List.mem_range]
  constructor
  · rintro ⟨inside, remaining⟩
    by_contra other
    exact remaining ⟨inside, by simpa using other⟩
  · rintro rfl
    exact ⟨lt, by simp⟩

theorem exists_reduceToQubit {ρ : DensityOperator ℝ} {q : Nat} (lt : q < ρ.qubits) :
    ∃ σ, ρ.reduceToQubit q = .ok σ := by
  obtain ⟨σ, reduced, _⟩ := exists_partialTrace (ρ := ρ) rfl (traceable_filter_ne lt)
  exact ⟨σ, (reduceToQubit_eq lt).trans reduced⟩

/-- A one-qubit gate acts on the reduced operator of its qubit. -/
theorem exists_reduceToQubit_apply {ψ : StateVector ℝ} {g : Gate ℝ} {U : SquareMatrix ℝ 2}
    (matrix : g.matrix = .single U) {q : Nat} (lt : q < ψ.qubits) :
    ∃ φ σ σ', Evolution.apply ψ g [q] = .ok φ ∧ (ofState ψ).reduceToQubit q = .ok σ ∧
      (ofState φ).reduceToQubit q = .ok σ' ∧ σ.qubits = 1 ∧ σ'.qubits = 1 ∧
      σ'.toMatrix 2 = U.toMatrix * σ.toMatrix 2 * U.toMatrixᴴ := by
  have fits : g.Fits ψ.qubits [q] :=
    ⟨(Gate.arity_of_single matrix).symm, List.nodup_singleton q, by simpa using lt⟩
  have disjoint : ∀ p ∈ [q], p ∉ (List.range ψ.qubits).filter (· ≠ q) := by simp
  have one : 1 = (kept ψ.qubits ((List.range ψ.qubits).filter (· ≠ q))).length := by
    rw [kept_filter_ne lt, List.length_singleton]
  have first : [q].map (rank ((List.range ψ.qubits).filter (· ≠ q))) = (List.range 1).reverse := by
    rw [map_rank_eq fits disjoint, kept_filter_ne lt, List.map_singleton, List.idxOf_cons_self]
    rfl
  have whole : lifted 1 g (List.range 1).reverse = U.toMatrix := by
    rw [lifted_range_reverse, matrix]
    rfl
  obtain ⟨φ, σ, σ', applied, size, before, after, sized, sized', product⟩ :=
    exists_partialTrace_apply fits disjoint (traceable_filter_ne lt) one
  refine ⟨φ, σ, σ', applied, (reduceToQubit_eq lt).trans before, ?_, sized, sized', ?_⟩
  · rw [reduceToQubit_eq (show q < (ofState φ).qubits from lt.trans_eq size.symm)]
    rw [show (ofState φ).qubits = ψ.qubits from size]
    exact after
  · rw [first, whole] at product
    exact product

/-! ## Main results -/

/-- **A gate does not show elsewhere.** When all its qubits are traced out, what remains is the
same operator as before the gate, and what is reported of a qubit it leaves alone is the same. -/
theorem partialTrace_apply_of_traced {ψ : StateVector ℝ} {g : Gate ℝ} {qubits : List Nat}
    (fits : g.Fits ψ.qubits qubits) :
    ∃ φ, Evolution.apply ψ g qubits = .ok φ ∧
      (∀ gone, (∀ q ∈ qubits, q ∈ gone) →
        (ofState φ).partialTrace gone = (ofState ψ).partialTrace gone ∧
        (Traceable ψ.qubits gone → ∃ σ, (ofState φ).partialTrace gone = .ok σ)) ∧
      ∀ q < ψ.qubits, q ∉ qubits →
        (∃ σ, (ofState φ).reduceToQubit q = .ok σ ∧ (ofState ψ).reduceToQubit q = .ok σ) ∧
        ∀ [Spectral ℝ] (config : Config ℝ),
          Timeline.qubitReport config (ofState φ) q =
            Timeline.qubitReport config (ofState ψ) q := by
  let φ := ψ.image (lifted ψ.qubits g qubits)
  have size : (ofState φ).qubits = ψ.qubits := rfl
  have unseen : ∀ gone, (∀ q ∈ qubits, q ∈ gone) →
      (ofState φ).partialTrace gone = (ofState ψ).partialTrace gone := fun gone inside =>
    partialTrace_congr size rfl (remainder_image_of_traced fits inside)
  refine ⟨φ, Evolution.apply_eq_image fits, fun gone inside => ⟨unseen gone inside, ?_⟩, ?_⟩
  · intro traceable
    obtain ⟨σ, traced, _⟩ := exists_partialTrace size traceable
    exact ⟨σ, traced⟩
  · intro q lt free
    have inside : ∀ p ∈ qubits, p ∈ (List.range ψ.qubits).filter (· ≠ q) := fun p mem =>
      List.mem_filter.2 ⟨List.mem_range.2 (fits.range p mem),
        decide_eq_true fun same => free (same ▸ mem)⟩
    have same : (ofState φ).reduceToQubit q = (ofState ψ).reduceToQubit q := by
      rw [reduceToQubit_eq (ρ := ofState φ) lt, reduceToQubit_eq (ρ := ofState ψ) lt]
      exact unseen _ inside
    obtain ⟨σ, reduced⟩ := exists_reduceToQubit (ρ := ofState ψ) lt
    refine ⟨⟨σ, same.trans reduced, reduced⟩, fun config => ?_⟩
    unfold Timeline.qubitReport
    rw [same]

/-- Two qubits of three, next to a controlled gate on the outer ones. -/
theorem partialTrace_apply_of_traced_cx :
    let ψ : StateVector ℝ := ⟨3, by decide, .ofFn fun i => if i.val = 5 then 1 else 0⟩
    (Gate.cx : Gate ℝ).Fits ψ.qubits [2, 0] ∧
      ∃ φ σ, Evolution.apply ψ .cx [2, 0] = .ok φ ∧
        (ofState φ).partialTrace [0, 2] = .ok σ ∧ (ofState ψ).partialTrace [0, 2] = .ok σ := by
  intro ψ
  have fits : (Gate.cx : Gate ℝ).Fits ψ.qubits [2, 0] := ⟨rfl, by decide, by decide⟩
  obtain ⟨φ, applied, traced, _⟩ := partialTrace_apply_of_traced fits
  obtain ⟨same, accepted⟩ := traced [0, 2] (by decide)
  obtain ⟨σ, after⟩ := accepted ⟨by decide, by decide, by decide⟩
  exact ⟨fits, φ, σ, applied, after, same ▸ after⟩

/-- **A gate acts on what remains.** When none of its qubits is traced out, the reduced operator
is conjugated with the gate on the smaller register, each qubit under its rank among those that
remain; the operator of one qubit is conjugated with the matrix of the gate. -/
theorem partialTrace_apply_of_kept :
    (∀ (ψ : StateVector ℝ) (g : Gate ℝ) (qubits gone : List Nat) (σ : DensityOperator ℝ),
      g.Fits ψ.qubits qubits → (∀ q ∈ qubits, q ∉ gone) → (ofState ψ).partialTrace gone = .ok σ →
        let L := lifted σ.qubits g (qubits.map (rank gone))
        ∃ φ σ', Evolution.apply ψ g qubits = .ok φ ∧ (ofState φ).partialTrace gone = .ok σ' ∧
          σ.qubits = ψ.qubits - gone.length ∧ σ'.qubits = σ.qubits ∧
          g.Fits σ.qubits (qubits.map (rank gone)) ∧
          σ'.toMatrix (dimension σ.qubits) = L * σ.toMatrix (dimension σ.qubits) * Lᴴ) ∧
    (∀ (ψ : StateVector ℝ) (g : Gate ℝ) (U : SquareMatrix ℝ 2) (q : Nat), q < ψ.qubits →
      g.matrix = .single U →
        ∃ φ σ σ', Evolution.apply ψ g [q] = .ok φ ∧ (ofState ψ).reduceToQubit q = .ok σ ∧
          (ofState φ).reduceToQubit q = .ok σ' ∧ σ.qubits = 1 ∧ σ'.qubits = 1 ∧
          σ'.toMatrix 2 = U.toMatrix * σ.toMatrix 2 * U.toMatrixᴴ) := by
  constructor
  · intro ψ g qubits gone σ fits disjoint before
    have traceable : Traceable ψ.qubits gone := traceable_of_partialTrace before
    obtain ⟨σ₀, traced, sized, _⟩ := exists_partialTrace (ρ := ofState ψ) rfl traceable
    have same : σ₀ = σ := Except.ok.inj (traced.symm.trans before)
    rw [same] at sized
    obtain ⟨φ, σ₁, σ', applied, _, traced₁, after, _, sized', product⟩ :=
      exists_partialTrace_apply fits disjoint traceable sized
    have same₁ : σ₁ = σ := Except.ok.inj (traced₁.symm.trans before)
    rw [same₁] at product
    refine ⟨φ, σ', applied, after, ?_, sized', ?_, product⟩
    · exact sized.trans (length_kept traceable.distinct traceable.range)
    · rw [map_rank_eq fits disjoint, sized]
      exact fits.renumber (mem_kept_of_disjoint fits disjoint)
  · intro ψ g U q lt matrix
    exact exists_reduceToQubit_apply matrix lt

/-- The middle qubit of three traced out: the outer ones are numbered anew. -/
theorem partialTrace_apply_of_kept_cx :
    let ψ : StateVector ℝ := ⟨3, by decide, .ofFn fun i => if i.val = 5 then 1 else 0⟩
    (Gate.cx : Gate ℝ).Fits ψ.qubits [2, 0] ∧
      ∃ φ σ σ', Evolution.apply ψ .cx [2, 0] = .ok φ ∧ (ofState ψ).partialTrace [1] = .ok σ ∧
        (ofState φ).partialTrace [1] = .ok σ' ∧ σ.qubits = 2 ∧
        σ'.toMatrix (dimension 2) =
          lifted 2 .cx [1, 0] * σ.toMatrix (dimension 2) * (lifted 2 .cx [1, 0])ᴴ := by
  intro ψ
  have fits : (Gate.cx : Gate ℝ).Fits ψ.qubits [2, 0] := ⟨rfl, by decide, by decide⟩
  have traceable : Traceable ψ.qubits [1] := ⟨by decide, by decide, by decide⟩
  obtain ⟨σ, before, -⟩ := exists_partialTrace (ρ := ofState ψ) rfl traceable
  obtain ⟨φ, σ', applied, after, count, _, _, product⟩ :=
    partialTrace_apply_of_kept.1 ψ .cx [2, 0] [1] σ fits (by decide) before
  have two : σ.qubits = 2 := count
  rw [two] at product
  exact ⟨fits, φ, σ, σ', applied, before, after, two, product⟩

end DensityOperator

end QubitTrace
