import Mathlib
import QubitTrace.Fault
import QubitTrace.Proofs.Density.Physical

/-! # Tracing out a part of the register

Which lists of qubits can be traced out, and what of an operator stays when they are
(`partialTrace_of_part`). Entry by entry, a partial trace adds up the entries whose row and column
agree at the traced qubits (`entry_of_partialTrace`). Two such sums, one after the other, run over
the same entries as one, so qubits may be traced out in two goes (`partialTrace_in_two`).
-/

namespace QubitTrace
set_option autoImplicit false

open QubitTrace.Basis
open scoped Matrix

namespace DensityOperator

/-! ## Lists that can be traced out -/

section Lists

variable {n : Nat} {qubits : List Nat}

theorem not_traceable_iff :
    ¬ Traceable n qubits ↔
      (∃ q ∈ qubits, n ≤ q) ∨ ¬ qubits.Nodup ∨ ∀ q < n, q ∈ qubits := by
  constructor
  · intro refused
    by_contra fine
    obtain ⟨range, distinct, free⟩ :
        (∀ q ∈ qubits, q < n) ∧ qubits.Nodup ∧ ∃ q < n, q ∉ qubits := by
      simpa using fine
    obtain ⟨q, lt, free⟩ := free
    have fewer : 0 < (kept n qubits).length :=
      List.length_pos_iff.2 (List.ne_nil_of_mem (mem_kept_iff.2 ⟨lt, free⟩))
    rw [length_kept distinct range] at fewer
    exact refused ⟨distinct, range, by omega⟩
  · rintro (⟨q, listed, outside⟩ | repeated | all) traceable
    · have := traceable.range q listed
      omega
    · exact repeated traceable.distinct
    · have none : kept n qubits = [] :=
        List.filter_eq_nil_iff.2 fun q mem => by simpa using all q (List.mem_range.1 mem)
      have count := length_kept traceable.distinct traceable.range
      have := traceable.remains
      rw [none, List.length_nil] at count
      omega

variable {K : Type} [Scalar K] {ρ : DensityOperator K}

theorem partialTrace_eq_error_iff :
    (∃ fault, ρ.partialTrace qubits = .error fault) ↔ ¬ Traceable ρ.qubits qubits := by
  constructor
  · rintro ⟨fault, failed⟩ traceable
    by_cases none : qubits = []
    · subst none
      cases failed
    · obtain ⟨remains, reduced⟩ := partialTrace_eq rfl traceable none
      cases failed.symm.trans reduced
  · intro refused
    obtain ⟨fault, fails⟩ := partialTrace_eq_error (K := K) refused
    exact ⟨fault, fails ρ rfl⟩

/-- What remains has the qubits that are not listed, and a dimension to match. -/
theorem size_of_partialTrace {σ : DensityOperator K} (traced : ρ.partialTrace qubits = .ok σ) :
    σ.qubits = ρ.qubits - qubits.length ∧ 1 ≤ σ.qubits ∧
      σ.dim = 2 ^ (ρ.qubits - qubits.length) := by
  have traceable := traceable_of_partialTrace traced
  have size := (qubits_of_partialTrace traced).trans
    (length_kept traceable.distinct traceable.range)
  exact ⟨size, σ.positive, by rw [dim, size, dimension_eq]⟩

end Lists

/-! ## What stays of an operator -/

section Kept

variable {ρ σ : DensityOperator ℝ} {qubits : List Nat}

/-- An operator that is its own adjoint. -/
def Hermitian (ρ : DensityOperator ℝ) : Prop := (ρ.toMatrix (dimension ρ.qubits)).IsHermitian

/-- An operator that is its own adjoint and turns no vector by more than a right angle. -/
structure Semidefinite (ρ : DensityOperator ℝ) : Prop where
  hermitian : ρ.Hermitian
  nonneg : ∀ v, 0 ≤ (star v ⬝ᵥ ρ.toMatrix (dimension ρ.qubits) *ᵥ v).re

theorem trace_of_partialTrace (traced : ρ.partialTrace qubits = .ok σ) : σ.trace = ρ.trace := by
  obtain ⟨sized, matrix⟩ := toMatrix_of_partialTrace traced
  rw [trace_eq, trace_eq, sized, matrix, remainder, trace_traceRight, trace_submatrix]

theorem Hermitian.partialTrace (hermitian : ρ.Hermitian)
    (traced : ρ.partialTrace qubits = .ok σ) : σ.Hermitian := by
  obtain ⟨sized, matrix⟩ := toMatrix_of_partialTrace traced
  rw [Hermitian, sized, matrix]
  exact isHermitian_traceRight (hermitian.submatrix _)

theorem Semidefinite.partialTrace (semidefinite : ρ.Semidefinite)
    (traced : ρ.partialTrace qubits = .ok σ) : σ.Semidefinite := by
  refine ⟨semidefinite.hermitian.partialTrace traced, ?_⟩
  obtain ⟨sized, matrix⟩ := toMatrix_of_partialTrace traced
  rw [sized, matrix]
  exact nonneg_traceRight (nonneg_submatrix semidefinite.nonneg _)

end Kept

/-! ## Entries of what remains -/

/-- Indices read off the same at some positions have the same bits there. -/
theorem gather_eq_gather_iff (positions : List Nat) {i j : Nat} :
    gather positions i = gather positions j ↔ ∀ q ∈ positions, i.testBit q = j.testBit q := by
  constructor
  · intro same q mem
    obtain ⟨k, lt, rfl⟩ := List.getElem_of_mem mem
    rw [← testBit_gather i lt, ← testBit_gather j lt, same]
  · intro agree
    refine eq_of_testBit_lt (gather_lt _ _) (gather_lt _ _) fun k lt => ?_
    rw [testBit_gather _ lt, testBit_gather _ lt]
    exact agree _ (List.getElem_mem lt)

/-- Row `i` and column `j` of a register contribute to row `r` and column `c` of what remains. -/
def Contributes (n : Nat) (qubits : List Nat) (r c i j : Nat) : Prop :=
  gather (kept n qubits) i = r ∧ gather (kept n qubits) j = c ∧
    gather (traced n qubits) i = gather (traced n qubits) j

instance (n : Nat) (qubits : List Nat) (r c i j : Nat) : Decidable (Contributes n qubits r c i j) :=
  inferInstanceAs (Decidable (_ ∧ _ ∧ _))

/-- A sum over the second part of the index adds up the entries that agree there. -/
theorem traceRight_submatrix_apply {n : Nat} {P R : List Nat} (shares : Shares n P R)
    (M : Matrix (Fin (dimension n)) (Fin (dimension n)) (Complex ℝ))
    (r c : Fin (dimension P.length)) :
    traceRight (M.submatrix shares.split.symm shares.split.symm) r c =
      ∑ i : Fin (dimension n), ∑ j : Fin (dimension n),
        if gather P i = r ∧ gather P j = c ∧ gather R i = gather R j then M i j else 0 := by
  have parts (x : Fin (dimension P.length) × Fin (dimension R.length)) :
      gather P (shares.split.symm x) = x.1 ∧ gather R (shares.split.symm x) = x.2 :=
    ⟨shares.gather_join _ x.1.isLt, shares.gather_join_right _ x.2.isLt⟩
  rw [← shares.split.symm.sum_comp]
  simp only [← shares.split.symm.sum_comp fun j => ite _ (M _ j) 0]
  simp only [parts, Fintype.sum_prod_type, traceRight, Matrix.of_apply, Matrix.submatrix_apply]
  simp only [Fin.val_inj, ite_and, Finset.sum_ite_eq, Finset.sum_ite_eq', Finset.sum_ite_irrel,
    Finset.sum_const_zero, Finset.mem_univ, if_true]

theorem entry_of_partialTrace {ρ σ : DensityOperator ℝ} {qubits : List Nat}
    (traced : ρ.partialTrace qubits = .ok σ) {r c : Nat} (hr : r < dimension σ.qubits)
    (hc : c < dimension σ.qubits) :
    σ.entry r c = ∑ i : Fin (dimension ρ.qubits), ∑ j : Fin (dimension ρ.qubits),
      if Contributes ρ.qubits qubits r c i j then ρ.entry i j else 0 := by
  obtain ⟨sized, matrix⟩ := toMatrix_of_partialTrace traced
  rw [sized] at hr hc
  have entry := congrFun (congrFun matrix ⟨r, hr⟩) ⟨c, hc⟩
  rw [remainder, traceRight_submatrix_apply] at entry
  exact entry

/-! ## Tracing out in two goes -/

section Twice

variable {n : Nat} {first second : List Nat}

/-- Positions in a list are chosen by what stands there. -/
theorem filter_range_length {P : List Nat} (distinct : P.Nodup) {p p' : Nat → Bool}
    (same : ∀ q ∈ P, p (P.idxOf q) = p' q) :
    (List.range P.length).filter p = (P.filter p').map P.idxOf := by
  rw [← map_idxOf_self distinct, List.filter_map]
  exact congrArg (List.map P.idxOf) (List.filter_congr same)

/-- What is read off at the places of qubits is read off at the qubits. -/
theorem gather_map_idxOf {P L : List Nat} (inside : ∀ q ∈ L, q ∈ P) (i : Nat) :
    gather (L.map P.idxOf) (gather P i) = gather L i := by
  have length : (L.map P.idxOf).length = L.length := List.length_map _
  refine eq_of_testBit_lt (gather_lt _ _) (length ▸ gather_lt L i) fun k lt => ?_
  have lt' : k < L.length := length ▸ lt
  have place : P.idxOf L[k] < P.length :=
    List.idxOf_lt_length_iff.2 (inside _ (List.getElem_mem lt'))
  rw [testBit_gather _ lt, testBit_gather _ lt', List.getElem_map, testBit_gather _ place,
    List.getElem_idxOf]

/-- A qubit is listed for the second go when its new number is. -/
theorem contains_map_rank (free : ∀ q ∈ second, q < n ∧ q ∉ first) (q : Nat) :
    (second.map (rank first)).contains ((kept n first).idxOf q) = second.contains q := by
  rw [Bool.eq_iff_iff, List.contains_iff_mem, List.contains_iff_mem]
  constructor
  · intro counted
    obtain ⟨p, listed, same⟩ := List.mem_map.1 counted
    rw [← idxOf_kept (free p listed).1 (free p listed).2] at same
    exact (List.idxOf_inj (mem_kept_iff.2 (free p listed))).1 same ▸ listed
  · intro listed
    exact List.mem_map.2 ⟨q, listed, (idxOf_kept (free q listed).1 (free q listed).2).symm⟩

theorem gather_kept_rank (free : ∀ q ∈ second, q < n ∧ q ∉ first) (i : Nat) :
    gather (kept (kept n first).length (second.map (rank first))) (gather (kept n first) i) =
      gather (kept n (first ++ second)) i := by
  have chosen : kept (kept n first).length (second.map (rank first)) =
      (kept n (first ++ second)).map (kept n first).idxOf := by
    have both : kept n (first ++ second) = (kept n first).filter fun q => !second.contains q := by
      rw [kept, kept, List.filter_filter]
      refine List.filter_congr fun q _ => ?_
      simp [Bool.and_comm]
    rw [both]
    exact filter_range_length (List.nodup_range.filter _) fun q _ =>
      congrArg not (contains_map_rank free q)
  rw [chosen]
  refine gather_map_idxOf (fun q mem => ?_) i
  have place := mem_kept_iff.1 mem
  exact mem_kept_iff.2 ⟨place.1, fun listed => place.2 (List.mem_append_left _ listed)⟩

theorem gather_traced_rank (free : ∀ q ∈ second, q < n ∧ q ∉ first) (i : Nat) :
    gather (traced (kept n first).length (second.map (rank first))) (gather (kept n first) i) =
      gather ((kept n first).filter fun q => second.contains q) i := by
  have chosen : traced (kept n first).length (second.map (rank first)) =
      ((kept n first).filter fun q => second.contains q).map (kept n first).idxOf :=
    filter_range_length (List.nodup_range.filter _) fun q _ => contains_map_rank free q
  rw [chosen]
  exact gather_map_idxOf (fun q mem => (List.mem_filter.1 mem).1) i

/-- The entries that contribute in two goes are those that contribute at once. -/
theorem contributes_twice_iff (free : ∀ q ∈ second, q < n ∧ q ∉ first) {r c i j : Nat} :
    Contributes (kept n first).length (second.map (rank first)) r c (gather (kept n first) i)
        (gather (kept n first) j) ∧ gather (traced n first) i = gather (traced n first) j ↔
      Contributes n (first ++ second) r c i j := by
  have agree : (∀ q ∈ (kept n first).filter fun q => second.contains q,
      i.testBit q = j.testBit q) ∧ (∀ q ∈ traced n first, i.testBit q = j.testBit q) ↔
        ∀ q ∈ traced n (first ++ second), i.testBit q = j.testBit q := by
    simp only [List.mem_filter, mem_kept_iff, mem_traced_iff, List.mem_append,
      List.contains_iff_mem]
    constructor
    · rintro ⟨later, sooner⟩ q ⟨lt, listed⟩
      by_cases now : q ∈ first
      · exact sooner q ⟨lt, now⟩
      · exact later q ⟨⟨lt, now⟩, listed.resolve_left now⟩
    · intro all
      exact ⟨fun q mem => all q ⟨mem.1.1, .inr mem.2⟩, fun q mem => all q ⟨mem.1, .inl mem.2⟩⟩
  unfold Contributes
  rw [gather_kept_rank free, gather_kept_rank free, gather_traced_rank free,
    gather_traced_rank free, gather_eq_gather_iff ((kept n first).filter _),
    gather_eq_gather_iff (traced n first), gather_eq_gather_iff (traced n (first ++ second)),
    ← agree]
  tauto

theorem Traceable.of_append_left (traceable : Traceable n (first ++ second)) :
    Traceable n first where
  distinct := traceable.distinct.of_append_left
  range q mem := traceable.range q (List.mem_append_left _ mem)
  remains := by
    have remains := traceable.remains
    rw [List.length_append] at remains
    omega

theorem Traceable.free (traceable : Traceable n (first ++ second)) :
    ∀ q ∈ second, q < n ∧ q ∉ first := fun q mem =>
  ⟨traceable.range q (List.mem_append_right _ mem), fun earlier =>
    (List.nodup_append.1 traceable.distinct).2.2 q earlier q mem rfl⟩

/-- After the first go the second can be made under the new numbers. -/
theorem Traceable.renumber (traceable : Traceable n (first ++ second)) :
    Traceable (kept n first).length (second.map (rank first)) := by
  have free := traceable.free
  have counted : second.map (rank first) = second.map (kept n first).idxOf :=
    List.map_congr_left fun q mem => (idxOf_kept (free q mem).1 (free q mem).2).symm
  rw [counted]
  refine ⟨traceable.distinct.of_append_right.map_on fun p hp q hq same => ?_, fun k mem => ?_, ?_⟩
  · exact (List.idxOf_inj (mem_kept_iff.2 (free p hp))).1 same
  · obtain ⟨q, listed, rfl⟩ := List.mem_map.1 mem
    exact List.idxOf_lt_length_iff.2 (mem_kept_iff.2 (free q listed))
  · have remains := traceable.remains
    rw [List.length_append] at remains
    rw [List.length_map,
      length_kept traceable.of_append_left.distinct traceable.of_append_left.range]
    omega

/-- An entry of the whole operator goes into one entry of the operator between, and from there to
where it goes at once. -/
theorem sum_contributes (traceable : Traceable n (first ++ second)) {m : Nat}
    (size : m = (kept n first).length) (r c i j : Nat) (x : Complex ℝ) :
    (∑ a : Fin (dimension m), ∑ b : Fin (dimension m),
      if Contributes m (second.map (rank first)) r c a b then
        if Contributes n first a b i j then x else 0
      else 0) = if Contributes n (first ++ second) r c i j then x else 0 := by
  have inside (i : Nat) : gather (kept n first) i < dimension m := size ▸ gather_lt _ i
  rw [Finset.sum_eq_single ⟨_, inside i⟩, Finset.sum_eq_single ⟨_, inside j⟩, ← ite_and]
  · refine if_congr (Iff.trans ?_ (contributes_twice_iff traceable.free)) rfl rfl
    dsimp only
    rw [size]
    exact and_congr_right fun _ => by simp [Contributes]
  · intro b _ other
    rw [if_neg fun (here : Contributes _ _ _ _ _ _) => other (Fin.ext here.2.1.symm), ite_self]
  · exact fun missing => absurd (Finset.mem_univ _) missing
  · intro a _ other
    refine Finset.sum_eq_zero fun b _ => ?_
    rw [if_neg fun (here : Contributes _ _ _ _ _ _) => other (Fin.ext here.1.symm), ite_self]
  · exact fun missing => absurd (Finset.mem_univ _) missing

/-- Two sums over agreeing entries, one after the other, are one such sum. -/
theorem entry_in_two {ρ σ τ : DensityOperator ℝ} (traceable : Traceable ρ.qubits (first ++ second))
    (before : ρ.partialTrace first = .ok σ)
    (after : σ.partialTrace (second.map (rank first)) = .ok τ) {r c : Nat}
    (hr : r < dimension τ.qubits) (hc : c < dimension τ.qubits) :
    τ.entry r c = ∑ i : Fin (dimension ρ.qubits), ∑ j : Fin (dimension ρ.qubits),
      if Contributes ρ.qubits (first ++ second) r c i j then ρ.entry i j else 0 := by
  have once (i j : Fin (dimension ρ.qubits)) :=
    sum_contributes traceable (qubits_of_partialTrace before) r c i j (ρ.entry i j)
  have spread (a b : Fin (dimension σ.qubits)) :
      (if Contributes σ.qubits (second.map (rank first)) r c a b then σ.entry a b else 0) =
        ∑ i : Fin (dimension ρ.qubits), ∑ j : Fin (dimension ρ.qubits),
          if Contributes σ.qubits (second.map (rank first)) r c a b then
            if Contributes ρ.qubits first a b i j then ρ.entry i j else 0
          else 0 := by
    rw [entry_of_partialTrace before a.isLt b.isLt]
    split_ifs
    · rfl
    · simp
  -- the sums over the operator between are taken last, entry by entry of the whole operator
  have turn (f : Fin (dimension σ.qubits) → Fin (dimension σ.qubits) →
      Fin (dimension ρ.qubits) → Complex ℝ) :
      ∑ a, ∑ b, ∑ i, f a b i = ∑ i, ∑ a, ∑ b, f a b i :=
    (Finset.sum_congr rfl fun a _ => Finset.sum_comm).trans Finset.sum_comm
  rw [entry_of_partialTrace after hr hc]
  simp only [spread, ← once]
  rw [turn]
  exact Finset.sum_congr rfl fun i _ => turn _

end Twice

/-! ## Main results -/

/-- **Any proper part of the register can be traced out.** A partial trace is refused, as an
invalid circuit, when a qubit is out of range, listed twice, or when none is left out. Otherwise it
leaves an operator on the qubits that are not listed. Over exact numbers this operator has the same
trace, and it is its own adjoint or semidefinite when the operator was. -/
theorem partialTrace_of_part :
    (∀ (K : Type) [Scalar K] (ρ : DensityOperator K) (qubits : List Nat),
      let refused := (∃ q ∈ qubits, ρ.qubits ≤ q) ∨ ¬ qubits.Nodup ∨ ∀ q < ρ.qubits, q ∈ qubits
      (refused → ∃ fault, ρ.partialTrace qubits = .error fault ∧
        (Fault.trace fault : Fault K).kind = .invalidCircuit) ∧
      (¬ refused → ∃ σ, ρ.partialTrace qubits = .ok σ ∧ σ.qubits = ρ.qubits - qubits.length ∧
        1 ≤ σ.qubits ∧ σ.dim = 2 ^ (ρ.qubits - qubits.length))) ∧
    ∀ (ρ σ : DensityOperator ℝ) (qubits : List Nat), ρ.partialTrace qubits = .ok σ →
      σ.trace = ρ.trace ∧ (ρ.Hermitian → σ.Hermitian) ∧ (ρ.Semidefinite → σ.Semidefinite) := by
  constructor
  · intro K _ ρ qubits refused
    constructor
    · intro bad
      obtain ⟨fault, failed⟩ := partialTrace_eq_error_iff.2 (not_traceable_iff.2 bad)
      exact ⟨fault, failed, rfl⟩
    · intro fine
      cases traced : ρ.partialTrace qubits with
      | error fault =>
        have refused := partialTrace_eq_error_iff.1 ⟨fault, traced⟩
        exact absurd (not_traceable_iff.1 refused) fine
      | ok σ => exact ⟨σ, rfl, size_of_partialTrace traced⟩
  · intro ρ σ qubits traced
    exact ⟨trace_of_partialTrace traced, fun hermitian => hermitian.partialTrace traced,
      fun semidefinite => semidefinite.partialTrace traced⟩

/-- Two qubits of three traced out of a basis state, the higher one first. -/
theorem partialTrace_of_part_basis :
    ∃ ψ, StateVector.basis (K := ℝ) 3 6 = .ok ψ ∧ (ofState ψ).Semidefinite ∧
      ∃ σ, (ofState ψ).partialTrace [2, 0] = .ok σ ∧ σ.qubits = 1 ∧ σ.dim = 2 ∧ σ.trace = 1 ∧
        σ.Semidefinite := by
  obtain ⟨ψ, made⟩ : ∃ ψ, StateVector.basis (K := ℝ) 3 6 = .ok ψ :=
    ⟨_, StateVector.basis_eq_ok_iff.2 ⟨by decide, by decide, by decide, rfl⟩⟩
  have three : (ofState ψ).qubits = 3 := by
    obtain ⟨-, -, -, rfl⟩ := StateVector.basis_eq_ok_iff.1 made
    rfl
  have physical := physical_ofState (StateVector.normSq_of_basis made)
  have semidefinite : (ofState ψ).Semidefinite := ⟨physical.hermitian, physical.positive⟩
  have fine : ¬ ((∃ q ∈ [2, 0], (ofState ψ).qubits ≤ q) ∨ ¬ [2, 0].Nodup ∨
      ∀ q < (ofState ψ).qubits, q ∈ [2, 0]) := by
    rw [three]
    decide
  obtain ⟨σ, traced, size, -, dim⟩ := (partialTrace_of_part.1 ℝ (ofState ψ) [2, 0]).2 fine
  obtain ⟨trace, -, keeps⟩ := partialTrace_of_part.2 (ofState ψ) σ [2, 0] traced
  rw [three] at size dim
  exact ⟨ψ, made, semidefinite, σ, traced, size, dim, trace.trans physical.trace_eq_one,
    keeps semidefinite⟩

/-- **Qubits can be traced out in any order, in two goes or at once.** After the first go a qubit
has the number of qubits that remain below it, and under these numbers the second go leaves the
operator that is left when all the qubits are traced out together. -/
theorem partialTrace_in_two (ρ : DensityOperator ℝ) {first second : List Nat}
    (traceable : Traceable ρ.qubits (first ++ second)) :
    ∃ σ τ, (∀ listed, listed.Perm first → ρ.partialTrace listed = .ok σ) ∧
      (∀ listed, listed.Perm (second.map (rank first)) → σ.partialTrace listed = .ok τ) ∧
      ∀ listed, listed.Perm (first ++ second) → ρ.partialTrace listed = .ok τ := by
  obtain ⟨σ, before, sized, -⟩ := exists_partialTrace (ρ := ρ) rfl traceable.of_append_left
  obtain ⟨τ, after, -⟩ := exists_partialTrace sized traceable.renumber
  obtain ⟨whole, once, -⟩ := exists_partialTrace (ρ := ρ) rfl traceable
  have size : τ.qubits = whole.qubits := by
    rw [(size_of_partialTrace after).1, (size_of_partialTrace before).1,
      (size_of_partialTrace once).1, List.length_map, List.length_append]
    omega
  have same : τ = whole := by
    refine eq_of_toMatrix_eq size rfl (Matrix.ext fun r c => ?_)
    have hr : r < dimension τ.qubits := r.isLt.trans_eq (congrArg dimension size.symm)
    have hc : c < dimension τ.qubits := c.isLt.trans_eq (congrArg dimension size.symm)
    exact (entry_in_two traceable before after hr hc).trans
      (entry_of_partialTrace once r.isLt c.isLt).symm
  subst same
  exact ⟨σ, τ, fun listed perm => partialTrace_of_perm perm.symm before,
    fun listed perm => partialTrace_of_perm perm.symm after,
    fun listed perm => partialTrace_of_perm perm.symm once⟩

/-- Without qubit 2 the qubits 3 and 0 of four are numbered 2 and 0. -/
theorem partialTrace_in_two_four :
    let ψ : StateVector ℝ := ⟨4, by decide, .ofFn fun i => if i.val = 9 then 1 else 0⟩
    Traceable (ofState ψ).qubits ([2] ++ [3, 0]) ∧
      ∃ σ τ, (ofState ψ).partialTrace [2] = .ok σ ∧ σ.partialTrace [2, 0] = .ok τ ∧
        σ.partialTrace [0, 2] = .ok τ ∧ (ofState ψ).partialTrace [0, 2, 3] = .ok τ := by
  intro ψ
  have traceable : Traceable (ofState ψ).qubits ([2] ++ [3, 0]) := ⟨by decide, by decide, by decide⟩
  obtain ⟨σ, τ, before, after, once⟩ := partialTrace_in_two (ofState ψ) traceable
  exact ⟨traceable, σ, τ, before _ (.refl _), after _ (by decide), after _ (by decide),
    once _ (by decide)⟩

end DensityOperator

end QubitTrace
