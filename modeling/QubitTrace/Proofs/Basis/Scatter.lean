import Mathlib
import QubitTrace.Proofs.Basis.Split

/-! # Scattered indices

Over ascending positions scattering keeps the order of indices (`scatter_lt_scatter`): the
highest bit in which two of them differ goes to a place above which they still agree. Two
ascending lists that make up the qubits of a register share them out, and then the indices
scattered over the one, united with those scattered over the other, are the indices of the
register, each made from one pair (`scatter_or_scatter_bijOn`).
-/

namespace QubitTrace.Basis
set_option autoImplicit false

/-- The larger of two numbers has the highest bit in which they differ. -/
theorem exists_testBit_of_lt {r s : Nat} (lt : r < s) :
    ∃ i, r.testBit i = false ∧ s.testBit i = true ∧ ∀ j, i < j → r.testBit j = s.testBit j := by
  obtain ⟨i, differs, highest⟩ := Nat.exists_most_significant_bit (Nat.xor_ne_zero_iff.2 lt.ne)
  have above : ∀ j, i < j → r.testBit j = s.testBit j := fun j gt => by
    simpa [Nat.testBit_xor] using highest j gt
  rw [Nat.testBit_xor] at differs
  cases first : r.testBit i with
  | false => exact ⟨i, first, by simpa [first] using differs, above⟩
  | true =>
    have second : s.testBit i = false := by simpa [first] using differs
    have gt : s < r := Nat.lt_of_testBit i second first fun j hj => (above j hj).symm
    omega

section Ascending

variable {positions : List Nat} {r s : Nat}

theorem nodup_of_ascending (ascending : positions.Pairwise (· < ·)) : positions.Nodup :=
  ascending.imp Nat.ne_of_lt

/-- Of two places in an ascending list, the one with the larger position stands later. -/
theorem lt_of_getElem_lt (ascending : positions.Pairwise (· < ·)) {i j : Nat}
    (hi : i < positions.length) (hj : j < positions.length) (lt : positions[i] < positions[j]) :
    i < j := by
  by_contra le
  rcases Nat.lt_or_eq_of_le (Nat.le_of_not_lt le) with earlier | same
  · have := List.pairwise_iff_getElem.1 ascending j i hj hi earlier
    omega
  · subst same
    omega

/-- Over ascending positions scattering keeps the order of the indices that fit them. -/
theorem scatter_lt_scatter (ascending : positions.Pairwise (· < ·)) (lt : r < s)
    (fits : s < dimension positions.length) : scatter r positions < scatter s positions := by
  obtain ⟨i, clear, set, above⟩ := exists_testBit_of_lt lt
  have hi : i < positions.length := by
    by_contra outside
    rw [testBit_of_lt_dimension fits (Nat.le_of_not_lt outside)] at set
    cases set
  have distinct := nodup_of_ascending ascending
  refine Nat.lt_of_testBit positions[i] ?_ ?_ fun q gt => ?_
  · rw [testBit_scatter_getElem distinct, clear]
  · rw [testBit_scatter_getElem distinct, set]
  · by_cases mem : q ∈ positions
    · obtain ⟨j, hj, rfl⟩ := List.getElem_of_mem mem
      rw [testBit_scatter_getElem distinct, testBit_scatter_getElem distinct,
        above j (lt_of_getElem_lt ascending hi hj gt)]
    · rw [testBit_scatter_of_not_mem mem, testBit_scatter_of_not_mem mem]

theorem scatter_le_scatter_iff (ascending : positions.Pairwise (· < ·))
    (hr : r < dimension positions.length) (hs : s < dimension positions.length) :
    scatter r positions ≤ scatter s positions ↔ r ≤ s := by
  constructor
  · intro le
    by_contra gt
    exact absurd (scatter_lt_scatter ascending (Nat.lt_of_not_le gt) hr) (Nat.not_lt.2 le)
  · intro le
    rcases Nat.lt_or_eq_of_le le with lt | rfl
    · exact (scatter_lt_scatter ascending lt hs).le
    · exact le_rfl

end Ascending

/-- Ascending lists without a common member share out the qubits that they make up. -/
theorem shares_of_ascending {n : Nat} {P R : List Nat} (left : P.Pairwise (· < ·))
    (right : R.Pairwise (· < ·)) (disjoint : ∀ q ∈ P, q ∉ R)
    (together : ∀ q, q ∈ P ∨ q ∈ R ↔ q < n) : Shares n P R := by
  refine (List.perm_ext_iff_of_nodup ?_ List.nodup_range).2 fun q => ?_
  · refine List.nodup_append.2 ⟨nodup_of_ascending left, nodup_of_ascending right, ?_⟩
    rintro q here _ there rfl
    exact disjoint q here there
  · rw [List.mem_append, List.mem_range, together]

/-- Positions to keep and positions of the environment, both ascending, disjoint, and together
those of a register. The indices below the dimension of the register are made, each from one pair,
from an index to be scattered over the kept positions and one for the environment; the bits of the
two are found again at their positions, which are below the number of qubits. Whatever ascending
positions an index is scattered over, the order of indices is kept. -/
theorem scatter_or_scatter_bijOn {n : Nat} {keep environment : List Nat}
    (kept : keep.Pairwise (· < ·)) (traced : environment.Pairwise (· < ·))
    (disjoint : ∀ q ∈ keep, q ∉ environment)
    (together : ∀ q, q ∈ keep ∨ q ∈ environment ↔ q < n) :
    Set.BijOn (fun p : Nat × Nat => scatter p.1 keep ||| scatter p.2 environment)
      {p | p.1 < 2 ^ keep.length ∧ p.2 < 2 ^ environment.length} {i | i < 2 ^ n} ∧
    (∀ r x j (hj : j < keep.length),
      bit (scatter r keep ||| scatter x environment) keep[j] = bit r j) ∧
    (∀ r x j (hj : j < environment.length),
      bit (scatter r keep ||| scatter x environment) environment[j] = bit x j) ∧
    ∀ positions : List Nat, positions.Pairwise (· < ·) → ∀ r s, r < 2 ^ positions.length →
      s < 2 ^ positions.length → (scatter r positions ≤ scatter s positions ↔ r ≤ s) := by
  have shares : Shares n keep environment := shares_of_ascending kept traced disjoint together
  simp only [← dimension_eq]
  refine ⟨?_, fun r x j hj => ?_, fun r x j hj => ?_, fun positions ascending r s hr hs => ?_⟩
  · -- reading the bits off at either list undoes the union
    let read : Nat → Nat × Nat := fun i => (gather keep i, gather environment i)
    have inverse : Set.InvOn read (fun p => scatter p.1 keep ||| scatter p.2 environment)
        {p | p.1 < dimension keep.length ∧ p.2 < dimension environment.length}
        {i | i < dimension n} := by
      refine ⟨?_, fun i hi => shares.join_gather hi⟩
      rintro ⟨r, x⟩ ⟨hr, hx⟩
      exact Prod.ext (shares.gather_join x hr) (shares.gather_join_right r hx)
    refine inverse.bijOn ?_ ?_
    · exact fun p _ => shares.join_lt p.1 p.2
    · exact fun i _ => ⟨gather_lt keep i, gather_lt environment i⟩
  · exact bit_eq_bit_iff.2 (shares.testBit_join r x hj)
  · exact bit_eq_bit_iff.2 (shares.testBit_join_right r x hj)
  · exact scatter_le_scatter_iff ascending hr hs

/-- The outer two of three qubits are kept: the pair of 2 and 1 makes 6, with bits 1 and 2 set. -/
theorem scatter_or_scatter_bijOn_outer :
    Set.BijOn (fun p : Nat × Nat => scatter p.1 [0, 2] ||| scatter p.2 [1])
      {p | p.1 < 2 ^ 2 ∧ p.2 < 2 ^ 1} {i | i < 2 ^ 3} ∧
    scatter 2 [0, 2] ||| scatter 1 [1] = 6 := by
  have kept : [0, 2].Pairwise (· < ·) := by decide
  have traced : [1].Pairwise (· < ·) := by decide
  have disjoint : ∀ q ∈ [0, 2], q ∉ [1] := by decide
  have together : ∀ q, q ∈ [0, 2] ∨ q ∈ [1] ↔ q < 3 := fun q => by
    simp only [List.mem_cons, List.not_mem_nil, or_false]
    omega
  exact ⟨(scatter_or_scatter_bijOn kept traced disjoint together).1, by decide⟩

end QubitTrace.Basis
