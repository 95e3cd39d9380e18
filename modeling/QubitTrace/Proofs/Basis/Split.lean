import Mathlib
import QubitTrace.Proofs.Basis.Bits

/-! # Splitting a basis index in two

Two lists of qubits that share out a register (`Shares`) split each of its basis indices
into an index for either list: `gather` reads one off, `scatter` puts it back, and `join`
unites two of them. `split` is the resulting bijection, along which sums over the register
become double sums. A gate's local index is what is read off at its qubits in reverse.
-/

namespace QubitTrace.Basis
set_option autoImplicit false

/-- The index whose bit `j` is the bit of `i` at the `j`-th position. -/
def gather (positions : List Nat) (i : Nat) : Nat := localIndex positions.reverse i

theorem localIndex_eq_gather (qubits : List Nat) (i : Nat) :
    localIndex qubits i = gather qubits.reverse i := by
  rw [gather, List.reverse_reverse]

theorem testBit_gather {positions : List Nat} (i : Nat) {j : Nat} (lt : j < positions.length) :
    (gather positions i).testBit j = i.testBit positions[j] := by
  rw [gather, testBit_localIndex _ (by simpa using lt), List.getElem_reverse]
  congr 2
  rw [List.length_reverse]
  omega

theorem gather_lt (positions : List Nat) (i : Nat) :
    gather positions i < dimension positions.length := by
  simpa [gather] using localIndex_lt positions.reverse i

theorem testBit_foldl_or (l : List (Nat × Nat)) (i q : Nat) :
    (l.foldl (fun index p => index ||| 1 <<< p.1) i).testBit q =
      (i.testBit q || l.any fun p => decide (q = p.1)) := by
  induction l generalizing i with
  | nil => simp
  | cons p l ih =>
    rw [List.foldl_cons, ih, Nat.testBit_or, testBit_one_shiftLeft, List.any_cons, Bool.or_assoc]

/-- The set bits of a scattered index stand at the positions of set bits. -/
theorem testBit_scatter_iff {value q : Nat} {positions : List Nat} :
    (scatter value positions).testBit q = true ↔
      ∃ j, positions[j]? = some q ∧ value.testBit j = true := by
  simp only [scatter, testBit_foldl_or, Nat.zero_testBit, Bool.false_or, List.any_eq_true,
    List.mem_filter, shiftRight_mod_beq_one, decide_eq_true_eq]
  constructor
  · rintro ⟨⟨p, j⟩, ⟨listed, set⟩, rfl⟩
    exact ⟨j, List.mem_zipIdx_iff_getElem?.1 listed, set⟩
  · rintro ⟨j, listed, set⟩
    exact ⟨(q, j), ⟨List.mem_zipIdx_iff_getElem?.2 listed, set⟩, rfl⟩

theorem testBit_scatter_getElem {positions : List Nat} (distinct : positions.Nodup) (value : Nat)
    {j : Nat} (lt : j < positions.length) :
    (scatter value positions).testBit positions[j] = value.testBit j := by
  rw [Bool.eq_iff_iff, testBit_scatter_iff]
  constructor
  · rintro ⟨k, listed, set⟩
    obtain ⟨bound, same⟩ := List.getElem?_eq_some_iff.1 listed
    rwa [(distinct.getElem_inj_iff).1 same] at set
  · exact fun set => ⟨j, List.getElem?_eq_getElem lt, set⟩

theorem testBit_scatter_of_not_mem {positions : List Nat} {q : Nat} (free : q ∉ positions)
    (value : Nat) : (scatter value positions).testBit q = false := by
  rw [Bool.eq_false_iff, Ne, testBit_scatter_iff]
  rintro ⟨j, listed, _⟩
  exact free (List.mem_of_getElem? listed)

/-- The index with the bits of `a` at one list of positions and those of `b` at another. -/
def join (P R : List Nat) (a b : Nat) : Nat := scatter a P ||| scatter b R

theorem join_comm (P R : List Nat) (a b : Nat) : join P R a b = join R P b a := Nat.or_comm _ _

/-- Two lists share out the qubits of a register: each qubit stands in one of them, once. -/
def Shares (n : Nat) (P R : List Nat) : Prop := (P ++ R).Perm (List.range n)

namespace Shares

variable {n : Nat} {P R : List Nat}

theorem symm (shares : Shares n P R) : Shares n R P := List.perm_append_comm.trans shares

theorem nodup (shares : Shares n P R) : (P ++ R).Nodup := shares.nodup_iff.2 List.nodup_range

theorem left_nodup (shares : Shares n P R) : P.Nodup := (List.nodup_append.1 shares.nodup).1

theorem disjoint (shares : Shares n P R) {q : Nat} (left : q ∈ P) : q ∉ R := fun right =>
  (List.nodup_append.1 shares.nodup).2.2 q left q right rfl

theorem mem_iff (shares : Shares n P R) {q : Nat} : q ∈ P ∨ q ∈ R ↔ q < n := by
  rw [← List.mem_append, List.Perm.mem_iff shares, List.mem_range]

theorem lt_of_mem (shares : Shares n P R) {q : Nat} (left : q ∈ P) : q < n :=
  shares.mem_iff.1 (.inl left)

theorem length_add (shares : Shares n P R) : P.length + R.length = n := by
  rw [← List.length_append, shares.length_eq, List.length_range]

/-- At the positions of the first list a united index has the bits of its first part. -/
theorem testBit_join (shares : Shares n P R) (a b : Nat) {j : Nat} (lt : j < P.length) :
    (join P R a b).testBit P[j] = a.testBit j := by
  have free : P[j] ∉ R := shares.disjoint (List.getElem_mem lt)
  rw [join, Nat.testBit_or, testBit_scatter_getElem shares.left_nodup,
    testBit_scatter_of_not_mem free, Bool.or_false]

theorem testBit_join_right (shares : Shares n P R) (a b : Nat) {j : Nat} (lt : j < R.length) :
    (join P R a b).testBit R[j] = b.testBit j := by
  rw [join_comm, shares.symm.testBit_join]

theorem join_lt (shares : Shares n P R) (a b : Nat) : join P R a b < dimension n := by
  refine lt_dimension_iff.2 fun q le => ?_
  have outside : q ∉ P ∧ q ∉ R := not_or.1 fun mem => by
    have := shares.mem_iff.1 mem
    omega
  rw [join, Nat.testBit_or, testBit_scatter_of_not_mem outside.1,
    testBit_scatter_of_not_mem outside.2, Bool.or_false]

theorem gather_join (shares : Shares n P R) {a : Nat} (b : Nat) (ha : a < dimension P.length) :
    gather P (join P R a b) = a := by
  refine eq_of_testBit_lt (gather_lt _ _) ha fun j lt => ?_
  rw [testBit_gather _ lt, shares.testBit_join]

theorem gather_join_right (shares : Shares n P R) (a : Nat) {b : Nat}
    (hb : b < dimension R.length) : gather R (join P R a b) = b := by
  rw [join_comm, shares.symm.gather_join _ hb]

theorem join_gather (shares : Shares n P R) {i : Nat} (hi : i < dimension n) :
    join P R (gather P i) (gather R i) = i := by
  refine eq_of_testBit_lt (shares.join_lt _ _) hi fun q lt => ?_
  obtain left | right := shares.mem_iff.2 lt
  · obtain ⟨j, hj, rfl⟩ := List.getElem_of_mem left
    rw [shares.testBit_join, testBit_gather _ hj]
  · obtain ⟨j, hj, rfl⟩ := List.getElem_of_mem right
    rw [shares.testBit_join_right, testBit_gather _ hj]

/-- The basis indices of a register are the pairs of those of its two shares. -/
def split (shares : Shares n P R) :
    Fin (dimension n) ≃ Fin (dimension P.length) × Fin (dimension R.length) where
  toFun i := (⟨gather P i, gather_lt P i⟩, ⟨gather R i, gather_lt R i⟩)
  invFun x := ⟨join P R x.1 x.2, shares.join_lt _ _⟩
  left_inv i := Fin.ext (shares.join_gather i.isLt)
  right_inv x := Prod.ext (Fin.ext (shares.gather_join _ x.1.isLt))
    (Fin.ext (shares.gather_join_right _ x.2.isLt))

@[simp] theorem split_symm_val (shares : Shares n P R)
    (x : Fin (dimension P.length) × Fin (dimension R.length)) :
    (shares.split.symm x : Nat) = join P R x.1 x.2 := rfl

end Shares

/-- The qubits below `n` that a list leaves out. -/
def others (n : Nat) (qubits : List Nat) : List Nat := (List.range n).filter (· ∉ qubits)

theorem mem_others_iff {n q : Nat} {qubits : List Nat} :
    q ∈ others n qubits ↔ q < n ∧ q ∉ qubits := by
  simp [others]

theorem shares_others {n : Nat} {qubits : List Nat} (distinct : qubits.Nodup)
    (range : ∀ q ∈ qubits, q < n) : Shares n qubits (others n qubits) := by
  refine (List.perm_ext_iff_of_nodup ?_ List.nodup_range).2 fun q => ?_
  · refine List.nodup_append.2 ⟨distinct, List.nodup_range.filter _, ?_⟩
    rintro q left _ right rfl
    exact (mem_others_iff.1 right).2 left
  · rw [List.mem_append, List.mem_range, mem_others_iff]
    constructor
    · rintro (listed | ⟨lt, _⟩)
      · exact range q listed
      · exact lt
    · intro lt
      by_cases listed : q ∈ qubits
      · exact .inl listed
      · exact .inr ⟨lt, listed⟩

/-- Replacing the bits at some qubits keeps what is read off at the others. -/
theorem assign_eq_join {n i : Nat} {qubits : List Nat} (distinct : qubits.Nodup)
    (range : ∀ q ∈ qubits, q < n) (hi : i < dimension n) (l : Nat) :
    assign qubits l i =
      join qubits.reverse (others n qubits) l (gather (others n qubits) i) := by
  have shares : Shares n qubits.reverse (others n qubits) :=
    ((List.reverse_perm qubits).append_right _).trans (shares_others distinct range)
  refine eq_of_testBit_lt (assign_lt range l hi) (shares.join_lt _ _) fun q lt => ?_
  obtain left | right := shares.mem_iff.2 lt
  · obtain ⟨j, hj, rfl⟩ := List.getElem_of_mem left
    rw [shares.testBit_join, List.getElem_reverse, testBit_assign_getElem distinct]
    congr 1
    rw [List.length_reverse] at hj
    omega
  · have free := (mem_others_iff.1 right).2
    obtain ⟨j, hj, rfl⟩ := List.getElem_of_mem right
    rw [shares.testBit_join_right, testBit_gather _ hj, testBit_assign_of_not_mem free]

end QubitTrace.Basis
