import Mathlib
import QubitTrace.Proofs.Basis.Split

/-! # Renaming qubits

A permutation of the qubits of a register (`Permutes`) moves its basis indices: bit `q` of an
index becomes bit `π q` of the one it is moved to (`moved`). Moving is undone by reading the bits
off again (`unmoved`), and it takes every operation on indices at some qubits to the same operation
at the renamed ones. All laws are about one bit at a time.
-/

namespace QubitTrace.Basis
set_option autoImplicit false

/-- Renaming the first `n` qubits lists them again, in another order. -/
def Permutes (n : Nat) (π : Nat → Nat) : Prop := ((List.range n).map π).Perm (List.range n)

instance (n : Nat) (π : Nat → Nat) : Decidable (Permutes n π) :=
  inferInstanceAs (Decidable (List.Perm _ _))

/-- The index whose bit `π q` is bit `q` of `i`, for each of `n` qubits. -/
def moved (n : Nat) (π : Nat → Nat) (i : Nat) : Nat := scatter i ((List.range n).map π)

/-- The index whose bit `q` is bit `π q` of `i`, for each of `n` qubits. -/
def unmoved (n : Nat) (π : Nat → Nat) (i : Nat) : Nat := gather ((List.range n).map π) i

namespace Permutes

variable {n : Nat} {π : Nat → Nat}

theorem shares (permutes : Permutes n π) : Shares n ((List.range n).map π) [] := by
  rw [Shares, List.append_nil]
  exact permutes

theorem lt (permutes : Permutes n π) {q : Nat} (small : q < n) : π q < n :=
  permutes.shares.lt_of_mem (List.mem_map_of_mem (List.mem_range.2 small))

theorem injOn (permutes : Permutes n π) {p q : Nat} (hp : p < n) (hq : q < n) (same : π p = π q) :
    p = q :=
  List.inj_on_of_nodup_map permutes.shares.left_nodup (List.mem_range.2 hp) (List.mem_range.2 hq)
    same

/-- Every qubit is the new name of one. -/
theorem exists_eq (permutes : Permutes n π) {p : Nat} (small : p < n) : ∃ q < n, π q = p := by
  obtain ⟨q, listed, same⟩ := List.mem_map.1 (permutes.mem_iff.2 (List.mem_range.2 small))
  exact ⟨q, List.mem_range.1 listed, same⟩

theorem testBit_moved (permutes : Permutes n π) {q : Nat} (small : q < n) (i : Nat) :
    (moved n π i).testBit (π q) = i.testBit q := by
  have listed : q < ((List.range n).map π).length := by simpa using small
  have here := testBit_scatter_getElem permutes.shares.left_nodup i listed
  rwa [List.getElem_map, List.getElem_range] at here

theorem testBit_unmoved {q : Nat} (small : q < n) (i : Nat) :
    (unmoved n π i).testBit q = i.testBit (π q) := by
  rw [unmoved, testBit_gather i (by simpa using small), List.getElem_map, List.getElem_range]

theorem bit_moved (permutes : Permutes n π) {q : Nat} (small : q < n) (i : Nat) :
    bit (moved n π i) (π q) = bit i q :=
  bit_eq_bit_iff.2 (permutes.testBit_moved small i)

theorem bit_unmoved {q : Nat} (small : q < n) (i : Nat) :
    bit (unmoved n π i) q = bit i (π q) :=
  bit_eq_bit_iff.2 (testBit_unmoved small i)

theorem moved_lt (permutes : Permutes n π) (i : Nat) : moved n π i < dimension n := by
  refine lt_dimension_iff.2 fun q le => testBit_scatter_of_not_mem (fun listed => ?_) i
  have := permutes.shares.lt_of_mem listed
  omega

theorem unmoved_lt (n : Nat) (π : Nat → Nat) (i : Nat) : unmoved n π i < dimension n := by
  have bound := gather_lt ((List.range n).map π) i
  rwa [List.length_map, List.length_range] at bound

/-- Indices are equal if they agree at the new names of all qubits. -/
theorem eq_of_testBit (permutes : Permutes n π) {i j : Nat} (hi : i < dimension n)
    (hj : j < dimension n) (same : ∀ q < n, i.testBit (π q) = j.testBit (π q)) : i = j := by
  refine eq_of_testBit_lt hi hj fun p small => ?_
  obtain ⟨q, lt, rfl⟩ := permutes.exists_eq small
  exact same q lt

theorem moved_unmoved (permutes : Permutes n π) {i : Nat} (hi : i < dimension n) :
    moved n π (unmoved n π i) = i :=
  permutes.eq_of_testBit (permutes.moved_lt _) hi fun q lt => by
    rw [permutes.testBit_moved lt, testBit_unmoved lt]

theorem unmoved_moved (permutes : Permutes n π) {i : Nat} (hi : i < dimension n) :
    unmoved n π (moved n π i) = i :=
  eq_of_testBit_lt (unmoved_lt n π _) hi fun q lt => by
    rw [testBit_unmoved lt, permutes.testBit_moved lt]

/-- Moving the basis indices of a register, as a bijection. -/
def index (permutes : Permutes n π) : Fin (dimension n) ≃ Fin (dimension n) where
  toFun i := ⟨moved n π i, permutes.moved_lt i⟩
  invFun i := ⟨unmoved n π i, unmoved_lt n π i⟩
  left_inv i := Fin.ext (permutes.unmoved_moved i.isLt)
  right_inv i := Fin.ext (permutes.moved_unmoved i.isLt)

/-! ### Operations on moved indices -/

theorem moved_setBit (permutes : Permutes n π) {q b : Nat} (small : q < n) (hb : b < 2) (i : Nat) :
    moved n π (setBit i q b) = setBit (moved n π i) (π q) b := by
  refine permutes.eq_of_testBit (permutes.moved_lt _)
    (setBit_lt (permutes.moved_lt i) (permutes.lt small) hb) fun r lt => ?_
  rw [permutes.testBit_moved lt, testBit_setBit hb, testBit_setBit hb, permutes.testBit_moved lt]
  by_cases here : r = q
  · rw [if_pos here, if_pos (congrArg π here)]
  · rw [if_neg here, if_neg fun same => here (permutes.injOn lt small same)]

/-- The bits of a local index go to the renamed qubits. -/
theorem moved_assign (permutes : Permutes n π) {qubits : List Nat} (range : ∀ q ∈ qubits, q < n)
    (l i : Nat) :
    moved n π (assign qubits l i) = assign (qubits.map π) l (moved n π i) := by
  induction qubits with
  | nil => rfl
  | cons q qubits ih =>
    obtain ⟨small, rest⟩ := List.forall_mem_cons.1 range
    rw [assign, permutes.moved_setBit small (bit_lt _ _), ih rest,
      List.map_cons, assign, List.length_map]

theorem localIndex_moved (permutes : Permutes n π) {qubits : List Nat}
    (range : ∀ q ∈ qubits, q < n) (i : Nat) :
    localIndex (qubits.map π) (moved n π i) = localIndex qubits i := by
  rw [localIndex, localIndex, List.foldl_map]
  refine List.foldl_ext _ _ _ fun l q mem => ?_
  rw [permutes.bit_moved (range q mem)]

theorem nodup_map (permutes : Permutes n π) {qubits : List Nat} (range : ∀ q ∈ qubits, q < n)
    (distinct : qubits.Nodup) : (qubits.map π).Nodup :=
  distinct.map_on fun p hp q hq same => permutes.injOn (range p hp) (range q hq) same

end Permutes

/-! ### Exchanges -/

theorem permutes_swap {n a b : Nat} (ha : a < n) (hb : b < n) : Permutes n (Equiv.swap a b) := by
  have inside {q : Nat} (lt : q < n) : Equiv.swap a b q < n := by
    rw [Equiv.swap_apply_def]
    split_ifs <;> assumption
  refine (List.perm_ext_iff_of_nodup ?_ List.nodup_range).2 fun q => ?_
  · exact List.nodup_range.map (Equiv.swap a b).injective
  · rw [List.mem_map, List.mem_range]
    constructor
    · rintro ⟨p, listed, rfl⟩
      exact inside (List.mem_range.1 listed)
    · intro lt
      exact ⟨_, List.mem_range.2 (inside lt), Equiv.swap_apply_self a b q⟩

/-- Writing the bits of two qubits in the other order renames the qubits. -/
theorem assign_exchanged {n a b i : Nat} (ha : a < n) (hb : b < n) (lt : i < dimension n) :
    assign [a, b] (2 * bit i b + bit i a) i = unmoved n (Equiv.swap a b) i := by
  have range : ∀ q ∈ [a, b], q < n := by simp [ha, hb]
  refine eq_of_testBit_lt (assign_lt range _ lt) (Permutes.unmoved_lt n _ i) fun q small => ?_
  have exchanged : 2 * bit i b + bit i a = localIndex [b, a] i := by simp [localIndex]
  have high : (localIndex [b, a] i).testBit 1 = i.testBit b :=
    testBit_localIndex i (show 1 < [b, a].length from Nat.one_lt_two)
  have low : (localIndex [b, a] i).testBit 0 = i.testBit a :=
    testBit_localIndex i (show 0 < [b, a].length from Nat.two_pos)
  rw [Permutes.testBit_unmoved small, exchanged, assign, testBit_setBit_bit, assign,
    testBit_setBit_bit]
  by_cases first : q = a
  · rw [if_pos first, first, Equiv.swap_apply_left]
    exact high
  · by_cases second : q = b
    · rw [if_neg first, if_pos second, second, Equiv.swap_apply_right]
      exact low
    · rw [if_neg first, if_neg second, Equiv.swap_apply_of_ne_of_ne first second]
      rfl

end QubitTrace.Basis
