import Mathlib
import QubitTrace.Basis.Index

/-! # Bits of basis indices, one at a time

Every index the library forms is settled by its bits: an index of `n` qubits has none from
`n` on (`lt_dimension_iff`), and the operations on indices are known bit by bit. Putting a zero
bit in is undone by dropping it, and replacing the bits at some qubits (`assign`) is undone by
reading them off as a local index (`localIndex`).
-/

namespace QubitTrace.Basis
set_option autoImplicit false

theorem dimension_eq (n : Nat) : dimension n = 2 ^ n := by
  rw [dimension, Nat.shiftLeft_eq, Nat.one_mul]

theorem dimension_succ (n : Nat) : dimension (n + 1) = 2 * dimension n := by
  rw [dimension_eq, dimension_eq, Nat.pow_succ']

theorem dimension_pos (n : Nat) : 0 < dimension n := by
  rw [dimension_eq]
  exact Nat.two_pow_pos n

theorem dimension_mul_sub {k n : Nat} (le : k ≤ n) :
    dimension (n - k) * dimension k = dimension n := by
  rw [dimension_eq, dimension_eq, dimension_eq, ← pow_add, Nat.sub_add_cancel le]

theorem dimension_div {k n : Nat} (le : k ≤ n) : dimension n / dimension k = dimension (n - k) := by
  rw [← dimension_mul_sub le, Nat.mul_div_cancel _ (dimension_pos k)]

/-- An index belongs to `n` qubits when no bit from `n` on is set. -/
theorem lt_dimension_iff {i n : Nat} : i < dimension n ↔ ∀ q, n ≤ q → i.testBit q = false := by
  rw [dimension_eq]
  constructor
  · intro lt q le
    exact Nat.testBit_lt_two_pow (lt_of_lt_of_le lt (Nat.pow_le_pow_right (by decide) le))
  · exact Nat.lt_pow_two_of_testBit i

theorem testBit_of_lt_dimension {i n q : Nat} (lt : i < dimension n) (le : n ≤ q) :
    i.testBit q = false :=
  lt_dimension_iff.1 lt q le

/-- Indices of `n` qubits with the same bits below `n` are equal. -/
theorem eq_of_testBit_lt {i j n : Nat} (hi : i < dimension n) (hj : j < dimension n)
    (same : ∀ q, q < n → i.testBit q = j.testBit q) : i = j := by
  refine Nat.eq_of_testBit_eq fun q => ?_
  by_cases lt : q < n
  · exact same q lt
  · rw [testBit_of_lt_dimension hi (by omega), testBit_of_lt_dimension hj (by omega)]

theorem bit_eq_toNat (i k : Nat) : bit i k = (i.testBit k).toNat := by
  rw [bit, Nat.toNat_testBit, Nat.shiftRight_eq_div_pow]

theorem bit_eq_bit_iff {i j k l : Nat} : bit i k = bit j l ↔ i.testBit k = j.testBit l := by
  rw [bit_eq_toNat, bit_eq_toNat]
  cases i.testBit k <;> cases j.testBit l <;> decide

theorem shiftRight_mod_beq_one (i k : Nat) : (i >>> k % 2 == 1) = i.testBit k := by
  rw [Nat.testBit_eq_decide_div_mod_eq, ← Nat.shiftRight_eq_div_pow]
  rfl

theorem bit_lt (i k : Nat) : bit i k < 2 := Nat.mod_lt _ (by decide)

theorem testBit_one_shiftLeft (k q : Nat) : (1 <<< k).testBit q = decide (q = k) := by
  rw [Nat.shiftLeft_eq, Nat.one_mul, Nat.testBit_two_pow, decide_eq_decide]
  exact eq_comm

theorem testBit_mod_one_shiftLeft (i k q : Nat) :
    (i % 1 <<< k).testBit q = (decide (q < k) && i.testBit q) := by
  rw [Nat.shiftLeft_eq, Nat.one_mul, Nat.testBit_mod_two_pow]

/-! ## Putting a bit in, taking one out -/

/-- Below the new bit an index keeps its bits, above it they have moved up by one. -/
theorem testBit_insertZeroBit (i k q : Nat) :
    (insertZeroBit i k).testBit q =
      if q < k then i.testBit q else if q = k then false else i.testBit (q - 1) := by
  simp only [insertZeroBit, Nat.testBit_or, Nat.testBit_shiftLeft, Nat.testBit_shiftRight,
    testBit_mod_one_shiftLeft]
  by_cases below : q < k
  · simp [below, show ¬k + 1 ≤ q by omega]
  · by_cases here : q = k
    · simp [here]
    · simp [below, here, show k + 1 ≤ q by omega, show k + (q - (k + 1)) = q - 1 by omega]

/-- The index without the bit at `k`; higher bits move down. -/
def dropBit (i k : Nat) : Nat := (i >>> (k + 1)) <<< k ||| i % 1 <<< k

theorem testBit_dropBit (i k q : Nat) :
    (dropBit i k).testBit q = if q < k then i.testBit q else i.testBit (q + 1) := by
  simp only [dropBit, Nat.testBit_or, Nat.testBit_shiftLeft, Nat.testBit_shiftRight,
    testBit_mod_one_shiftLeft]
  by_cases below : q < k
  · simp [below, show ¬k ≤ q by omega]
  · simp [below, show k ≤ q by omega, show k + 1 + (q - k) = q + 1 by omega]

theorem insertZeroBit_lt {i n k : Nat} (hi : i < dimension n) (hk : k ≤ n) :
    insertZeroBit i k < dimension (n + 1) := by
  refine lt_dimension_iff.2 fun q le => ?_
  rw [testBit_insertZeroBit, if_neg (by omega), if_neg (by omega)]
  exact testBit_of_lt_dimension hi (by omega)

theorem dropBit_lt {i n k : Nat} (hi : i < dimension (n + 1)) (hk : k ≤ n) :
    dropBit i k < dimension n := by
  refine lt_dimension_iff.2 fun q le => ?_
  rw [testBit_dropBit, if_neg (by omega)]
  exact testBit_of_lt_dimension hi (by omega)

/-! ## Replacing bits -/

/-- The index with `b` at bit `q`. -/
def setBit (i q b : Nat) : Nat := (i >>> (q + 1)) <<< (q + 1) ||| b <<< q ||| i % 1 <<< q

theorem toNat_decide_eq_one {b : Nat} (hb : b < 2) : (decide (b = 1)).toNat = b := by
  obtain rfl | rfl : b = 0 ∨ b = 1 := by omega
  all_goals rfl

theorem testBit_setBit {b : Nat} (hb : b < 2) (i q r : Nat) :
    (setBit i q b).testBit r = if r = q then decide (b = 1) else i.testBit r := by
  have digit : b = (decide (b = 1)).toNat := (toNat_decide_eq_one hb).symm
  generalize decide (b = 1) = d at digit
  subst digit
  simp only [setBit, Nat.testBit_or, Nat.testBit_shiftLeft, Nat.testBit_shiftRight,
    testBit_mod_one_shiftLeft, Nat.testBit_bool_toNat]
  rcases Nat.lt_trichotomy r q with below | here | above
  · simp [below, show r ≠ q by omega, show ¬q ≤ r by omega, show ¬q + 1 ≤ r by omega]
  · simp [here]
  · simp [show ¬r < q by omega, show r ≠ q by omega, show q ≤ r by omega, show q + 1 ≤ r by omega,
      show r - q ≠ 0 by omega, show q + 1 + (r - (q + 1)) = r by omega]

theorem testBit_setBit_bit (i q l k r : Nat) :
    (setBit i q (bit l k)).testBit r = if r = q then l.testBit k else i.testBit r := by
  rw [testBit_setBit (bit_lt l k), bit_eq_toNat]
  cases l.testBit k <;> rfl

theorem bit_setBit {b : Nat} (hb : b < 2) (i q r : Nat) :
    bit (setBit i q b) r = if r = q then b else bit i r := by
  rw [bit_eq_toNat, testBit_setBit hb, bit_eq_toNat]
  split_ifs
  · exact toNat_decide_eq_one hb
  · rfl

theorem setBit_lt {i n q b : Nat} (hi : i < dimension n) (hq : q < n) (hb : b < 2) :
    setBit i q b < dimension n := by
  refine lt_dimension_iff.2 fun r le => ?_
  rw [testBit_setBit hb, if_neg (by omega), testBit_of_lt_dimension hi le]

/-- A bit that is clear stays so. -/
theorem setBit_zero {i q : Nat} (clear : i.testBit q = false) : setBit i q 0 = i := by
  refine Nat.eq_of_testBit_eq fun r => ?_
  rw [testBit_setBit (by decide)]
  split_ifs with here
  · rw [here, clear]
    rfl
  · rfl

theorem or_one_shiftLeft (i q : Nat) : i ||| 1 <<< q = setBit i q 1 := by
  refine Nat.eq_of_testBit_eq fun r => ?_
  rw [testBit_setBit (by decide), Nat.testBit_or, testBit_one_shiftLeft]
  split_ifs with here <;> simp [here]

theorem setBit_comm {p q : Nat} (ne : p ≠ q) {a b : Nat} (ha : a < 2) (hb : b < 2) (i : Nat) :
    setBit (setBit i p a) q b = setBit (setBit i q b) p a := by
  refine Nat.eq_of_testBit_eq fun r => ?_
  rw [testBit_setBit hb, testBit_setBit ha, testBit_setBit ha, testBit_setBit hb]
  by_cases first : r = p
  · rw [if_pos first, if_pos first, if_neg (first ▸ ne)]
  · rw [if_neg first, if_neg first]

theorem insertZeroBit_dropBit (i k : Nat) : insertZeroBit (dropBit i k) k = setBit i k 0 := by
  refine Nat.eq_of_testBit_eq fun q => ?_
  rw [testBit_insertZeroBit, testBit_setBit (by decide), testBit_dropBit, testBit_dropBit]
  rcases Nat.lt_trichotomy q k with below | here | above
  · rw [if_pos below, if_pos below, if_neg (by omega)]
  · simp [here]
  · rw [if_neg (by omega), if_neg (by omega), if_neg (by omega), if_neg (by omega),
      Nat.sub_add_cancel (by omega)]

/-- A bit below the place of a new one can be set before or after it is put in. -/
theorem insertZeroBit_setBit {q k b : Nat} (lt : q < k) (hb : b < 2) (i : Nat) :
    insertZeroBit (setBit i q b) k = setBit (insertZeroBit i k) q b := by
  refine Nat.eq_of_testBit_eq fun r => ?_
  rw [testBit_insertZeroBit, testBit_setBit hb, testBit_setBit hb, testBit_setBit hb,
    testBit_insertZeroBit]
  by_cases here : r = q
  · rw [if_pos (by omega), if_pos here, if_pos here]
  · rw [if_neg here, if_neg here]
    split_ifs
    · rfl
    · rfl
    · omega
    · rfl

/--
The index with its bits at the listed qubits replaced by those of a local index, whose
highest bit is that of the first listed qubit.
-/
def assign : (qubits : List Nat) → (l i : Nat) → Nat
  | [], _, i => i
  | q :: qubits, l, i => setBit (assign qubits l i) q (bit l qubits.length)

/-- The local index of a gate on the listed qubits, the first as the highest bit. -/
def localIndex (qubits : List Nat) (i : Nat) : Nat := qubits.foldl (fun l q => 2 * l + bit i q) 0

theorem testBit_assign_of_not_mem {qubits : List Nat} {q : Nat} (free : q ∉ qubits) (l i : Nat) :
    (assign qubits l i).testBit q = i.testBit q := by
  induction qubits with
  | nil => rfl
  | cons p qubits ih =>
    rw [List.mem_cons, not_or] at free
    rw [assign, testBit_setBit_bit, if_neg free.1, ih free.2]

/-- The bits at the listed qubits are those of the local index, counted from the last qubit. -/
theorem testBit_assign_getElem {qubits : List Nat} (distinct : qubits.Nodup) (l i : Nat) {j : Nat}
    (lt : j < qubits.length) :
    (assign qubits l i).testBit qubits[j] = l.testBit (qubits.length - 1 - j) := by
  induction qubits generalizing j with
  | nil => exact absurd lt (Nat.not_lt_zero j)
  | cons p qubits ih =>
    have unique := List.nodup_cons.1 distinct
    cases j with
    | zero => simp [assign, testBit_setBit_bit]
    | succ j =>
      have tail : j < qubits.length := by simpa using lt
      have ne : qubits[j] ≠ p := fun e => unique.1 (e ▸ List.getElem_mem tail)
      rw [List.getElem_cons_succ, assign, testBit_setBit_bit, if_neg ne, ih unique.2 tail]
      congr 1
      simp only [List.length_cons]
      omega

theorem assign_lt {qubits : List Nat} {n i : Nat} (range : ∀ q ∈ qubits, q < n) (l : Nat)
    (hi : i < dimension n) : assign qubits l i < dimension n := by
  refine lt_dimension_iff.2 fun q le => ?_
  have free : q ∉ qubits := fun mem => by
    have := range q mem
    omega
  rw [testBit_assign_of_not_mem free, testBit_of_lt_dimension hi le]

theorem localIndex_snoc (qubits : List Nat) (q i : Nat) :
    localIndex (qubits ++ [q]) i = 2 * localIndex qubits i + bit i q := by
  simp [localIndex, List.foldl_append]

theorem testBit_localIndex {qubits : List Nat} (i : Nat) {j : Nat} (lt : j < qubits.length) :
    (localIndex qubits i).testBit j = i.testBit qubits[qubits.length - 1 - j] := by
  induction qubits using List.reverseRecOn generalizing j with
  | nil => exact absurd lt (Nat.not_lt_zero j)
  | append_singleton qubits q ih =>
    rw [localIndex_snoc, bit_eq_toNat]
    cases j with
    | zero => cases set : i.testBit q <;> simp [set, Nat.add_mod]
    | succ j =>
      have tail : j < qubits.length := by simpa using lt
      have half : (2 * localIndex qubits i + (i.testBit q).toNat) / 2 = localIndex qubits i := by
        have := Bool.toNat_lt (i.testBit q)
        omega
      rw [Nat.testBit_succ, half, ih tail, List.getElem_append_left (by simp; omega)]
      congr 2
      simp
      omega

theorem localIndex_lt (qubits : List Nat) (i : Nat) :
    localIndex qubits i < dimension qubits.length := by
  induction qubits using List.reverseRecOn with
  | nil => exact dimension_pos 0
  | append_singleton qubits q ih =>
    have := bit_lt i q
    rw [localIndex_snoc, List.length_append, List.length_singleton, dimension_succ]
    omega

theorem localIndex_assign {qubits : List Nat} (distinct : qubits.Nodup) {l : Nat} (i : Nat)
    (hl : l < dimension qubits.length) : localIndex qubits (assign qubits l i) = l := by
  refine eq_of_testBit_lt (localIndex_lt _ _) hl fun j lt => ?_
  rw [testBit_localIndex _ lt, testBit_assign_getElem distinct _ _ (by omega)]
  congr 1
  omega

theorem assign_localIndex {qubits : List Nat} (distinct : qubits.Nodup) (i : Nat) :
    assign qubits (localIndex qubits i) i = i := by
  refine Nat.eq_of_testBit_eq fun q => ?_
  by_cases mem : q ∈ qubits
  · obtain ⟨j, lt, rfl⟩ := List.getElem_of_mem mem
    rw [testBit_assign_getElem distinct _ _ lt, testBit_localIndex _ (by omega)]
    congr 2
    omega
  · exact testBit_assign_of_not_mem mem _ _

/-- Of two replacements at the same qubits the later one counts. -/
theorem assign_assign {qubits : List Nat} (distinct : qubits.Nodup) (k l i : Nat) :
    assign qubits k (assign qubits l i) = assign qubits k i := by
  refine Nat.eq_of_testBit_eq fun q => ?_
  by_cases mem : q ∈ qubits
  · obtain ⟨j, lt, rfl⟩ := List.getElem_of_mem mem
    rw [testBit_assign_getElem distinct _ _ lt, testBit_assign_getElem distinct _ _ lt]
  · rw [testBit_assign_of_not_mem mem, testBit_assign_of_not_mem mem,
      testBit_assign_of_not_mem mem]

end QubitTrace.Basis
