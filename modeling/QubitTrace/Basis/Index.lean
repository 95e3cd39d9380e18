/-! # Bits of basis indices

How the indices of a register are put together from the bits of some of its qubits and
those of the others.
-/

namespace QubitTrace.Basis
set_option autoImplicit false

/-- The number of basis states of `n` qubits. -/
def dimension (n : Nat) : Nat := 1 <<< n

/-- A dimension from two on belongs to at least one qubit. -/
theorem log2_pos_of_dimension {d : Nat} (two : 2 ≤ d) (power : dimension (Nat.log2 d) = d) :
    0 < Nat.log2 d := by
  rcases Nat.eq_zero_or_pos (Nat.log2 d) with none | some
  · rw [none] at power
    have one : d = 1 := power.symm
    omega
  · exact some

/-- Bit `k` of an index, as a number. -/
def bit (i k : Nat) : Nat := i >>> k % 2

/-- The index with a zero put in at bit `k`; higher bits move up. -/
def insertZeroBit (i k : Nat) : Nat := (i >>> k) <<< (k + 1) ||| i % 1 <<< k

/-- The index whose bit at the `j`-th position is bit `j` of `value`. -/
def scatter (value : Nat) (positions : List Nat) : Nat :=
  (positions.zipIdx.filter fun p => value >>> p.2 % 2 == 1).foldl
    (fun index p => index ||| 1 <<< p.1) 0

end QubitTrace.Basis
