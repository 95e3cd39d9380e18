import QubitTrace.Basis.Index

/-! # Basis indices in machine words

The indices a gate goes through, as a machine with words of 64 bits forms them: by masks, and
by shifts that drop what leaves the word at the top.
-/

namespace QubitTrace.Basis.Word
set_option autoImplicit false

/-- The word with bit `k` set and no other. -/
def mask (k : Nat) : BitVec 64 := 1#64 <<< k

/-- The word with all bits below `k` set and no other. -/
def below (k : Nat) : BitVec 64 := mask k - 1#64

/-- The bits of an index from `k` on, moved up by one. -/
def raised (i : BitVec 64) (k : Nat) : BitVec 64 := (i &&& ~~~below k) <<< 1

/-- The index with a zero put in at bit `k`; higher bits move up. -/
def insertZeroBit (i : BitVec 64) (k : Nat) : BitVec 64 := raised i k ||| (i &&& below k)

/-- The indices that differ in bit `target` only, for one setting of the other bits. -/
def pair (target : Nat) (i : BitVec 64) : List (BitVec 64) :=
  let i₀ := insertZeroBit i target
  [i₀, i₀ ||| mask target]

/-- The indices that differ in bits `first` and `second` only, in the order of the local basis. -/
def group (first second : Nat) (i : BitVec 64) : List (BitVec 64) :=
  let base := insertZeroBit (insertZeroBit i (min first second)) (max first second)
  [base, base ||| mask second, base ||| mask first, base ||| mask first ||| mask second]

end QubitTrace.Basis.Word
