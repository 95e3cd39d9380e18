/-! # Scalars

The numbers a simulation computes with. Every amplitude, angle, tolerance and
observable is generic in a type `K` with the operations of `Scalar`, so the same
definitions run on double-precision numbers and can be read over the reals.

Nothing here assumes that the order is total: a scalar may compare with nothing,
and the derived operations say what happens to it.
-/

namespace QubitTrace
set_option autoImplicit false

/-- Arithmetic, comparison and the elementary functions used by the simulation. -/
class Scalar (K : Type) extends
    Zero K, One K, Add K, Sub K, Mul K, Div K, Neg K, NatCast K, LT K, LE K, BEq K where
  decideLT (x y : K) : Decidable (x < y)
  decideLE (x y : K) : Decidable (x ≤ y)
  /-- The scalar nearest to `m * 10 ^ e`. -/
  ofDecimal (m : Nat) (e : Int) : K
  /-- Half the circumference of the unit circle. -/
  pi : K
  sqrt : K → K
  /-- The length of the vector with the two given components. -/
  hypot : K → K → K
  sin : K → K
  cos : K → K
  /-- The logarithm to base two. -/
  log2 : K → K

namespace Scalar

variable {K : Type} [Scalar K]

instance (x y : K) : Decidable (x < y) := decideLT x y

instance (x y : K) : Decidable (x ≤ y) := decideLE x y

/-- The magnitude of a scalar. -/
def abs (x : K) : K := if x < 0 then -x else x

/-- `x`, but never below `floor`; an `x` that does not compare with `floor` gives `floor`. -/
def atLeast (floor x : K) : K := if floor < x then x else floor

/-- Whether `x` is an ordinary number: only those cancel against themselves. -/
def isFinite (x : K) : Bool := x - x == 0

/-- Half of a scalar. -/
def half (x : K) : K := x / (2 : Nat)

end Scalar

end QubitTrace
