import QubitTrace.Scalar

/-! # Complex numbers in Cartesian form

Amplitudes, matrix entries and expectation values. Sums run from zero in list
order, and a product is the plain four-multiplication one, so that results over
rounded scalars do not depend on how a formula is arranged elsewhere.
-/

namespace QubitTrace
set_option autoImplicit false

/-- The complex number `re + im * i`. -/
structure Complex (K : Type) where
  re : K
  im : K
  deriving BEq, Repr

namespace Complex

variable {K : Type} [Scalar K]

instance : Zero (Complex K) := ⟨⟨0, 0⟩⟩

instance : One (Complex K) := ⟨⟨1, 0⟩⟩

instance : Add (Complex K) := ⟨fun z w => ⟨z.re + w.re, z.im + w.im⟩⟩

instance : Sub (Complex K) := ⟨fun z w => ⟨z.re - w.re, z.im - w.im⟩⟩

instance : Mul (Complex K) where
  mul z w := ⟨z.re * w.re - z.im * w.im, z.re * w.im + z.im * w.re⟩

instance : Neg (Complex K) := ⟨fun z => ⟨-z.re, -z.im⟩⟩

/-- A real number as a complex one. -/
def ofReal (x : K) : Complex K := ⟨x, 0⟩

/-- The imaginary unit. -/
def i : Complex K := ⟨0, 1⟩

/-- The point at distance `r` from the origin in direction `θ`. -/
def polar (r θ : K) : Complex K := ⟨r * Scalar.cos θ, r * Scalar.sin θ⟩

def conj (z : Complex K) : Complex K := ⟨z.re, -z.im⟩

/-- The squared modulus. -/
def normSq (z : Complex K) : K := z.re * z.re + z.im * z.im

/-- The modulus. -/
def norm (z : Complex K) : K := Scalar.hypot z.re z.im

/-- Division of both components by a real number. -/
def unscale (z : Complex K) (r : K) : Complex K := ⟨z.re / r, z.im / r⟩

/-- The sum of a list, from the left. -/
def sum (zs : List (Complex K)) : Complex K := zs.foldl (· + ·) 0

end Complex

end QubitTrace
