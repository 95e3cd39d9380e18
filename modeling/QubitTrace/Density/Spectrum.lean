import QubitTrace.Density

/-! # Spectra

The eigenvalues of Hermitian matrices come from a solver that belongs to the scalars, as
does everything that is computed from them only through `Spectral.eigenvalues`.
-/

namespace QubitTrace
set_option autoImplicit false

/--
Scalars with a solver for the eigenvalues of a Hermitian matrix, of which it may read the
lower triangle and the real parts of the diagonal only.
-/
class Spectral (K : Type) where
  eigenvalues {d : Nat} : SquareMatrix K d → List K

end QubitTrace
