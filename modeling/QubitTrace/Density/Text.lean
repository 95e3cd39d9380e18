import QubitTrace.Decimal.Places
import QubitTrace.Density

/-! # The text of a density operator

A heading with the size of the register, then a line per row of the matrix.
-/

namespace QubitTrace.DensityOperator
set_option autoImplicit false

/-- An entry, both parts with a sign and to four places. -/
def entryText (z : Complex Float) : String :=
  s!"{Decimal.fixed .always 4 z.re}{Decimal.fixed .always 4 z.im}i"

/-- One row of the matrix, in brackets. -/
def rowText (ρ : DensityOperator Float) (r : Nat) : String :=
  let entries := (List.range ρ.dim).map fun c => entryText (ρ.entry r c)
  "  [" ++ String.intercalate ", " entries ++ "]\n"

/-- The heading, then the rows from the top. -/
def text (ρ : DensityOperator Float) : String :=
  s!"DensityOperator[{Decimal.natText ρ.qubits} qubit(s)]\n"
    ++ String.join ((List.range ρ.dim).map ρ.rowText)

end QubitTrace.DensityOperator
