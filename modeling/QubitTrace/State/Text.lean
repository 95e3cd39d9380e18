import QubitTrace.Decimal.Shortest
import QubitTrace.State

/-! # State vectors in writing

The text of a state lists its amplitudes to eight places and the dimensions of its qubits.
-/

namespace QubitTrace
set_option autoImplicit false

namespace Complex

/-- A component without the noise below `10 ^ -12`. -/
def clean (x : Float) : Float := if Scalar.abs x < 1e-12 then 0 else x

/-- An amplitude to eight places. -/
def amplitudeText (z : Complex Float) : String :=
  let re := clean z.re
  let im := clean z.im
  let sign := if im < 0 then "-" else "+"
  s!"{Decimal.fixed .minus 8 re}{sign}{Decimal.fixed .minus 8 im.abs}j"

end Complex

namespace StateVector

def text (ψ : StateVector Float) : String :=
  let amplitudes := String.intercalate ", " (ψ.amplitudes.toList.map Complex.amplitudeText)
  let dims := if ψ.qubits = 1 then "2," else String.intercalate ", " (List.replicate ψ.qubits "2")
  s!"Statevector([{amplitudes}], dims=({dims}))"

end StateVector

namespace StateFault
open Decimal (natText shortest)

def message : StateFault Float → String
  | noQubits => "qubit count must be at least 1"
  | overflow n => s!"{natText n} qubits overflow the state vector dimension"
  | basisOutOfRange i n => s!"basis index {natText i} out of range for {natText n} qubits"
  | length d => s!"state vector length {natText d} is not a power of two >= 2"
  | notNormalized normSq tolerance =>
    s!"state vector is not normalized: sum(|c_i|^2) = {shortest normSq} " ++
      s!"(deviation > {shortest tolerance})"

end StateFault

end QubitTrace
