import QubitTrace.State

/-! # Random states

States with components drawn evenly from between minus one and one, then normalized. The
draws are numbered: a state is a function of the sequence of draws, and the draws that give
almost nothing are passed over.
-/

namespace QubitTrace.StateVector
set_option autoImplicit false

variable {K : Type} [Scalar K]

/-- A number from zero up to one, from the upper 53 bits of a 64-bit word. -/
def unitOfWord (word : Nat) : K := ((word >>> 11 : Nat) : K) / ((1 <<< 53 : Nat) : K)

/-- The `j`-th amplitude of a sequence of draws that starts at `first`, before normalization. -/
def drawn (draw : Nat → K) (first j : Nat) : Complex K :=
  let component (k : Nat) : K := (2 : Nat) * draw k - 1
  ⟨component (first + 2 * j), component (first + 2 * j + 1)⟩

/-- The norm below which a draw is repeated. -/
def leastNorm : K := Scalar.ofDecimal 1 (-6)

/--
The normalized state of the first usable draws, `attempts` sequences of which are tried
from the draw `first` on.
-/
def normalizedDraw (n : Nat) (positive : 0 < n) (draw : Nat → K) :
    (attempts first : Nat) → Option (StateVector K)
  | 0, _ => none
  | attempts + 1, first =>
    let amplitudes : Vector (Complex K) (Basis.dimension n) :=
      Vector.ofFn fun j => drawn draw first j
    let norm := Scalar.sqrt (amplitudes.foldl (fun total c => total + c.normSq) 0)
    if leastNorm < norm then some ⟨n, positive, amplitudes.map (·.unscale norm)⟩
    else normalizedDraw n positive draw attempts (first + 2 * Basis.dimension n)

/-- A random state of `n` qubits; none when every attempt was passed over. -/
def random (attempts n : Nat) (draw : Nat → K) :
    Except (StateFault K) (Option (StateVector K)) := do
  let n ← register n
  return normalizedDraw n.val n.positive draw attempts 0

end QubitTrace.StateVector
