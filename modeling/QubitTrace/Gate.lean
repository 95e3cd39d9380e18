import QubitTrace.Decimal.Places

/-! # The gate catalogue

The unitary gates a circuit may use, with the names, symbols and parameters they are
written with. Angles are in radians. A controlled gate lists its control first and acts on
its second qubit as its base gate (`Gate.base?`).
-/

namespace QubitTrace
set_option autoImplicit false

/-- A unitary gate on one or two qubits. -/
inductive Gate (K : Type) where
  /-- The identity. -/
  | id
  /-- The Hadamard gate. -/
  | h
  /-- The Pauli gates. -/
  | x | y | z
  /-- A quarter turn of the phase, and its inverse. -/
  | s | sdg
  /-- An eighth turn of the phase, and its inverse. -/
  | t | tdg
  /-- The square root of `x`, and its inverse. -/
  | sx | sxdg
  /-- Rotations about the three axes. -/
  | rx (θ : K) | ry (θ : K) | rz (θ : K)
  /-- A shift of the phase of the excited state. -/
  | phase (lam : K)
  /-- The generic one-qubit rotation. -/
  | u (θ φ lam : K)
  /-- Controlled Pauli gates. -/
  | cx | cy | cz
  /-- The controlled Hadamard gate. -/
  | ch
  /-- The controlled phase shift. -/
  | cphase (lam : K)
  /-- Controlled rotations. -/
  | crx (θ : K) | cry (θ : K) | crz (θ : K)
  /-- The exchange of two qubits. -/
  | swap
  deriving DecidableEq, Repr

namespace Gate

variable {K : Type}

/-- The gate that a controlled gate applies to its second qubit. -/
def base? : Gate K → Option (Gate K)
  | cx => some x
  | cy => some y
  | cz => some z
  | ch => some h
  | cphase lam => some (phase lam)
  | crx θ => some (rx θ)
  | cry θ => some (ry θ)
  | crz θ => some (rz θ)
  | _ => none

/-- Whether the first listed qubit is a control. -/
def isControlled (g : Gate K) : Bool := g.base?.isSome

/-- The number of qubits the gate acts on. -/
def arity : Gate K → Nat
  | cx | cy | cz | ch | cphase _ | crx _ | cry _ | crz _ | swap => 2
  | _ => 1

/-- The mnemonic of the gate in programs. -/
def name : Gate K → String
  | id => "id"
  | h => "h"
  | x => "x"
  | y => "y"
  | z => "z"
  | s => "s"
  | sdg => "sdg"
  | t => "t"
  | tdg => "tdg"
  | sx => "sx"
  | sxdg => "sxdg"
  | rx _ => "rx"
  | ry _ => "ry"
  | rz _ => "rz"
  | phase _ => "p"
  | u _ _ _ => "u"
  | cx => "cx"
  | cy => "cy"
  | cz => "cz"
  | ch => "ch"
  | cphase _ => "cp"
  | crx _ => "crx"
  | cry _ => "cry"
  | crz _ => "crz"
  | swap => "swap"

/-- The symbol drawn for the gate; for a controlled gate, the one on its second qubit. -/
def symbol : Gate K → String
  | id => "I"
  | h | ch => "H"
  | x | cx => "X"
  | y | cy => "Y"
  | z | cz => "Z"
  | s => "S"
  | sdg => "S†"
  | t => "T"
  | tdg => "T†"
  | sx => "√X"
  | sxdg => "√X†"
  | rx _ | crx _ => "RX"
  | ry _ | cry _ => "RY"
  | rz _ | crz _ => "RZ"
  | phase _ | cphase _ => "P"
  | u _ _ _ => "U"
  | swap => "x"

/-- The angles of the gate, in the order they are written. -/
def params : Gate K → List K
  | rx a | ry a | rz a | phase a | cphase a | crx a | cry a | crz a => [a]
  | u θ φ lam => [θ, φ, lam]
  | _ => []

/-- The mnemonic, with the angles to four places in parentheses if there are any. -/
def text (g : Gate Float) : String :=
  match g.params with
  | [] => g.name
  | angles => g.name ++ "(" ++ String.intercalate "," (angles.map (Decimal.fixed .minus 4)) ++ ")"

end Gate

end QubitTrace
