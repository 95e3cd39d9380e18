import QubitTrace.Gate

/-! # Operations

One step of a circuit: a gate on listed qubits, a measurement, or a barrier. Only gates
change a state; the other two are carried along as part of the description.
-/

namespace QubitTrace
set_option autoImplicit false

/-- One step of a circuit. -/
inductive Operation (K : Type) where
  /-- A gate on `qubits`, in the gate's local order. -/
  | gate (gate : Gate K) (qubits : List Nat)
  /-- A measurement of `qubit` into the classical bit `clbit`. -/
  | measure (qubit clbit : Nat)
  /-- A scheduling barrier across `qubits`. -/
  | barrier (qubits : List Nat)
  deriving DecidableEq, Repr

namespace Operation

variable {K : Type}

/-- Every qubit the operation names. -/
def qubits : Operation K → List Nat
  | gate _ qubits => qubits
  | measure qubit _ => [qubit]
  | barrier qubits => qubits

/-- Whether the operation changes a state. -/
def isUnitary : Operation K → Bool
  | gate _ _ => true
  | measure _ _ | barrier _ => false

/-- A list of operands, as written after a mnemonic. -/
def operands (qubits : List Nat) : String :=
  String.intercalate "," (qubits.map fun q => s!"q[{Decimal.natText q}]")

/-- The operation as a program statement, without the semicolon. -/
def text : Operation Float → String
  | gate g qubits => s!"{g.text} {operands qubits}"
  | measure qubit clbit => s!"measure q[{Decimal.natText qubit}] -> c[{Decimal.natText clbit}]"
  | barrier qubits => s!"barrier {operands qubits}"

end Operation

end QubitTrace
