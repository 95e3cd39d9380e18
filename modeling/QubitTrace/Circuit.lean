import QubitTrace.Operation

/-! # Circuits

An ordered list of operations over a register of qubits. Operations enter a circuit
through `Circuit.attempt`, which takes those that fit the register (`Operation.fault?`) and
leaves the circuit as it is for any other.
-/

namespace QubitTrace
set_option autoImplicit false

/-- Why an operation or a register makes no circuit. -/
inductive CircuitFault (K : Type) where
  /-- The register has no qubits. -/
  | emptyRegister
  | outOfRange (qubit size : Nat) (op : Operation K)
  | arity (gate : Gate K) (given : Nat)
  | repeatedQubit (gate : Gate K) (qubits : List Nat)

namespace CircuitFault

/-- A list of numbers in brackets. -/
def listText (ns : List Nat) : String :=
  "[" ++ String.intercalate ", " (ns.map Decimal.natText) ++ "]"

def message : CircuitFault Float → String
  | emptyRegister => "circuit must act on at least one qubit"
  | outOfRange q n op =>
    s!"qubit index {Decimal.natText q} out of range for {Decimal.natText n} qubits in '{op.text}'"
  | arity gate given =>
    s!"gate '{gate.name}' acts on {Decimal.natText gate.arity} qubit(s) but " ++
      s!"{Decimal.natText given} were given"
  | repeatedQubit gate qubits => s!"gate '{gate.name}' repeats a qubit in {listText qubits}"

end CircuitFault

/-- What keeps an operation out of a register of `n` qubits, if anything. -/
def Operation.fault? {K : Type} (n : Nat) (op : Operation K) : Option (CircuitFault K) :=
  match op.qubits.find? (n ≤ ·) with
  | some q => some (.outOfRange q n op)
  | none =>
    match op with
    | .gate g qubits =>
      if qubits.length ≠ g.arity then some (.arity g qubits.length)
      else if ¬ qubits.Nodup then some (.repeatedQubit g qubits)
      else none
    | .measure _ _ | .barrier _ => none

/-- A list of operations over `qubits` qubits. -/
structure Circuit (K : Type) where
  qubits : Nat
  operations : List (Operation K)

namespace Circuit

variable {K : Type}

/-- The circuit over `n` qubits that does nothing. -/
def empty (n : Nat) : Circuit K := ⟨n, []⟩

/-- Appends an operation if it fits the register: the circuit reached, and what was wrong. -/
def attempt (c : Circuit K) (op : Operation K) : Circuit K × Option (CircuitFault K) :=
  match op.fault? c.qubits with
  | some fault => (c, some fault)
  | none => ({ c with operations := c.operations ++ [op] }, none)

/-- Appends an operation that must fit the register. -/
def add (c : Circuit K) (op : Operation K) : Except (CircuitFault K) (Circuit K) :=
  match c.attempt op with
  | (c, none) => .ok c
  | (_, some fault) => .error fault

/--
Appends operations up to the first that does not fit: the circuit reached, and what
stopped it.
-/
def extend (c : Circuit K) : List (Operation K) → Circuit K × Option (CircuitFault K)
  | [] => (c, none)
  | op :: ops =>
    match c.attempt op with
    | (c, none) => extend c ops
    | (c, some fault) => (c, some fault)

/-- Appends operations that must all fit the register. -/
def addAll (c : Circuit K) (ops : List (Operation K)) : Except (CircuitFault K) (Circuit K) :=
  match c.extend ops with
  | (c, none) => .ok c
  | (_, some fault) => .error fault

/-- The circuit of the given operations over at least one qubit. -/
def build (n : Nat) (ops : List (Operation K)) : Except (CircuitFault K) (Circuit K) :=
  if n = 0 then .error .emptyRegister else (empty n).addAll ops

/-- Checks the register and every operation again. -/
def validate (c : Circuit K) : Except (CircuitFault K) Unit :=
  if c.qubits = 0 then .error .emptyRegister
  else
    match c.operations.findSome? (Operation.fault? c.qubits) with
    | some fault => .error fault
    | none => .ok ()

/-- The number of operations that change a state. -/
def gateCount (c : Circuit K) : Nat := c.operations.countP Operation.isUnitary

end Circuit

end QubitTrace
