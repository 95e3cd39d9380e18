import QubitTrace.Circuit.Words
import QubitTrace.Program.GateTable
import QubitTrace.Program.Parentheses
import QubitTrace.Program.Register
import QubitTrace.Program.Statement

/-! # Programs as circuits

Reads a program in a subset of OpenQASM 2.0: register declarations, gates of the
catalogue, measurements and barriers. A gate or measurement on whole registers is spread
over their elements. `Program.parse` runs the statements in order and builds the circuit
over all declared qubits.
-/

namespace QubitTrace
set_option autoImplicit false

/-- Why a program makes no circuit. -/
inductive ProgramFault (K : Type) where
  /-- The statement that starts on `line` is refused. -/
  | statement (line : Nat) (fault : Program.StatementFault)
  | noQubits
  | qubitCount (declared requested : Nat)
  | circuit (fault : CircuitFault K)

namespace ProgramFault
open Decimal (natText)

def message : ProgramFault Float → String
  | statement line fault => s!"line {natText line}: {fault.message}"
  | noQubits => "no quantum register declared"
  | qubitCount declared requested =>
    s!"program declares {natText declared} qubit(s) but {natText requested} were requested"
  | circuit fault => fault.message

end ProgramFault

/-- What a program has declared and applied so far. -/
structure Program (K : Type) where
  quantum : List Program.Register
  classical : List Program.Register
  operations : List (Operation K)

namespace Program

variable {K : Type}

/-- How a program is read. -/
structure Rules where
  mode : ParseMode
  /-- The most qubits a program may declare, if there is a limit. -/
  maxQubits : Option Nat

def empty : Program K := ⟨[], [], []⟩

/-- Declares a quantum register. -/
def declareQuantum (rules : Rules) (p : Program K) (operand : Text) :
    Except StatementFault (Program K) := do
  let r ← Register.declare (p.quantum ++ p.classical) (Register.total p.quantum) operand
  match rules.maxQubits with
  | some max =>
    if max < r.stop then .error (.tooManyQubits r.name r.stop max)
    else .ok { p with quantum := p.quantum ++ [r] }
  | none => .ok { p with quantum := p.quantum ++ [r] }

/-- Declares a classical register. -/
def declareClassical (p : Program K) (operand : Text) : Except StatementFault (Program K) := do
  let r ← Register.declare (p.quantum ++ p.classical) (Register.total p.classical) operand
  return { p with classical := p.classical ++ [r] }

/-- Appends operations. -/
def append (p : Program K) (ops : List (Operation K)) : Program K :=
  { p with operations := p.operations ++ ops }

/-- The quantum operands of a list separated by commas. -/
def qubitOperands (p : Program K) (list : Text) : Except StatementFault (List Span) :=
  (splitTopLevel ',' list).mapM fun operand =>
    Register.resolve .quantum p.quantum (Text.trim operand)

/-- A measurement `source -> target`, bit by bit. -/
def measure (p : Program K) (operands : Text) : Except StatementFault (Program K) :=
  match Text.cut? ['-', '>'] operands with
  | none => .error .measureForm
  | some (source, target) => do
    let qubits ← Register.resolve .quantum p.quantum (Text.trim source)
    let clbits ← Register.resolve .classical p.classical (Text.trim target)
    if qubits.length ≠ clbits.length then
      .error (.measureWidths qubits.length clbits.length)
    else .ok (p.append (List.zipWith .measure qubits.toList clbits.toList))

/-- A barrier across all listed operands. -/
def barrier (p : Program K) (operands : Text) : Except StatementFault (Program K) := do
  let spans ← p.qubitOperands operands
  return p.append [.barrier (spans.flatMap Span.toList)]

/-- The largest width of a gate's operands; a gate without operands is one wide. -/
def width (spans : List Span) : Nat := ((spans.map Span.length).max?).getD 1

/-- A gate spread over its operands: single qubits repeat along whole registers. -/
def spread (g : Gate K) (spans : List Span) : List (Operation K) :=
  (List.range (width spans)).map fun i => .gate g (spans.map (·.spread i))

/-- The parts of a gate statement: its name, the texts of its angles, and its operands. -/
def splitApplication (statement : Text) :
    Except StatementFault (Text × List Text × Text) :=
  let isNameChar (c : Char) : Bool := c.isAlphanum || c == '_'
  let name := statement.takeWhile isNameChar
  let rest := Text.trimLeft (statement.dropWhile isNameChar)
  if name.isEmpty then .error (.unreadable statement)
  else
    match rest with
    | '(' :: inner =>
      match closing? inner with
      | none => .error (.unbalanced statement)
      | some i =>
        .ok (name, splitTopLevel ',' (inner.take i), Text.trimLeft (inner.drop (i + 1)))
    | _ => .ok (name, [], rest)

variable [Scalar K]

/-- The gate of a name and its angles; `none` when the name is unknown. -/
def findGate (name : Text) (angles : List K) : Except StatementFault (Option (Gate K)) :=
  match Template.ofName? (String.ofList name) with
  | none => .ok none
  | some template =>
    match template.withAngles? angles with
    | some g => .ok (some g)
    | none => .error (.parameterCount name template.parameters angles.length)

/-- Applies a gate to operands written as a list. -/
def applyGate (p : Program K) (statement name : Text) (g : Gate K) (operands : Text) :
    Except StatementFault (Program K) := do
  let spans ← p.qubitOperands operands
  if spans.length ≠ g.arity then .error (.operandCount name g.arity spans.length)
  else if spans.any fun s => s.length != 1 && s.length != width spans then
    .error (.widths statement)
  else .ok (p.append (spread g spans))

/-- A gate statement. -/
def application (rules : Rules) (p : Program K) (statement : Text) :
    Except StatementFault (Program K) := do
  let (name, angles, operands) ← splitApplication statement
  let angles ← angles.mapM fun a => (Angle.evaluate a : Except AngleFault K).mapError .angle
  match ← findGate name angles with
  | some g => p.applyGate statement name g operands
  | none =>
    match rules.mode with
    | .strict => .error (.unknownGate name)
    | .permissive => .ok p

/-- The first word of a statement and the rest, from the white space on. -/
def splitKeyword (statement : Text) : Text × Text :=
  (statement.takeWhile fun c => !Text.isBlank c, statement.dropWhile fun c => !Text.isBlank c)

/-- Runs one statement. -/
def step (rules : Rules) (p : Program K) (statement : Text) :
    Except StatementFault (Program K) :=
  let (keyword, rest) := splitKeyword statement
  match String.ofList keyword with
  | "OPENQASM" =>
    if (Text.trim rest).head? = some '2' then .ok p else .error (.version (Text.trim rest))
  | "include" =>
    let file := Text.strip '"' (Text.trim rest)
    if file = "qelib1.inc".toList then .ok p else .error (.missingFile file)
  | "qreg" => p.declareQuantum rules (Text.trim rest)
  | "creg" => p.declareClassical (Text.trim rest)
  | "measure" => p.measure rest
  | "barrier" => p.barrier rest
  | "gate" | "opaque" | "if" | "reset" => .error (.unsupported keyword)
  | _ => p.application rules statement

/-- Runs statements in order. -/
def run (rules : Rules) : Program K → List Statement → Except (ProgramFault K) (Program K)
  | p, [] => .ok p
  | p, s :: rest =>
    match p.step rules s.text with
    | .ok p => run rules p rest
    | .error fault => .error (.statement s.line fault)

/-- The circuit of a program that has run to its end. -/
def finish (p : Program K) (expected : Option Nat) : Except (ProgramFault K) (Circuit K) :=
  let n := Register.total p.quantum
  if n = 0 then .error .noQubits
  else
    match expected.filter (· ≠ n) with
    | some requested => .error (.qubitCount n requested)
    | none => ((Circuit.empty n).addAll p.operations).mapError .circuit

/--
The circuit that a program describes. When `expected` is given it must be the number of
declared qubits.
-/
def parse (rules : Rules) (expected : Option Nat) (source : Text) :
    Except (ProgramFault K) (Circuit K) := do
  let p ← run rules empty (statements source)
  p.finish expected

end Program

end QubitTrace
