import QubitTrace.Decimal.Literal
import QubitTrace.Angle
import QubitTrace.Text.Cut

/-! # Registers and operands

The registers a program declares lie one after another in a flat range of indices. An
operand names a register, or one element of it, and stands for a span of flat indices
(`Register.resolve`).
-/

namespace QubitTrace.Program
set_option autoImplicit false

/-- The two kinds of registers. -/
inductive RegisterKind where
  | quantum
  | classical
  deriving DecidableEq, Repr

/-- The keyword that declares a register. -/
def RegisterKind.keyword : RegisterKind → String
  | .quantum => "qreg"
  | .classical => "creg"

/-- Why a statement is refused. -/
inductive StatementFault where
  | version (text : Text)
  | missingFile (file : Text)
  /-- A statement form outside the subset. -/
  | unsupported (keyword : Text)
  | unreadable (statement : Text)
  | unbalanced (statement : Text)
  | angle (fault : AngleFault)
  | unknownGate (name : Text)
  | parameterCount (name : Text) (expected given : Nat)
  | operandCount (name : Text) (expected given : Nat)
  /-- Whole registers of different sizes under one gate. -/
  | widths (statement : Text)
  | measureForm
  | measureWidths (qubits clbits : Nat)
  | missingBracket (operand : Text)
  | badIndex (index operand : Text)
  | badName (name : Text)
  | undeclared (kind : RegisterKind) (name : Text)
  | indexOutOfRange (index : Nat) (kind : RegisterKind) (name : Text) (size : Nat)
  | missingSize (name : Text)
  | emptyRegister (name : Text)
  | declaredTwice (name : Text)
  | sizeOverflow (name : Text) (size : Nat)
  | tooManyQubits (name : Text) (total max : Nat)
  deriving DecidableEq, Repr

namespace StatementFault
open Decimal (natText)

def message : StatementFault → String
  | version text => s!"unsupported OpenQASM version '{String.ofList text}'"
  | missingFile file => s!"include of '{String.ofList file}' is not supported"
  | unsupported keyword => s!"'{String.ofList keyword}' statements are not supported"
  | unreadable statement => s!"cannot parse statement '{String.ofList statement}'"
  | unbalanced statement => s!"unbalanced parentheses in '{String.ofList statement}'"
  | angle fault => fault.message
  | unknownGate name => s!"unrecognized gate '{String.ofList name}'"
  | parameterCount name expected given =>
    s!"gate '{String.ofList name}' takes {natText expected} parameter(s), got {natText given}"
  | operandCount name expected given =>
    s!"gate '{String.ofList name}' expects {natText expected} operand(s), got {natText given}"
  | widths statement => s!"register sizes do not match in '{String.ofList statement}'"
  | measureForm => "measure needs the form 'measure q -> c'"
  | measureWidths qubits clbits =>
    s!"measure maps {natText qubits} qubit(s) onto {natText clbits} classical bit(s)"
  | missingBracket operand => s!"missing ']' in '{String.ofList operand}'"
  | badIndex index operand => s!"bad index '{String.ofList index}' in '{String.ofList operand}'"
  | badName name => s!"invalid identifier '{String.ofList name}'"
  | undeclared kind name => s!"{kind.keyword} '{String.ofList name}' is not declared"
  | indexOutOfRange index kind name size =>
    s!"index {natText index} out of range for {kind.keyword} '{String.ofList name}' " ++
      s!"of size {natText size}"
  | missingSize name => s!"register '{String.ofList name}' needs a size"
  | emptyRegister name => s!"register '{String.ofList name}' must have at least one bit"
  | declaredTwice name => s!"register '{String.ofList name}' declared twice"
  | sizeOverflow name size =>
    s!"register '{String.ofList name}' of size {natText size} overflows the total register size"
  | tooManyQubits name total max =>
    s!"register '{String.ofList name}' brings the program to {natText total} qubits, " ++
      s!"more than the configured maximum of {natText max}"

end StatementFault

/-- Whether a text is an identifier: a letter, then letters, digits and underscores. -/
def isName : Text → Bool
  | [] => false
  | c :: s => c.isAlpha && s.all fun d => d.isAlphanum || d == '_'

/-- A name with an optional index, if the name is an identifier. -/
def named (name : Text) (index : Option Nat) : Except StatementFault (Text × Option Nat) :=
  if isName name then .ok (name, index) else .error (.badName name)

/-- Reads `name` or `name[index]`. -/
def readOperand (operand : Text) : Except StatementFault (Text × Option Nat) :=
  match Text.cut? ['['] operand with
  | none => named (Text.trim operand) none
  | some (name, tail) =>
    match Text.withoutLast? ']' tail with
    | none => .error (.missingBracket operand)
    | some index =>
      match Literal.readSize (Text.trim index) with
      | none => .error (.badIndex index operand)
      | some i => named (Text.trim name) (some i)

/-- Consecutive flat indices. -/
structure Span where
  start : Nat
  length : Nat
  deriving DecidableEq, Repr

namespace Span

def toList (s : Span) : List Nat := List.range' s.start s.length

/-- The `i`-th index of a span; a span of one index repeats it. -/
def spread (s : Span) (i : Nat) : Nat := if s.length = 1 then s.start else s.start + i

end Span

/-- A declared register: `size` flat indices from `offset` on. -/
structure Register where
  name : Text
  offset : Nat
  size : Nat
  deriving DecidableEq, Repr

namespace Register

/-- The first flat index after the register. -/
def stop (r : Register) : Nat := r.offset + r.size

/-- The number of flat indices that the registers of a table take. -/
def total (registers : List Register) : Nat := (registers.getLast?.map stop).getD 0

/-- The flat indices an operand stands for. -/
def resolve (kind : RegisterKind) (registers : List Register) (operand : Text) :
    Except StatementFault Span := do
  let (name, index) ← readOperand operand
  match registers.find? (·.name == name) with
  | none => .error (.undeclared kind name)
  | some r =>
    match index with
    | none => .ok ⟨r.offset, r.size⟩
    | some i =>
      if i < r.size then .ok ⟨r.offset + i, 1⟩
      else .error (.indexOutOfRange i kind name r.size)

/--
The register that a declaration adds at `offset`, beside the registers `known`. Its end
must stay below `Literal.sizeLimit`.
-/
def declare (known : List Register) (offset : Nat) (operand : Text) :
    Except StatementFault Register := do
  let (name, index) ← readOperand operand
  match index with
  | none => .error (.missingSize name)
  | some size =>
    if size = 0 then .error (.emptyRegister name)
    else if known.any (·.name == name) then .error (.declaredTwice name)
    else if offset + size < Literal.sizeLimit then .ok ⟨name, offset, size⟩
    else .error (.sizeOverflow name size)

end Register

end QubitTrace.Program
